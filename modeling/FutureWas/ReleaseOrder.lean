import FutureWas.Model.MigrationFiles
import FutureWas.Migrations

/-!
# The order of the version directories

`listVersionDirs` sorts names as texts. Names whose first components have one length are
ordered by their three numbers; across lengths the text decides.
-/

set_option autoImplicit false

namespace FutureWas.Migrations

open Collections Pattern

structure IsVersion (v : String) (major minor patch : List Char) : Prop where
  parts : v.toList = major ++ '.' :: minor ++ '.' :: patch
  major_ne : major ≠ []
  minor_length : minor.length = 2
  patch_length : patch.length = 2
  isDigit : ∀ c ∈ major ++ minor ++ patch, c.isDigit = true

theorem matchString_iff (p : RegularExpression Char) (s : String) :
    matchString p s = true ↔ s.toList ∈ p.matches' :=
  RegularExpression.rmatch_iff_matches' p s.toList

theorem exists_isVersion {v : String} (h : matchString versionPattern v = true) :
    ∃ major minor patch, IsVersion v major minor patch := by
  rw [matchString_iff, versionPattern, mem_mul] at h
  obtain ⟨major, rest, hmajor, hrest, hv⟩ := h
  obtain ⟨dot, rest', hdot, hrest', rfl⟩ := mem_mul.mp hrest
  obtain ⟨minor, rest'', hminor, hrest'', rfl⟩ := mem_mul.mp hrest'
  obtain ⟨dot', patch, hdot', hpatch, rfl⟩ := mem_mul.mp hrest''
  obtain ⟨hne, hmajor⟩ := mem_plus.mp hmajor
  obtain ⟨hminorlen, hminor⟩ := (mem_pow 2).mp hminor
  obtain ⟨hpatchlen, hpatch⟩ := (mem_pow 2).mp hpatch
  rw [mem_char.mp hdot, mem_char.mp hdot'] at hv
  refine ⟨major, minor, patch, by simpa using hv, hne, hminorlen, hpatchlen, ?_⟩
  intro c hc
  rw [List.mem_append, List.mem_append] at hc
  obtain (hc | hc) | hc := hc
  · exact mem_digits.mp (hmajor c hc)
  · exact mem_digits.mp (hminor c hc)
  · exact mem_digits.mp (hpatch c hc)

theorem ne_dot_of_isDigit {cs : List Char} (h : ∀ c ∈ cs, c.isDigit = true) : '.' ∉ cs :=
  fun hdot => absurd (h '.' hdot) (by decide)

theorem IsVersion.splitOn {v : String} {major minor patch : List Char}
    (h : IsVersion v major minor patch) : v.toList.splitOn '.' = [major, minor, patch] := by
  have hdot : '.' ∉ major ++ minor ++ patch := ne_dot_of_isDigit h.isDigit
  simp only [List.mem_append, not_or] at hdot
  have hsplit : (['.'].intercalate [major, minor, patch]).splitOn '.' = [major, minor, patch] :=
    List.splitOn_intercalate '.' (by simp [hdot]) (by simp)
  rw [← hsplit, h.parts]
  simp [List.intercalate]

def release (v : String) : ℕ ×ₗ ℕ ×ₗ ℕ :=
  match v.toList.splitOn '.' with
  | [major, minor, patch] => toLex (decimal major, toLex (decimal minor, decimal patch))
  | _ => toLex (0, toLex (0, 0))

def majorWidth (v : String) : ℕ := v.toList.idxOf '.'

def ReleasedBefore (v w : String) : Prop := majorWidth v = majorWidth w → release v < release w

section

variable {v w : String} {major minor patch : List Char}

theorem IsVersion.release_eq (h : IsVersion v major minor patch) :
    release v = toLex (decimal major, toLex (decimal minor, decimal patch)) := by
  unfold release
  rw [h.splitOn]

theorem IsVersion.majorWidth_eq (h : IsVersion v major minor patch) :
    majorWidth v = major.length := by
  have hdot : '.' ∉ major := by
    apply ne_dot_of_isDigit
    intro c hc
    exact h.isDigit c (by simp [hc])
  unfold majorWidth
  rw [h.parts, List.append_assoc, List.idxOf_append_of_notMem hdot]
  simp

end

theorem lt_iff_release_lt {v w : String} (hv : matchString versionPattern v = true)
    (hw : matchString versionPattern w = true) (hwidth : majorWidth v = majorWidth w) :
    v < w ↔ release v < release w := by
  obtain ⟨major, minor, patch, hv⟩ := exists_isVersion hv
  obtain ⟨major', minor', patch', hw⟩ := exists_isVersion hw
  rw [hv.majorWidth_eq, hw.majorWidth_eq] at hwidth
  have hdigit := hv.isDigit
  have hdigit' := hw.isDigit
  simp only [List.forall_mem_append] at hdigit hdigit'
  obtain ⟨⟨hmajor, hminor⟩, hpatch⟩ := hdigit
  obtain ⟨⟨hmajor', hminor'⟩, hpatch'⟩ := hdigit'
  have hminorlen : minor.length = minor'.length := hv.minor_length.trans hw.minor_length.symm
  have hpatchlen : patch.length = patch'.length := hv.patch_length.trans hw.patch_length.symm
  rw [hv.release_eq, hw.release_eq, String.lt_iff_toList_lt, hv.parts, hw.parts, List.append_assoc,
    List.append_assoc, append_lt_append_iff hwidth, List.cons_append, List.cons_append,
    List.cons_lt_cons_iff, append_lt_append_iff hminorlen, List.cons_lt_cons_iff,
    Prod.Lex.toLex_lt_toLex, Prod.Lex.toLex_lt_toLex, lt_iff_decimal_lt hmajor hmajor' hwidth,
    eq_iff_decimal_eq hmajor hmajor' hwidth, lt_iff_decimal_lt hminor hminor' hminorlen,
    eq_iff_decimal_eq hminor hminor' hminorlen, lt_iff_decimal_lt hpatch hpatch' hpatchlen]
  simp

/-! ## Listing, walking and migrating -/

section

variable {entries : List DirEntry}

theorem mem_listVersionDirs {name : String} :
    name ∈ listVersionDirs entries ↔ ∃ e ∈ entries, e.isDir = true ∧ e.name = name := by
  simp only [listVersionDirs, List.mem_insertionSort, List.mem_map, List.mem_filter, and_assoc]

/-- `fs.ReadDir` lists no name twice, so the sorted names increase. -/
theorem listVersionDirs_ascending (hnames : (entries.map DirEntry.name).Nodup) :
    (listVersionDirs entries).Pairwise (· < ·) := by
  have hsorted : (listVersionDirs entries).Pairwise (· ≤ ·) :=
    List.pairwise_insertionSort (· ≤ ·) _
  have hnodup : (listVersionDirs entries).Nodup := by
    unfold listVersionDirs
    rw [(List.perm_insertionSort _ _).nodup_iff]
    exact hnames.sublist (List.filter_sublist.map _)
  exact (hsorted.and hnodup).imp fun h => lt_of_le_of_ne h.1 h.2

theorem releasedBefore_of_lt
    (hmatch : ∀ name ∈ listVersionDirs entries, matchString versionPattern name = true)
    (hnames : (entries.map DirEntry.name).Nodup) :
    (listVersionDirs entries).Pairwise ReleasedBefore := by
  refine (listVersionDirs_ascending hnames).imp_of_mem ?_
  intro v w hv hw hlt hwidth
  exact (lt_iff_release_lt (hmatch v hv) (hmatch w hw) hwidth).mp hlt

end

/-- Two files of a walk, the first before the second: one directory, a root file first, or
directories in the order `R`. -/
def FileOrder (R : String → String → Prop) (f g : MigrationFile) : Prop :=
  f.version = g.version ∨ f.version = "" ∨ R f.version g.version

theorem walkDirs_pairwise {R : String → String → Prop} {cat : MigrationCategory} {ds : List Dir}
    {files : List MigrationFile} (h : walkDirs cat ds = .ok files)
    (hR : ds.Pairwise fun d e => d.label = "" ∨ R d.label e.label) :
    files.Pairwise (FileOrder R) := by
  induction ds generalizing files with
  | nil =>
    cases h
    exact .nil
  | cons d ds ih =>
    obtain ⟨listed, rest, hlisted, hrest, rfl⟩ := walkDirs_cons_eq_ok h
    obtain ⟨hd, hR⟩ := List.pairwise_cons.mp hR
    have hlabel : ∀ f ∈ listed, f.version = d.label :=
      fun f hf => ((mem_collectSQLFiles hlisted f).mp hf).1
    refine List.pairwise_append.mpr ⟨?_, ih hrest hR, ?_⟩
    · refine List.pairwise_of_forall_mem_list ?_
      intro f hf g hg
      exact Or.inl ((hlabel f hf).trans (hlabel g hg).symm)
    · intro f hf g hg
      obtain ⟨e, he, hlists⟩ := (mem_walkDirs hrest g).mp hg
      rw [FileOrder, hlabel f hf, hlists.1]
      exact Or.inr (hd e he)

structure TakenInOrder (R : String → String → Prop) (cat : MigrationCategory)
    (entries : List DirEntry) : Prop where
  listed : (listVersionDirs entries).Pairwise R
  walked : ∀ t files, t.versions.map Dir.label = listVersionDirs entries →
    walkMigrationFiles cat t = .ok files → files.Pairwise (FileOrder R)
  migrated : ∀ t files g db, t.versions.map Dir.label = listVersionDirs entries →
    walkMigrationFiles cat t = .ok files → ∃ fs : List MigrationFile,
      (migrateUp g cat t db).2.executed = db.executed ++ fs.map .up ∧
        fs.Pairwise (FileOrder R)

theorem takenInOrder {R : String → String → Prop} (cat : MigrationCategory)
    {entries : List DirEntry} (h : (listVersionDirs entries).Pairwise R) :
    TakenInOrder R cat entries := by
  have hwalked : ∀ t files, t.versions.map Dir.label = listVersionDirs entries →
      walkMigrationFiles cat t = .ok files → files.Pairwise (FileOrder R) := by
    intro t files hlabels hwalk
    refine walkDirs_pairwise hwalk (List.pairwise_cons.mpr ⟨?_, ?_⟩)
    · exact fun _ _ => Or.inl t.root_label
    · rw [← hlabels, List.pairwise_map] at h
      exact h.imp Or.inr
  refine ⟨h, hwalked, ?_⟩
  intro t files g db hlabels hwalk
  obtain ⟨fs, hsub, happ, -⟩ := migrateUp_applies g hwalk db
  exact ⟨fs, happ.executed, (hwalked t files hlabels hwalk).sublist hsub⟩

section

variable {entries : List DirEntry}

theorem versions_in_order (cat : MigrationCategory)
    (hnames : (entries.map DirEntry.name).Nodup)
    (hmatch : ∀ name ∈ listVersionDirs entries, matchString versionPattern name = true) :
    TakenInOrder (· < ·) cat entries ∧ TakenInOrder ReleasedBefore cat entries :=
  ⟨takenInOrder cat (listVersionDirs_ascending hnames),
    takenInOrder cat (releasedBefore_of_lt hmatch hnames)⟩

theorem versions_in_order_three :
    TakenInOrder (· < ·) .game [⟨"2.01.02", true⟩, ⟨"2.02.00", true⟩, ⟨"2.10.00", true⟩] ∧
      TakenInOrder ReleasedBefore .game
        [⟨"2.01.02", true⟩, ⟨"2.02.00", true⟩, ⟨"2.10.00", true⟩] :=
  versions_in_order .game (by decide) (by decide +kernel)

/-- Version 9 is taken after version 10. -/
theorem not_released_in_order :
    ¬ ∀ entries : List DirEntry, (entries.map DirEntry.name).Nodup →
      (∀ name ∈ listVersionDirs entries, matchString versionPattern name = true) →
      (listVersionDirs entries).Pairwise fun v w => release v < release w := by
  intro h
  have hpair := h [⟨"10.00.00", true⟩, ⟨"9.00.00", true⟩] (by decide) (by decide +kernel)
  have hlisted : listVersionDirs [⟨"10.00.00", true⟩, ⟨"9.00.00", true⟩] =
      ["10.00.00", "9.00.00"] := by decide +kernel
  rw [hlisted] at hpair
  have hlt : release "10.00.00" < release "9.00.00" :=
    (List.pairwise_cons.mp hpair).1 _ List.mem_cons_self
  exact absurd hlt (by decide +kernel)

end
end FutureWas.Migrations
