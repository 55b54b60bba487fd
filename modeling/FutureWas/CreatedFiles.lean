import FutureWas.MigrationTrees

/-!
# Created migration files

A request that `CreateMigrationFile` accepts gives a path whose last three components are
plain names, and leaves a file there and directories on the way, with names that the patterns of
the admin endpoint accept. The walker lists the file under its timestamp exactly if no SQL file
without a version id was in its way before; what the endpoint accepts stays inside the directory
of a category.
-/

set_option autoImplicit false

namespace FutureWas.Migrations

open Collections Pattern Path

/-! ## Timestamps -/

section

variable (now : KST)

theorem isDigit_timestamp : ∀ c ∈ now.timestamp, c.isDigit = true := by
  simp only [KST.timestamp, List.forall_mem_append]
  exact ⟨⟨⟨⟨⟨isDigit_pad, isDigit_pad⟩, isDigit_pad⟩, isDigit_pad⟩, isDigit_pad⟩, isDigit_pad⟩

variable {now}

theorem length_month : (pad 2 now.month).length = 2 :=
  length_pad (by decide) (by have := now.month_le; omega)

theorem length_day : (pad 2 now.day).length = 2 :=
  length_pad (by decide) (by have := now.day_le; omega)

theorem length_hour : (pad 2 now.hour).length = 2 :=
  length_pad (by decide) (by have := now.hour_lt; omega)

theorem length_minute : (pad 2 now.minute).length = 2 :=
  length_pad (by decide) (by have := now.minute_lt; omega)

theorem length_second : (pad 2 now.second).length = 2 :=
  length_pad (by decide) (by have := now.second_lt; omega)

theorem length_timestamp (hyear : now.year ≤ 9999) : now.timestamp.length = 14 := by
  have hlen : (pad 4 now.year).length = 4 := length_pad (by decide) (by omega)
  simp only [KST.timestamp, List.length_append, hlen, length_month, length_day, length_hour,
    length_minute, length_second]

theorem decimal_timestamp : decimal now.timestamp = now.stamp := by
  simp only [KST.timestamp, KST.stamp, decimal_append, decimal_pad, length_month, length_day,
    length_hour, length_minute, length_second]
  omega

end

/-! ## Names -/

theorem mem_wordChars_of_lower {c : Char} (h : 'a' ≤ c ∧ c ≤ 'z') : c ∈ wordChars := by
  have hbounds : 97 ≤ c.toNat ∧ c.toNat ≤ 122 := h
  obtain ⟨hlow, hhigh⟩ := hbounds
  rw [← Char.ofNat_toNat c]
  interval_cases c.toNat <;> decide

theorem mem_wordChars_of_digit {c : Char} (h : '0' ≤ c ∧ c ≤ '9') : c ∈ wordChars := by
  have hbounds : 48 ≤ c.toNat ∧ c.toNat ≤ 57 := h
  obtain ⟨hlow, hhigh⟩ := hbounds
  rw [← Char.ofNat_toNat c]
  interval_cases c.toNat <;> decide

theorem mem_sanitizeAuthor {lower : Char → Char} {s : String} {c : Char}
    (h : c ∈ sanitizeAuthor lower s) : c ∈ wordChars := by
  obtain ⟨r, -, hr⟩ := List.mem_filterMap.mp h
  unfold sanitizeRune at hr
  split_ifs at hr with hkeep hline
  · cases hr
    exact hkeep.elim mem_wordChars_of_lower mem_wordChars_of_digit
  · cases hr
    decide

theorem matchString_name {s : String} (h : matchString namePattern s = true) :
    s.toList ≠ [] ∧ ∀ c ∈ s.toList, c ∈ wordChars := by
  rw [matchString_iff, namePattern, mem_mul] at h
  obtain ⟨first, rest, hfirst, hrest, hs⟩ := h
  obtain ⟨c, hc, rfl⟩ := mem_oneOf.mp hfirst
  rw [hs]
  refine ⟨by simp, List.forall_mem_cons.mpr ⟨?_, mem_star.mp hrest⟩⟩
  exact List.mem_append_left _ hc

def Contained (c : List Char) : Prop := '/' ∉ c ∧ ¬ ['.', '.'] <:+: c

theorem Contained.plain {c : List Char} (h : Contained c) (hne : c ≠ []) (hdot : c ≠ ['.']) :
    Plain c := by
  refine ⟨h.1, hne, hdot, ?_⟩
  rintro rfl
  exact h.2 List.infix_rfl

theorem not_infix_of_splitOn {x : Char} {s : List Char} (h : [] ∉ s.splitOn x) :
    ¬ [x, x] <:+: s := by
  rintro ⟨u, v, rfl⟩
  have hsplit : (u ++ [x, x] ++ v).splitOn x = u.splitOn x ++ ([] :: v.splitOn x) := by
    have htail : (x :: v).splitOn x = [] :: v.splitOn x := List.splitOn_append_cons_self [] v
    rw [List.append_assoc, ← htail]
    exact List.splitOn_append_cons_self u (x :: v)
  rw [hsplit] at h
  exact h (by simp)

theorem IsVersion.contained {v : String} {major minor patch : List Char}
    (h : IsVersion v major minor patch) : Contained v.toList := by
  refine ⟨?_, not_infix_of_splitOn ?_⟩
  · have hsep : '/' ∉ major ++ minor ++ patch := fun hc => absurd (h.isDigit '/' hc) (by decide)
    simp only [List.mem_append, not_or] at hsep
    rw [h.parts]
    simp [hsep]
  · have hminor : minor ≠ [] := by
      rintro rfl
      exact absurd h.minor_length (by decide)
    have hpatch : patch ≠ [] := by
      rintro rfl
      exact absurd h.patch_length (by decide)
    rw [h.splitOn]
    simp [h.major_ne.symm, hminor.symm, hpatch.symm]

theorem IsVersion.length {v : String} {major minor patch : List Char}
    (h : IsVersion v major minor patch) : 6 ≤ v.toList.length := by
  rw [h.parts]
  simp only [List.length_append, List.length_cons, h.minor_length, h.patch_length]
  omega

/-- The parts of a file name that the endpoint accepts. -/
structure IsFilename (name : String) (ts stem : List Char) : Prop where
  parts : name.toList = ts ++ '_' :: stem ++ ".sql".toList
  ts_length : ts.length = 14
  isDigit : ∀ c ∈ ts, c.isDigit = true
  stem_ne : stem ≠ []
  word : ∀ c ∈ stem, c ∈ wordChars

section

variable {name : String} {ts stem : List Char}

theorem matchString_filename :
    matchString filenameRE name = true ↔ ∃ ts stem, IsFilename name ts stem := by
  rw [matchString_iff, filenameRE, mem_mul]
  constructor
  · rintro ⟨ts, rest, hts, hrest, hname⟩
    obtain ⟨line, rest', hline, hrest', rfl⟩ := mem_mul.mp hrest
    obtain ⟨stem, suffix, hstem, hsuffix, rfl⟩ := mem_mul.mp hrest'
    obtain ⟨hlen, hts⟩ := (mem_pow 14).mp hts
    obtain ⟨hne, hstem⟩ := mem_plus.mp hstem
    rw [mem_char.mp hline, mem_text.mp hsuffix] at hname
    exact ⟨ts, stem, by simpa using hname, hlen, fun c hc => mem_digits.mp (hts c hc), hne, hstem⟩
  · rintro ⟨ts, stem, h⟩
    refine ⟨ts, '_' :: stem ++ ".sql".toList, ?_, ?_, by rw [h.parts, List.append_assoc]⟩
    · exact (mem_pow 14).mpr ⟨h.ts_length, fun c hc => mem_digits.mpr (h.isDigit c hc)⟩
    · refine mem_mul.mpr ⟨['_'], stem ++ ".sql".toList, mem_char.mpr rfl, ?_, rfl⟩
      exact mem_mul.mpr ⟨stem, _, mem_plus.mpr ⟨h.stem_ne, h.word⟩, mem_text.mpr rfl, rfl⟩

namespace IsFilename

theorem contained (h : IsFilename name ts stem) : Contained name.toList := by
  have hts : ∀ c, c.isDigit = false → c ∉ ts := by
    intro c hc hmem
    rw [h.isDigit c hmem] at hc
    cases hc
  have hword : ∀ c, c ∉ wordChars → c ∉ stem := fun c hc hmem => hc (h.word c hmem)
  refine ⟨?_, not_infix_of_splitOn ?_⟩
  · rw [h.parts]
    simp [hts '/' (by decide), hword '/' (by decide)]
  · have hhead : '.' ∉ ts ++ '_' :: stem := by
      simp [hts '.' (by decide), hword '.' (by decide)]
    have hsplit : name.toList.splitOn '.' = [ts ++ '_' :: stem, "sql".toList] := by
      rw [h.parts]
      exact (List.splitOn_append_cons_self_of_not_mem hhead "sql".toList).trans
        (congrArg _ (by decide))
    rw [hsplit]
    simp

theorem isSQL (h : IsFilename name ts stem) : isSQL name = true := by
  rw [Migrations.isSQL, List.isSuffixOf_iff_suffix, h.parts]
  exact List.suffix_append _ _

theorem parseVersionID (h : IsFilename name ts stem) :
    parseVersionID name = some (decimal ts) := by
  have hline : '_' ∉ ts := fun hc => absurd (h.isDigit '_' hc) (by decide)
  have hidx : name.toList.idxOf '_' = 14 := by
    rw [h.parts, List.append_assoc, List.idxOf_append_of_notMem hline, h.ts_length]
    rfl
  have htake : name.toList.take 14 = ts := by
    rw [h.parts, List.append_assoc, ← h.ts_length, List.take_left]
  have hlen : ¬ (14 = name.toList.length ∨ 14 = 0) := by
    rw [h.parts]
    simp only [List.length_append, List.length_cons, h.ts_length]
    omega
  have hdigits : ¬ (ts.length ≠ 14 ∨ ¬ ts.all Char.isDigit = true) := by
    rw [not_or, not_not, not_not]
    exact ⟨h.ts_length, List.all_eq_true.mpr h.isDigit⟩
  have hvalue : ts.foldl (fun v ch => v * 10 + (ch.toNat - '0'.toNat)) 0 = decimal ts := by
    rw [decimal, Nat.ofDigitChars_eq_foldl]
    simp only [Nat.mul_comm]
  unfold Migrations.parseVersionID
  simp only [hidx, htake]
  rw [if_neg hlen, if_neg hdigits, hvalue]

theorem plain (h : IsFilename name ts stem) : Plain name.toList := by
  refine h.contained.plain ?_ ?_ <;> rw [h.parts] <;> intro heq <;>
    · have hlen := congrArg List.length heq
      simp only [List.length_append, List.length_cons, h.ts_length, List.length_nil] at hlen
      omega

end IsFilename
end

theorem IsVersion.plain {v : String} {major minor patch : List Char}
    (h : IsVersion v major minor patch) : Plain v.toList := by
  have hlen := h.length
  refine h.contained.plain ?_ ?_
  · intro heq
    rw [heq] at hlen
    exact absurd hlen (by decide)
  · intro heq
    rw [heq] at hlen
    exact absurd hlen (by decide)

theorem category_plain {category : String} (h : category = "game" ∨ category = "shard") :
    Contained category.toList ∧ Plain category.toList := by
  have hcontained : Contained category.toList := by
    rcases h with rfl | rfl
    · exact ⟨by decide, not_infix_of_splitOn (by decide)⟩
    · exact ⟨by decide, not_infix_of_splitOn (by decide)⟩
  refine ⟨hcontained, hcontained.plain ?_ ?_⟩ <;> rcases h with rfl | rfl <;> decide

/-! ## Creation -/

section

variable {lower : Char → Char} {os : OperatingSystem} {now : KST} {req : CreateRequest}
  {disk written : Disk} {f : CreatedFile}

theorem makeAll_of_mkdirAll {dir : List Char} {made : Disk}
    (h : mkdirAll os disk dir = (none, made)) : disk.makeAll (.of dir) = .ok made := by
  unfold mkdirAll at h
  split at h
  · cases h
  · split at h
    · cases h
    · next hmade =>
      cases h
      exact hmade

theorem write_of_writeFile {path content : List Char}
    (h : writeFile os disk path content = (none, written)) :
    disk.write (.of path) content = some written := by
  unfold writeFile at h
  split at h
  · cases h
  · split at h
    · next hwrite =>
      cases h
      exact hwrite
    · cases h

theorem createMigrationFile_eq_ok
    (h : createMigrationFile lower os now req disk = (.ok f, written)) :
    (req.category = "game" ∨ req.category = "shard") ∧
      matchString versionPattern req.version = true ∧ matchString namePattern req.name = true ∧
      sanitizeAuthor lower req.author ≠ [] ∧
      f.filename = now.timestamp ++ '_' :: sanitizeAuthor lower req.author ++
        '_' :: req.name.toList ++ ".sql".toList ∧
      f.path = join [join [req.baseDir.toList, req.category.toList, req.version.toList],
        f.filename] ∧
      f.content = buildTemplate req.name.toList (sanitizeAuthor lower req.author) now req.upSQL
        req.downSQL ∧
      ∃ made, disk.makeAll
          (.of (join [req.baseDir.toList, req.category.toList, req.version.toList])) = .ok made ∧
        made.write (.of f.path) f.content = some written := by
  unfold createMigrationFile at h
  dsimp only at h
  split_ifs at h with hcat hver hname hauthor
  any_goals cases h
  split at h
  · cases h
  · next made hmade =>
    split_ifs at h
    · cases h
    · split at h
      · cases h
      · next hwrite =>
        cases h
        have hcategory : req.category = "game" ∨ req.category = "shard" := by tauto
        exact ⟨hcategory, hver, hname, hauthor, rfl, rfl, rfl, made, makeAll_of_mkdirAll hmade,
          write_of_writeFile hwrite⟩

/-- The two files write the same pattern. -/
theorem versionRE_eq : versionRE = versionPattern := rfl

/-- The file of an accepted request on the disk after the call, and who recognises it. -/
structure Recognised (now : KST) (req : CreateRequest) (disk written : Disk) (f : CreatedFile) :
    Prop where
  path : f.path = render (isRooted req.baseDir.toList) (components req.baseDir.toList ++
    [req.category.toList, req.version.toList, f.filename])
  contained : ∀ c ∈ [req.category.toList, req.version.toList, f.filename], Contained c
  timestamp : now.timestamp.length = 14 ∧ f.filename.take 14 = now.timestamp
  stored : written.find (.of f.path) = some (.file f.content)
  kept : ∀ p n, p ≠ .of f.path → disk.find p = some n → written.find p = some n
  fresh : ∀ p n, written.find p = some n → disk.find p = some n ∨ p = .of f.path ∨
    n = .directory ∧ p.rooted = (Place.of f.path).rooted ∧ p.stack <:+ (Place.of f.path).stack
  walked : ∀ cat : MigrationCategory, cat.name = req.category →
    ((∃ files, walkDisk cat req.baseDir.toList written = .ok files ∧
        (⟨req.version, String.ofList f.filename, now.stamp⟩ : MigrationFile) ∈ files) ↔
      Numbered disk (categoryAt req.baseDir.toList cat))
  served : adminFilePath req.category req.version (String.ofList f.filename) =
    .ok (req.category.toList ++ '/' :: (req.version.toList ++ ['/']) ++ f.filename)

structure InsideCategory (category version filename : String) (path : List Char) : Prop where
  category_eq : category = "game" ∨ category = "shard"
  version_match : version = "" ∨ matchString versionPattern version = true
  components_eq : path.splitOn '/' =
    category.toList :: (if version = "" then [] else [version.toList]) ++ [filename.toList]
  contained : ∀ c ∈ path.splitOn '/', Contained c ∧ Plain c

theorem isFilename_created (hyear : now.year ≤ 9999)
    (h : createMigrationFile lower os now req disk = (.ok f, written)) :
    ∃ stem, IsFilename (String.ofList f.filename) now.timestamp stem := by
  obtain ⟨-, -, hname, -, hfilename, -⟩ := createMigrationFile_eq_ok h
  refine ⟨sanitizeAuthor lower req.author ++ '_' :: req.name.toList, ?_,
    length_timestamp hyear, isDigit_timestamp now, by simp, ?_⟩
  · rw [String.toList_ofList, hfilename]
    simp
  · intro c hc
    rcases List.mem_append.mp hc with hc | hc
    · exact mem_sanitizeAuthor hc
    · rcases List.mem_cons.mp hc with rfl | hc
      · decide
      · exact (matchString_name hname).2 c hc

theorem of_render (base : List Char) {cs : List (List Char)} (hcs : ∀ c ∈ cs, Plain c)
    (hne : cs ≠ []) : (Place.of (render (isRooted base) (components base ++ cs))).rooted =
        isRooted base ∧
      (Place.of (render (isRooted base) (components base ++ cs))).stack =
        cs.reverse ++ stackOf base := by
  have hreduced := reduced_plain (reduced_stackOf base) hcs
  have hnonempty : cs.reverse ++ stackOf base ≠ [] := by simp [hne]
  have hrev : components base ++ cs = (cs.reverse ++ stackOf base).reverse := by
    rw [List.reverse_append, List.reverse_reverse, components_eq]
  rw [hrev]
  exact ⟨isRooted_render hreduced hnonempty, stackOf_render hreduced hnonempty⟩

structure Placed (req : CreateRequest) (f : CreatedFile) (dir : Place) : Prop where
  path : f.path = render (isRooted req.baseDir.toList) (components req.baseDir.toList ++
    [req.category.toList, req.version.toList, f.filename])
  rooted : (Place.of f.path).rooted = isRooted req.baseDir.toList
  stack : (Place.of f.path).stack = f.filename :: req.version.toList :: req.category.toList ::
    stackOf req.baseDir.toList
  dir_rooted : dir.rooted = isRooted req.baseDir.toList
  dir_stack : dir.stack = req.version.toList :: req.category.toList :: stackOf req.baseDir.toList

theorem placed (hnames : ∀ c ∈ [req.category.toList, req.version.toList], Plain c)
    (hfile : Plain f.filename) (hpath : f.path = join [join [req.baseDir.toList,
      req.category.toList, req.version.toList], f.filename]) :
    Placed req f (.of (join [req.baseDir.toList, req.category.toList, req.version.toList])) := by
  have hall : ∀ c ∈ [req.category.toList, req.version.toList, f.filename], Plain c := by
    intro c hc
    rcases List.mem_append.mp (show c ∈ [req.category.toList, req.version.toList] ++
      [f.filename] from hc) with hc | hc
    · exact hnames c hc
    · rw [List.mem_singleton.mp hc]
      exact hfile
  rw [join_join _ hnames (List.cons_ne_nil _ _) hfile] at hpath
  have hplace := of_render req.baseDir.toList hall (List.cons_ne_nil _ _)
  have hdir := of_render req.baseDir.toList hnames (List.cons_ne_nil _ _)
  rw [join_plain _ hnames (List.cons_ne_nil _ _)]
  refine ⟨hpath, ?_, ?_, hdir.1, hdir.2⟩
  · rw [hpath]
    exact hplace.1
  · rw [hpath]
    exact hplace.2

theorem numbered_iff {root : Place} {made : Disk} {content : List Char} {p dir : Place}
    (hmade : Disk.Extends disk made dir) (hwrite : made.write p content = some written)
    (hvalid : ∀ name, Walked root p name → ∃ vid, parseVersionID name = some vid) :
    Numbered written root ↔ Numbered disk root := by
  constructor
  · intro h q c name hq hwalked hsql
    by_cases heq : q = p
    · exact hvalid name (heq ▸ hwalked)
    · refine h q c name ?_ hwalked hsql
      rw [Disk.find_of_write hwrite, if_neg heq]
      exact hmade.kept q _ hq
  · intro h q c name hq hwalked hsql
    rw [Disk.find_of_write hwrite] at hq
    split_ifs at hq with heq
    · exact hvalid name (heq ▸ hwalked)
    · rcases hmade.fresh q _ hq with hq | ⟨hdir, -⟩
      · exact h q c name hq hwalked hsql
      · cases hdir

theorem walked_iff {cat : MigrationCategory} (hname : cat.name = req.category) {made : Disk}
    {dir : Place} {stem : List Char} (hplaced : Placed req f dir)
    (hfile : IsFilename (String.ofList f.filename) now.timestamp stem)
    (hstored : written.find (.of f.path) = some (.file f.content))
    (hextends : Disk.Extends disk made dir)
    (hwrite : made.write (.of f.path) f.content = some written) :
    (∃ files, walkDisk cat req.baseDir.toList written = .ok files ∧
        (⟨req.version, String.ofList f.filename, now.stamp⟩ : MigrationFile) ∈ files) ↔
      Numbered disk (categoryAt req.baseDir.toList cat) := by
  have hroot : written.find (categoryAt req.baseDir.toList cat) = some .directory := by
    obtain ⟨dir, hdrooted, hdstack, hdir⟩ := Disk.exists_parent hstored hplaced.stack
    obtain ⟨root, hrooted, hstack, hroot⟩ := Disk.exists_parent hdir hdstack
    have heq : root = categoryAt req.baseDir.toList cat := by
      refine Place.ext ?_ ?_
      · rw [hrooted, hdrooted, hplaced.rooted]
        rfl
      · rw [hstack, ← hname]
        rfl
    rw [← heq]
    exact hroot
  have hvalid : ∀ name, Walked (categoryAt req.baseDir.toList cat) (.of f.path) name →
      ∃ vid, parseVersionID name = some vid := by
    rintro name ⟨-, hstack⟩
    have hhead : name.toList = f.filename := by
      rw [hplaced.stack] at hstack
      rcases hstack with hstack | ⟨d, hstack⟩
      · exact (List.cons.inj hstack).1.symm
      · exact (List.cons.inj hstack).1.symm
    rw [← String.ofList_toList (s := name), hhead]
    exact ⟨_, hfile.parseVersionID⟩
  rw [← numbered_iff hextends hwrite hvalid, ← exists_walkDisk_iff hroot]
  constructor
  · rintro ⟨files, hfiles, -⟩
    exact ⟨files, hfiles⟩
  · rintro ⟨files, hfiles⟩
    refine ⟨files, hfiles, mem_walkDisk hfiles hstored hplaced.rooted ?_ hfile.isSQL ?_⟩
    · rw [hplaced.stack, String.toList_ofList, ← hname]
      rfl
    · rw [hfile.parseVersionID, decimal_timestamp]

theorem recognised_of_created (hyear : now.year ≤ 9999)
    (h : createMigrationFile lower os now req disk = (.ok f, written)) :
    Recognised now req disk written f := by
  obtain ⟨stem, hfile⟩ := isFilename_created hyear h
  obtain ⟨hcat, hver, -, -, -, hpath, -, made, hmade, hwrite⟩ := createMigrationFile_eq_ok h
  obtain ⟨major, minor, patch, hversion⟩ := exists_isVersion hver
  have hcontained := hfile.contained
  have hplain := hfile.plain
  have hparts := hfile.parts
  rw [String.toList_ofList] at hcontained hplain hparts
  have hnames : ∀ c ∈ [req.category.toList, req.version.toList], Plain c := by
    simpa using ⟨(category_plain hcat).2, hversion.plain⟩
  have hplaced := placed hnames hplain hpath
  have hextends := Disk.extends_of_makeAll hmade
  have hstored : written.find (.of f.path) = some (.file f.content) := by
    rw [Disk.find_of_write hwrite, if_pos rfl]
  refine ⟨hplaced.path, ?_, ⟨length_timestamp hyear, ?_⟩, hstored, ?_, ?_, ?_, ?_⟩
  · simpa using ⟨(category_plain hcat).1, hversion.contained, hcontained⟩
  · rw [hparts, List.append_assoc, ← length_timestamp hyear, List.take_left]
  · intro p n hne hp
    rw [Disk.find_of_write hwrite, if_neg hne]
    exact hextends.kept p n hp
  · intro p n hp
    rw [Disk.find_of_write hwrite] at hp
    split_ifs at hp with heq
    · exact Or.inr (Or.inl heq)
    · refine (hextends.fresh p n hp).imp_right fun ⟨hdir, hrooted, hsuffix⟩ => Or.inr ⟨hdir, ?_, ?_⟩
      · rw [hrooted, hplaced.dir_rooted, hplaced.rooted]
      · rw [hplaced.dir_stack] at hsuffix
        rw [hplaced.stack]
        exact hsuffix.trans (List.suffix_cons _ _)
  · exact fun cat hname => walked_iff hname hplaced hfile hstored hextends hwrite
  · have hfilename : matchString filenameRE (String.ofList f.filename) = true :=
      matchString_filename.mpr ⟨_, _, hfile⟩
    have hne : req.version ≠ "" := by
      intro hempty
      exact hversion.plain.ne_nil (by rw [hempty]; rfl)
    unfold adminFilePath
    rw [if_neg (by tauto), if_neg (by simpa using fun _ => versionRE_eq ▸ hver),
      if_neg (by simpa using hfilename), if_pos hne, String.toList_ofList]

theorem inside_of_served {category version filename : String} {path : List Char}
    (h : adminFilePath category version filename = .ok path) :
    InsideCategory category version filename path := by
  unfold adminFilePath at h
  split_ifs at h with hcat hver hname hempty
  all_goals
    cases h
    have hcategory : category = "game" ∨ category = "shard" := by tauto
    obtain ⟨hcat, hcatplain⟩ := category_plain hcategory
    obtain ⟨ts, stem, hfile⟩ := matchString_filename.mp hname
    have hlast : filename.toList.splitOn '/' = [filename.toList] :=
      List.splitOn_eq_singleton hfile.contained.1
  · have hmatch : matchString versionPattern version = true := by
      rw [← versionRE_eq]
      by_contra hno
      exact hver ⟨hempty, hno⟩
    obtain ⟨major, minor, patch, hversion⟩ := exists_isVersion hmatch
    have hsplit : (category.toList ++ '/' :: (version.toList ++ ['/']) ++
        filename.toList).splitOn '/' = [category.toList, version.toList, filename.toList] := by
      have hjoined : category.toList ++ '/' :: (version.toList ++ ['/']) ++ filename.toList =
          category.toList ++ '/' :: (version.toList ++ '/' :: filename.toList) := by simp
      rw [hjoined, List.splitOn_append_cons_self_of_not_mem hcat.1,
        List.splitOn_append_cons_self_of_not_mem hversion.contained.1, hlast]
    refine ⟨hcategory, Or.inr hmatch, ?_, ?_⟩
    · rw [hsplit, if_neg hempty]
      rfl
    · rw [hsplit]
      simpa using ⟨⟨hcat, hcatplain⟩, ⟨hversion.contained, hversion.plain⟩,
        hfile.contained, hfile.plain⟩
  · have hsplit : (category.toList ++ ['/'] ++ filename.toList).splitOn '/' =
        [category.toList, filename.toList] := by
      rw [List.append_assoc, List.singleton_append,
        List.splitOn_append_cons_self_of_not_mem hcat.1, hlast]
    refine ⟨hcategory, Or.inl (not_not.mp hempty), ?_, ?_⟩
    · rw [hsplit, if_pos (not_not.mp hempty)]
      rfl
    · rw [hsplit]
      simpa using ⟨⟨hcat, hcatplain⟩, hfile.contained, hfile.plain⟩

end

theorem created_recognised {now : KST} (hyear : now.year ≤ 9999) :
    (∀ lower os req disk f written,
      createMigrationFile lower os now req disk = (.ok f, written) →
        Recognised now req disk written f) ∧
    ∀ category version filename path, adminFilePath category version filename = .ok path →
      InsideCategory category version filename path :=
  ⟨fun _ _ _ _ _ _ h => recognised_of_created hyear h, fun _ _ _ _ h => inside_of_served h⟩

/-! ## A file in 2026 -/

def may20 : KST := ⟨2026, 5, 20, 14, 30, 12, by decide, by decide, by decide, by decide, by decide⟩

def quietSystem : OperatingSystem := ⟨fun _ _ => none, fun _ _ => none, fun _ _ => none⟩

def diskOf (dir name : String) : Disk :=
  match Disk.empty.makeAll (.of dir.toList) with
  | .error _ => .empty
  | .ok made => (made.write (.of (join [dir.toList, name.toList])) []).getD made

def lastSeenRequest : CreateRequest where
  category := "game"
  version := "2.01.02"
  name := "add_account_last_seen"
  author := "Mega-7 /.."
  baseDir := "sql//migrations/"
  upSQL := ""
  downSQL := ""

def lastSeenFile : CreatedFile where
  filename := "20260520143012_mega_7_add_account_last_seen.sql".toList
  path := "sql/migrations/game/2.01.02/20260520143012_mega_7_add_account_last_seen.sql".toList
  content := buildTemplate "add_account_last_seen".toList "mega_7".toList may20 "" ""

def lastSeenDisk (disk : Disk) : Disk :=
  (createMigrationFile Char.toLower quietSystem may20 lastSeenRequest disk).2

theorem create_lastSeen {disk : Disk}
    (h : (createMigrationFile Char.toLower quietSystem may20 lastSeenRequest disk).1 =
      .ok lastSeenFile) :
    createMigrationFile Char.toLower quietSystem may20 lastSeenRequest disk =
      (.ok lastSeenFile, lastSeenDisk disk) :=
  Prod.fst_eq_iff.mp h

def initialDisk : Disk :=
  diskOf "sql/migrations/game" "20260101000000_init_initial_schema.sql"

theorem numbered_initialDisk :
    Numbered initialDisk (categoryAt lastSeenRequest.baseDir.toList .game) := by
  have hwalk : walkDisk .game lastSeenRequest.baseDir.toList initialDisk =
      .ok [⟨"", "20260101000000_init_initial_schema.sql", 20260101000000⟩] := by decide +kernel
  exact (exists_walkDisk_iff (by decide +kernel)).mp ⟨_, hwalk⟩

theorem created_recognised_last_seen :
    Recognised may20 lastSeenRequest initialDisk (lastSeenDisk initialDisk) lastSeenFile ∧
      (∃ files, walkDisk .game lastSeenRequest.baseDir.toList (lastSeenDisk initialDisk) =
          .ok files ∧ (⟨"2.01.02", String.ofList lastSeenFile.filename, 20260520143012⟩ :
            MigrationFile) ∈ files) ∧
      InsideCategory "shard" "" "20260101000000_init_initial_schema.sql"
        "shard/20260101000000_init_initial_schema.sql".toList := by
  have hanswer : (createMigrationFile Char.toLower quietSystem may20 lastSeenRequest
      initialDisk).1 = .ok lastSeenFile := by decide +kernel
  have hserved : adminFilePath "shard" "" "20260101000000_init_initial_schema.sql" =
      .ok "shard/20260101000000_init_initial_schema.sql".toList := by decide +kernel
  have hyear : may20.year ≤ 9999 := by decide
  obtain ⟨hcreated, hinside⟩ := created_recognised hyear
  have hrecognised := hcreated _ _ _ _ _ _ (create_lastSeen hanswer)
  exact ⟨hrecognised, (hrecognised.walked .game rfl).mpr numbered_initialDisk,
    hinside _ _ _ _ hserved⟩

def notesDisk : Disk := diskOf "sql/migrations/game/2.01.02" "notes.sql"

/-- Next to a file without a version id the file is created, but not listed. -/
theorem not_always_walked : ¬ ∀ lower os now req disk f written, now.year ≤ 9999 →
    createMigrationFile lower os now req disk = (.ok f, written) →
    ∀ cat : MigrationCategory, cat.name = req.category →
      ∃ files, walkDisk cat req.baseDir.toList written = .ok files ∧
        (⟨req.version, String.ofList f.filename, now.stamp⟩ : MigrationFile) ∈ files := by
  intro h
  have hanswer : (createMigrationFile Char.toLower quietSystem may20 lastSeenRequest
      notesDisk).1 = .ok lastSeenFile := by decide +kernel
  obtain ⟨files, hfiles, -⟩ := h _ _ may20 lastSeenRequest notesDisk lastSeenFile _ (by decide)
    (create_lastSeen hanswer) .game rfl
  have hwalk : (walkDisk .game lastSeenRequest.baseDir.toList (lastSeenDisk notesDisk)).isOk =
      false := by decide +kernel
  rw [hfiles] at hwalk
  cases hwalk

end FutureWas.Migrations
