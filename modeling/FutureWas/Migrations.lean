import FutureWas.Collections.Loops
import FutureWas.Model.Migrations
import Mathlib.Data.List.Nodup

/-!
# What a history of migrator commands leaves behind

The version table is shared by all directories of a category and keyed by the timestamp alone.
`exactlyOnce_iff` says when a history of `MigrateUp` calls runs every file once,
`undoesLast_iff` when `MigrateDown` undoes the file applied last.

Both rest on one lemma for each command that says which files it applies (`Applies`).
-/

set_option autoImplicit false

namespace FutureWas.Migrations

open Collections

/-! ## The files of a tree -/

def Dir.Lists (d : Dir) (f : MigrationFile) : Prop :=
  f.version = d.label ∧ f.filename ∈ d.names ∧ isSQL f.filename = true ∧
    parseVersionID f.filename = some f.versionID

def Dir.Named (d : Dir) : Prop :=
  ∀ name ∈ d.names, isSQL name = true → ∃ vid, parseVersionID name = some vid

theorem migrationFile_eq_ok {path label name : String} {f : MigrationFile} :
    migrationFile path label name = .ok f ↔
      f.version = label ∧ f.filename = name ∧ parseVersionID name = some f.versionID := by
  unfold migrationFile
  cases hvid : parseVersionID name with
  | none => simp
  | some vid =>
    simp only [Except.ok.injEq, Option.some.injEq]
    constructor
    · intro h
      subst h
      exact ⟨rfl, rfl, rfl⟩
    · intro h
      obtain ⟨hlabel, hname, hvid⟩ := h
      rw [hvid, ← hlabel, ← hname]

theorem nodup_of_ascending {names : List String} (h : names.Pairwise (· < ·)) :
    names.Nodup := by
  apply h.imp
  intro a b hlt heq
  subst heq
  exact String.lt_irrefl a hlt

section

variable {path : String} {d : Dir} {files : List MigrationFile}

theorem collectSQLFiles_eq_ok (h : collectSQLFiles path d = .ok files) :
    ∃ fs, (d.names.filter isSQL).mapM (migrationFile path d.label) = .ok fs ∧
      fs.Perm files := by
  unfold collectSQLFiles at h
  cases hfs : (d.names.filter isSQL).mapM (migrationFile path d.label) with
  | error err => rw [hfs] at h; cases h
  | ok fs =>
    rw [hfs] at h
    cases h
    exact ⟨fs, rfl, (List.perm_insertionSort _ fs).symm⟩

theorem collectSQLFiles_path (h : collectSQLFiles path d = .ok files) (path' : String) :
    collectSQLFiles path' d = .ok files := by
  unfold collectSQLFiles at h ⊢
  cases hfs : (d.names.filter isSQL).mapM (migrationFile path d.label) with
  | error err => rw [hfs] at h; cases h
  | ok fs =>
    have hfs' : (d.names.filter isSQL).mapM (migrationFile path' d.label) = .ok fs :=
      mapM_eq_ok_imp (fun name f hf => migrationFile_eq_ok.mpr (migrationFile_eq_ok.mp hf)) hfs
    rw [hfs] at h
    rw [hfs']
    exact h

theorem mem_collectSQLFiles (h : collectSQLFiles path d = .ok files) (f : MigrationFile) :
    f ∈ files ↔ d.Lists f := by
  obtain ⟨fs, hfs, hperm⟩ := collectSQLFiles_eq_ok h
  rw [← hperm.mem_iff, mem_of_mapM_eq_ok hfs]
  simp only [migrationFile_eq_ok, List.mem_filter]
  constructor
  · intro hf
    obtain ⟨name, ⟨hname, hsql⟩, hlabel, hfile, hvid⟩ := hf
    subst hfile
    exact ⟨hlabel, hname, hsql, hvid⟩
  · intro hf
    obtain ⟨hlabel, hname, hsql, hvid⟩ := hf
    exact ⟨f.filename, ⟨hname, hsql⟩, hlabel, rfl, hvid⟩

theorem collectSQLFiles_nodup (h : collectSQLFiles path d = .ok files) : files.Nodup := by
  obtain ⟨fs, hfs, hperm⟩ := collectSQLFiles_eq_ok h
  have hnames : fs.map MigrationFile.filename = d.names.filter isSQL :=
    map_of_mapM_eq_ok (fun name f hf => (migrationFile_eq_ok.mp hf).2.1) hfs
  have hnodup : (d.names.filter isSQL).Nodup := (nodup_of_ascending d.sorted).filter _
  rw [← hnames] at hnodup
  exact hperm.nodup_iff.mp hnodup.of_map

theorem exists_collectSQLFiles : (∃ files, collectSQLFiles path d = .ok files) ↔ d.Named := by
  have hmapM : (∃ files, collectSQLFiles path d = .ok files) ↔
      ∃ fs, (d.names.filter isSQL).mapM (migrationFile path d.label) = .ok fs := by
    constructor
    · intro h
      obtain ⟨files, hfiles⟩ := h
      obtain ⟨fs, hfs, -⟩ := collectSQLFiles_eq_ok hfiles
      exact ⟨fs, hfs⟩
    · intro h
      obtain ⟨fs, hfs⟩ := h
      refine ⟨fs.insertionSort fun f g => f.versionID ≤ g.versionID, ?_⟩
      unfold collectSQLFiles
      rw [hfs]
      rfl
  rw [hmapM, exists_mapM_eq_ok]
  have hfile : ∀ name, (∃ f, migrationFile path d.label name = .ok f) ↔
      ∃ vid, parseVersionID name = some vid := by
    intro name
    simp only [migrationFile_eq_ok]
    constructor
    · intro h
      obtain ⟨f, -, -, hvid⟩ := h
      exact ⟨f.versionID, hvid⟩
    · intro h
      obtain ⟨vid, hvid⟩ := h
      exact ⟨⟨d.label, name, vid⟩, rfl, rfl, hvid⟩
  simp only [hfile, List.mem_filter, and_imp, Dir.Named]

end

section

variable {cat : MigrationCategory} {d : Dir} {ds : List Dir} {files : List MigrationFile}

theorem walkDirs_cons_eq_ok (h : walkDirs cat (d :: ds) = .ok files) :
    ∃ fs rest, collectSQLFiles (dirPath cat d) d = .ok fs ∧ walkDirs cat ds = .ok rest ∧
      files = fs ++ rest := by
  simp only [walkDirs] at h
  cases hfs : collectSQLFiles (dirPath cat d) d with
  | error err => rw [hfs] at h; cases h
  | ok fs =>
    cases hrest : walkDirs cat ds with
    | error err => rw [hfs, hrest] at h; cases h
    | ok rest =>
      rw [hfs, hrest] at h
      cases h
      exact ⟨fs, rest, rfl, rfl, rfl⟩

theorem mem_walkDirs (h : walkDirs cat ds = .ok files) (f : MigrationFile) :
    f ∈ files ↔ ∃ d ∈ ds, d.Lists f := by
  induction ds generalizing files with
  | nil => cases h; simp
  | cons d ds ih =>
    obtain ⟨fs, rest, hfs, hrest, rfl⟩ := walkDirs_cons_eq_ok h
    simp only [List.mem_append, mem_collectSQLFiles hfs, ih hrest, List.mem_cons,
      exists_eq_or_imp]

theorem exists_walkDirs : (∃ files, walkDirs cat ds = .ok files) ↔ ∀ d ∈ ds, d.Named := by
  induction ds with
  | nil => exact ⟨by simp, fun _ => ⟨[], rfl⟩⟩
  | cons d ds ih =>
    rw [List.forall_mem_cons, ← ih]
    constructor
    · intro h
      obtain ⟨files, hfiles⟩ := h
      obtain ⟨fs, rest, hfs, hrest, -⟩ := walkDirs_cons_eq_ok hfiles
      exact ⟨exists_collectSQLFiles.mp ⟨fs, hfs⟩, rest, hrest⟩
    · intro h
      obtain ⟨hnamed, rest, hrest⟩ := h
      obtain ⟨fs, hfs⟩ := exists_collectSQLFiles.mpr hnamed
      refine ⟨fs ++ rest, ?_⟩
      simp only [walkDirs]
      rw [hfs, hrest]
      rfl

theorem walkDirs_nodup (hlabels : (ds.map Dir.label).Nodup) (h : walkDirs cat ds = .ok files) :
    files.Nodup := by
  induction ds generalizing files with
  | nil => cases h; exact List.nodup_nil
  | cons d ds ih =>
    obtain ⟨fs, rest, hfs, hrest, rfl⟩ := walkDirs_cons_eq_ok h
    obtain ⟨hlabel, hlabels⟩ := List.nodup_cons.mp hlabels
    refine (collectSQLFiles_nodup hfs).append (ih hlabels hrest) ?_
    intro f hf hrestf
    obtain ⟨d', hd', hlists⟩ := (mem_walkDirs hrest f).mp hrestf
    have hsame : d.label = d'.label := by
      rw [← ((mem_collectSQLFiles hfs f).mp hf).1, ← hlists.1]
    exact hlabel (hsame ▸ List.mem_map_of_mem hd')

end

def Tree.Within (t t' : Tree) : Prop :=
  ∀ d ∈ t.dirs, ∃ d' ∈ t'.dirs, d'.label = d.label ∧ ∀ name ∈ d.names, name ∈ d'.names

theorem walk_of_within {cat : MigrationCategory} {t t' : Tree} {files : List MigrationFile}
    (hwithin : t.Within t') (h : walkMigrationFiles cat t' = .ok files) :
    ∃ listed, walkMigrationFiles cat t = .ok listed ∧ ∀ f ∈ listed, f ∈ files := by
  have hnamed : ∀ d ∈ t.dirs, d.Named := by
    intro d hd name hname hsql
    obtain ⟨d', hd', -, hnames⟩ := hwithin d hd
    exact exists_walkDirs.mp ⟨files, h⟩ d' hd' name (hnames name hname) hsql
  obtain ⟨listed, hlisted⟩ := exists_walkDirs.mpr hnamed
  refine ⟨listed, hlisted, ?_⟩
  intro f hf
  obtain ⟨d, hd, hlabel, hname, hfile⟩ := (mem_walkDirs hlisted f).mp hf
  obtain ⟨d', hd', hsame, hnames⟩ := hwithin d hd
  exact (mem_walkDirs h f).mpr ⟨d', hd', hlabel.trans hsame.symm, hnames _ hname, hfile⟩

/-! ## What a command applies -/

/-- Between the two states the Up parts of `fs` have run, each recorded for the first time. -/
structure Applies (db : Database) (fs : List MigrationFile) (db' : Database) : Prop where
  rows : db'.rows = db.rows ++ fs.map rowOf
  executed : db'.executed = db.executed ++ fs.map .up
  nodup : (fs.map MigrationFile.versionID).Nodup
  fresh : ∀ f ∈ fs, f.versionID ∉ db.recorded

namespace Applies

variable {db db' db'' : Database} {fs gs : List MigrationFile}

theorem refl (db : Database) : Applies db [] db := ⟨by simp, by simp, by simp, by simp⟩

theorem recorded (h : Applies db fs db') :
    db'.recorded = db.recorded ++ fs.map MigrationFile.versionID := by
  simp only [Database.recorded, h.rows, List.map_append, List.map_map]
  rfl

theorem ups (h : Applies db fs db') : db'.ups = db.ups ++ fs := by
  simp only [Database.ups, h.executed, List.filterMap_append, List.filterMap_map]
  congr 1
  exact List.filterMap_some

theorem trans (h : Applies db fs db') (h' : Applies db' gs db'') :
    Applies db (fs ++ gs) db'' := by
  have hfresh : ∀ f ∈ gs, f.versionID ∉ db.recorded ∧
      f.versionID ∉ fs.map MigrationFile.versionID := by
    intro f hf
    have hnot := h'.fresh f hf
    rw [h.recorded, List.mem_append] at hnot
    exact not_or.mp hnot
  refine ⟨?_, ?_, ?_, ?_⟩
  · rw [h'.rows, h.rows, List.map_append, List.append_assoc]
  · rw [h'.executed, h.executed, List.map_append, List.append_assoc]
  · rw [List.map_append]
    refine h.nodup.append h'.nodup ?_
    intro v hv hv'
    obtain ⟨f, hf, rfl⟩ := List.mem_map.mp hv'
    exact (hfresh f hf).2 hv
  · intro f hf
    rcases List.mem_append.mp hf with hf | hf
    · exact h.fresh f hf
    · exact (hfresh f hf).1

end Applies

def Settled (files : List MigrationFile) (db : Database) : Prop :=
  ∀ f ∈ files, 0 < f.versionID ∧ f.versionID ∈ db.recorded

theorem Settled.applies {files fs : List MigrationFile} {db db' : Database}
    (h : Settled files db) (happ : Applies db fs db') : Settled files db' := by
  intro f hf
  rw [happ.recorded]
  exact ⟨(h f hf).1, List.mem_append_left _ (h f hf).2⟩

theorem applies_apply {db : Database} {files fs : List MigrationFile} (hacc : Accepts files)
    (hfs : fs.Sublist (db.pending files)) : Applies db fs (db.apply fs) := by
  refine ⟨rfl, rfl, ?_, ?_⟩
  · exact hacc.1.sublist ((hfs.trans List.filter_sublist).map _)
  · intro f hf
    exact of_decide_eq_true (List.mem_filter.mp (hfs.subset hf)).2

section

variable (g : Goose) {cat : MigrationCategory} {files : List MigrationFile}

theorem up_applies {path : String} {d : Dir} (h : collectSQLFiles path d = .ok files)
    (db : Database) :
    ∃ fs, fs.Sublist files ∧ Applies db fs (g.up d db).2 ∧
      ((g.up d db).1 = none → Settled files (g.up d db).2) := by
  have hspec := g.up_spec db h
  generalize g.up d db = r at hspec ⊢
  cases hspec with
  | refused err => exact ⟨[], List.nil_sublist _, .refl db, by simp⟩
  | failed err fs hacc hfs =>
    exact ⟨fs, hfs.sublist.trans List.filter_sublist, applies_apply hacc hfs.sublist, by simp⟩
  | done hacc =>
    have happ := applies_apply hacc (List.Sublist.refl (db.pending files))
    refine ⟨db.pending files, List.filter_sublist, happ, fun _ f hf => ⟨hacc.2 f hf, ?_⟩⟩
    rw [happ.recorded, List.mem_append]
    by_cases hrec : f.versionID ∈ db.recorded
    · exact Or.inl hrec
    · have hpending : f ∈ db.pending files := List.mem_filter.mpr ⟨hf, decide_eq_true hrec⟩
      exact Or.inr (List.mem_map_of_mem hpending)

theorem upVersions_applies {ds : List Dir} (h : walkDirs cat ds = .ok files) (n : ℕ)
    (db : Database) :
    ∃ fs, fs.Sublist files ∧ Applies db fs (upVersions g cat ds n db).2 ∧
      ((upVersions g cat ds n db).1.2 = none → Settled files (upVersions g cat ds n db).2) := by
  induction ds generalizing files n db with
  | nil =>
    cases h
    exact ⟨[], List.nil_sublist _, .refl db, fun _ f hf => absurd hf List.not_mem_nil⟩
  | cons d ds ih =>
    obtain ⟨listed, rest, hlisted, hrest, rfl⟩ := walkDirs_cons_eq_ok h
    obtain ⟨fs, hfs, happ, hsettled⟩ := up_applies g hlisted db
    simp only [upVersions]
    generalize g.up d db = r at happ hsettled ⊢
    obtain ⟨err | _, db₁⟩ := r
    · obtain ⟨gs, hgs, happ', hsettled'⟩ := ih hrest (n + 1) db₁
      refine ⟨fs ++ gs, hfs.append hgs, happ.trans happ', ?_⟩
      intro hok f hf
      rcases List.mem_append.mp hf with hf | hf
      · exact (hsettled rfl).applies happ' f hf
      · exact hsettled' hok f hf
    · exact ⟨fs, hfs.trans (List.sublist_append_left _ _), happ, by simp⟩

theorem collect_of_not_hasRootSQL {path : String} {t : Tree} (hroot : ¬ hasRootSQL t = true)
    (h : collectSQLFiles path t.root = .ok files) : files = [] := by
  refine List.eq_nil_iff_forall_not_mem.mpr fun f hf => hroot ?_
  obtain ⟨-, hname, hsql, -⟩ := (mem_collectSQLFiles h f).mp hf
  exact List.any_eq_true.mpr ⟨f.filename, hname, hsql⟩

theorem migrateUp_applies {t : Tree} (h : walkMigrationFiles cat t = .ok files)
    (db : Database) :
    ∃ fs, fs.Sublist files ∧ Applies db fs (migrateUp g cat t db).2 ∧
      ((migrateUp g cat t db).1.2 = none → Settled files (migrateUp g cat t db).2) := by
  obtain ⟨listed, rest, hlisted, hrest, rfl⟩ := walkDirs_cons_eq_ok h
  unfold migrateUp
  split_ifs with hroot
  · obtain ⟨fs, hfs, happ, hsettled⟩ := up_applies g hlisted db
    generalize g.up t.root db = r at happ hsettled ⊢
    obtain ⟨err | _, db₁⟩ := r
    · obtain ⟨gs, hgs, happ', hsettled'⟩ := upVersions_applies g hrest 1 db₁
      refine ⟨fs ++ gs, hfs.append hgs, happ.trans happ', ?_⟩
      intro hok f hf
      rcases List.mem_append.mp hf with hf | hf
      · exact (hsettled rfl).applies happ' f hf
      · exact hsettled' hok f hf
    · exact ⟨fs, hfs.trans (List.sublist_append_left _ _), happ, by simp⟩
  · rw [collect_of_not_hasRootSQL hroot hlisted, List.nil_append]
    exact upVersions_applies g hrest 0 db

end

/-! ## Histories of `MigrateUp` -/

structure UpCall where
  goose : Goose
  tree : Tree

def Grows (h : List UpCall) : Prop := h.Pairwise fun a b => a.tree.Within b.tree

section

variable (cat : MigrationCategory)

def runUps (h : List UpCall) : Database :=
  h.foldl (fun db call => (migrateUp call.goose cat call.tree db).2) .empty

/-- Every file of `t` has run once, every call has run files in the order of its walk, and
the status of `t` names only files that have run. -/
structure ExactlyOnce (h : List UpCall) (t : Tree) (files : List MigrationFile) : Prop where
  once : ∀ f ∈ files, (runUps cat h).ups.count f = 1
  ordered : ∀ before call after, h = before ++ call :: after →
    ∃ listed, ∃ fs : List MigrationFile,
      walkMigrationFiles cat call.tree = .ok listed ∧ fs.Sublist listed ∧
      (runUps cat (before ++ [call])).executed = (runUps cat before).executed ++ fs.map .up
  status : ∀ st, status cat t (runUps cat h) = .ok st → ∀ s ∈ st, s.applied = true →
    ⟨s.version, s.filename, s.versionID⟩ ∈ (runUps cat h).ups

variable {cat}

theorem runUps_concat (h : List UpCall) (call : UpCall) :
    runUps cat (h ++ [call]) = (migrateUp call.goose cat call.tree (runUps cat h)).2 := by
  simp [runUps]

theorem runUps_applies {h : List UpCall} {files : List MigrationFile}
    (hlisted : ∀ call ∈ h, ∃ listed, walkMigrationFiles cat call.tree = .ok listed ∧
      ∀ f ∈ listed, f ∈ files) :
    ∃ fs, Applies .empty fs (runUps cat h) ∧ ∀ f ∈ fs, f ∈ files := by
  induction h using List.reverseRecOn with
  | nil => exact ⟨[], .refl _, by simp⟩
  | append_singleton h call ih =>
    obtain ⟨fs, happ, hfs⟩ := ih fun c hc => hlisted c (List.mem_append_left _ hc)
    obtain ⟨listed, hwalk, hin⟩ := hlisted call (List.mem_append_right _ List.mem_cons_self)
    obtain ⟨gs, hgs, happ', -⟩ := migrateUp_applies call.goose hwalk (runUps cat h)
    refine ⟨fs ++ gs, ?_, ?_⟩
    · rw [runUps_concat]
      exact happ.trans happ'
    · intro f hf
      rcases List.mem_append.mp hf with hf | hf
      · exact hfs f hf
      · exact hin f (hgs.subset hf)

theorem status_eq_ok {t : Tree} {db : Database} {files : List MigrationFile}
    (hwalk : walkMigrationFiles cat t = .ok files) :
    status cat t db = .ok (files.map fun f =>
      ⟨f.version, f.filename, f.versionID, f.versionID ∈ loadAppliedVersionIDs db⟩) := by
  unfold status
  rw [hwalk]
  rfl

/-- A history on a growing tree whose last call returns nil has run every file exactly once
if and only if no two files of the tree share a version id. -/
theorem exactlyOnce_iff {before : List UpCall} {last : UpCall} {files : List MigrationFile}
    (hgrows : Grows (before ++ [last]))
    (hwalk : walkMigrationFiles cat last.tree = .ok files)
    (hnil : (migrateUp last.goose cat last.tree (runUps cat before)).1.2 = none) :
    ExactlyOnce cat (before ++ [last]) last.tree files ↔
      ∀ f ∈ files, ∀ g ∈ files, f.versionID = g.versionID → f = g := by
  have hlisted : ∀ call ∈ before ++ [last],
      ∃ listed, walkMigrationFiles cat call.tree = .ok listed ∧ ∀ f ∈ listed, f ∈ files := by
    intro call hcall
    rcases List.mem_append.mp hcall with hbefore | hlast
    · exact walk_of_within ((List.pairwise_append.mp hgrows).2.2 call hbefore last
        List.mem_cons_self) hwalk
    · rw [List.mem_singleton.mp hlast]
      exact ⟨files, hwalk, fun f hf => hf⟩
  obtain ⟨fs, happ, hfs⟩ := runUps_applies hlisted
  have hups : (runUps cat (before ++ [last])).ups = fs := happ.ups
  have hsettled : Settled files (runUps cat (before ++ [last])) := by
    obtain ⟨-, -, -, hsettled⟩ := migrateUp_applies last.goose hwalk (runUps cat before)
    rw [runUps_concat]
    exact hsettled hnil
  have hinj : ∀ f ∈ fs, ∀ g ∈ fs, f.versionID = g.versionID → f = g :=
    List.inj_on_of_nodup_map happ.nodup
  constructor
  · intro h f hf g hg
    have hmem : ∀ f ∈ files, f ∈ fs := by
      intro f hf
      have hcount := h.once f hf
      rw [hups] at hcount
      exact List.count_pos_iff.mp (by omega)
    exact hinj f (hmem f hf) g (hmem g hg)
  · intro hdistinct
    -- A recorded version id belongs to a file that has run, and to no other file.
    have hran : ∀ f ∈ files, f ∈ fs := by
      intro f hf
      obtain ⟨hpos, hrec⟩ := hsettled f hf
      rw [happ.recorded] at hrec
      rcases List.mem_append.mp hrec with hzero | hrec
      · have hzero : f.versionID = 0 := List.mem_singleton.mp hzero
        omega
      · obtain ⟨g, hg, hsame⟩ := List.mem_map.mp hrec
        rwa [← hdistinct g (hfs g hg) f hf hsame]
    refine ⟨?_, ?_, ?_⟩
    · intro f hf
      rw [hups]
      exact List.count_eq_one_of_mem happ.nodup.of_map (hran f hf)
    · intro h₁ call h₂ hsplit
      obtain ⟨listed, hcall, -⟩ := hlisted call (by rw [hsplit]; simp)
      obtain ⟨gs, hgs, happ', -⟩ := migrateUp_applies call.goose hcall (runUps cat h₁)
      refine ⟨listed, gs, hcall, hgs, ?_⟩
      rw [runUps_concat]
      exact happ'.executed
    · intro st hst s hs _
      rw [status_eq_ok hwalk] at hst
      cases hst
      obtain ⟨f, hf, rfl⟩ := List.mem_map.mp hs
      rw [hups]
      exact hran f hf

end

/-! ## Histories of all commands -/

section

variable (cat : MigrationCategory) (t : Tree)

/-- The databases that successful commands on one tree reach. -/
inductive Reached : Database → Prop
  | empty : Reached .empty
  | up {db db' n} (g : Goose) : Reached db → migrateUp g cat t db = ((n, none), db') →
      Reached db'
  | upByOne {db db'} (g : Goose) : Reached db → migrateUpByOne g cat t db = (none, db') →
      Reached db'
  | baseline {db db' n} : Reached db → baseline cat t db = ((n, none), db') → Reached db'
  | down {db db'} (g : Goose) : Reached db → migrateDown g t db = (none, db') → Reached db'

end

structure Consistent (files : List MigrationFile) (db : Database) : Prop where
  rows : db.rows = initialRow :: db.applied.map rowOf
  nodup : db.applied.Nodup
  listed : ∀ f ∈ db.applied, f ∈ files ∧ 0 < f.versionID

namespace Consistent

variable {files : List MigrationFile} {db : Database}

theorem recorded (h : Consistent files db) :
    db.recorded = 0 :: db.applied.map MigrationFile.versionID := by
  unfold Database.recorded
  rw [h.rows, List.map_cons, List.map_map]
  rfl

theorem append {fs : List MigrationFile} {db' : Database} (h : Consistent files db)
    (hrows : db'.rows = db.rows ++ fs.map rowOf) (hnodup : fs.Nodup)
    (hfs : ∀ f ∈ fs, f ∈ files ∧ f.versionID ∉ db.recorded) : Consistent files db' := by
  have happlied : db'.applied = db.applied ++ fs := by
    unfold Database.applied
    rw [hrows, List.filterMap_append, List.filterMap_map]
    congr 1
    exact List.filterMap_some
  refine ⟨?_, ?_, ?_⟩
  · rw [happlied, hrows, h.rows, List.map_append, List.cons_append]
  · rw [happlied]
    refine h.nodup.append hnodup ?_
    intro f hf hf'
    apply (hfs f hf').2
    rw [h.recorded]
    exact List.mem_cons_of_mem _ (List.mem_map_of_mem hf)
  · intro f hf
    rw [happlied] at hf
    rcases List.mem_append.mp hf with hf | hf
    · exact h.listed f hf
    · have hnot := (hfs f hf).2
      rw [h.recorded] at hnot
      have hne : f.versionID ≠ 0 := fun hzero => hnot (hzero ▸ List.mem_cons_self)
      exact ⟨(hfs f hf).1, by omega⟩

theorem applies {fs : List MigrationFile} {db' : Database} (h : Consistent files db)
    (happ : Applies db fs db') (hfs : fs.Sublist files) : Consistent files db' :=
  h.append happ.rows happ.nodup.of_map fun f hf => ⟨hfs.subset hf, happ.fresh f hf⟩

theorem rollBack {f : MigrationFile} (h : Consistent files db) (hpos : 0 < f.versionID) :
    Consistent files (db.rollBack f) := by
  have hne : initialRow.versionID ≠ f.versionID := by
    change 0 ≠ f.versionID
    omega
  have hrows : (db.rollBack f).rows =
      initialRow :: (db.applied.filter fun k => k.versionID ≠ f.versionID).map rowOf := by
    change db.rows.filter _ = _
    rw [h.rows, List.filter_cons_of_pos (by simpa using hne), List.filter_map]
    rfl
  have happlied : (db.rollBack f).applied =
      db.applied.filter fun k => k.versionID ≠ f.versionID := by
    unfold Database.applied
    rw [hrows, List.filterMap_cons_none rfl, List.filterMap_map]
    exact List.filterMap_some
  refine ⟨?_, ?_, ?_⟩
  · rw [hrows, happlied]
  · rw [happlied]
    exact h.nodup.filter _
  · intro k hk
    rw [happlied] at hk
    exact h.listed k (List.mem_filter.mp hk).1

theorem loaded {f : MigrationFile} (hf : f ∈ db.applied) :
    loadAppliedVersionIDs db = db.recorded := by
  unfold loadAppliedVersionIDs Database.recorded Database.rows
  cases htable : db.versionTable with
  | none => simp [Database.applied, Database.rows, htable, initialRow] at hf
  | some rows => rfl

theorem mem_loaded (h : Consistent files db) {f : MigrationFile} (hf : f ∈ db.applied) :
    f.versionID ∈ loadAppliedVersionIDs db := by
  rw [loaded hf, h.recorded]
  exact List.mem_cons_of_mem _ (List.mem_map_of_mem hf)

end Consistent

section

variable {cat : MigrationCategory} {t : Tree} {files : List MigrationFile}

theorem collect_of_walk {ds : List Dir} (hwalk : walkDirs cat ds = .ok files) {d : Dir}
    (hd : d ∈ ds) : ∃ listed, collectSQLFiles (dirPath cat d) d = .ok listed ∧
      ∀ f ∈ listed, f ∈ files := by
  obtain ⟨listed, hlisted⟩ := exists_collectSQLFiles.mpr (exists_walkDirs.mp ⟨files, hwalk⟩ d hd)
  refine ⟨listed, hlisted, ?_⟩
  intro f hf
  exact (mem_walkDirs hwalk f).mpr ⟨d, hd, (mem_collectSQLFiles hlisted f).mp hf⟩

theorem upByOne_consistent (g : Goose) {path : String} {d : Dir} {listed : List MigrationFile}
    (hlisted : collectSQLFiles path d = .ok listed) (hin : ∀ f ∈ listed, f ∈ files)
    {db : Database} (h : Consistent files db) : Consistent files (g.upByOne d db).2 := by
  have hspec := g.upByOne_spec db hlisted
  generalize g.upByOne d db = r at hspec ⊢
  cases hspec with
  | refused err => exact h
  | failed err => exact h.append rfl List.nodup_nil (by simp)
  | done f rest hacc hpending =>
    refine h.append rfl (List.nodup_singleton f) ?_
    intro k hk
    rw [List.mem_singleton.mp hk]
    have hf : f ∈ db.pending listed := hpending ▸ List.mem_cons_self
    obtain ⟨hf, hfresh⟩ := List.mem_filter.mp hf
    exact ⟨hin f hf, of_decide_eq_true hfresh⟩

theorem upByOneFrom_consistent (g : Goose) {ds : List Dir} (hwalk : walkDirs cat t.dirs = .ok files)
    (hds : ∀ d ∈ ds, d ∈ t.dirs) {db : Database} (h : Consistent files db) :
    Consistent files (upByOneFrom g cat ds db).2 := by
  induction ds generalizing db with
  | nil => exact h
  | cons d ds ih =>
    obtain ⟨listed, hlisted, hin⟩ := collect_of_walk hwalk (hds d List.mem_cons_self)
    have hstep := upByOne_consistent g hlisted hin h
    simp only [upByOneFrom]
    generalize g.upByOne d db = r at hstep ⊢
    obtain ⟨err | _, db₁⟩ := r
    · exact hstep
    · dsimp only
      split_ifs
      · exact ih (fun d' hd' => hds d' (List.mem_cons_of_mem _ hd')) hstep
      · exact hstep

theorem baseline_consistent (hwalk : walkMigrationFiles cat t = .ok files) {db : Database}
    (h : Consistent files db) : Consistent files (baseline cat t db).2 := by
  unfold baseline
  rw [hwalk]
  have hnodup : files.Nodup := walkDirs_nodup (nodup_of_ascending t.sorted) hwalk
  refine h.append rfl (hnodup.filter _) ?_
  intro f hf
  obtain ⟨hf, hfresh⟩ := List.mem_filter.mp hf
  exact ⟨hf, of_decide_eq_true hfresh⟩

theorem migrateDown_cases (hwalk : walkMigrationFiles cat t = .ok files) (g : Goose)
    {db db' : Database} (h : migrateDown g t db = (none, db')) :
    ∃ d listed r f, t.dirs.find? (holdsVersion (currentVersion db)) = some d ∧
      collectSQLFiles (dirPath cat d) d = .ok listed ∧ Accepts listed ∧
      db.rows.getLast? = some r ∧ f ∈ listed ∧ f.versionID = r.versionID ∧
      db' = db.rollBack f := by
  unfold migrateDown at h
  dsimp only at h
  split_ifs at h with hzero
  · cases h
  · split at h
    · rename_i d hfind
      obtain ⟨listed, hlisted, -⟩ := collect_of_walk hwalk (List.mem_of_find?_eq_some hfind)
      have hspec := g.down_spec db hlisted
      rw [h] at hspec
      cases hspec with
      | done r f hacc hr hf hversion =>
        exact ⟨d, listed, r, f, hfind, hlisted, hacc, hr, hf, hversion, rfl⟩
    · cases h

theorem consistent_of_reached (hwalk : walkMigrationFiles cat t = .ok files) {db : Database}
    (h : Reached cat t db) : Consistent files db := by
  induction h with
  | empty => exact ⟨rfl, List.nodup_nil, by simp [Database.applied, Database.rows,
      Database.empty, initialRow]⟩
  | up g _ hrun ih =>
    obtain ⟨fs, hfs, happ, -⟩ := migrateUp_applies g hwalk _
    rw [hrun] at happ
    exact ih.applies happ hfs
  | upByOne g _ hrun ih =>
    have hstep := upByOneFrom_consistent g hwalk (fun d hd => hd) ih
    rw [migrateUpByOne] at hrun
    rwa [hrun] at hstep
  | baseline _ hrun ih =>
    have hstep := baseline_consistent hwalk ih
    rwa [hrun] at hstep
  | down g _ hrun ih =>
    obtain ⟨d, listed, r, f, -, -, hacc, -, hf, -, rfl⟩ := migrateDown_cases hwalk g hrun
    exact ih.rollBack (hacc.2 f hf)

/-! ## Undoing the last file -/

/-- `MigrateDown` succeeds, runs the Down part of `f`, and changes the status of `f` only. -/
structure UndoesLast (g : Goose) (t : Tree) (files : List MigrationFile) (db : Database)
    (f : MigrationFile) : Prop where
  succeeds : (migrateDown g t db).1 = none
  executed : (migrateDown g t db).2.executed = db.executed ++ [.down f]
  undone : f.versionID ∉ loadAppliedVersionIDs (migrateDown g t db).2
  others : ∀ k ∈ files, k ≠ f → (k.versionID ∈ loadAppliedVersionIDs (migrateDown g t db).2 ↔
    k.versionID ∈ loadAppliedVersionIDs db)

/-- The search for the largest recorded version id ends in the directory of `f`, goose works
with that directory, and no other file has the version id of `f`. -/
def Undoable (cat : MigrationCategory) (t : Tree) (files : List MigrationFile) (db : Database)
    (f : MigrationFile) : Prop :=
  (∃ d listed, t.dirs.find? (holdsVersion (currentVersion db)) = some d ∧
    d.label = f.version ∧ collectSQLFiles (dirPath cat d) d = .ok listed ∧ Accepts listed) ∧
  ∀ k ∈ files, k.versionID = f.versionID → k = f

theorem loaded_rollBack (db : Database) (f : MigrationFile) (v : ℕ) :
    v ∈ loadAppliedVersionIDs (db.rollBack f) ↔ v ∈ db.recorded ∧ v ≠ f.versionID := by
  simp only [loadAppliedVersionIDs, Database.rollBack, Database.recorded, Option.getD_some,
    List.mem_map, List.mem_filter, decide_eq_true_eq, ne_eq]
  constructor
  · intro h
    obtain ⟨r, ⟨hr, hne⟩, rfl⟩ := h
    exact ⟨⟨r, hr, rfl⟩, hne⟩
  · intro h
    obtain ⟨⟨r, hr, rfl⟩, hne⟩ := h
    exact ⟨r, ⟨hr, hne⟩, rfl⟩

theorem le_currentVersion {db : Database} {v : ℕ} (h : v ∈ loadAppliedVersionIDs db) :
    v ≤ currentVersion db := by
  unfold currentVersion
  generalize loadAppliedVersionIDs db = vs at h
  induction vs with
  | nil => cases h
  | cons a vs ih =>
    rw [List.foldr_cons]
    rcases List.mem_cons.mp h with rfl | h
    · exact Nat.le_max_left _ _
    · exact (ih h).trans (Nat.le_max_right _ _)

/-- In every database that successful commands reach, `MigrateDown` undoes the file applied
last if and only if that file is `Undoable`. -/
theorem undoesLast_iff (hwalk : walkMigrationFiles cat t = .ok files) {db : Database}
    (hreached : Reached cat t db) {f : MigrationFile} (hlast : db.applied.getLast? = some f)
    (g : Goose) : UndoesLast g t files db f ↔ Undoable cat t files db f := by
  have hdb := consistent_of_reached hwalk hreached
  have hf : f ∈ db.applied := List.mem_of_getLast? hlast
  obtain ⟨hfiles, hpos⟩ := hdb.listed f hf
  have hrow : db.rows.getLast? = some (rowOf f) := by
    rw [hdb.rows, List.getLast?_cons, List.getLast?_map, hlast]
    rfl
  constructor
  · intro h
    have hrun : migrateDown g t db = (none, (migrateDown g t db).2) := Prod.ext h.succeeds rfl
    obtain ⟨d, listed, r, f', hfind, hlisted, hacc, -, hf', -, hdown⟩ :=
      migrateDown_cases hwalk g hrun
    have hexecuted := h.executed
    rw [hdown] at hexecuted
    obtain rfl : f' = f := by simpa [Database.rollBack] using hexecuted
    refine ⟨⟨d, listed, hfind, ?_, hlisted, hacc⟩, ?_⟩
    · exact ((mem_collectSQLFiles hlisted f').mp hf').1.symm
    · intro k hk hsame
      by_contra hne
      -- A second file of this version id is reported as applied before and not after.
      have hstatus := h.others k hk hne
      rw [hdown, hsame, loaded_rollBack] at hstatus
      exact (hstatus.mpr (hdb.mem_loaded hf)).2 rfl
  · intro h
    obtain ⟨⟨d, listed, hfind, hlabel, hlisted, hacc⟩, halone⟩ := h
    have hd : d ∈ t.dirs := List.mem_of_find?_eq_some hfind
    have hflisted : f ∈ listed := by
      obtain ⟨d', hd', hlists⟩ := (mem_walkDirs hwalk f).mp hfiles
      have hsame : d' = d := List.inj_on_of_nodup_map (nodup_of_ascending t.sorted) hd' hd
        (hlists.1.symm.trans hlabel.symm)
      exact (mem_collectSQLFiles hlisted f).mpr (hsame ▸ hlists)
    have hzero : currentVersion db ≠ 0 := by
      have hle := le_currentVersion (hdb.mem_loaded hf)
      omega
    have hdown : migrateDown g t db = (none, db.rollBack f) := by
      unfold migrateDown
      dsimp only
      rw [if_neg hzero, hfind]
      have hspec := g.down_spec db hlisted
      dsimp only
      generalize g.down d db = res at hspec ⊢
      cases hspec with
      | refused err hnot => exact absurd hacc hnot
      | notFound err hnone => exact absurd rfl (hnone _ hrow f hflisted)
      | done r f' _ hr hf' hversion =>
        rw [hrow] at hr
        cases hr
        obtain ⟨listed', hlisted', hin⟩ := collect_of_walk hwalk hd
        rw [hlisted] at hlisted'
        cases hlisted'
        rw [halone f' (hin f' hf') hversion]
    refine ⟨?_, ?_, ?_, ?_⟩
    · rw [hdown]
    · rw [hdown]
      rfl
    · rw [hdown, loaded_rollBack]
      simp
    · intro k hk hne
      rw [hdown, loaded_rollBack, Consistent.loaded hf]
      have hversion : k.versionID ≠ f.versionID := fun hsame => hne (halone k hk hsame)
      simp [hversion]

end

/-! ## Two files of one second -/

def unfailing : Goose where
  up d db :=
    match collectSQLFiles d.label d with
    | .error err => (some err, db)
    | .ok files =>
      if Accepts files then (none, db.apply (db.pending files))
      else (some (.external "duplicate version detected"), db)
  upByOne d db :=
    match collectSQLFiles d.label d with
    | .error err => (some err, db)
    | .ok files =>
      if Accepts files then
        match db.pending files with
        | [] => (some errNoNextVersion, db.apply [])
        | f :: _ => (none, db.apply [f])
      else (some (.external "duplicate version detected"), db)
  down d db :=
    match collectSQLFiles d.label d with
    | .error err => (some err, db)
    | .ok files =>
      if Accepts files then
        match files.find? fun f => (db.rows.getLast?.map VersionRow.versionID) = f.versionID with
        | some f => (none, db.rollBack f)
        | none => (some (.external "migration not found"), db)
      else (some (.external "duplicate version detected"), db)
  up_spec {path d files} db h := by
    rw [collectSQLFiles_path h d.label]
    dsimp only
    split_ifs with hacc
    · exact .done hacc
    · exact .refused _
  upByOne_spec {path d files} db h := by
    rw [collectSQLFiles_path h d.label]
    dsimp only
    split_ifs with hacc
    · cases hpending : db.pending files with
      | nil => exact .failed _
      | cons f rest => exact .done f rest hacc hpending
    · exact .refused _
  down_spec {path d files} db h := by
    rw [collectSQLFiles_path h d.label]
    dsimp only
    split_ifs with hacc
    · cases hfind : files.find? fun f =>
          (db.rows.getLast?.map VersionRow.versionID) = f.versionID with
      | none =>
        refine .notFound _ fun r hr f hf => ?_
        have hne := List.find?_eq_none.mp hfind f hf
        rw [hr] at hne
        simpa [eq_comm] using hne
      | some f =>
        have hsame := List.find?_some hfind
        cases hr : db.rows.getLast? with
        | none => rw [hr] at hsame; simp at hsame
        | some r =>
          rw [hr] at hsame
          have hversion : r.versionID = f.versionID := by simpa using hsame
          exact .done r f hacc hr (List.mem_of_find?_eq_some hfind) hversion.symm
    · exact .refused _ hacc

def initDir : Dir := ⟨"", ["20260101000000_init_initial_schema.sql"], by decide⟩

/-- The tree before and after two developers add a file in the same second. -/
def initTree : Tree := ⟨initDir, [], rfl, by decide⟩

def collidingTree : Tree where
  root := initDir
  versions :=
    [⟨"2.01.01", ["20260515071732_mega_add_white_device.sql"], by decide⟩,
      ⟨"2.01.02", ["20260515071732_truelsy_add_user_table.sql"], by decide⟩]
  root_label := rfl
  sorted := by decide

def grownTree : Tree where
  root := initDir
  versions := [⟨"2.01.01", ["20260515071732_mega_add_white_device.sql"], by decide⟩]
  root_label := rfl
  sorted := by decide

def initFile : MigrationFile := ⟨"", "20260101000000_init_initial_schema.sql", 20260101000000⟩

def addWhiteDevice : MigrationFile :=
  ⟨"2.01.01", "20260515071732_mega_add_white_device.sql", 20260515071732⟩

def addUserTable : MigrationFile :=
  ⟨"2.01.02", "20260515071732_truelsy_add_user_table.sql", 20260515071732⟩

theorem exactlyOnce_iff_grown :
    ExactlyOnce .game ([⟨unfailing, initTree⟩] ++ [⟨unfailing, grownTree⟩]) grownTree
        [initFile, addWhiteDevice] ↔
      ∀ f ∈ [initFile, addWhiteDevice], ∀ g ∈ [initFile, addWhiteDevice],
        f.versionID = g.versionID → f = g := by
  have hgrows : Grows ([⟨unfailing, initTree⟩] ++ [⟨unfailing, grownTree⟩]) := by
    simp [Grows, Tree.Within, Tree.dirs, initTree, grownTree]
  exact exactlyOnce_iff hgrows (by rfl) (by rfl)

/-! ## A version directory older than the one before it -/

theorem undoesLast_iff_grown :
    UndoesLast unfailing grownTree [initFile, addWhiteDevice]
        (migrateUp unfailing .game grownTree .empty).2 addWhiteDevice ↔
      Undoable .game grownTree [initFile, addWhiteDevice]
        (migrateUp unfailing .game grownTree .empty).2 addWhiteDevice :=
  undoesLast_iff (by rfl) (.up unfailing .empty (n := 2) (by rfl)) (by rfl) unfailing

def invertedTree : Tree where
  root := initDir
  versions :=
    [⟨"2.01.01", ["20260520154254_mega_add_test_test.sql"], by decide⟩,
      ⟨"2.01.02", ["20260515071732_truelsy_add_user_table.sql"], by decide⟩]
  root_label := rfl
  sorted := by decide

def addTestTest : MigrationFile :=
  ⟨"2.01.01", "20260520154254_mega_add_test_test.sql", 20260520154254⟩

/-- The largest version id is in the first directory, the file applied last in the second. -/
theorem not_undoesLast :
    ¬ ∀ (cat : MigrationCategory) (t : Tree) (files : List MigrationFile) (db : Database)
      (f : MigrationFile) (g : Goose), walkMigrationFiles cat t = .ok files →
      Reached cat t db → db.applied.getLast? = some f → UndoesLast g t files db f := by
  intro h
  have hreached : Reached .game invertedTree (migrateUp unfailing .game invertedTree .empty).2 :=
    .up unfailing .empty (n := 3) (by rfl)
  have hsucceeds := (h .game invertedTree [initFile, addTestTest, addUserTable] _ addUserTable
    unfailing (by rfl) hreached (by rfl)).succeeds
  revert hsucceeds
  decide

/-- The file of the second directory never runs, and is reported as applied. -/
theorem not_exactlyOnce :
    ¬ ∀ (cat : MigrationCategory) (before : List UpCall) (last : UpCall)
      (files : List MigrationFile),
      Grows (before ++ [last]) →
      walkMigrationFiles cat last.tree = .ok files →
      (migrateUp last.goose cat last.tree (runUps cat before)).1.2 = none →
      ExactlyOnce cat (before ++ [last]) last.tree files := by
  intro h
  have honce := (h .game [] ⟨unfailing, collidingTree⟩ [initFile, addWhiteDevice, addUserTable]
    (by simp [Grows]) (by rfl) (by rfl)).once addUserTable (by decide)
  revert honce
  decide

end FutureWas.Migrations
