import FutureWas.Migrations

/-!
# Stepping through the migrations

`MigrateUpByOne` and `MigrateUp` walk the directories of a category in the same order. What is
left to apply is one list of files (`todo`): a successful step removes its first file, and
`MigrateUp` applies all of it. They differ at a root without SQL files, which `MigrateUp` passes
and `MigrateUpByOne` takes for a failure: `stepping_iff`.

`Goose.Documented` states what goose documents of one directory, for whatever file names goose
itself accepts.
-/

set_option autoImplicit false

namespace FutureWas.Migrations

def errNoMigrationFiles : GoError := .external "no migration files found"

/-- `collects` is the result of collecting the files of a directory. No statement of a file
fails. -/
structure Goose.Documented (g : Goose)
    (collects : Dir → Except GoError (List MigrationFile)) : Prop where
  noFiles : ∀ d, d.names.any isSQL = false → collects d = .error errNoMigrationFiles
  ascending : ∀ d fs, collects d = .ok fs → (fs.map MigrationFile.versionID).Pairwise (· < ·)
  up_error : ∀ d err db, collects d = .error err → g.up d db = (some err, db)
  up_files : ∀ d fs db, collects d = .ok fs → g.up d db = (none, db.apply (db.pending fs))
  upByOne_error : ∀ d err db, collects d = .error err → g.upByOne d db = (some err, db)
  upByOne_none : ∀ d fs db, collects d = .ok fs → db.pending fs = [] →
    g.upByOne d db = (some errNoNextVersion, db.apply [])
  upByOne_next : ∀ d fs db f rest, collects d = .ok fs → db.pending fs = f :: rest →
    g.upByOne d db = (none, db.apply [f])

def nothingToApply (cat : MigrationCategory) : GoError :=
  .external ("nothing to apply in " ++ cat.name ++ "/")

/-- `MigrateUpByOne` until it reports that nothing is left; each call before has run one file. -/
inductive Stepped (g : Goose) (cat : MigrationCategory) (t : Tree) :
    Database → List MigrationFile → Database → Prop
  | last {db db' : Database} (h : migrateUpByOne g cat t db = (some (nothingToApply cat), db')) :
      Stepped g cat t db [] db'
  | step {db db₁ db' : Database} {f : MigrationFile} {fs : List MigrationFile}
      (h : migrateUpByOne g cat t db = (none, db₁))
      (one : db₁.executed = db.executed ++ [.up f]) (rest : Stepped g cat t db₁ fs db') :
      Stepped g cat t db (f :: fs) db'

/-- Stepping ends with the rows and the executed files of `MigrateUp`, and no successful call
runs more or less than one file. -/
structure StepsLikeUp (g : Goose) (cat : MigrationCategory) (t : Tree) (db : Database) :
    Prop where
  agrees : ∃ fs, Stepped g cat t db fs (migrateUp g cat t db).2
  single : ∀ db₁ db₂, migrateUpByOne g cat t db₁ = (none, db₂) →
    ∃ f, db₂.executed = db₁.executed ++ [.up f]

/-! ## What is left to apply -/

def collected : Except GoError (List MigrationFile) → List MigrationFile
  | .ok fs => fs
  | .error _ => []

/-- The pending files of the directories, each after those of the directories before it. -/
def todo (collects : Dir → Except GoError (List MigrationFile)) :
    List Dir → Database → List MigrationFile
  | [], _ => []
  | d :: ds, db =>
    db.pending (collected (collects d)) ++
      todo collects ds (db.apply (db.pending (collected (collects d))))

section

variable {collects : Dir → Except GoError (List MigrationFile)} {ds : List Dir}
  {db db' : Database} {fs gs : List MigrationFile} {f : MigrationFile}

@[simp] theorem apply_apply : (db.apply fs).apply gs = db.apply (fs ++ gs) := by
  simp [Database.apply, Database.rows]

theorem pending_congr (h : db.rows = db'.rows) : db.pending fs = db'.pending fs := by
  unfold Database.pending Database.recorded
  rw [h]

theorem rows_apply_nil : (db.apply []).rows = db.rows := List.append_nil _

theorem todo_congr (h : db.rows = db'.rows) : todo collects ds db = todo collects ds db' := by
  induction ds generalizing db db' with
  | nil => rfl
  | cons d ds ih =>
    have hpending : db.pending (collected (collects d)) = db'.pending (collected (collects d)) :=
      pending_congr h
    have hrows : (db.apply (db'.pending (collected (collects d)))).rows =
        (db'.apply (db'.pending (collected (collects d)))).rows :=
      congrArg (· ++ _) h
    simp only [todo]
    rw [hpending, ih hrows]

theorem pending_apply : (db.apply fs).pending gs =
    (db.pending gs).filter fun g => g.versionID ∉ fs.map MigrationFile.versionID := by
  have hrecorded : (db.apply fs).recorded = db.recorded ++ fs.map MigrationFile.versionID := by
    unfold Database.recorded
    change (db.rows ++ fs.map rowOf).map VersionRow.versionID = _
    rw [List.map_append, List.map_map]
    rfl
  unfold Database.pending
  rw [List.filter_filter, hrecorded]
  refine List.filter_congr fun g _ => ?_
  simp only [List.mem_append, not_or, Bool.decide_and]
  exact Bool.and_comm _ _

theorem pending_next (hasc : (gs.map MigrationFile.versionID).Pairwise (· < ·))
    (h : db.pending gs = f :: fs) : (db.apply [f]).pending gs = fs := by
  have hsub : ((db.pending gs).map MigrationFile.versionID).Sublist
      (gs.map MigrationFile.versionID) := List.filter_sublist.map _
  have hlater := hasc.sublist hsub
  rw [h, List.map_cons, List.pairwise_cons] at hlater
  rw [pending_apply, h, List.filter_cons_of_neg (by simp)]
  refine List.filter_eq_self.mpr fun g hg => ?_
  have hlt := hlater.1 g.versionID (List.mem_map_of_mem hg)
  have hne : g.versionID ≠ f.versionID := Nat.ne_of_gt hlt
  simpa using hne

theorem todo_next
    (hasc : ∀ d ∈ ds, ((collected (collects d)).map MigrationFile.versionID).Pairwise (· < ·))
    (h : todo collects ds db = f :: fs) : todo collects ds (db.apply [f]) = fs := by
  induction ds generalizing db with
  | nil => cases h
  | cons d ds ih =>
    have hd := hasc d List.mem_cons_self
    have hds : ∀ d' ∈ ds,
        ((collected (collects d')).map MigrationFile.versionID).Pairwise (· < ·) :=
      fun d' hd' => hasc d' (List.mem_cons_of_mem _ hd')
    simp only [todo] at h ⊢
    cases hpending : db.pending (collected (collects d)) with
    | nil =>
      rw [hpending, List.nil_append] at h
      have hnone : (db.apply [f]).pending (collected (collects d)) = [] := by
        rw [pending_apply, hpending]
        rfl
      have hrest := ih hds h
      rw [apply_apply, List.nil_append] at hrest
      rw [hnone, List.nil_append, apply_apply, List.append_nil]
      exact hrest
    | cons p ps =>
      rw [hpending, List.cons_append] at h
      cases h
      rw [pending_next hd hpending, apply_apply, List.singleton_append]

end

/-! ## The two commands -/

section

variable {g : Goose} {collects : Dir → Except GoError (List MigrationFile)}
  {cat : MigrationCategory} {t : Tree} {ds : List Dir} {db : Database}

def AllCollected (collects : Dir → Except GoError (List MigrationFile)) (ds : List Dir) : Prop :=
  ∀ d ∈ ds, ∃ fs, collects d = .ok fs

theorem ascending_collected (hg : g.Documented collects) (d : Dir) :
    ((collected (collects d)).map MigrationFile.versionID).Pairwise (· < ·) := by
  cases h : collects d with
  | error err => exact List.Pairwise.nil
  | ok fs => exact hg.ascending d fs h

theorem upVersions_todo (hg : g.Documented collects) (n : ℕ)
    (h : (upVersions g cat ds n (db.apply [])).1.2 = none) : AllCollected collects ds ∧
      (upVersions g cat ds n (db.apply [])).2 = db.apply (todo collects ds db) := by
  induction ds generalizing n db with
  | nil =>
    refine ⟨?_, rfl⟩
    intro d hd
    cases hd
  | cons d ds ih =>
    unfold upVersions at h ⊢
    cases hcollects : collects d with
    | error err =>
      rw [hg.up_error d err _ hcollects] at h
      cases h
    | ok fs =>
      have hpending : (db.apply []).pending fs = db.pending fs := pending_congr rows_apply_nil
      have hup : g.up d (db.apply []) = (none, (db.apply (db.pending fs)).apply []) := by
        rw [hg.up_files d fs _ hcollects, hpending, apply_apply, apply_apply, List.nil_append,
          List.append_nil]
      rw [hup] at h ⊢
      obtain ⟨hall, hrest⟩ := ih (n + 1) h
      refine ⟨?_, ?_⟩
      · intro d' hd'
        rcases List.mem_cons.mp hd' with hd' | hd'
        · exact ⟨fs, by rw [hd', hcollects]⟩
        · exact hall d' hd'
      · refine hrest.trans ?_
        rw [apply_apply]
        simp only [todo, hcollects, collected]

theorem migrateUp_todo (hg : g.Documented collects) (hroot : hasRootSQL t = true)
    (h : (migrateUp g cat t db).1.2 = none) : AllCollected collects t.dirs ∧
      (migrateUp g cat t db).2 = db.apply (todo collects t.dirs db) := by
  unfold migrateUp at h ⊢
  rw [if_pos hroot] at h ⊢
  cases hcollects : collects t.root with
  | error err =>
    rw [hg.up_error t.root err _ hcollects] at h
    cases h
  | ok fs =>
    have hup : g.up t.root db = (none, (db.apply (db.pending fs)).apply []) := by
      rw [hg.up_files t.root fs _ hcollects, apply_apply, List.append_nil]
    rw [hup] at h ⊢
    obtain ⟨hall, hrest⟩ := upVersions_todo hg 1 h
    refine ⟨?_, ?_⟩
    · intro d hd
      rcases List.mem_cons.mp hd with hd | hd
      · exact ⟨fs, by rw [hd, hcollects]⟩
      · exact hall d hd
    · refine hrest.trans ?_
      rw [apply_apply]
      simp only [Tree.dirs, todo, hcollects, collected]

def stepOf (cat : MigrationCategory) (db : Database) :
    List MigrationFile → Option GoError × Database
  | [] => (some (nothingToApply cat), db.apply [])
  | f :: _ => (none, db.apply [f])

theorem upByOneFrom_todo (hg : g.Documented collects) (hall : AllCollected collects ds) :
    upByOneFrom g cat ds (db.apply []) = stepOf cat db (todo collects ds db) := by
  induction ds generalizing db with
  | nil => rfl
  | cons d ds ih =>
    obtain ⟨fs, hcollects⟩ := hall d List.mem_cons_self
    have hds : AllCollected collects ds := fun d' hd' => hall d' (List.mem_cons_of_mem _ hd')
    have hpending : (db.apply []).pending fs = db.pending fs := pending_congr rows_apply_nil
    simp only [upByOneFrom, todo, hcollects, collected]
    cases hfirst : db.pending fs with
    | nil =>
      rw [hfirst] at hpending
      have hsame : todo collects ds (db.apply []) = todo collects ds db :=
        todo_congr rows_apply_nil
      rw [hg.upByOne_none d fs _ hcollects hpending, apply_apply, List.nil_append, List.nil_append,
        hsame]
      simp only [or_true, if_true]
      exact ih hds
    | cons f rest =>
      rw [hfirst] at hpending
      rw [hg.upByOne_next d fs _ f rest hcollects hpending, apply_apply]
      rfl

theorem migrateUpByOne_todo (hg : g.Documented collects) (hall : AllCollected collects t.dirs) :
    migrateUpByOne g cat t db = stepOf cat db (todo collects t.dirs db) := by
  obtain ⟨fs, hcollects⟩ := hall t.root List.mem_cons_self
  have hrest : AllCollected collects t.versions := fun d hd => hall d (List.mem_cons_of_mem _ hd)
  unfold migrateUpByOne
  simp only [Tree.dirs, upByOneFrom, todo, hcollects, collected]
  cases hfirst : db.pending fs with
  | nil =>
    have hsame : todo collects t.versions (db.apply []) = todo collects t.versions db :=
      todo_congr rows_apply_nil
    rw [hg.upByOne_none t.root fs _ hcollects hfirst, List.nil_append, hsame]
    simp only [or_true, if_true]
    exact upByOneFrom_todo hg hrest
  | cons f rest =>
    rw [hg.upByOne_next t.root fs _ f rest hcollects hfirst]
    rfl

theorem stepped_todo (hg : g.Documented collects) (hall : AllCollected collects t.dirs)
    {fs : List MigrationFile} (h : todo collects t.dirs db = fs) :
    Stepped g cat t db fs (db.apply fs) := by
  have hstep : migrateUpByOne g cat t db = stepOf cat db (todo collects t.dirs db) :=
    migrateUpByOne_todo hg hall
  induction fs generalizing db with
  | nil =>
    rw [h] at hstep
    exact .last hstep
  | cons f fs ih =>
    rw [h] at hstep
    have hnext : todo collects t.dirs (db.apply [f]) = fs :=
      todo_next (fun d _ => ascending_collected hg d) h
    have hrest := ih hnext (migrateUpByOne_todo hg hall)
    rw [apply_apply, List.singleton_append] at hrest
    exact .step hstep rfl hrest

theorem upByOneFrom_single (hg : g.Documented collects) {db' : Database}
    (h : upByOneFrom g cat ds db = (none, db')) : ∃ f, db'.executed = db.executed ++ [.up f] := by
  induction ds generalizing db with
  | nil => cases h
  | cons d ds ih =>
    unfold upByOneFrom at h
    cases hcollects : collects d with
    | error err =>
      rw [hg.upByOne_error d err _ hcollects] at h
      dsimp only at h
      split_ifs at h
      · exact ih h
      · cases h
    | ok fs =>
      cases hfirst : db.pending fs with
      | nil =>
        rw [hg.upByOne_none d fs _ hcollects hfirst] at h
        simp only [or_true, if_true] at h
        obtain ⟨f, hf⟩ := ih h
        refine ⟨f, hf.trans ?_⟩
        simp [Database.apply]
      | cons f rest =>
        rw [hg.upByOne_next d fs _ f rest hcollects hfirst] at h
        cases h
        exact ⟨f, rfl⟩

theorem migrateUpByOne_noFiles (hg : g.Documented collects) (hroot : hasRootSQL t = false) :
    migrateUpByOne g cat t db = (some (.wrap (dirPath cat t.root) errNoMigrationFiles), db) := by
  have hempty : collects t.root = .error errNoMigrationFiles := hg.noFiles t.root hroot
  have hother : ¬ (saysNoMigrations errNoMigrationFiles.text = true ∨
      errNoMigrationFiles = errNoNextVersion) := by decide
  unfold migrateUpByOne Tree.dirs upByOneFrom
  rw [hg.upByOne_error _ _ _ hempty]
  exact if_neg hother

/-- Where `MigrateUp` succeeds, stepping does the same if and only if the root holds an SQL
file. -/
theorem stepping_iff (hg : g.Documented collects) (hup : (migrateUp g cat t db).1.2 = none) :
    StepsLikeUp g cat t db ↔ hasRootSQL t = true := by
  constructor
  · intro h
    cases hroot : hasRootSQL t with
    | true => rfl
    | false =>
      obtain ⟨fs, hstepped⟩ := h.agrees
      cases hstepped with
      | last hlast =>
        rw [migrateUpByOne_noFiles hg hroot] at hlast
        cases hlast
      | step hstep =>
        rw [migrateUpByOne_noFiles hg hroot] at hstep
        cases hstep
  · intro hroot
    obtain ⟨hall, hdb⟩ := migrateUp_todo hg hroot hup
    refine ⟨⟨todo collects t.dirs db, ?_⟩, fun db₁ db₂ h => upByOneFrom_single hg h⟩
    rw [hdb]
    exact stepped_todo hg hall rfl

end

/-! ## A root without files -/

/-- `unfailing`, with what `goose` says of a directory without migration files. -/
def documented : Goose where
  up d db := if d.names.any isSQL then unfailing.up d db else (some errNoMigrationFiles, db)
  upByOne d db :=
    if d.names.any isSQL then unfailing.upByOne d db else (some errNoMigrationFiles, db)
  down := unfailing.down
  up_spec db h := by
    split_ifs
    · exact unfailing.up_spec db h
    · exact .refused _
  upByOne_spec db h := by
    split_ifs
    · exact unfailing.upByOne_spec db h
    · exact .refused _
  down_spec := unfailing.down_spec

def collectedFiles (d : Dir) : Except GoError (List MigrationFile) :=
  if d.names.any isSQL then
    match collectSQLFiles d.label d with
    | .error err => .error err
    | .ok files =>
      if Accepts files then .ok files else .error (.external "duplicate version detected")
  else .error errNoMigrationFiles

theorem collectedFiles_ok {d : Dir} {fs : List MigrationFile} (h : collectedFiles d = .ok fs) :
    d.names.any isSQL = true ∧ collectSQLFiles d.label d = .ok fs ∧ Accepts fs := by
  unfold collectedFiles at h
  split_ifs at h with hany
  cases hfiles : collectSQLFiles d.label d with
  | error err =>
    rw [hfiles] at h
    cases h
  | ok files =>
    rw [hfiles] at h
    dsimp only at h
    split_ifs at h with hacc
    cases h
    exact ⟨hany, rfl, hacc⟩

theorem collectedFiles_error {d : Dir} {err : GoError} (h : collectedFiles d = .error err)
    (db : Database) : documented.up d db = (some err, db) ∧
      documented.upByOne d db = (some err, db) := by
  unfold collectedFiles at h
  simp only [documented, unfailing]
  split_ifs at h ⊢ with hany
  · cases hfiles : collectSQLFiles d.label d with
    | error err =>
      rw [hfiles] at h
      cases h
      exact ⟨rfl, rfl⟩
    | ok files =>
      rw [hfiles] at h
      dsimp only at h ⊢
      split_ifs at h ⊢ with hacc
      cases h
      exact ⟨rfl, rfl⟩
  · cases h
    exact ⟨rfl, rfl⟩

instance : Std.Total fun f g : MigrationFile => f.versionID ≤ g.versionID :=
  ⟨fun f g => Nat.le_total f.versionID g.versionID⟩

instance : IsTrans MigrationFile fun f g => f.versionID ≤ g.versionID :=
  ⟨fun _ _ _ h h' => Nat.le_trans h h'⟩

theorem collectSQLFiles_ascending {path : String} {d : Dir} {files : List MigrationFile}
    (h : collectSQLFiles path d = .ok files) (hacc : Accepts files) :
    (files.map MigrationFile.versionID).Pairwise (· < ·) := by
  unfold collectSQLFiles at h
  cases hfs : (d.names.filter isSQL).mapM (migrationFile path d.label) with
  | error err =>
    rw [hfs] at h
    cases h
  | ok fs =>
    rw [hfs] at h
    cases h
    have hsorted := List.pairwise_insertionSort
      (fun f g : MigrationFile => f.versionID ≤ g.versionID) fs
    have hle := List.pairwise_map.mpr hsorted
    refine (hle.and hacc.1).imp ?_
    intro a b hab
    exact Nat.lt_of_le_of_ne hab.1 hab.2

theorem documented_documented : documented.Documented collectedFiles where
  noFiles d hany := by
    unfold collectedFiles
    rw [if_neg (by simp [hany])]
  ascending d fs h := by
    obtain ⟨-, hfiles, hacc⟩ := collectedFiles_ok h
    exact collectSQLFiles_ascending hfiles hacc
  up_error d err db h := (collectedFiles_error h db).1
  up_files d fs db h := by
    obtain ⟨hany, hfiles, hacc⟩ := collectedFiles_ok h
    simp only [documented, unfailing]
    rw [if_pos hany, hfiles]
    exact if_pos hacc
  upByOne_error d err db h := (collectedFiles_error h db).2
  upByOne_none d fs db h hpending := by
    obtain ⟨hany, hfiles, hacc⟩ := collectedFiles_ok h
    simp only [documented, unfailing]
    rw [if_pos hany, hfiles]
    dsimp only
    rw [if_pos hacc, hpending]
  upByOne_next d fs db f rest h hpending := by
    obtain ⟨hany, hfiles, hacc⟩ := collectedFiles_ok h
    simp only [documented, unfailing]
    rw [if_pos hany, hfiles]
    dsimp only
    rw [if_pos hacc, hpending]

theorem stepping_iff_grown : StepsLikeUp documented .game grownTree .empty :=
  (stepping_iff documented_documented (by decide)).mpr (by decide)

def rootlessTree : Tree where
  root := ⟨"", [], .nil⟩
  versions := grownTree.versions
  root_label := rfl
  sorted := grownTree.sorted

/-- `MigrateUp` succeeds, and the first step fails. -/
theorem not_stepsLikeUp : (migrateUp documented .game rootlessTree .empty).1 = (1, none) ∧
    ¬ StepsLikeUp documented .game rootlessTree .empty := by
  refine ⟨by decide, fun h => ?_⟩
  have hfirst : migrateUpByOne documented .game rootlessTree .empty =
      (some (.wrap (dirPath .game rootlessTree.root) errNoMigrationFiles), .empty) :=
    migrateUpByOne_noFiles documented_documented (by decide)
  obtain ⟨fs, hstepped⟩ := h.agrees
  cases hstepped with
  | last hlast =>
    rw [hfirst] at hlast
    cases hlast
  | step hstep =>
    rw [hfirst] at hstep
    cases hstep

end FutureWas.Migrations
