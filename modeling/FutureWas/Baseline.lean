import FutureWas.Model.VersionTable
import FutureWas.Migrations

/-!
# Baseline

What the statements of `Baseline` can do to the version table is said once (`Within`): rows
are only added, and only the initial row or marks of files. It composes, so it holds of any
number of attempts that end anywhere, and a run that returns nil then leaves one set of
applied versions, whatever ran before it.
-/

set_option autoImplicit false

namespace FutureWas.VersionTable

open Effect Migrations

/-- `w'` was reached from `w` by statements that mark `files`. -/
structure Within (files : List MigrationFile) (w w' : Server) : Prop where
  kept : w.rows <+: w'.rows
  executed : w'.executed = w.executed
  added : ∀ v ∈ w'.applied, v ∈ w.applied ∨ v = 0 ∧ Table.initialRow.id ∉ w.ids ∨
    ∃ f ∈ files, v = f.versionID
  seeded : Table.initialRow.id ∈ w'.ids → Table.initialRow.id ∈ w.ids ∨ 0 ∈ w'.applied

/-- The versions applied once every file is marked. -/
def marked (files : List MigrationFile) (w : Server) : Set ℤ :=
  {v | v ∈ w.applied ∨ v = 0 ∧ Table.initialRow.id ∉ w.ids ∨ ∃ f ∈ files, v = f.versionID}

section

variable {files : List MigrationFile} {w w₁ w₂ : Server}

theorem applied_of_kept (h : w.rows <+: w₁.rows) : w.applied ⊆ w₁.applied := by
  rintro v ⟨r, hr, hv⟩
  exact ⟨r, h.subset hr, hv⟩

theorem ids_of_kept (h : w.rows <+: w₁.rows) : w.ids ⊆ w₁.ids := List.map_subset _ h.subset

namespace Within

theorem refl (files : List MigrationFile) (w : Server) : Within files w w :=
  ⟨List.prefix_rfl, rfl, fun _ hv => Or.inl hv, fun hid => Or.inl hid⟩

theorem trans (h : Within files w w₁) (h' : Within files w₁ w₂) : Within files w w₂ := by
  refine ⟨h.kept.trans h'.kept, h'.executed.trans h.executed, ?_, ?_⟩
  · intro v hv
    rcases h'.added v hv with hold | ⟨rfl, hid⟩ | hfile
    · exact h.added v hold
    · exact Or.inr (Or.inl ⟨rfl, fun hid' => hid (ids_of_kept h.kept hid')⟩)
    · exact Or.inr (Or.inr hfile)
  · intro hid
    rcases h'.seeded hid with hid₁ | hzero
    · exact (h.seeded hid₁).imp_right fun hzero => applied_of_kept h'.kept hzero
    · exact Or.inr hzero

theorem marked_eq (h : Within files w w₁) : marked files w₁ = marked files w := by
  apply Set.Subset.antisymm
  · rintro v (hv | ⟨rfl, hid⟩ | hfile)
    · exact h.added v hv
    · exact Or.inr (Or.inl ⟨rfl, fun hid' => hid (ids_of_kept h.kept hid')⟩)
    · exact Or.inr (Or.inr hfile)
  · rintro v (hv | ⟨rfl, hid⟩ | hfile)
    · exact Or.inl (applied_of_kept h.kept hv)
    · by_cases hid₁ : Table.initialRow.id ∈ w₁.ids
      · exact Or.inl ((h.seeded hid₁).resolve_left hid)
      · exact Or.inr (Or.inl ⟨rfl, hid₁⟩)
    · exact Or.inr (Or.inr hfile)

end Within

theorem rows_createTable (w : Server) : w.createTable.rows = w.rows := by
  unfold Server.createTable Server.rows
  cases w.table with
  | none => rfl
  | some t => rfl

theorem rows_of_table {t : Table} (h : w.table = some t) : w.rows = t.rows := by
  unfold Server.rows
  rw [h]
  rfl

theorem within_append {r : Row} (hrows : w₁.rows = w.rows ++ [r])
    (hexecuted : w₁.executed = w.executed)
    (hr : r.versionID = 0 ∧ r.isApplied = true ∧ Table.initialRow.id ∉ w.ids ∨
      Table.initialRow.id ∈ w.ids ∧ ∃ f ∈ files, r.versionID = f.versionID) :
    Within files w w₁ := by
  refine ⟨hrows ▸ List.prefix_append _ _, hexecuted, ?_, ?_⟩
  · rintro v ⟨r', hr', happlied, rfl⟩
    rw [hrows, List.mem_append, List.mem_singleton] at hr'
    obtain hold | rfl := hr'
    · exact Or.inl ⟨r', hold, happlied, rfl⟩
    · exact Or.inr (hr.imp (fun h => ⟨h.1, h.2.2⟩) fun h => h.2)
  · intro _
    rcases hr with ⟨hzero, happlied, -⟩ | ⟨hid, -⟩
    · exact Or.inr ⟨r, by rw [hrows]; simp, happlied, hzero⟩
    · exact Or.inl hid

theorem within_seed {t : Table} (h : w.table = some t) :
    Within files w { w with table := some t.seed } := by
  have hids : w.ids = t.ids := congrArg (List.map Row.id) (rows_of_table h)
  unfold Table.seed
  split_ifs with hid
  · have hsame : ({ w with table := some t } : Server) = w := by rw [← h]
    rw [hsame]
    exact .refl files w
  · refine within_append (r := Table.initialRow) ?_ rfl (Or.inl ⟨rfl, rfl, hids ▸ hid⟩)
    rw [rows_of_table h]
    rfl

theorem initial_mem_seed (t : Table) : Table.initialRow.id ∈ t.seed.ids := by
  unfold Table.seed
  split_ifs with hid
  · exact hid
  · change Table.initialRow.id ∈ (t.rows ++ [Table.initialRow]).map Row.id
    simp

/-! ## One statement -/

def Allowed (files : List MigrationFile) (s : Statement) (w : Server) : Prop :=
  ∀ v, s = .markApplied v → Table.initialRow.id ∈ w.ids ∧ ∃ f ∈ files, v = f.versionID

theorem executes_within {s : Statement} (hallowed : Allowed files s w)
    (h : Executes s w w₁) : Within files w w₁ := by
  cases s with
  | createTable =>
    cases h
    have hrows := rows_createTable w
    refine ⟨by rw [hrows], rfl, ?_, ?_⟩
    · intro v hv
      unfold Server.applied at hv
      rw [hrows] at hv
      exact Or.inl hv
    · intro hid
      unfold Server.ids at hid
      rw [hrows] at hid
      exact Or.inl hid
  | seed =>
    obtain ⟨t, ht, rfl⟩ := h
    exact within_seed ht
  | selectApplied =>
    cases h
    exact .refl files w
  | markApplied v =>
    obtain ⟨t, id, hid, ht, rfl⟩ := h
    refine within_append (r := ⟨id, v, true⟩) ?_ rfl (Or.inr (hallowed v rfl))
    rw [rows_of_table ht]
    rfl

theorem reports_within {s : Statement} (hallowed : Allowed files s w) {err : Option GoError}
    (h : Reports s err w w₁) : Within files w w₁ := by
  rcases h with hdone | ⟨-, rfl⟩
  · exact executes_within hallowed hdone
  · exact .refl files _

theorem step_within {s : Statement} {answer : s.Answer} (hallowed : Allowed files s w)
    (h : step s w answer w₁) : Within files w w₁ := by
  cases s with
  | createTable => exact reports_within hallowed h
  | seed => exact reports_within hallowed h
  | selectApplied =>
    obtain ⟨rfl, -⟩ := h
    exact .refl files _
  | markApplied v => exact reports_within hallowed h

end

/-! ## Runs -/

section

variable {files fs : List MigrationFile} {w w' : Server}

theorem mem_appliedIDs {t : Table} (ht : w.table = some t) (v : ℤ) :
    v ∈ t.appliedIDs ↔ v ∈ w.applied := by
  simp only [Table.appliedIDs, Server.applied, rows_of_table ht, List.mem_map, List.mem_filter,
    Set.mem_ofPred_eq, and_assoc]

theorem mem_versionRows (rows : List Row) (n : ℕ) :
    n ∈ (rows.filterMap Server.versionRow).map VersionRow.versionID ↔
      ∃ r ∈ rows, r.versionID = n := by
  rw [List.mem_map]
  constructor
  · rintro ⟨row, hrow, rfl⟩
    obtain ⟨r, hr, hread⟩ := List.mem_filterMap.mp hrow
    unfold Server.versionRow at hread
    split_ifs at hread with hpos
    cases hread
    exact ⟨r, hr, by simp [hpos]⟩
  · rintro ⟨r, hr, hversion⟩
    exact ⟨⟨n, none⟩, List.mem_filterMap.mpr ⟨r, hr, by simp [Server.versionRow, hversion]⟩, rfl⟩

theorem recorded_of_table {table : Table} (h : w.table = some table) :
    w.view.recorded = (table.rows.filterMap Server.versionRow).map VersionRow.versionID := by
  simp only [Database.recorded, Database.rows, Server.view, h, Option.map_some, Option.getD_some]

theorem loadAppliedVersionIDs_wp (S : Setting Statement.Answer Server)
    {Q : Outcome Empty (Except GoError (List ℤ)) → Server → Prop}
    (hrely : ∀ w₁, S.rely w w₁ → w₁ = w) (hpre : S.pre .selectApplied w)
    (h : ∀ answer w', S.step .selectApplied w answer w' →
      S.guar .selectApplied answer w w' ∧ match answer with
        | .queryFailed err => Q (.ret (if isTableNotFound err then .ok [] else .error err)) w'
        | .scanFailed err => Q (.ret (.error err)) w'
        | .rows vs => Q (.ret (.ok vs)) w') : S.wp loadAppliedVersionIDs Q w := by
  intro w₁ hr
  cases hrely w₁ hr
  refine ⟨hpre, fun answer w' hs => ?_⟩
  obtain ⟨hguar, hQ⟩ := h answer w' hs
  cases answer with
  | queryFailed err => exact ⟨hguar, hQ⟩
  | scanFailed err => exact ⟨hguar, hQ⟩
  | rows vs => exact ⟨hguar, hQ⟩

def marking (files : List MigrationFile) : Setting Statement.Answer Server where
  step := step
  rely := Eq
  guar _ _ w w' := Within files w w'
  pre s w := Allowed files s w
  rely_refl _ := rfl
  rely_trans := Eq.trans

theorem allowed_of_ne {s : Statement} (h : ∀ v, s ≠ .markApplied v) (w : Server) :
    Allowed files s w := fun v hv => absurd hv (h v)

theorem markFiles_wp {applied : List ℤ} (hfs : ∀ f ∈ fs, f ∈ files) (n : ℕ)
    (hid : Table.initialRow.id ∈ w.ids) :
    (marking files).wp (markFiles applied fs n) (fun o w' => Within files w w' ∧
      ∀ k, o = .ret (k, none) →
        ∀ f ∈ fs, (f.versionID : ℤ) ∈ applied ∨ (f.versionID : ℤ) ∈ w'.applied) w := by
  induction fs generalizing n w with
  | nil => exact ⟨.refl files w, by simp⟩
  | cons f fs ih =>
    obtain ⟨hf, hfs⟩ := List.forall_mem_cons.mp hfs
    simp only [markFiles]
    split_ifs with hold
    · refine Setting.wp_mono ?_ (ih hfs n hid)
      rintro o w₂ ⟨hwithin, hmarked⟩
      exact ⟨hwithin, fun k hk => List.forall_mem_cons.mpr ⟨Or.inl hold, hmarked k hk⟩⟩
    · rintro w₁ rfl
      have hallowed : Allowed files (.markApplied f.versionID) w := by
        intro v hv
        cases hv
        exact ⟨hid, f, hf, rfl⟩
      refine ⟨hallowed, fun err w₁ hs => ?_⟩
      have hwithin : Within files w w₁ := step_within hallowed hs
      refine ⟨hwithin, ?_⟩
      cases err with
      | some err => exact ⟨hwithin, by simp⟩
      | none =>
        refine Setting.wp_mono ?_ (ih hfs (n + 1) (ids_of_kept hwithin.kept hid))
        rintro o w₂ ⟨hwithin', hmarked⟩
        refine ⟨hwithin.trans hwithin', fun k hk => ?_⟩
        refine List.forall_mem_cons.mpr ⟨Or.inr ?_, hmarked k hk⟩
        obtain ⟨t, id, hfresh, ht, rfl⟩ | ⟨herr, -⟩ := hs
        · exact applied_of_kept hwithin'.kept ⟨⟨id, f.versionID, true⟩,
            by simp [Server.rows, Table.insert], rfl, rfl⟩
        · cases herr

/-- The state a run of `Baseline` that returns nil leaves. -/
structure Baselined (cat : MigrationCategory) (t : Tree) (files : List MigrationFile)
    (w : Server) : Prop where
  walk : walkMigrationFiles cat t = .ok files
  initial : Table.initialRow.id ∈ w.ids
  applied : ∀ f ∈ files, (f.versionID : ℤ) ∈ w.applied

section

variable {cat : MigrationCategory} {t : Tree}

theorem baseline_wp (hwalk : ∀ listed, walkMigrationFiles cat t = .ok listed → listed = files)
    (w : Server) :
    (marking files).wp (baseline cat t) (fun o w' => Within files w w' ∧
      ∀ k, o = .ret (k, none) → Baselined cat t files w') w := by
  rintro w₀ rfl
  have hcreate : Allowed files .createTable w := allowed_of_ne (by simp) w
  refine ⟨hcreate, fun err w₁ hs => ?_⟩
  have hwithin₁ : Within files w w₁ := step_within hcreate hs
  refine ⟨hwithin₁, ?_⟩
  cases err with
  | some err => exact ⟨hwithin₁, by simp⟩
  | none =>
    rintro w₁' rfl
    have hseed : Allowed files .seed w₁ := allowed_of_ne (by simp) w₁
    refine ⟨hseed, fun err w₂ hs => ?_⟩
    have hwithin₂ : Within files w₁ w₂ := step_within hseed hs
    refine ⟨hwithin₂, ?_⟩
    cases err with
    | some err => exact ⟨hwithin₁.trans hwithin₂, by simp⟩
    | none =>
      have hid : Table.initialRow.id ∈ w₂.ids := by
        obtain ⟨t, ht, rfl⟩ | ⟨herr, -⟩ := hs
        · exact initial_mem_seed t
        · cases herr
      cases hlisted : walkMigrationFiles cat t with
      | error err => exact ⟨hwithin₁.trans hwithin₂, by simp⟩
      | ok listed =>
        obtain rfl := hwalk listed hlisted
        apply Setting.wp_bind
        refine loadAppliedVersionIDs_wp _ (fun _ h => h.symm) (allowed_of_ne (by simp) _) ?_
        rintro answer w₃ hs
        obtain ⟨rfl, hanswer⟩ := hs
        refine ⟨.refl listed w₃, ?_⟩
        have hmark : ∀ applied : List ℤ, (∀ v ∈ applied, v ∈ w₃.applied) →
            (marking listed).wp (markFiles applied listed 0) (fun o w' => Within listed w w' ∧
              ∀ k, o = .ret (k, none) → Baselined cat t listed w') w₃ := by
          intro applied happlied
          refine Setting.wp_mono ?_ (markFiles_wp (fun _ hf => hf) 0 hid)
          rintro o w' ⟨hwithin, hmarked⟩
          refine ⟨(hwithin₁.trans hwithin₂).trans hwithin, fun k hk => ?_⟩
          refine ⟨hlisted, ids_of_kept hwithin.kept hid, fun f hf => ?_⟩
          exact (hmarked k hk f hf).elim
            (fun hold => applied_of_kept hwithin.kept (happlied _ hold)) id
        cases answer with
        | queryFailed err =>
          by_cases hmissing : isTableNotFound err = true
          · simp only [hmissing, ↓reduceIte]
            exact hmark [] (by simp)
          · simp only [hmissing]
            exact ⟨hwithin₁.trans hwithin₂, by simp⟩
        | scanFailed err => exact ⟨hwithin₁.trans hwithin₂, by simp⟩
        | rows vs =>
          obtain ⟨t, ht, rfl⟩ := hanswer vs rfl
          exact hmark t.appliedIDs fun v hv => (mem_appliedIDs ht v).mp hv

inductive Attempts (cat : MigrationCategory) (t : Tree) (w : Server) : Server → Prop
  | none : Attempts cat t w w
  | more {w₁ w₂ tr o} : Attempts cat t w w₁ → Runs step Eq (baseline cat t) w₁ tr o w₂ →
      Attempts cat t w w₂

theorem run_within (hwalk : ∀ listed, walkMigrationFiles cat t = .ok listed → listed = files)
    {tr : List (Event Statement.Answer Server)} {o : Outcome Empty (ℕ × Option GoError)}
    (h : Runs step Eq (baseline cat t) w tr o w') :
    Within files w w' ∧ ∀ k, o = .ret (k, none) → Baselined cat t files w' :=
  (Setting.wp_sound (S := marking files) (baseline_wp hwalk w) h).1

theorem attempts_within
    (hwalk : ∀ listed, walkMigrationFiles cat t = .ok listed → listed = files)
    (h : Attempts cat t w w') : Within files w w' := by
  induction h with
  | none => exact .refl files w
  | more _ hrun ih => exact ih.trans (run_within hwalk hrun).1

theorem exists_walked (cat : MigrationCategory) (t : Tree) :
    ∃ files, ∀ listed, walkMigrationFiles cat t = .ok listed → listed = files := by
  cases h : walkMigrationFiles cat t with
  | error err => exact ⟨[], by simp⟩
  | ok files =>
    refine ⟨files, fun listed hlisted => ?_⟩
    cases hlisted
    rfl

theorem applied_eq (hwithin : Within files w w') (h : Baselined cat t files w') :
    w'.applied = marked files w := by
  apply Set.Subset.antisymm
  · exact fun v hv => hwithin.added v hv
  · rintro v (hv | ⟨rfl, hid⟩ | ⟨f, hf, rfl⟩)
    · exact applied_of_kept hwithin.kept hv
    · exact (hwithin.seeded h.initial).resolve_left hid
    · exact h.applied f hf

namespace Baselined

theorem exists_table (h : Baselined cat t files w) : ∃ table, w.table = some table := by
  cases htable : w.table with
  | none =>
    have hnone : w.ids = [] := by
      unfold Server.ids Server.rows
      rw [htable]
      rfl
    exact absurd (hnone ▸ h.initial) List.not_mem_nil
  | some table => exact ⟨table, rfl⟩

theorem status_wp (h : Baselined cat t files w) :
    (Setting.alone fun s w answer w' => served s answer = true ∧ step s w answer w').wp
      (status cat t) (fun o w' => w' = w ∧ o = .ret (.ok
        (files.map fun f => ⟨f.version, f.filename, f.versionID, true⟩))) w := by
  apply Setting.wp_bind
  refine loadAppliedVersionIDs_wp _ (fun _ h => h.symm) trivial ?_
  rintro answer w' ⟨hserved, rfl, hanswer⟩
  refine ⟨trivial, ?_⟩
  cases answer with
  | queryFailed err => cases hserved
  | scanFailed err => cases hserved
  | rows vs =>
    obtain ⟨table, htable, rfl⟩ := hanswer vs rfl
    simp only [h.walk]
    refine ⟨rfl, ?_⟩
    congr 2
    apply List.map_congr_left
    intro f hf
    have happlied : (f.versionID : ℤ) ∈ table.appliedIDs :=
      (mem_appliedIDs htable _).mpr (h.applied f hf)
    rw [decide_eq_true happlied]

theorem countPending_wp (h : Baselined cat t files w) :
    (Setting.alone fun s w answer w' => served s answer = true ∧ step s w answer w').wp
      (countPending cat t) (fun o _ => o = .ret (0, none)) w := by
  apply Setting.wp_bind
  refine Setting.wp_mono ?_ h.status_wp
  rintro o w' ⟨-, rfl⟩
  have hnone : (files.map fun f => (⟨f.version, f.filename, f.versionID, true⟩ :
      MigrationStatus)).countP (fun s => ¬ s.applied) = 0 := by
    rw [List.countP_eq_zero]
    intro s hs
    obtain ⟨f, -, rfl⟩ := List.mem_map.mp hs
    simp
  simp only [Setting.wp, hnone]

theorem migrateUp_executed (h : Baselined cat t files w) (g : Goose) :
    (migrateUp g cat t w.view).2.executed = w.executed := by
  obtain ⟨fs, hsub, happ, -⟩ := migrateUp_applies g h.walk w.view
  obtain ⟨table, htable⟩ := h.exists_table
  have hnil : fs = [] := by
    refine List.eq_nil_iff_forall_not_mem.mpr fun f hf => happ.fresh f hf ?_
    obtain ⟨r, hr, -, hversion⟩ := h.applied f (hsub.subset hf)
    rw [recorded_of_table htable, mem_versionRows]
    exact ⟨r, rows_of_table htable ▸ hr, hversion⟩
  rw [happ.executed, hnil]
  simp [Server.view]

end Baselined

theorem markFiles_of_applied {applied : List ℤ}
    (h : ∀ f ∈ fs, (f.versionID : ℤ) ∈ applied) (n : ℕ) :
    markFiles applied fs n = .ret (n, none) := by
  induction fs with
  | nil => rfl
  | cons f fs ih =>
    obtain ⟨hf, hfs⟩ := List.forall_mem_cons.mp h
    simp only [markFiles, if_pos hf]
    exact ih hfs

/-- The answer `1146`, which a server gives for a missing table only. -/
def saysNoTable : (s : Statement) → s.Answer → Bool
  | .selectApplied, .queryFailed err => isTableNotFound err
  | _, _ => false

/-- A second `Baseline` marks nothing, unless its query is told that the table created two
statements before does not exist. -/
theorem Baselined.again_wp (h : Baselined cat t files w) :
    (Setting.alone fun s w answer w' => ¬ saysNoTable s answer = true ∧ step s w answer w').wp
      (baseline cat t) (fun o w' => w'.rows = w.rows ∧ ∃ err, o = .ret (0, err)) w := by
  rintro w₀ rfl
  refine ⟨trivial, ?_⟩
  rintro err w₁ ⟨-, hs⟩
  have hrows₁ : w₁.rows = w.rows := by
    obtain rfl | ⟨-, rfl⟩ := hs
    · exact rows_createTable w
    · rfl
  refine ⟨trivial, ?_⟩
  cases err with
  | some err => exact ⟨hrows₁, _, rfl⟩
  | none =>
    rintro w₁' rfl
    refine ⟨trivial, ?_⟩
    rintro err w₂ ⟨-, hs⟩
    have hrows₂ : w₂.rows = w.rows := by
      obtain ⟨table, htable, rfl⟩ | ⟨-, rfl⟩ := hs
      · have hid : Table.initialRow.id ∈ table.ids := by
          have hinitial := h.initial
          unfold Server.ids at hinitial
          rwa [← hrows₁, rows_of_table htable] at hinitial
        rw [← hrows₁, rows_of_table htable]
        simp [Server.rows, Table.seed, dif_pos hid]
      · exact hrows₁
    refine ⟨trivial, ?_⟩
    cases err with
    | some err => exact ⟨hrows₂, _, rfl⟩
    | none =>
      simp only [h.walk]
      apply Setting.wp_bind
      refine loadAppliedVersionIDs_wp _ (fun _ h => h.symm) trivial ?_
      rintro answer w₃ ⟨hanswer, rfl, hvs⟩
      refine ⟨trivial, ?_⟩
      cases answer with
      | queryFailed err =>
        have hother : ¬ isTableNotFound err = true := hanswer
        simp only [hother]
        exact ⟨hrows₂, _, rfl⟩
      | scanFailed err => exact ⟨hrows₂, _, rfl⟩
      | rows vs =>
        obtain ⟨table, htable, rfl⟩ := hvs vs rfl
        have happlied : ∀ f ∈ files, (f.versionID : ℤ) ∈ table.appliedIDs := by
          intro f hf
          rw [mem_appliedIDs htable]
          obtain ⟨r, hr, hread⟩ := h.applied f hf
          exact ⟨r, hrows₂ ▸ hr, hread⟩
        simp only [markFiles_of_applied happlied]
        exact ⟨hrows₂, _, rfl⟩

end
end

/-! ## Complete and restartable -/

section

variable (cat : MigrationCategory) (t : Tree)

structure Complete (w : Server) : Prop where
  countPending : ∀ {tr o w'}, Runs step Eq (countPending cat t) w tr o w' →
    (∀ e ∈ tr, served e.op e.resp = true) → o = .ret (0, none)
  status : ∃ files, walkMigrationFiles cat t = .ok files ∧
    ∀ {tr o w'}, Runs step Eq (status cat t) w tr o w' →
      (∀ e ∈ tr, served e.op e.resp = true) →
      o = .ret (.ok (files.map fun f => ⟨f.version, f.filename, f.versionID, true⟩))
  migrateUp : ∀ g, (migrateUp g cat t w.view).2.executed = w.executed
  again : ∀ {tr o w'}, Runs step Eq (baseline cat t) w tr o w' →
    (∀ e ∈ tr, ¬ saysNoTable e.op e.resp = true) →
    w'.rows = w.rows ∧ ∃ err, o = .ret (0, err)

structure Restartable : Prop where
  complete : ∀ {w w' tr k}, Runs step Eq (baseline cat t) w tr (.ret (k, none)) w' →
    Complete cat t w'
  kept : ∀ {w w'}, Attempts cat t w w' → w.rows <+: w'.rows ∧ w'.executed = w.executed
  restart : ∀ {w failed again direct tr tr' k k'}, Attempts cat t w failed →
    Runs step Eq (baseline cat t) failed tr (.ret (k, none)) again →
    Runs step Eq (baseline cat t) w tr' (.ret (k', none)) direct →
    again.applied = direct.applied

variable {cat t}

theorem Baselined.complete {files : List MigrationFile} {w : Server}
    (h : Baselined cat t files w) : Complete cat t w := by
  refine ⟨?_, ⟨files, h.walk, ?_⟩, h.migrateUp_executed, ?_⟩
  · intro tr o w' hrun hserved
    exact (Setting.wp_sound h.countPending_wp (hrun.restrict hserved)).1
  · intro tr o w' hrun hserved
    exact (Setting.wp_sound h.status_wp (hrun.restrict hserved)).1.2
  · intro tr o w' hrun htable
    exact (Setting.wp_sound h.again_wp (hrun.restrict htable)).1

variable (cat t)

theorem baseline_restartable : Restartable cat t := by
  obtain ⟨files, hwalk⟩ := exists_walked cat t
  refine ⟨?_, ?_, ?_⟩
  · intro w w' tr k hrun
    exact ((run_within hwalk hrun).2 k rfl).complete
  · intro w w' hattempts
    have hwithin := attempts_within hwalk hattempts
    exact ⟨hwithin.kept, hwithin.executed⟩
  · intro w failed again direct tr tr' k k' hattempts hagain hdirect
    have hfailed := attempts_within hwalk hattempts
    obtain ⟨hwithin, hdone⟩ := run_within hwalk hagain
    obtain ⟨hwithin', hdone'⟩ := run_within hwalk hdirect
    rw [applied_eq hwithin (hdone k rfl), applied_eq hwithin' (hdone' k' rfl)]
    exact hfailed.marked_eq

end

/-! ## The same command with statements that do not fail -/

section

variable {cat : MigrationCategory} {t : Tree} {fs : List MigrationFile} {w : Server}

theorem markFiles_refines {applied : List ℤ} (n : ℕ) {table : Table}
    (htable : w.table = some table) :
    (Setting.alone fun s w answer w' => served s answer = true ∧ step s w answer w').wp
      (markFiles applied fs n) (fun o w' =>
        o = .ret (n + (fs.filter fun f => (f.versionID : ℤ) ∉ applied).length, none) ∧
        w'.executed = w.executed ∧ w'.view.recorded = w.view.recorded ++
          (fs.filter fun f => (f.versionID : ℤ) ∉ applied).map MigrationFile.versionID) w := by
  induction fs generalizing n w table with
  | nil => exact ⟨rfl, rfl, by simp⟩
  | cons f fs ih =>
    simp only [markFiles]
    split_ifs with hold
    · simpa [hold] using ih n htable
    · rintro w₀ rfl
      refine ⟨trivial, ?_⟩
      rintro err w₁ ⟨hserved, hs⟩
      refine ⟨trivial, ?_⟩
      cases err with
      | some err => cases hserved
      | none =>
        obtain ⟨table', id, hfresh, htable', rfl⟩ | ⟨herr, -⟩ := hs
        · obtain rfl : table' = table := Option.some.inj (htable'.symm.trans htable)
          refine Setting.wp_mono ?_ (ih (n + 1) rfl)
          rintro o w₂ ⟨ho, hexecuted, hrecorded⟩
          refine ⟨?_, hexecuted, ?_⟩
          · rw [ho, List.filter_cons_of_pos (by simpa using hold), List.length_cons]
            congr 2
            omega
          · rw [hrecorded, List.filter_cons_of_pos (by simpa using hold), recorded_of_table rfl,
              recorded_of_table htable]
            simp [Table.insert, Server.versionRow]
        · cases herr

theorem seeded_view (hinitial : w.table = none ∨ Table.initialRow.id ∈ w.ids)
    (happlied : ∀ r ∈ w.rows, r.isApplied = true) {table : Table}
    (htable : w.createTable.table = some table) :
    table.seed.rows.filterMap Server.versionRow = w.view.rows ∧
      ∀ r ∈ table.seed.rows, r.isApplied = true := by
  rcases hinitial with hnone | hid
  · have hempty : table = .empty := by
      simp only [Server.createTable, hnone, Option.getD_none] at htable
      exact (Option.some.inj htable).symm
    subst hempty
    have hview : w.view.rows = [Migrations.initialRow] := by
      simp [Database.rows, Server.view, hnone]
    rw [hview]
    exact ⟨by decide, by decide⟩
  · have hrows : w.rows = table.rows := by
      rw [← rows_createTable, rows_of_table htable]
    have hseed : table.seed = table := by
      unfold Server.ids at hid
      rw [hrows] at hid
      exact dif_pos hid
    cases hw : w.table with
    | none => simp [Server.ids, Server.rows, hw] at hid
    | some table' =>
      have hsame : table' = table := by
        simp only [Server.createTable, hw, Option.getD_some] at htable
        exact Option.some.inj htable
      rw [hseed]
      refine ⟨by simp [Database.rows, Server.view, hw, hsame], ?_⟩
      exact fun r hr => happlied r (hrows ▸ hr)

theorem unmarked_eq (files : List MigrationFile) {table : Table}
    (hall : ∀ r ∈ table.rows, r.isApplied = true) :
    (files.filter fun f => (f.versionID : ℤ) ∉ table.appliedIDs) = files.filter fun f =>
      f.versionID ∉ (table.rows.filterMap Server.versionRow).map VersionRow.versionID := by
  apply List.filter_congr
  intro f _
  rw [decide_eq_decide, not_iff_not, mem_versionRows, Table.appliedIDs, List.mem_map]
  constructor
  · rintro ⟨r, hr, hv⟩
    exact ⟨r, (List.mem_filter.mp hr).1, hv⟩
  · rintro ⟨r, hr, hv⟩
    exact ⟨r, List.mem_filter.mpr ⟨hr, hall r hr⟩, hv⟩

/-- Against a server that answers, on a table whose rows are all applied and that holds the
initial row once it exists, the statements do what `Migrations.baseline` does at once. -/
theorem baseline_refines (hinitial : w.table = none ∨ Table.initialRow.id ∈ w.ids)
    (happlied : ∀ r ∈ w.rows, r.isApplied = true) :
    (Setting.alone fun s w answer w' => served s answer = true ∧ step s w answer w').wp
      (baseline cat t) (fun o w' => o = .ret (Migrations.baseline cat t w.view).1 ∧
        w'.executed = (Migrations.baseline cat t w.view).2.executed ∧
        w'.view.recorded = (Migrations.baseline cat t w.view).2.recorded) w := by
  rintro w₀ rfl
  refine ⟨trivial, ?_⟩
  rintro err w₁ ⟨hserved, hs⟩
  refine ⟨trivial, ?_⟩
  obtain rfl : err = none := Option.isNone_iff_eq_none.mp hserved
  obtain rfl : w₁ = w.createTable := hs.resolve_right (by simp)
  rintro w₁' rfl
  refine ⟨trivial, ?_⟩
  rintro err w₂ ⟨hserved, hs⟩
  refine ⟨trivial, ?_⟩
  obtain rfl : err = none := Option.isNone_iff_eq_none.mp hserved
  obtain ⟨table, htable, rfl⟩ := hs.resolve_right (by simp)
  obtain ⟨hrows, hall⟩ := seeded_view hinitial happlied htable
  have hrecorded₂ : Database.recorded (Server.view
      { w.createTable with table := some table.seed }) =
        w.view.rows.map VersionRow.versionID := by
    rw [recorded_of_table rfl, hrows]
  unfold Migrations.baseline
  cases hwalk : walkMigrationFiles cat t with
  | error err => exact ⟨rfl, rfl, hrecorded₂⟩
  | ok files =>
    apply Setting.wp_bind
    refine loadAppliedVersionIDs_wp _ (fun _ h => h.symm) trivial ?_
    rintro answer w₃ ⟨hserved, rfl, hanswer⟩
    refine ⟨trivial, ?_⟩
    cases answer with
    | queryFailed err => cases hserved
    | scanFailed err => cases hserved
    | rows vs =>
      obtain ⟨seeded, hseeded, rfl⟩ := hanswer vs rfl
      cases hseeded
      have hpending := unmarked_eq files hall
      rw [hrows] at hpending
      refine Setting.wp_mono ?_ (markFiles_refines 0 rfl)
      rintro o w' ⟨ho, hexecuted, hrecorded⟩
      refine ⟨?_, hexecuted, ?_⟩
      · rw [ho, hpending, Nat.zero_add]
        rfl
      · rw [hrecorded, hpending, hrecorded₂]
        simp [Database.recorded, Database.rows, Migrations.loadAppliedVersionIDs, rowOf]

end

/-! ## A server that answers -/

def Table.nextID (t : Table) : ℤ := t.ids.foldr max 0 + 1

theorem Table.le_of_mem_ids {ids : List ℤ} {id : ℤ} (h : id ∈ ids) : id ≤ ids.foldr max 0 := by
  induction ids with
  | nil => cases h
  | cons a ids ih =>
    rw [List.foldr_cons]
    rcases List.mem_cons.mp h with rfl | h
    · exact le_max_left _ _
    · exact (ih h).trans (le_max_right _ _)

theorem Table.nextID_fresh (t : Table) (v : ℤ) : (⟨t.nextID, v, true⟩ : Row).id ∉ t.ids := by
  intro h
  have hle : t.nextID ≤ t.ids.foldr max 0 := Table.le_of_mem_ids h
  unfold Table.nextID at hle
  omega

def noSuchTable : GoError := .external "Error 1146 (42S02): Table doesn't exist"

def invalidConnection : GoError := .external "invalid connection"

/-- A statement that the connection `loses` has no effect. -/
def exec (loses : Bool) : (s : Statement) → Server → s.Answer × Server
  | .createTable, w => if loses then (some invalidConnection, w) else (none, w.createTable)
  | .seed, w =>
    match loses, w.table with
    | true, _ => (some invalidConnection, w)
    | false, none => (some noSuchTable, w)
    | false, some t => (none, { w with table := some t.seed })
  | .selectApplied, w =>
    match loses, w.table with
    | true, _ => (.queryFailed invalidConnection, w)
    | false, none => (.queryFailed noSuchTable, w)
    | false, some t => (.rows t.appliedIDs, w)
  | .markApplied v, w =>
    match loses, w.table with
    | true, _ => (some invalidConnection, w)
    | false, none => (some noSuchTable, w)
    | false, some t =>
      (none, { w with table := some (t.insert ⟨t.nextID, v, true⟩ (t.nextID_fresh v)) })

theorem exec_step (loses : Bool) (s : Statement) (w : Server) :
    step s w (exec loses s w).1 (exec loses s w).2 := by
  cases s with
  | createTable =>
    cases loses with
    | true => exact Or.inr ⟨rfl, rfl⟩
    | false => exact Or.inl rfl
  | seed =>
    cases loses with
    | true => exact Or.inr ⟨rfl, rfl⟩
    | false =>
      simp only [exec, step]
      cases htable : w.table with
      | none => exact Or.inr ⟨rfl, rfl⟩
      | some t => exact Or.inl ⟨t, htable, rfl⟩
  | selectApplied =>
    cases loses with
    | true => exact ⟨rfl, by simp [exec]⟩
    | false =>
      simp only [exec, step]
      cases htable : w.table with
      | none => exact ⟨rfl, by simp⟩
      | some t => exact ⟨rfl, fun vs hvs => ⟨t, rfl, (Selected.rows.inj hvs).symm⟩⟩
  | markApplied v =>
    cases loses with
    | true => exact Or.inr ⟨rfl, rfl⟩
    | false =>
      simp only [exec, step]
      cases htable : w.table with
      | none => exact Or.inr ⟨rfl, rfl⟩
      | some t => exact Or.inl ⟨t, t.nextID, t.nextID_fresh v, htable, rfl⟩

theorem runs_exec {α : Type} (loses : ℕ → Bool) (p : Statements α) (w : Server) :
    Runs step Eq p w (p.run exec loses 0 w).1 (p.run exec loses 0 w).2.1
      (p.run exec loses 0 w).2.2 := by
  refine (runs_run loses 0 p w).mono ?_ fun _ _ h => h
  rintro s w answer w' ⟨c, hexec⟩
  have hstep := exec_step c s w
  rwa [hexec] at hstep

def interrupted : Server :=
  ((baseline .game grownTree).run exec (fun n => decide (n = 4)) 0 ⟨none, []⟩).2.2

def resumed : Server :=
  ((baseline .game grownTree).run exec (fun _ => false) 0 interrupted).2.2

def returned {α : Type} : Outcome Empty α → α
  | .ret a => a
  | .raise e => e.elim

theorem eq_ret_returned {α : Type} (o : Outcome Empty α) : o = .ret (returned o) := by
  cases o with
  | ret a => rfl
  | raise e => exact e.elim

theorem baseline_restartable_grown :
    interrupted.rows.map Row.versionID = [0, 20260101000000] ∧
      resumed.rows.map Row.versionID = [0, 20260101000000, 20260515071732] ∧
      Complete .game grownTree resumed ∧ interrupted.rows <+: resumed.rows := by
  have hrun := runs_exec (fun _ => false) (baseline .game grownTree) interrupted
  have hdone : returned ((baseline .game grownTree).run exec (fun _ => false) 0
      interrupted).2.1 = (1, none) := by decide +kernel
  rw [eq_ret_returned ((baseline .game grownTree).run exec (fun _ => false) 0
    interrupted).2.1, hdone] at hrun
  have hrestartable := baseline_restartable .game grownTree
  exact ⟨by decide +kernel, by decide +kernel, hrestartable.complete hrun,
    (hrestartable.kept (.more .none hrun)).1⟩

end FutureWas.VersionTable
