import FutureWas.Model.Clock
import Mathlib.Data.Fintype.Basic

/-!
# The offset and its log

The row with the greatest index is either still to be set by the request that inserted it, or
the offset is what it says (`Tracks`). Every step keeps this as long as offsets are set in the
order of their rows and no product of 64 bits overflows.
-/

set_option autoImplicit false

namespace FutureWas.Clock

def Exact (n : Int64) : Prop := -9223372036 ≤ n.toInt ∧ n.toInt ≤ 9223372036

theorem seconds_toInt_iff (n : Int64) :
    (seconds n).toInt = n.toInt * 1000000000 ↔ Exact n := by
  have hlow := n.le_toInt
  have hhigh := n.toInt_lt
  have hproduct : (seconds n).toInt = (n.toInt * 1000000000).bmod (2 ^ 64) := by
    unfold seconds second
    rw [Int64.toInt_mul]
    rfl
  rw [hproduct]
  constructor
  · intro h
    have hle := Int.le_bmod (x := n.toInt * 1000000000) (m := 2 ^ 64) (by decide)
    have hlt := Int.bmod_lt (x := n.toInt * 1000000000) (m := 2 ^ 64) (by decide)
    rw [h] at hle hlt
    unfold Exact
    omega
  · rintro ⟨hmin, hmax⟩
    apply Int.bmod_eq_of_le <;> omega

/-! ## One occurrence -/

section

variable {ι : Type} [DecidableEq ι]

inductive Steps (s : Server ι) : Event ι → Server ι → Prop
  | refused {i n} : s.requests i = none → Steps s (.arrive i n "") s
  | arrived {i n user} : s.requests i = none → user ≠ "" →
      Steps s (.arrive i n user) (s.enter i (.bound n user))
  | done {i n user idx} : s.requests i = some (.bound n user) → s.IsNew idx →
      Steps s (.insert i (.done idx)) ((s.addRow ⟨idx, n, user⟩).enter i (.inserted ⟨idx, n, user⟩))
  | failed {i n user} : s.requests i = some (.bound n user) →
      Steps s (.insert i .failed) (s.answer i)
  | unreported {i n user idx} : s.requests i = some (.bound n user) → s.IsNew idx →
      Steps s (.insert i (.unreported idx)) ((s.addRow ⟨idx, n, user⟩).answer i)
  | set {i row} : s.requests i = some (.inserted row) →
      Steps s (.set i) ((s.setOffset (seconds row.addSecond)).answer i)
  | restart {found} : Steps s (.restart found) (boot s.rows found)

variable {s s' : Server ι}

theorem steps_of_step {e : Event ι} (h : step s e = some s') : Steps s e s' := by
  cases e with
  | arrive i n user =>
    simp only [step] at h
    split_ifs at h with hbusy huser
    · cases h
      subst huser
      exact .refused (not_not.mp hbusy)
    · cases h
      exact .arrived (not_not.mp hbusy) huser
  | insert i result =>
    simp only [step] at h
    split at h
    · rename_i n user idx hrequest
      split_ifs at h with hnew
      cases h
      exact .done hrequest hnew
    · rename_i hrequest
      cases h
      exact .failed hrequest
    · rename_i n user idx hrequest
      split_ifs at h with hnew
      cases h
      exact .unreported hrequest hnew
    · cases h
  | set i =>
    simp only [step] at h
    split at h
    · rename_i row hrequest
      cases h
      exact .set hrequest
    · cases h
  | restart found =>
    cases h
    exact .restart

/-! ## What the offset follows -/

def expected (rows : List AddServerTime) : ℤ :=
  ((findLatest rows).map fun row => row.addSecond.toInt * 1000000000).getD 0

def Follows (s : Server ι) : Prop := s.offsetNs.toInt = expected s.rows

def Quiet (s : Server ι) : Prop := ∀ i, s.requests i = none

/-- The latest row is the business of a request, or the offset is what the log asks for. -/
structure Tracks (s : Server ι) : Prop where
  known : ∀ i row, s.requests i = some (.inserted row) →
    row ∈ s.rows ∧ ∀ r ∈ s.rows, r.idx = row.idx → r = row
  latest : (∃ row ∈ findLatest s.rows, ∃ i, s.requests i = some (.inserted row)) ∨ Follows s

/-- The row a request is about to set: every later row is still to be set as well. -/
def SetsInOrder (s : Server ι) : Option Phase → Prop
  | some (.inserted row) => Exact row.addSecond ∧
      ∀ r ∈ s.rows, row.idx < r.idx → ∃ j, s.requests j = some (.inserted r)
  | _ => True

/-- Offsets are set in the order of the rows, each is a product that does not overflow, an
insert that takes effect is reported, and a restart finds the latest row. -/
def Orderly (s : Server ι) : Event ι → Prop
  | .insert _ (.unreported _) => False
  | .set i => SetsInOrder s (s.requests i)
  | .restart found => ∀ row ∈ findLatest s.rows, found = true ∧ Exact row.addSecond
  | _ => True

omit [DecidableEq ι] in
theorem Tracks.follows (h : Tracks s) (hquiet : Quiet s) : Follows s := by
  refine h.latest.resolve_left ?_
  rintro ⟨row, -, i, hrequest⟩
  rw [hquiet i] at hrequest
  cases hrequest

omit [DecidableEq ι] in
theorem follows_of_latest {row : AddServerTime} (hlatest : findLatest s.rows = some row)
    (hset : s.offsetNs.toInt = row.addSecond.toInt * 1000000000) : Follows s := by
  rw [Follows, expected, hlatest, Option.map_some, Option.getD_some, hset]

omit [DecidableEq ι] in
theorem tracks_boot {rows : List AddServerTime} {found : Bool}
    (h : ∀ row ∈ findLatest rows, found = true ∧ Exact row.addSecond) :
    Tracks (boot rows found : Server ι) := by
  refine ⟨fun i row hrequest => ?_, Or.inr ?_⟩
  · cases hrequest
  · cases hlatest : findLatest rows with
    | none => cases found <;> simp [Follows, expected, boot, hlatest]
    | some row =>
      obtain ⟨rfl, hexact⟩ := h row hlatest
      refine follows_of_latest hlatest ?_
      simp only [boot, hlatest]
      exact (seconds_toInt_iff row.addSecond).mpr hexact

theorem findLatest_append {rows : List AddServerTime} {row : AddServerTime}
    (hnew : ∀ r ∈ rows, r.idx < row.idx) : findLatest (rows ++ [row]) = some row := by
  unfold findLatest
  rw [List.argmax_concat]
  cases hlatest : rows.argmax AddServerTime.idx with
  | none => rfl
  | some last => exact if_pos (hnew last (List.argmax_mem hlatest))

theorem tracks_update {i : ι} {phase : Option Phase} (h : Tracks s)
    (hbefore : ∀ row, s.requests i ≠ some (.inserted row))
    (hafter : ∀ row, phase ≠ some (.inserted row)) :
    Tracks { s with requests := Function.update s.requests i phase } := by
  have hsame : ∀ j row, s.requests j = some (.inserted row) ↔
      Function.update s.requests i phase j = some (.inserted row) := by
    intro j row
    by_cases hj : j = i
    · subst hj
      rw [Function.update_self]
      exact iff_of_false (hbefore row) (hafter row)
    · rw [Function.update_of_ne hj]
  refine ⟨fun j row hrequest => h.known j row ((hsame j row).mpr hrequest), ?_⟩
  refine h.latest.imp_left ?_
  rintro ⟨row, hrow, j, hrequest⟩
  exact ⟨row, hrow, j, (hsame j row).mp hrequest⟩

theorem tracks_done {i : ι} {row : AddServerTime} (h : Tracks s) (hnew : s.IsNew row.idx) :
    Tracks ((s.addRow row).enter i (.inserted row)) := by
  have hlast : row ∈ s.rows ++ [row] := List.mem_append_right _ (List.mem_singleton_self row)
  refine ⟨?_, Or.inl ⟨row, findLatest_append hnew, i, Function.update_self _ _ _⟩⟩
  intro j r hrequest
  simp only [Server.enter, Server.addRow] at hrequest ⊢
  by_cases hj : j = i
  · subst hj
    rw [Function.update_self] at hrequest
    cases hrequest
    refine ⟨hlast, fun r hr hidx => ?_⟩
    rcases List.mem_append.mp hr with hr | hr
    · exact absurd hidx (Nat.ne_of_lt (hnew r hr))
    · exact List.mem_singleton.mp hr
  · rw [Function.update_of_ne hj] at hrequest
    obtain ⟨hmem, hunique⟩ := h.known j r hrequest
    refine ⟨List.mem_append_left _ hmem, fun r' hr' hidx => ?_⟩
    rcases List.mem_append.mp hr' with hr' | hr'
    · exact hunique r' hr' hidx
    · rw [List.mem_singleton.mp hr'] at hidx
      exact absurd hidx.symm (Nat.ne_of_lt (hnew r hmem))

theorem tracks_set {i : ι} {row : AddServerTime} (h : Tracks s)
    (hrequest : s.requests i = some (.inserted row)) {d : Int64}
    (hd : d.toInt = row.addSecond.toInt * 1000000000)
    (horder : ∀ r ∈ s.rows, row.idx < r.idx → ∃ j, s.requests j = some (.inserted r)) :
    Tracks ((s.setOffset d).answer i) := by
  obtain ⟨hmem, hunique⟩ := h.known i row hrequest
  refine ⟨?_, ?_⟩
  · intro j r hj
    simp only [Server.answer, Server.setOffset] at hj ⊢
    by_cases hij : j = i
    · rw [hij, Function.update_self] at hj
      cases hj
    · rw [Function.update_of_ne hij] at hj
      exact h.known j r hj
  · cases hlatest : findLatest s.rows with
    | none =>
      rw [List.argmax_eq_none.mp hlatest] at hmem
      cases hmem
    | some last =>
      have hle : row.idx ≤ last.idx := List.le_of_mem_argmax hmem hlatest
      rcases Nat.lt_or_eq_of_le hle with hlt | heq
      · -- the latest row is still the business of another request
        obtain ⟨j, hj⟩ := horder last (List.argmax_mem hlatest) hlt
        have hij : j ≠ i := by
          rintro rfl
          rw [hrequest] at hj
          cases hj
          exact Nat.lt_irrefl _ hlt
        refine Or.inl ⟨last, hlatest, j, ?_⟩
        simp only [Server.answer, Server.setOffset]
        rw [Function.update_of_ne hij]
        exact hj
      · have hlast : last = row := hunique last (List.argmax_mem hlatest) heq.symm
        rw [hlast] at hlatest
        exact Or.inr (follows_of_latest hlatest hd)

theorem tracks_step {e : Event ι} (h : Tracks s) (horderly : Orderly s e)
    (hstep : Steps s e s') : Tracks s' := by
  cases hstep with
  | refused _ => exact h
  | arrived hidle _ =>
    exact tracks_update h (fun row => by rw [hidle]; exact fun heq => by cases heq)
      fun row heq => by cases heq
  | done hrequest hnew => exact tracks_done h hnew
  | failed hrequest =>
    exact tracks_update h (fun row => by rw [hrequest]; exact fun heq => by cases heq)
      fun row heq => by cases heq
  | unreported _ _ => exact horderly.elim
  | set hrequest =>
    simp only [Orderly, hrequest, SetsInOrder] at horderly
    obtain ⟨hexact, horder⟩ := horderly
    exact tracks_set h hrequest ((seconds_toInt_iff _).mpr hexact) horder
  | restart => exact tracks_boot horderly

/-! ## Runs -/

def OrderlyRun : Server ι → List (Event ι) → Prop
  | _, [] => True
  | s, e :: es => Orderly s e ∧
    match step s e with
    | some s' => OrderlyRun s' es
    | none => True

theorem tracks_run {es : List (Event ι)} (h : Tracks s) (horderly : OrderlyRun s es)
    (hrun : run s es = some s') : Tracks s' := by
  induction es generalizing s with
  | nil =>
    cases hrun
    exact h
  | cons e es ih =>
    obtain ⟨s₁, hstep, hrest⟩ := Option.bind_eq_some_iff.mp hrun
    obtain ⟨hfirst, horderly⟩ := horderly
    rw [hstep] at horderly
    exact ih (tracks_step h hfirst (steps_of_step hstep)) horderly hrest

theorem offset_of_failed {i : ι} (h : step s (.insert i .failed) = some s') :
    s'.offsetNs = s.offsetNs ∧ s'.rows = s.rows ∧ s'.requests i = none := by
  cases steps_of_step h with
  | failed hrequest => exact ⟨rfl, rfl, Function.update_self _ _ _⟩

/-- The offset follows the log of one server, from its start through any number of jumps and
restarts. -/
structure FollowsLog (s : Server ι) : Prop where
  quiet : Quiet s → Follows s
  failed : ∀ i s', step s (.insert i .failed) = some s' →
    s'.offsetNs = s.offsetNs ∧ s'.rows = s.rows ∧ s'.requests i = none

theorem offset_follows_log {rows : List AddServerTime} {found : Bool} {es : List (Event ι)}
    (hboot : Orderly (boot rows found : Server ι) (.restart found))
    (horderly : OrderlyRun (boot rows found) es) (hrun : run (boot rows found) es = some s) :
    FollowsLog s :=
  ⟨(tracks_run (tracks_boot hboot) horderly hrun).follows, fun _ _ h => offset_of_failed h⟩

end

instance (n : Int64) : Decidable (Exact n) := inferInstanceAs (Decidable (_ ∧ _))

instance decidableSetsInOrder {ι : Type} [DecidableEq ι] [Fintype ι] (s : Server ι) :
    (phase : Option Phase) → Decidable (SetsInOrder s phase)
  | none => isTrue trivial
  | some (.bound _ _) => isTrue trivial
  | some (.inserted row) => inferInstanceAs (Decidable (Exact row.addSecond ∧
      ∀ r ∈ s.rows, row.idx < r.idx → ∃ j, s.requests j = some (.inserted r)))

instance decidableOrderly {ι : Type} [DecidableEq ι] [Fintype ι] (s : Server ι) :
    (e : Event ι) → Decidable (Orderly s e)
  | .arrive _ _ _ => isTrue trivial
  | .insert _ (.done _) => isTrue trivial
  | .insert _ .failed => isTrue trivial
  | .insert _ (.unreported _) => isFalse id
  | .set i => decidableSetsInOrder s (s.requests i)
  | .restart found => inferInstanceAs (Decidable
      (∀ row ∈ findLatest s.rows, found = true ∧ Exact row.addSecond))

def overlapping : List (Event Bool) :=
  [.arrive true 86400 "qa1", .arrive false 3600 "qa2", .insert true (.done 1),
    .insert false (.done 2), .set true, .set false, .restart true]

def crossing : List (Event Bool) :=
  [.arrive true 86400 "qa1", .arrive false 3600 "qa2", .insert true (.done 1),
    .insert false (.done 2), .set false, .set true]

def overflowing : List (Event Bool) :=
  [.arrive true 9223372037 "qa1", .insert true (.done 1), .set true]

theorem offset_follows_log_overlapping :
    ∃ s, run (boot [] true) overlapping = some s ∧ FollowsLog s ∧
      s.offsetNs.toInt = 3600 * 1000000000 := by
  have hboot : Orderly (boot [] true : Server Bool) (.restart true) := by decide
  have horderly : OrderlyRun (boot [] true : Server Bool) overlapping := by
    refine ⟨by decide, by decide, by decide, by decide, by decide, by decide, by decide, trivial⟩
  obtain ⟨s, hrun⟩ : ∃ s, run (boot [] true) overlapping = some s :=
    Option.isSome_iff_exists.mp (by decide)
  refine ⟨s, hrun, offset_follows_log hboot horderly hrun, ?_⟩
  have hoffset : (run (boot [] true) overlapping).map (fun s => s.offsetNs.toInt) =
      some (3600 * 1000000000) := by decide +kernel
  rw [hrun] at hoffset
  exact Option.some.inj hoffset

instance {ι : Type} (s : Server ι) : Decidable (Follows s) :=
  inferInstanceAs (Decidable (s.offsetNs.toInt = expected s.rows))

/-- Both runs end with no request in progress: one with the day of the first row beside a latest
row of one hour, the other with a wrapped product. -/
theorem not_follows_log :
    (∃ s : Server Bool, run (boot [] true) crossing = some s ∧ Quiet s ∧ ¬ Follows s) ∧
      ∃ s : Server Bool, run (boot [] true) overflowing = some s ∧ Quiet s ∧ ¬ Follows s := by
  have hbad : ∀ es : List (Event Bool), ((run (boot [] true) es).any fun s =>
      decide (s.requests true = none ∧ s.requests false = none ∧ ¬ Follows s)) = true →
      ∃ s : Server Bool, run (boot [] true) es = some s ∧ Quiet s ∧ ¬ Follows s := by
    intro es hes
    obtain ⟨s, hrun, hs⟩ := (Option.any_eq_true _ _).mp hes
    obtain ⟨htrue, hfalse, hnot⟩ := of_decide_eq_true hs
    refine ⟨s, hrun, ?_, hnot⟩
    rintro (_ | _)
    · exact hfalse
    · exact htrue
  exact ⟨hbad crossing (by decide +kernel), hbad overflowing (by decide +kernel)⟩

end FutureWas.Clock
