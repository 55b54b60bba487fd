import FutureWas.ActiveVersions
import FutureWas.Model.Syncer
import Mathlib.Tactic.Common

/-!
# Convergence of reloads

Nothing orders the replacement of a store by two loads of one server, so a load that read the
table before an edit can replace a store that shows it already. In runs where this does not
happen (`InOrder`), every server shows the last edit once the messages of a trigger that began
after it are handled.

`Current` is what a server aims at. Until the trigger has published it is the trigger that
carries the last edit (`Underway`), after that a message or a load of each server (`Served`).
-/

set_option autoImplicit false

namespace FutureWas.Reload

variable {ι κ Row Store : Type} {fleet : Fleet ι} {S : Syncer Row Store}

/-- No load replaces a store computed from a later edition than the one it has read. -/
def InOrder (s : System ι κ Row Store) : Action ι κ Row → Prop
  | .replace k => ∀ i ed n, s.trigger k = .read i ed → s.computedFrom i = some n → n ≤ ed.number
  | .subscriberReplace i => ∀ ed n, s.subscriber i = .read ed → s.computedFrom i = some n →
      n ≤ ed.number
  | _ => True

structure Quiescent (s : System ι κ Row Store) : Prop where
  triggers : ∀ k, s.trigger k = .idle ∨ s.trigger k = .done
  subscribers : ∀ i, s.subscriber i = .waiting
  messages : ∀ i, s.inFlight i = []

/-- Before the first step; the stores are whatever the servers loaded when they started. -/
structure Initial (s : System ι κ Row Store) : Prop where
  triggers : ∀ k, s.trigger k = .idle
  subscribers : ∀ i, s.subscriber i = .waiting
  messages : ∀ i, s.inFlight i = []
  computedFrom : ∀ i, s.computedFrom i = none

def Action.isEdit : Action ι κ Row → Bool
  | .edit _ => true
  | _ => false

def TriggeredSinceEdit (acts : List (Action ι κ Row)) : Prop :=
  ∃ before k i after, acts = before ++ .trigger k i :: after ∧ ∀ a ∈ after, a.isEdit = false

def Shows (S : Syncer Row Store) (s : System ι κ Row Store) (i : ι) : Prop :=
  S.load s.table.rows (s.store i) = .ok (s.store i)

/-- Quiescent runs with a trigger after the last edit end with every store up to date. -/
def Converges [DecidableEq ι] [DecidableEq κ] (fleet : Fleet ι) (S : Syncer Row Store)
    (allowed : System ι κ Row Store → Action ι κ Row → Prop) : Prop :=
  ∀ start acts s, Initial start → Run fleet S allowed start acts s → Quiescent s →
    TriggeredSinceEdit acts → ∀ i, Shows S s i

/-! ## Editions -/

def Known (s : System ι κ Row Store) (ed : Edition Row) : Prop :=
  ed.number ≤ s.table.number ∧ (ed.number = s.table.number → ed.rows = s.table.rows)

structure Sound (S : Syncer Row Store) (s : System ι κ Row Store) : Prop where
  triggers : ∀ k i ed, s.trigger k = .read i ed → Known s ed
  subscribers : ∀ i ed, s.subscriber i = .read ed → Known s ed
  stores : ∀ i n, s.computedFrom i = some n →
    n ≤ s.table.number ∧ (n = s.table.number → Shows S s i)

theorem Known.edit {s : System ι κ Row Store} {ed : Edition Row} (h : Known s ed)
    (rows : List Row) : Known { s with table := ⟨s.table.number + 1, rows⟩ } ed := by
  refine ⟨Nat.le_succ_of_le h.1, ?_⟩
  intro hnumber
  have hle := h.1
  change ed.number = s.table.number + 1 at hnumber
  omega

theorem sound_replaceStore [DecidableEq ι] {s : System ι κ Row Store} (h : Sound S s) {i : ι}
    {ed : Edition Row} (hed : Known s ed) {v : Store}
    (hload : S.load ed.rows (s.store i) = .ok v) :
    ∀ j n, (s.replaceStore i v ed.number).computedFrom j = some n →
      n ≤ s.table.number ∧
        (n = s.table.number → Shows S (s.replaceStore i v ed.number) j) := by
  intro j n hn
  by_cases hj : j = i
  · subst hj
    have hnumber : ed.number = n := by simpa [System.replaceStore] using hn
    subst hnumber
    refine ⟨hed.1, ?_⟩
    intro hpresent
    unfold Shows
    simp only [System.replaceStore, Function.update_self]
    rw [← hed.2 hpresent, S.replaces _ _ (s.store j)]
    exact hload
  · have hn : s.computedFrom j = some n := by
      simpa [System.replaceStore, Function.update_of_ne hj] using hn
    refine ⟨(h.stores j n hn).1, ?_⟩
    intro hpresent
    unfold Shows
    simp only [System.replaceStore, Function.update_of_ne hj]
    exact (h.stores j n hn).2 hpresent

theorem sound_setTrigger [DecidableEq κ] {s : System ι κ Row Store} (h : Sound S s) (k : κ)
    {p : TriggerPhase ι Row} (hp : ∀ i ed, p = .read i ed → Known s ed) :
    Sound S (s.setTrigger k p) := by
  refine ⟨?_, h.subscribers, h.stores⟩
  intro k' i ed hk'
  by_cases hk : k' = k
  · subst hk
    exact hp i ed (by simpa [System.setTrigger] using hk')
  · exact h.triggers k' i ed (by simpa [System.setTrigger, Function.update_of_ne hk] using hk')

theorem sound_setSubscriber [DecidableEq ι] {s : System ι κ Row Store} (h : Sound S s) (i : ι)
    {p : SubscriberPhase Row} (hp : ∀ ed, p = .read ed → Known s ed) :
    Sound S (s.setSubscriber i p) := by
  refine ⟨h.triggers, ?_, h.stores⟩
  intro j ed hj'
  by_cases hj : j = i
  · subst hj
    exact hp ed (by simpa [System.setSubscriber] using hj')
  · exact h.subscribers j ed
      (by simpa [System.setSubscriber, Function.update_of_ne hj] using hj')

theorem step_sound [DecidableEq ι] [DecidableEq κ] {s s' : System ι κ Row Store}
    {a : Action ι κ Row}
    (hstep : Step fleet S s a s') (h : Sound S s) : Sound S s' := by
  cases hstep with
  | edit rows =>
    refine ⟨fun k i ed hk => (h.triggers k i ed hk).edit rows,
      fun i ed hi => (h.subscribers i ed hi).edit rows, ?_⟩
    intro i n hn
    have hle : n ≤ s.table.number := (h.stores i n hn).1
    refine ⟨Nat.le_succ_of_le hle, ?_⟩
    intro hnumber
    change n = s.table.number + 1 at hnumber
    omega
  | trigger i hk => exact sound_setTrigger h _ (by simp)
  | read hk =>
    refine sound_setTrigger h _ ?_
    intro i ed hed
    cases hed
    exact ⟨le_refl _, fun _ => rfl⟩
  | replace hk hload =>
    have hrest : Sound S (s.replaceStore _ _ _) :=
      ⟨h.triggers, h.subscribers, sound_replaceStore h (h.triggers _ _ _ hk) hload⟩
    exact sound_setTrigger hrest _ (by simp)
  | @publish k i hk =>
    have hrest : Sound S (s.broadcast (fleet.selfID i)) := ⟨h.triggers, h.subscribers, h.stores⟩
    exact sound_setTrigger hrest _ (by simp)
  | skip hi hmsg hskip => exact ⟨h.triggers, h.subscribers, h.stores⟩
  | @receive i payload before after hi hmsg hskip =>
    have hrest : Sound S (s.setInFlight i (before ++ after)) :=
      ⟨h.triggers, h.subscribers, h.stores⟩
    exact sound_setSubscriber hrest _ (by simp)
  | subscriberRead hi =>
    refine sound_setSubscriber h _ ?_
    intro ed hed
    cases hed
    exact ⟨le_refl _, fun _ => rfl⟩
  | subscriberReplace hi hload =>
    have hrest : Sound S (s.replaceStore _ _ _) :=
      ⟨h.triggers, h.subscribers, sound_replaceStore h (h.subscribers _ _ hi) hload⟩
    exact sound_setSubscriber hrest _ (by simp)

/-! ## After the last edit -/

def Current (s : System ι κ Row Store) (i : ι) : Prop :=
  s.computedFrom i = some s.table.number

/-- Server `i` shows the present edition, or a load of it or a message is on its way. -/
def Served (fleet : Fleet ι) (s : System ι κ Row Store) (i : ι) : Prop :=
  Current s i ∨ s.subscriber i = .begun ∨
    (∃ ed, s.subscriber i = .read ed ∧ ed.number = s.table.number) ∨
    ∃ payload ∈ s.inFlight i, fleet.skips i payload = false

/-- Trigger `k`, begun in the present edition, has brought it this far. -/
def Underway (fleet : Fleet ι) (s : System ι κ Row Store) (k : κ) : Prop :=
  match s.trigger k with
  | .idle => False
  | .begun _ => True
  | .read _ ed => ed.number = s.table.number
  | .replaced i => Current s i
  | .done => ∀ i, Served fleet s i

section

variable {s : System ι κ Row Store}

theorem current_replaceStore [DecidableEq ι] {i : ι} (v : Store) {ed : Edition Row}
    (hed : Known s ed) (hord : ∀ n, s.computedFrom i = some n → n ≤ ed.number) (j : ι)
    (hj : Current s j ∨ (j = i ∧ ed.number = s.table.number)) :
    Current (s.replaceStore i v ed.number) j := by
  unfold Current at hj ⊢
  by_cases hji : j = i
  · subst hji
    have hnumber : ed.number = s.table.number := by
      rcases hj with hcurrent | hpresent
      · have hle := hord _ hcurrent
        have hknown := hed.1
        omega
      · exact hpresent.2
    simp [System.replaceStore, hnumber]
  · have hcurrent : s.computedFrom j = some s.table.number :=
      hj.resolve_right fun hpresent => hji hpresent.1
    simpa [System.replaceStore, Function.update_of_ne hji] using hcurrent

theorem Served.keep {s' : System ι κ Row Store} {j : ι} (h : Served fleet s j)
    (htable : s'.table = s.table) (hcurrent : Current s j → Current s' j)
    (hsub : s'.subscriber j = s.subscriber j)
    (hmsg : ∀ payload ∈ s.inFlight j, payload ∈ s'.inFlight j) : Served fleet s' j := by
  unfold Served
  rw [hsub, htable]
  rcases h with h | h | h | ⟨payload, hpayload, hskip⟩
  · exact Or.inl (hcurrent h)
  · exact Or.inr (Or.inl h)
  · exact Or.inr (Or.inr (Or.inl h))
  · exact Or.inr (Or.inr (Or.inr ⟨payload, hmsg payload hpayload, hskip⟩))

theorem mem_of_remaining {before after : List String} {payload p : String}
    (hp : p ∈ before ++ payload :: after) (hne : p ≠ payload) : p ∈ before ++ after := by
  rcases List.mem_append.mp hp with hp | hp
  · exact List.mem_append_left _ hp
  · exact List.mem_append_right _ (List.mem_of_ne_of_mem hne hp)

theorem step_served [DecidableEq ι] [DecidableEq κ] {s' : System ι κ Row Store}
    {a : Action ι κ Row}
    (hstep : Step fleet S s a s') (hs : Sound S s) (hord : InOrder s a)
    (hedit : a.isEdit = false) {j : ι} (h : Served fleet s j) : Served fleet s' j := by
  cases hstep with
  | edit rows => cases hedit
  | trigger i hk => exact h.keep rfl id rfl fun _ hp => hp
  | read hk => exact h.keep rfl id rfl fun _ hp => hp
  | @replace k i ed v hk hload =>
    refine h.keep rfl (fun hcurrent => ?_) rfl fun _ hp => hp
    exact current_replaceStore v (hs.triggers k i ed hk) (fun n => hord i ed n hk) j
      (Or.inl hcurrent)
  | publish hk => exact h.keep rfl id rfl fun _ hp => List.mem_append_left _ hp
  | @skip i payload before after hi hmsg hskip =>
    by_cases hj : j = i
    · subst hj
      rcases h with h | h | h | ⟨p, hp, hnot⟩
      · exact Or.inl h
      · exact Or.inr (Or.inl h)
      · exact Or.inr (Or.inr (Or.inl h))
      · have hne : p ≠ payload := by
          intro heq
          rw [heq, hskip] at hnot
          cases hnot
        rw [hmsg] at hp
        refine Or.inr (Or.inr (Or.inr ⟨p, ?_, hnot⟩))
        simpa [System.setInFlight] using mem_of_remaining hp hne
    · refine h.keep rfl id rfl fun p hp => ?_
      simpa [System.setInFlight, Function.update_of_ne hj] using hp
  | @receive i payload before after hi hmsg hskip =>
    by_cases hj : j = i
    · subst hj
      refine Or.inr (Or.inl ?_)
      simp [System.setSubscriber]
    · refine h.keep rfl id ?_ fun p hp => ?_
      · simp [System.setSubscriber, System.setInFlight, Function.update_of_ne hj]
      · simpa [System.setSubscriber, System.setInFlight, Function.update_of_ne hj] using hp
  | @subscriberRead i hi =>
    by_cases hj : j = i
    · subst hj
      refine Or.inr (Or.inr (Or.inl ⟨s.table, ?_, rfl⟩))
      simp [System.setSubscriber]
    · refine h.keep rfl id ?_ fun _ hp => hp
      simp [System.setSubscriber, Function.update_of_ne hj]
  | @subscriberReplace i ed v hi hload =>
    have hcurrent : ∀ j, Current s j ∨ (j = i ∧ ed.number = s.table.number) →
        Current (s.replaceStore i v ed.number) j :=
      current_replaceStore v (hs.subscribers i ed hi) fun n => hord ed n hi
    by_cases hj : j = i
    · subst hj
      rcases h with h | h | ⟨ed', hed', hnumber⟩ | ⟨p, hp, hnot⟩
      · exact Or.inl (hcurrent j (Or.inl h))
      · rw [hi] at h
        cases h
      · rw [hi] at hed'
        cases hed'
        exact Or.inl (hcurrent j (Or.inr ⟨rfl, hnumber⟩))
      · exact Or.inr (Or.inr (Or.inr ⟨p, hp, hnot⟩))
    · refine h.keep rfl (fun h => hcurrent j (Or.inl h)) ?_ fun _ hp => hp
      simp [System.setSubscriber, System.replaceStore, Function.update_of_ne hj]

theorem served_broadcast {i : ι} (hcurrent : Current s i) (j : ι) :
    Served fleet (s.broadcast (fleet.selfID i)) j := by
  cases hskip : fleet.skips j (fleet.selfID i) with
  | false =>
    refine Or.inr (Or.inr (Or.inr ⟨fleet.selfID i, ?_, hskip⟩))
    simp [System.broadcast]
  | true =>
    have hsame : fleet.selfID i = fleet.selfID j ∧ fleet.selfID j ≠ "" := by
      simpa [Fleet.skips] using hskip
    have hji : j = i := fleet.distinct j i hsame.1.symm hsame.2
    subst hji
    exact Or.inl hcurrent

theorem step_underway [DecidableEq ι] [DecidableEq κ] {s' : System ι κ Row Store}
    {a : Action ι κ Row}
    (hstep : Step fleet S s a s') (hs : Sound S s) (hord : InOrder s a)
    (hedit : a.isEdit = false) {k : κ} (h : Underway fleet s k) : Underway fleet s' k := by
  -- A step that leaves trigger `k` alone.
  have hother : s'.trigger k = s.trigger k → s'.table = s.table →
      (∀ i, Current s i → Current s' i) → Underway fleet s' k := by
    intro htrigger htable hcurrent
    unfold Underway at h ⊢
    rw [htrigger]
    cases hk : s.trigger k with
    | idle => rw [hk] at h; exact h
    | begun i => trivial
    | read i ed =>
      rw [hk] at h
      dsimp only at h ⊢
      rw [htable]
      exact h
    | replaced i => rw [hk] at h; exact hcurrent i h
    | done => rw [hk] at h; exact fun j => step_served hstep hs hord hedit (h j)
  cases hstep with
  | edit rows => cases hedit
  | @trigger k' i hk' =>
    refine hother ?_ rfl fun _ h => h
    have hne : k ≠ k' := by
      intro heq
      subst heq
      unfold Underway at h
      rw [hk'] at h
      exact h
    simp [System.setTrigger, Function.update_of_ne hne]
  | @read k' i hk' =>
    by_cases hk : k = k'
    · subst hk
      unfold Underway
      simp [System.setTrigger]
    · exact hother (by simp [System.setTrigger, Function.update_of_ne hk]) rfl fun _ h => h
  | @replace k' i ed v hk' hload =>
    have hcurrent : ∀ j, Current s j ∨ (j = i ∧ ed.number = s.table.number) →
        Current (s.replaceStore i v ed.number) j :=
      current_replaceStore v (hs.triggers k' i ed hk') fun n => hord i ed n hk'
    by_cases hk : k = k'
    · subst hk
      unfold Underway at h ⊢
      rw [hk'] at h
      simp only [System.setTrigger, Function.update_self]
      exact hcurrent i (Or.inr ⟨rfl, h⟩)
    · refine hother ?_ rfl fun j hj => hcurrent j (Or.inl hj)
      simp [System.setTrigger, System.replaceStore, Function.update_of_ne hk]
  | @publish k' i hk' =>
    by_cases hk : k = k'
    · subst hk
      unfold Underway at h ⊢
      rw [hk'] at h
      simp only [System.setTrigger, Function.update_self]
      exact served_broadcast h
    · refine hother ?_ rfl fun _ h => h
      simp [System.setTrigger, System.broadcast, Function.update_of_ne hk]
  | skip hi hmsg hskip => exact hother rfl rfl fun _ h => h
  | receive hi hmsg hskip => exact hother rfl rfl fun _ h => h
  | subscriberRead hi => exact hother rfl rfl fun _ h => h
  | @subscriberReplace i ed v hi hload =>
    refine hother rfl rfl fun j hj => ?_
    exact current_replaceStore v (hs.subscribers i ed hi) (fun n => hord ed n hi) j (Or.inl hj)

/-! ## Runs -/

variable {allowed : System ι κ Row Store → Action ι κ Row → Prop}
  {s' : System ι κ Row Store} {acts : List (Action ι κ Row)}

theorem run_sound [DecidableEq ι] [DecidableEq κ] (hrun : Run fleet S allowed s acts s')
    (h : Sound S s) : Sound S s' := by
  induction hrun with
  | nil => exact h
  | cons _ hstep _ ih => exact ih (step_sound hstep h)

theorem run_underway [DecidableEq ι] [DecidableEq κ] (hrun : Run fleet S InOrder s acts s')
    (hs : Sound S s)
    (hedits : ∀ a ∈ acts, a.isEdit = false) {k : κ} (h : Underway fleet s k) :
    Underway fleet s' k := by
  induction hrun with
  | nil => exact h
  | @cons s a s₁ acts s' hord hstep _ ih =>
    have hedit := hedits a List.mem_cons_self
    exact ih (step_sound hstep hs) (fun b hb => hedits b (List.mem_cons_of_mem _ hb))
      (step_underway hstep hs hord hedit h)

theorem run_split [DecidableEq ι] [DecidableEq κ] {before after : List (Action ι κ Row)}
    {a : Action ι κ Row}
    (hrun : Run fleet S allowed s (before ++ a :: after) s') :
    ∃ s₁ s₂, Run fleet S allowed s before s₁ ∧ Step fleet S s₁ a s₂ ∧
      Run fleet S allowed s₂ after s' := by
  induction before generalizing s with
  | nil =>
    cases hrun with
    | cons _ hstep hrest => exact ⟨s, _, .nil, hstep, hrest⟩
  | cons b before ih =>
    cases hrun with
    | cons hb hstep hrest =>
      obtain ⟨s₁, s₂, hfirst, ha, hlast⟩ := ih hrest
      exact ⟨s₁, s₂, .cons hb hstep hfirst, ha, hlast⟩

theorem sound_initial (h : Initial s) : Sound S s := by
  refine ⟨?_, ?_, ?_⟩
  · intro k i ed hk
    rw [h.triggers k] at hk
    cases hk
  · intro i ed hi
    rw [h.subscribers i] at hi
    cases hi
  · intro i n hn
    rw [h.computedFrom i] at hn
    cases hn

theorem current_of_underway (hq : Quiescent s) {k : κ} (h : Underway fleet s k) (i : ι) :
    Current s i := by
  have hserved : Served fleet s i := by
    unfold Underway at h
    rcases hq.triggers k with hk | hk
    · rw [hk] at h
      exact h.elim
    · rw [hk] at h
      exact h i
  rcases hserved with h | h | ⟨ed, h, -⟩ | ⟨payload, h, -⟩
  · exact h
  · rw [hq.subscribers i] at h
    cases h
  · rw [hq.subscribers i] at h
    cases h
  · rw [hq.messages i] at h
    cases h

theorem converges_inOrder [DecidableEq ι] [DecidableEq κ] (fleet : Fleet ι)
    (S : Syncer Row Store) :
    Converges fleet S fun s (a : Action ι κ Row) => InOrder s a := by
  intro start acts s hinitial hrun hq hsince i
  obtain ⟨before, k, j, after, rfl, hedits⟩ := hsince
  obtain ⟨s₁, s₂, hbefore, hstep, hafter⟩ := run_split hrun
  have hsound₂ : Sound S s₂ := step_sound hstep (run_sound hbefore (sound_initial hinitial))
  have hunderway : Underway fleet s₂ k := by
    cases hstep
    unfold Underway
    simp [System.setTrigger]
  have hcurrent := current_of_underway hq (run_underway hafter hsound₂ hedits hunderway) i
  exact ((run_sound hafter hsound₂).stores i _ hcurrent).2 rfl

end

/-! ## The two syncers -/

/-- Any number of servers and triggers: in runs whose loads replace in order, both syncers
converge. -/
theorem reloads_converge {ι κ : Type} [DecidableEq ι] [DecidableEq κ] (fleet : Fleet ι) :
    (∀ cdn, Converges fleet (designSyncer cdn) fun s (a : Action ι κ Version) => InOrder s a) ∧
      Converges fleet resourceSyncer fun s (a : Action ι κ ServerMaintenance) => InOrder s a :=
  ⟨fun cdn => converges_inOrder fleet (designSyncer cdn), converges_inOrder fleet resourceSyncer⟩

/-! ## Two servers -/

def started {ι : Type} (rows : List Row) (v : Store) : System ι Bool Row Store where
  table := ⟨0, rows⟩
  store _ := v
  computedFrom _ := none
  trigger _ := .idle
  subscriber _ := .waiting
  inFlight _ := []

theorem initial_started {ι : Type} (rows : List Row) (v : Store) :
    Initial (started rows v : System ι Bool Row Store) :=
  ⟨fun _ => rfl, fun _ => rfl, fun _ => rfl, fun _ => rfl⟩

def pair : Fleet Bool := ⟨fun i => if i then "b" else "a", by decide⟩

def overlapping (new : List Row) : List (Action Bool Bool Row) :=
  [.trigger false false, .read false, .edit new, .trigger true true, .read true, .replace false,
    .publish false, .receive true, .subscriberRead true, .replace true, .subscriberReplace true,
    .publish true, .receive false, .receive false, .subscriberRead false, .subscriberReplace false,
    .receive true]

theorem sinceEdit_overlapping (new : List Row) : TriggeredSinceEdit (overlapping new) :=
  ⟨[.trigger false false, .read false, .edit new], true, true, _, rfl, by simp [Action.isEdit]⟩

theorem receive_skip {s : System Bool Bool Row Store} {i : Bool} {rest : List String}
    (hs : s.subscriber i = .waiting) (hm : s.inFlight i = pair.selfID i :: rest) :
    Step pair S s (.receive i) (s.setInFlight i rest) := by
  refine @Step.skip _ _ _ _ _ _ pair S s i _ [] rest hs hm ?_
  cases i <;> rfl

theorem receive_other {s : System Bool Bool Row Store} {i : Bool} {rest : List String}
    (hs : s.subscriber i = .waiting) (hm : s.inFlight i = pair.selfID (!i) :: rest) :
    Step pair S s (.receive i) ((s.setInFlight i rest).setSubscriber i .begun) := by
  refine @Step.receive _ _ _ _ _ _ pair S s i _ [] rest hs hm ?_
  cases i <;> rfl

theorem inOrder_replace {s : System ι κ Row Store} {k : κ} {i : ι} {ed : Edition Row}
    {n : Option ℕ} (h : s.trigger k = .read i ed) (hn : s.computedFrom i = n)
    (hle : ∀ m ∈ n, m ≤ ed.number) : InOrder s (.replace k) := by
  intro i' ed' m h' hm
  obtain ⟨rfl, rfl⟩ := TriggerPhase.read.inj (h.symm.trans h')
  exact hle m (hn.symm.trans hm)

theorem inOrder_subscriberReplace {s : System ι κ Row Store} {i : ι} {ed : Edition Row}
    {n : Option ℕ} (h : s.subscriber i = .read ed) (hn : s.computedFrom i = n)
    (hle : ∀ m ∈ n, m ≤ ed.number) : InOrder s (.subscriberReplace i) := by
  intro ed' m h' hm
  obtain rfl := SubscriberPhase.read.inj (h.symm.trans h')
  exact hle m (hn.symm.trans hm)

theorem run_overlapping {old new : List Row} {v w : Store} (hv : ∀ s, S.load old s = .ok v)
    (hw : ∀ s, S.load new s = .ok w) :
    ∃ s, Run pair S (fun s a => InOrder s a) (started old v) (overlapping new) s ∧
      Quiescent s := by
  have hnone : ∀ n, ∀ m ∈ (none : Option ℕ), m ≤ n := by simp
  have hsome : ∀ n ≤ 1, ∀ m ∈ some n, m ≤ 1 := by simp
  have hrun : Run pair S (fun s a => InOrder s a) (started old v) (overlapping new) _ :=
    .cons trivial (.trigger false rfl) <| .cons trivial (.read rfl) <|
      .cons trivial (.edit new) <| .cons trivial (.trigger true rfl) <|
      .cons trivial (.read rfl) <|
      .cons (inOrder_replace rfl rfl (hnone 0)) (.replace rfl (hv _)) <|
      .cons trivial (.publish rfl) <| .cons trivial (receive_other rfl rfl) <|
      .cons trivial (.subscriberRead rfl) <|
      .cons (inOrder_replace rfl rfl (hnone 1)) (.replace rfl (hw _)) <|
      .cons (inOrder_subscriberReplace rfl rfl (hsome 1 (by decide)))
        (.subscriberReplace rfl (hw _)) <|
      .cons trivial (.publish rfl) <| .cons trivial (receive_skip rfl rfl) <|
      .cons trivial (receive_other rfl rfl) <| .cons trivial (.subscriberRead rfl) <|
      .cons (inOrder_subscriberReplace rfl rfl (hsome 0 (by decide)))
        (.subscriberReplace rfl (hw _)) <|
      .cons trivial (receive_skip rfl rfl) .nil
  refine ⟨_, hrun, ⟨?_, ?_, ?_⟩⟩
  · intro k
    cases k with
    | false => exact Or.inr rfl
    | true => exact Or.inr rfl
  · intro i
    cases i with
    | false => rfl
    | true => rfl
  · intro i
    cases i with
    | false => rfl
    | true => rfl

def maintenance : ServerMaintenance := ⟨1, 100, 200, "", 1, 1⟩

theorem reloads_converge_pair :
    (∃ v s, Run pair (designSyncer ActiveVersions.releaseCdn) (fun s a => InOrder s a)
        (started ActiveVersions.threeVersions.tail v) (overlapping ActiveVersions.threeVersions) s ∧
      ∀ i, Shows (designSyncer ActiveVersions.releaseCdn) s i) ∧
    ∃ s, Run pair resourceSyncer (fun s a => InOrder s a) (started [maintenance] ⟨[maintenance]⟩)
        (overlapping [⟨2, 300, 400, "", 2, 1⟩, maintenance]) s ∧
      ∀ i, Shows resourceSyncer s i := by
  constructor
  · have hold : ((designSyncer ActiveVersions.releaseCdn).load ActiveVersions.threeVersions.tail
        ⟨∅⟩).isOk = true := by decide +kernel
    have hnew : ((designSyncer ActiveVersions.releaseCdn).load ActiveVersions.threeVersions
        ⟨∅⟩).isOk = true := by decide +kernel
    obtain ⟨v, hv⟩ := ActiveVersions.exists_of_isOk hold
    obtain ⟨w, hw⟩ := ActiveVersions.exists_of_isOk hnew
    obtain ⟨s, hrun, hq⟩ := @run_overlapping _ _ (designSyncer ActiveVersions.releaseCdn) _ _ v w
      (fun _ => hv) (fun _ => hw)
    exact ⟨v, s, hrun, (reloads_converge pair).1 _ _ _ s (initial_started _ _) hrun hq
      (sinceEdit_overlapping _)⟩
  · obtain ⟨s, hrun, hq⟩ := @run_overlapping _ _ resourceSyncer [maintenance]
      [⟨2, 300, 400, "", 2, 1⟩, maintenance] _ _ (fun _ => rfl) (fun _ => rfl)
    exact ⟨s, hrun, (reloads_converge pair).2 _ _ s (initial_started _ _) hrun hq
      (sinceEdit_overlapping _)⟩

/-! ## A late replacement -/

def single : Fleet Unit := ⟨fun _ => "a", fun _ _ _ _ => rfl⟩

def lateReplace (new : List Row) : List (Action Unit Bool Row) :=
  [.trigger false (), .read false, .edit new, .trigger true (), .read true, .replace true,
    .publish true, .receive (), .replace false, .publish false, .receive ()]

theorem run_lateReplace {old new : List Row} {v w : Store} (hv : ∀ s, S.load old s = .ok v)
    (hw : ∀ s, S.load new s = .ok w) :
    ∃ s, Run single S (fun _ _ => True) (started old v) (lateReplace new) s ∧ Quiescent s ∧
      s.table.rows = new ∧ s.store () = v := by
  have hskip : ∀ s : System Unit Bool Row Store, s.subscriber () = .waiting →
      s.inFlight () = ["a"] → Step single S s (.receive ()) (s.setInFlight () []) :=
    fun s hs hm => @Step.skip _ _ _ _ _ _ single S s () "a" [] [] hs hm rfl
  have hrun : Run single S (fun _ _ => True) (started old v) (lateReplace new) _ :=
    .cons trivial (.trigger () rfl) <| .cons trivial (.read rfl) <|
      .cons trivial (.edit new) <| .cons trivial (.trigger () rfl) <|
      .cons trivial (.read rfl) <| .cons trivial (.replace rfl (hw _)) <|
      .cons trivial (.publish rfl) <| .cons trivial (hskip _ rfl rfl) <|
      .cons trivial (.replace rfl (hv _)) <| .cons trivial (.publish rfl) <|
      .cons trivial (hskip _ rfl rfl) .nil
  refine ⟨_, hrun, ⟨?_, fun _ => rfl, fun _ => rfl⟩, rfl, rfl⟩
  intro k
  cases k with
  | false => exact Or.inr rfl
  | true => exact Or.inr rfl

theorem not_converges_of_loads {old new : List Row} {v w : Store}
    (hv : ∀ s, S.load old s = .ok v) (hw : ∀ s, S.load new s = .ok w) (hne : v ≠ w) :
    ¬ Converges single S fun _ (_ : Action Unit Bool Row) => True := by
  intro h
  obtain ⟨s, hrun, hq, htable, hstore⟩ := run_lateReplace hv hw
  have hsince : TriggeredSinceEdit (lateReplace new) :=
    ⟨[.trigger false (), .read false, .edit new], true, (),
      [.read true, .replace true, .publish true, .receive (), .replace false, .publish false,
        .receive ()], rfl, by simp [Action.isEdit]⟩
  have hshows := h _ _ s (initial_started _ _) hrun hq hsince ()
  unfold Shows at hshows
  rw [htable, hstore, hw] at hshows
  cases hshows
  exact hne rfl

def oneVersion (serverVersion : String) : List Version :=
  [⟨1, "2.01.01", serverVersion, "app", 1⟩]

/-- The store ends with the contents before the edit. -/
theorem not_converges :
    (¬ Converges single (designSyncer ActiveVersions.emptyCdn)
        fun _ (_ : Action Unit Bool Version) => True) ∧
      ¬ Converges single resourceSyncer fun _ (_ : Action Unit Bool ServerMaintenance) => True := by
  refine ⟨?_, ?_⟩
  · refine @not_converges_of_loads _ _ _ (oneVersion "2.01.01.00") (oneVersion "2.01.02.00")
      ⟨AList.singleton "2.01.01" (newCatalog "2.01.01.00")⟩
      ⟨AList.singleton "2.01.01" (newCatalog "2.01.02.00")⟩ (fun _ => rfl) (fun _ => rfl) ?_
    intro heq
    have hlookup := congrArg (fun s => (s.getByClientVersion "2.01.01").map Catalog.version) heq
    revert hlookup
    decide
  · exact @not_converges_of_loads _ _ _ [maintenance] [] ⟨[maintenance]⟩ ⟨[]⟩ (fun _ => rfl)
      (fun _ => rfl) (by decide)

end FutureWas.Reload
