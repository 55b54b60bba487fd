import FutureWas.Effect.Series
import Mathlib.Data.List.Forall2

/-!
# Critical sections

Some programs of a family run their bodies one at a time: each waits until an answer lets it
in, runs its body, and leaves by one last call. While nobody else gets in, and everything
outside the bodies moves the services by `rely` only, an interleaved run is a series of the
bodies, in the order in which they were entered: `Exec.serial`.
-/

set_option autoImplicit false

namespace FutureWas.Effect

variable {ι Op : Type} {Resp : Op → Type} {ε α W L : Type}

/-- The answers that let a program in, with the label it then holds, and the calls by which it
leaves. -/
structure Gate {Op : Type} (Resp : Op → Type) (L : Type) where
  enters : (op : Op) → Resp op → Option L
  exits : Op → Bool
  exit : L → Op
  exits_exit : ∀ t, exits (exit t) = true
  enters_exit : ∀ t r, enters (exit t) r = none

inductive Stage (L : Type)
  | before
  | inside (t : L)
  | done

namespace Gate

variable (g : Gate Resp L)

def leave (t : L) : Prog Resp ε Unit := .call (g.exit t) fun _ => .ret ()

/-- Outside its body the program calls `ψ` only; once let in, it runs the body and leaves. -/
def Guards (ψ : Op → Prop) (body : Prog Resp ε α) : Prog Resp ε α → Prop
  | .ret _ => True
  | .raise _ => True
  | .call op k => ψ op ∧ ∀ r, match g.enters op r with
    | some t => k r = body.ensure (g.leave t)
    | none => Guards ψ body (k r)

def next : Stage L → (op : Op) → Resp op → Stage L
  | .before, op, r => match g.enters op r with
    | some t => .inside t
    | none => .before
  | .inside t, op, _ => if g.exits op then .done else .inside t
  | .done, _, _ => .done

def monitor : Monitor Resp := ⟨Stage L, fun _ _ => True, g.next⟩

section

variable [DecidableEq ι]

def stage (i : ι) (tr : List (Occurrence ι Resp W)) : Stage L := g.monitor.after i .before tr

variable (mine : ι → Prop) [DecidablePred mine]

def entered (tr : List (Occurrence ι Resp W)) : List ι :=
  tr.filterMap fun
    | .act i e => if mine i ∧ (g.enters e.op e.resp).isSome then some i else none
    | .env _ _ => none

end

variable {g}

theorem Guards.of_safe_bind {β : Type} {ψ : Op → Prop} {body : Prog Resp ε α}
    {p : Prog Resp ε β} {f : β → Prog Resp ε α}
    (hp : p.Safe fun op => ψ op ∧ ∀ r, g.enters op r = none) (hf : ∀ b, g.Guards ψ body (f b)) :
    g.Guards ψ body (p.bind f) := by
  induction p with
  | ret b => exact hf b
  | raise e => exact hp.elim
  | call op k ih =>
    refine ⟨hp.1.1, fun r => ?_⟩
    rw [hp.1.2 r]
    exact ih r (hp.2 r)

variable [DecidableEq ι]

@[simp] theorem stage_nil (i : ι) : g.stage i ([] : List (Occurrence ι Resp W)) = .before := rfl

theorem stage_act_self (i : ι) (tr : List (Occurrence ι Resp W)) (e : Event Resp W) :
    g.stage i (tr ++ [.act i e]) = g.next (g.stage i tr) e.op e.resp :=
  Monitor.after_act_self (m := g.monitor) i .before tr e

theorem stage_act_ne {i j : ι} (h : j ≠ i) (tr : List (Occurrence ι Resp W)) (e : Event Resp W) :
    g.stage i (tr ++ [.act j e]) = g.stage i tr :=
  Monitor.after_act_ne (m := g.monitor) h .before tr e

theorem stage_env (i : ι) (tr : List (Occurrence ι Resp W)) (w w' : W) :
    g.stage i (tr ++ [.env w w']) = g.stage i tr :=
  Monitor.after_env (m := g.monitor) i .before tr w w'

variable {mine : ι → Prop} [DecidablePred mine]

omit [DecidableEq ι] in
theorem entered_env (tr : List (Occurrence ι Resp W)) (w w' : W) :
    g.entered mine (tr ++ [.env w w']) = g.entered mine tr := by
  simp [entered]

omit [DecidableEq ι] in
theorem entered_act (tr : List (Occurrence ι Resp W)) {i : ι} {e : Event Resp W} {t : L}
    (hi : mine i) (ht : g.enters e.op e.resp = some t) :
    g.entered mine (tr ++ [.act i e]) = g.entered mine tr ++ [i] := by
  simp [entered, hi, ht]

omit [DecidableEq ι] in
theorem entered_other (tr : List (Occurrence ι Resp W)) {i : ι} {e : Event Resp W}
    (h : mine i → g.enters e.op e.resp = none) :
    g.entered mine (tr ++ [.act i e]) = g.entered mine tr := by
  have hnot : ¬ (mine i ∧ (g.enters e.op e.resp).isSome) := by
    rintro ⟨hi, hsome⟩
    simp [h hi] at hsome
  simp [entered, hnot]

end Gate

/-! ## The invariant -/

section

variable [DecidableEq ι] {g : Gate Resp L} {mine : ι → Prop} [DecidablePred mine]
  {body : ι → Prog Resp ε α} {φ ψ : Op → Prop} {step : (op : Op) → W → Resp op → W → Prop}
  {rely : W → W → Prop} {w₀ : W}

structure Ran (g : Gate Resp L) (mine : ι → Prop) (body : ι → Prog Resp ε α)
    (tr : List (Occurrence ι Resp W)) (c : Config ι Resp ε α W) (i : ι)
    (p : Episode Resp ε α W) : Prop where
  mine : mine i
  done : g.stage i tr = .done
  program : p.program = body i
  events : p.events <:+: own i tr
  ended : c.procs i = p.outcome.prog

structure Within (g : Gate Resp L) (mine : ι → Prop) (body : ι → Prog Resp ε α) (φ : Op → Prop)
    (step : (op : Op) → W → Resp op → W → Prop) (rely : W → W → Prop)
    (tr : List (Occurrence ι Resp W)) (c : Config ι Resp ε α W) (i : ι) (t : L)
    (q : Prog Resp ε α) (events : List (Event Resp W)) (w : W) : Prop where
  mine : mine i
  inside : g.stage i tr = .inside t
  proc : c.procs i = q.ensure (g.leave t)
  uses : q.Uses φ
  reaches : Reaches step rely (body i) w events q c.world
  events : events <:+ own i tr

/-- A series of the bodies of those who have been let in, the last of whom may be inside. -/
inductive Serial (g : Gate Resp L) (mine : ι → Prop) [DecidablePred mine]
    (body : ι → Prog Resp ε α) (φ : Op → Prop) (step : (op : Op) → W → Resp op → W → Prop)
    (rely : W → W → Prop) (w₀ : W) (tr : List (Occurrence ι Resp W))
    (c : Config ι Resp ε α W) : Prop
  | idle {episodes : List (Episode Resp ε α W)} :
      List.Forall₂ (Ran g mine body tr c) (g.entered mine tr) episodes →
      Series step rely w₀ episodes c.world → Serial g mine body φ step rely w₀ tr c
  | busy {order : List ι} {episodes : List (Episode Resp ε α W)} {i : ι} {t : L}
      {q : Prog Resp ε α} {events : List (Event Resp W)} {w : W} :
      g.entered mine tr = order ++ [i] → List.Forall₂ (Ran g mine body tr c) order episodes →
      Series step rely w₀ episodes w →
      Within g mine body φ step rely tr c i t q events w → Serial g mine body φ step rely w₀ tr c

structure Sections (g : Gate Resp L) (mine : ι → Prop) [DecidablePred mine]
    (body : ι → Prog Resp ε α) (φ ψ : Op → Prop) (step : (op : Op) → W → Resp op → W → Prop)
    (rely : W → W → Prop) (w₀ : W) (tr : List (Occurrence ι Resp W))
    (c : Config ι Resp ε α W) : Prop where
  waiting : ∀ i, mine i → g.stage i tr = .before → g.Guards ψ (body i) (c.procs i)
  known : ∀ i, mine i → g.stage i tr ≠ .before → i ∈ g.entered mine tr
  nodup : (g.entered mine tr).Nodup
  serial : Serial g mine body φ step rely w₀ tr c

/-- Calls of kind `ψ` only move the services by `rely`, leaving included; bodies call `φ`, and
stay inside. -/
structure Gate.Ruled (g : Gate Resp L) (φ ψ : Op → Prop)
    (step : (op : Op) → W → Resp op → W → Prop) (rely : W → W → Prop) : Prop where
  refl : ∀ w, rely w w
  trans : ∀ {w w₁ w₂}, rely w w₁ → rely w₁ w₂ → rely w w₂
  still : ∀ op w r w', ψ op → step op w r w' → rely w w'
  exit : ∀ t, ψ (g.exit t)
  inner : ∀ op, φ op → g.exits op = false ∧ ∀ r, g.enters op r = none

variable {tr : List (Occurrence ι Resp W)} {c c' : Config ι Resp ε α W} {o : Occurrence ι Resp W}

omit [DecidablePred mine] in
theorem Ran.congr {tr' : List (Occurrence ι Resp W)} {i : ι} {p : Episode Resp ε α W}
    (h : Ran g mine body tr c i p) (hstage : g.stage i tr' = g.stage i tr)
    (hown : own i tr' = own i tr) (hproc : c'.procs i = c.procs i) :
    Ran g mine body tr' c' i p where
  mine := h.mine
  done := hstage.trans h.done
  program := h.program
  events := by
    rw [hown]
    exact h.events
  ended := hproc.trans h.ended

theorem Sections.start
    (hprocs : ∀ i, mine i → g.Guards ψ (body i) (c.procs i)) :
    Sections g mine body φ ψ step rely c.world [] c where
  waiting i hi _ := hprocs i hi
  known _ _ h := absurd rfl h
  nodup := List.nodup_nil
  serial := .idle .nil .start

theorem Sections.moved (h : Sections g mine body φ ψ step rely w₀ tr c)
    (hentered : g.entered mine (tr ++ [o]) = g.entered mine tr) (hrely : rely c.world c'.world)
    (hstage : ∀ i, mine i → g.stage i (tr ++ [o]) = g.stage i tr)
    (hwait : ∀ i, mine i → g.stage i tr = .before → g.Guards ψ (body i) (c'.procs i))
    (hsame : ∀ i, mine i → g.stage i tr ≠ .before →
      own i (tr ++ [o]) = own i tr ∧ c'.procs i = c.procs i) :
    Sections g mine body φ ψ step rely w₀ (tr ++ [o]) c' where
  waiting i hi hb := hwait i hi ((hstage i hi).symm.trans hb)
  known i hi hb := by
    rw [hentered]
    rw [hstage i hi] at hb
    exact h.known i hi hb
  nodup := by
    rw [hentered]
    exact h.nodup
  serial := by
    have hran : ∀ i p, Ran g mine body tr c i p → Ran g mine body (tr ++ [o]) c' i p := by
      intro i p hi
      obtain ⟨hown, hproc⟩ := hsame i hi.mine (by simp [hi.done])
      exact hi.congr (hstage i hi.mine) hown hproc
    cases h.serial with
    | idle hepisodes hseries =>
      refine .idle ?_ (hseries.moved hrely)
      rw [hentered]
      exact hepisodes.imp hran
    | busy horder hepisodes hseries hwithin =>
      obtain ⟨hown, hproc⟩ := hsame _ hwithin.mine (by simp [hwithin.inside])
      exact .busy (hentered.trans horder) (hepisodes.imp hran) hseries
        { mine := hwithin.mine
          inside := (hstage _ hwithin.mine).trans hwithin.inside
          proc := hproc.trans hwithin.proc
          uses := hwithin.uses
          reaches := hwithin.reaches.moved hrely
          events := by
            rw [hown]
            exact hwithin.events }

theorem exists_of_forall₂_mem {β γ : Type} {R : β → γ → Prop} {l : List β} {l' : List γ}
    (h : List.Forall₂ R l l') {b : β} (hb : b ∈ l) : ∃ p, R b p := by
  induction h with
  | nil => cases hb
  | cons hp _ ih =>
    rcases List.mem_cons.mp hb with rfl | hb
    · exact ⟨_, hp⟩
    · exact ih hb

theorem Sections.within (h : Sections g mine body φ ψ step rely w₀ tr c) {i : ι} (hi : mine i)
    {t : L} (ht : g.stage i tr = .inside t) :
    ∃ order episodes q events w, g.entered mine tr = order ++ [i] ∧
      List.Forall₂ (Ran g mine body tr c) order episodes ∧ Series step rely w₀ episodes w ∧
      Within g mine body φ step rely tr c i t q events w := by
  have hmem := h.known i hi (by simp [ht])
  have hnot : ∀ p, ¬ Ran g mine body tr c i p := by
    intro p hp
    have hdone := hp.done
    rw [ht] at hdone
    cases hdone
  cases h.serial with
  | idle hepisodes hseries =>
    obtain ⟨p, hp⟩ := exists_of_forall₂_mem hepisodes hmem
    exact absurd hp (hnot p)
  | busy horder hepisodes hseries hwithin =>
    rw [horder] at hmem
    rcases List.mem_append.mp hmem with hmem | hmem
    · obtain ⟨p, hp⟩ := exists_of_forall₂_mem hepisodes hmem
      exact absurd hp (hnot p)
    · cases List.mem_singleton.mp hmem
      have hinside := hwithin.inside
      rw [ht] at hinside
      cases hinside
      exact ⟨_, _, _, _, _, horder, hepisodes, hseries, hwithin⟩

theorem Sections.ran (h : Sections g mine body φ ψ step rely w₀ tr c) {i : ι} (hi : mine i)
    (hdone : g.stage i tr = .done) : ∃ p, Ran g mine body tr c i p := by
  have hmem := h.known i hi (by simp [hdone])
  cases h.serial with
  | idle hepisodes hseries => exact exists_of_forall₂_mem hepisodes hmem
  | busy horder hepisodes hseries hwithin =>
    rw [horder] at hmem
    rcases List.mem_append.mp hmem with hmem | hmem
    · exact exists_of_forall₂_mem hepisodes hmem
    · cases List.mem_singleton.mp hmem
      have hinside := hwithin.inside
      rw [hdone] at hinside
      cases hinside

theorem Sections.not_before (h : Sections g mine body φ ψ step rely w₀ tr c) {i : ι}
    (hi : i ∈ g.entered mine tr) : g.stage i tr ≠ .before := by
  cases h.serial with
  | idle hepisodes hseries =>
    obtain ⟨p, hp⟩ := exists_of_forall₂_mem hepisodes hi
    simp [hp.done]
  | busy horder hepisodes hseries hwithin =>
    rw [horder] at hi
    rcases List.mem_append.mp hi with hi | hi
    · obtain ⟨p, hp⟩ := exists_of_forall₂_mem hepisodes hi
      simp [hp.done]
    · cases List.mem_singleton.mp hi
      simp [hwithin.inside]

/-! ## The calls of one program -/

section

variable {i : ι} {e : Event Resp W} {k : Resp e.op → Prog Resp ε α}

def Config.acted (c : Config ι Resp ε α W) (i : ι) (e : Event Resp W)
    (k : Resp e.op → Prog Resp ε α) : Config ι Resp ε α W :=
  ⟨e.after, Function.update c.procs i (k e.resp)⟩

@[simp] theorem Config.acted_procs_self : (c.acted i e k).procs i = k e.resp := by
  simp [Config.acted]

theorem Config.acted_procs_ne {j : ι} (hij : i ≠ j) : (c.acted i e k).procs j = c.procs j :=
  Function.update_of_ne (Ne.symm hij) _ _

theorem own_act_of_ne {j : ι} (hij : i ≠ j) : own j (tr ++ [.act i e]) = own j tr := by
  rw [own_append, own_act_ne hij, List.append_nil]

omit [DecidablePred mine] in
theorem Ran.act {j : ι} {p : Episode Resp ε α W} (h : Ran g mine body tr c j p) (hij : i ≠ j) :
    Ran g mine body (tr ++ [.act i e]) (c.acted i e k) j p :=
  h.congr (Gate.stage_act_ne hij tr e) (own_act_of_ne hij) (Config.acted_procs_ne hij)

theorem Sections.act_outside (h : Sections g mine body φ ψ step rely w₀ tr c)
    (hbefore : mine i → g.stage i tr = .before) (hout : mine i → g.enters e.op e.resp = none)
    (hguards : mine i → g.Guards ψ (body i) (k e.resp)) (hrely : rely c.world e.after) :
    Sections g mine body φ ψ step rely w₀ (tr ++ [.act i e]) (c.acted i e k) := by
  refine h.moved (Gate.entered_other tr hout) hrely ?_ ?_ ?_
  · intro j hj
    by_cases hij : i = j
    · subst hij
      rw [Gate.stage_act_self, hbefore hj, Gate.next, hout hj]
    · exact Gate.stage_act_ne hij tr e
  · intro j hj hwait
    by_cases hij : i = j
    · subst hij
      rw [Config.acted_procs_self]
      exact hguards hj
    · rw [Config.acted_procs_ne hij]
      exact h.waiting j hj hwait
  · intro j hj hcome
    have hij : i ≠ j := by
      rintro rfl
      exact hcome (hbefore hj)
    exact ⟨own_act_of_ne hij, Config.acted_procs_ne hij⟩

theorem Sections.enter (h : Sections g mine body φ ψ step rely w₀ tr c) (hi : mine i)
    (hbefore : g.stage i tr = .before) {t : L} (ht : g.enters e.op e.resp = some t)
    (hk : k e.resp = (body i).ensure (g.leave t)) (hbody : (body i).Uses φ)
    (hrely : rely c.world e.after)
    (halone : ∀ j, mine j → ∀ t', g.stage j tr ≠ .inside t') :
    Sections g mine body φ ψ step rely w₀ (tr ++ [.act i e]) (c.acted i e k) := by
  have hentered := Gate.entered_act tr hi ht
  have hinside : g.stage i (tr ++ [.act i e]) = .inside t := by
    rw [Gate.stage_act_self, hbefore, Gate.next, ht]
  have hnot : i ∉ g.entered mine tr := fun hmem => h.not_before hmem hbefore
  refine ⟨?_, ?_, ?_, ?_⟩
  · intro j hj hwait
    have hij : i ≠ j := by
      rintro rfl
      rw [hinside] at hwait
      cases hwait
    rw [Gate.stage_act_ne hij] at hwait
    rw [Config.acted_procs_ne hij]
    exact h.waiting j hj hwait
  · intro j hj hcome
    rw [hentered]
    by_cases hij : i = j
    · exact List.mem_append_right _ (List.mem_singleton.mpr hij.symm)
    · rw [Gate.stage_act_ne hij] at hcome
      exact List.mem_append_left _ (h.known j hj hcome)
  · rw [hentered]
    refine List.nodup_append.mpr ⟨h.nodup, List.pairwise_singleton _ _, ?_⟩
    intro a ha b hb hab
    rw [hab, List.mem_singleton.mp hb] at ha
    exact hnot ha
  · cases h.serial with
    | busy _ _ _ hwithin => exact absurd hwithin.inside (halone _ hwithin.mine _)
    | idle hepisodes hseries =>
      have hne : ∀ j p, Ran g mine body tr c j p → i ≠ j := by
        rintro j p hp rfl
        have hdone := hp.done
        rw [hbefore] at hdone
        cases hdone
      have hproc : (c.acted i e k).procs i = (body i).ensure (g.leave t) := by
        rw [Config.acted_procs_self, hk]
      exact .busy hentered (hepisodes.imp fun j p hp => hp.act (hne j p hp)) hseries
        { mine := hi
          inside := hinside
          proc := hproc
          uses := hbody
          reaches := Reaches.start.moved hrely
          events := List.nil_suffix }

theorem Gate.call_of_ensure {q : Prog Resp ε α} {t : L} {op : Op} {k : Resp op → Prog Resp ε α}
    (h : q.ensure (g.leave t) = .call op k) :
    (∃ k', q = .call op k' ∧ ∀ r, k r = (k' r).ensure (g.leave t)) ∨
      op = g.exit t ∧ ∃ o : Outcome ε α, q = o.prog ∧ ∀ r, k r = o.prog := by
  cases q with
  | ret a =>
    cases h
    exact Or.inr ⟨rfl, .ret a, rfl, fun _ => rfl⟩
  | raise x =>
    cases h
    exact Or.inr ⟨rfl, .raise x, rfl, fun _ => rfl⟩
  | call op' k' =>
    cases h
    exact Or.inl ⟨k', rfl, fun _ => rfl⟩

theorem Sections.act_inside (hg : g.Ruled φ ψ step rely)
    (h : Sections g mine body φ ψ step rely w₀ tr c) (hi : mine i) {t : L}
    (ht : g.stage i tr = .inside t) (hproc : c.procs i = .call e.op k) (hworld : c.world = e.before)
    (hs : step e.op e.before e.resp e.after) :
    Sections g mine body φ ψ step rely w₀ (tr ++ [.act i e]) (c.acted i e k) := by
  obtain ⟨order, episodes, q, events, w, horder, hepisodes, hseries, hwithin⟩ := h.within hi ht
  have hne : ∀ j p, Ran g mine body tr c j p → i ≠ j := by
    rintro j p hp rfl
    have hdone := hp.done
    rw [ht] at hdone
    cases hdone
  have hothers := hepisodes.imp fun j p hp => hp.act (e := e) (k := k) (hne j p hp)
  have hreaches := hwithin.reaches
  have hsuffix : events ++ [e] <:+ own i (tr ++ [.act i e]) := by
    obtain ⟨before, hbefore⟩ := hwithin.events
    rw [own_append, own_act_self, ← hbefore]
    exact ⟨before, by simp⟩
  rw [hworld] at hreaches
  -- Either way nobody new is let in, and only `i` moves.
  have hrest : ∀ hout : g.enters e.op e.resp = none, g.stage i (tr ++ [.act i e]) ≠ .before →
      Serial g mine body φ step rely w₀ (tr ++ [.act i e]) (c.acted i e k) →
      Sections g mine body φ ψ step rely w₀ (tr ++ [.act i e]) (c.acted i e k) := by
    intro hout hcome hserial
    have hentered : g.entered mine (tr ++ [.act i e]) = g.entered mine tr :=
      Gate.entered_other tr fun _ => hout
    refine ⟨?_, ?_, ?_, hserial⟩
    · intro j hj hwait
      have hij : i ≠ j := by
        rintro rfl
        exact hcome hwait
      rw [Gate.stage_act_ne hij] at hwait
      rw [Config.acted_procs_ne hij]
      exact h.waiting j hj hwait
    · intro j hj hcome
      rw [hentered]
      by_cases hij : i = j
      · subst hij
        exact h.known i hi (by simp [ht])
      · rw [Gate.stage_act_ne hij] at hcome
        exact h.known j hj hcome
    · rw [hentered]
      exact h.nodup
  obtain ⟨k', rfl, hk⟩ | ⟨hop, o, rfl, hk⟩ := Gate.call_of_ensure (hwithin.proc.symm.trans hproc)
  · obtain ⟨hstays, hout⟩ := hg.inner _ hwithin.uses.1
    have hinside : g.stage i (tr ++ [.act i e]) = .inside t := by
      simp [Gate.stage_act_self, ht, Gate.next, hstays]
    refine hrest (hout e.resp) (by simp [hinside]) ?_
    exact .busy ((Gate.entered_other tr fun _ => hout e.resp).trans horder) hothers hseries
      { mine := hi
        inside := hinside
        proc := by rw [Config.acted_procs_self, hk]
        uses := hwithin.uses.2 e.resp
        reaches := hreaches.call hs
        events := hsuffix }
  · have hout : g.enters e.op e.resp = none := by
      obtain ⟨op, r, w₁, w₂⟩ := e
      dsimp only at hop
      subst hop
      exact g.enters_exit t r
    have hdone : g.stage i (tr ++ [.act i e]) = .done := by
      simp [Gate.stage_act_self, ht, Gate.next, hop, g.exits_exit]
    refine hrest hout (by simp [hdone]) ?_
    obtain ⟨w₁, hruns, hlast⟩ := hreaches.finished hg.refl hg.trans
    have hleft : rely e.before e.after := hg.still _ _ _ _ (by rw [hop]; exact hg.exit t) hs
    have hseries' : Series step rely w₀ (episodes ++ [⟨body i, events, o⟩]) w₁ :=
      .ran hseries hruns
    have hran : Ran g mine body (tr ++ [.act i e]) (c.acted i e k) i ⟨body i, events, o⟩ :=
      { mine := hi
        done := hdone
        program := rfl
        events := by
          rw [own_append]
          exact hwithin.events.isInfix.trans (List.prefix_append _ _).isInfix
        ended := by rw [Config.acted_procs_self, hk] }
    have hepisodes' := List.rel_append hothers (.cons hran .nil)
    refine .idle ?_ ((hseries'.moved hlast).moved hleft)
    rw [Gate.entered_other tr fun _ => hout, horder]
    exact hepisodes'

end

/-- Each body runs by itself, as far as `rely` is concerned, in the order of entering. -/
theorem Exec.sections (hg : g.Ruled φ ψ step rely) {env : W → W → Prop}
    {c₀ : Config ι Resp ε α W} (h : Exec step env c₀ tr c)
    (hprocs : ∀ i, mine i → g.Guards ψ (body i) (c₀.procs i))
    (hbody : ∀ i, mine i → (body i).Uses φ) (henv : ∀ w w', env w w' → rely w w')
    (hothers : ∀ i e, .act i e ∈ tr → ¬ mine i → rely e.before e.after)
    (halone : ∀ t₁ t₂, tr = t₁ ++ t₂ → ∀ i j t t', mine i → mine j → g.stage i t₁ = .inside t →
      g.stage j t₁ = .inside t' → i = j) :
    Sections g mine body φ ψ step rely c₀.world tr c := by
  induction h with
  | start => exact .start hprocs
  | env h he ih =>
    have ih := ih (fun i e hm => hothers i e (List.mem_append_left _ hm)) fun t₁ t₂ ht =>
      halone t₁ (t₂ ++ _) (by rw [ht, List.append_assoc])
    refine ih.moved (Gate.entered_env _ _ _) (henv _ _ he) ?_ ih.waiting ?_
    · exact fun i _ => Gate.stage_env i _ _ _
    · intro i _ _
      rw [own_append, own_env, List.append_nil]
      exact ⟨rfl, rfl⟩
  | @act tr c i op k r w' h hp hs ih =>
    have ih := ih (fun i e hm => hothers i e (List.mem_append_left _ hm)) fun t₁ t₂ ht =>
      halone t₁ (t₂ ++ _) (by rw [ht, List.append_assoc])
    let e : Event Resp W := ⟨op, r, c.world, w'⟩
    have hmem : .act i e ∈ tr ++ [.act i e] := List.mem_append_right _ (List.mem_singleton.mpr rfl)
    by_cases hi : mine i
    · cases hstage : g.stage i tr with
      | before =>
        have hguards := ih.waiting i hi hstage
        rw [hp] at hguards
        have hrely : rely c.world w' := hg.still _ _ _ _ hguards.1 hs
        have hnext := hguards.2 r
        cases henters : g.enters op r with
        | none =>
          rw [henters] at hnext
          exact ih.act_outside (e := e) (k := k) (fun _ => hstage) (fun _ => henters)
            (fun _ => hnext) hrely
        | some t =>
          rw [henters] at hnext
          refine ih.enter (e := e) (k := k) hi hstage henters hnext (hbody i hi) hrely ?_
          intro j hj t' ht'
          have hij : i ≠ j := by
            rintro rfl
            rw [hstage] at ht'
            cases ht'
          refine hij (halone _ [] (List.append_nil _).symm i j t t' hi hj ?_ ?_)
          · rw [Gate.stage_act_self, hstage, Gate.next, henters]
          · rw [Gate.stage_act_ne hij]
            exact ht'
      | inside t => exact ih.act_inside hg (e := e) (k := k) hi hstage hp rfl hs
      | done =>
        obtain ⟨p, hran⟩ := ih.ran hi hstage
        have hended := hran.ended
        rw [hp] at hended
        cases ho : p.outcome <;> rw [ho] at hended <;> cases hended
    · exact ih.act_outside (e := e) (k := k) (fun h => absurd h hi) (fun h => absurd h hi)
        (fun h => absurd h hi) (hothers i e hmem hi)

/-- A run at whose end nobody is inside is a series of the bodies, in the order in which they
were entered. -/
theorem Exec.serial (hg : g.Ruled φ ψ step rely) {env : W → W → Prop}
    {c₀ : Config ι Resp ε α W} (h : Exec step env c₀ tr c)
    (hprocs : ∀ i, mine i → g.Guards ψ (body i) (c₀.procs i))
    (hbody : ∀ i, mine i → (body i).Uses φ) (henv : ∀ w w', env w w' → rely w w')
    (hothers : ∀ i e, .act i e ∈ tr → ¬ mine i → rely e.before e.after)
    (halone : ∀ t₁ t₂, tr = t₁ ++ t₂ → ∀ i j t t', mine i → mine j → g.stage i t₁ = .inside t →
      g.stage j t₁ = .inside t' → i = j)
    (hidle : ∀ i, mine i → ∀ t, g.stage i tr ≠ .inside t) :
    (g.entered mine tr).Nodup ∧ ∃ episodes,
      List.Forall₂ (Ran g mine body tr c) (g.entered mine tr) episodes ∧
        Series step rely c₀.world episodes c.world := by
  have hsections := h.sections hg hprocs hbody henv hothers halone
  refine ⟨hsections.nodup, ?_⟩
  cases hsections.serial with
  | idle hepisodes hseries => exact ⟨_, hepisodes, hseries⟩
  | busy _ _ _ hwithin => exact absurd hwithin.inside (hidle _ hwithin.mine _)

end

end FutureWas.Effect
