import FutureWas.Effect.Program
import Mathlib.Data.List.Induction
import Mathlib.Logic.Function.Basic

/-!
# Interleaved programs

Any family of programs runs against shared services: one occurrence is the next call of one
program, or a move of the environment. `Exec` records the occurrences of a run in order,
each call with the state before and after it.

Three rules carry invariants through a run. `Exec.sound` is the rely-guarantee rule: when
what each program may do is what the others tolerate, the preconditions and guarantees proved
for the programs one by one hold of every occurrence. `Exec.monitored` concerns the order of
the calls of one program, which a `Monitor` follows by its answers alone. `Exec.split` cuts a
run at any occurrence.
-/

set_option autoImplicit false

namespace FutureWas.Effect

structure Config {Op : Type} (ι : Type) (Resp : Op → Type) (ε α W : Type) where
  world : W
  procs : ι → Prog Resp ε α

inductive Occurrence {Op : Type} (ι : Type) (Resp : Op → Type) (W : Type) : Type
  | act (i : ι) (e : Event Resp W)
  | env (before after : W)

variable {ι Op : Type} {Resp : Op → Type} {ε α W : Type} [DecidableEq ι]

inductive Exec (step : (op : Op) → W → Resp op → W → Prop) (env : W → W → Prop)
    (c₀ : Config ι Resp ε α W) : List (Occurrence ι Resp W) → Config ι Resp ε α W → Prop
  | start : Exec step env c₀ [] c₀
  | act {tr c i op k r w'} : Exec step env c₀ tr c → c.procs i = .call op k →
      step op c.world r w' →
      Exec step env c₀ (tr ++ [.act i ⟨op, r, c.world, w'⟩])
        ⟨w', Function.update c.procs i (k r)⟩
  | env {tr c w'} : Exec step env c₀ tr c → env c.world w' →
      Exec step env c₀ (tr ++ [.env c.world w']) ⟨w', c.procs⟩

def own (i : ι) (tr : List (Occurrence ι Resp W)) : List (Event Resp W) :=
  tr.filterMap fun
    | .act j e => if j = i then some e else none
    | .env _ _ => none

theorem own_append (i : ι) (t₁ t₂ : List (Occurrence ι Resp W)) :
    own i (t₁ ++ t₂) = own i t₁ ++ own i t₂ :=
  List.filterMap_append

@[simp] theorem own_act_self (i : ι) (e : Event Resp W) : own i [.act i e] = [e] := by
  simp [own]

@[simp] theorem own_act_ne {i j : ι} (h : j ≠ i) (e : Event Resp W) : own i [.act j e] = [] := by
  simp [own, h]

@[simp] theorem own_env (i : ι) (w w' : W) :
    own i [(.env w w' : Occurrence ι Resp W)] = [] := rfl

theorem mem_own {i : ι} {e : Event Resp W} {tr : List (Occurrence ι Resp W)} :
    e ∈ own i tr ↔ .act i e ∈ tr := by
  simp only [own, List.mem_filterMap]
  constructor
  · rintro ⟨o, ho, he⟩
    cases o with
    | act j e' =>
      by_cases hj : j = i
      · simp only [hj, if_true, Option.some.injEq] at he
        subst hj he; exact ho
      · simp [hj] at he
    | env w w' => simp at he
  · intro h
    exact ⟨.act i e, h, by simp⟩

namespace Exec

variable {step : (op : Op) → W → Resp op → W → Prop} {env : W → W → Prop}
  {c₀ c : Config ι Resp ε α W} {tr : List (Occurrence ι Resp W)}

theorem append {t₁ t₂ : List (Occurrence ι Resp W)} {c₁ c₂ : Config ι Resp ε α W}
    (h₁ : Exec step env c₀ t₁ c₁) (h₂ : Exec step env c₁ t₂ c₂) :
    Exec step env c₀ (t₁ ++ t₂) c₂ := by
  induction h₂ with
  | start => simpa using h₁
  | act _ hp hs ih => simpa only [List.append_assoc] using Exec.act ih hp hs
  | env _ he ih => simpa only [List.append_assoc] using Exec.env ih he

theorem last {o : Occurrence ι Resp W} (h : Exec step env c₀ (tr ++ [o]) c) :
    ∃ c₁, Exec step env c₀ tr c₁ ∧ ∀ c₂ t, Exec step env c₂ t c₁ →
      Exec step env c₂ (t ++ [o]) c := by
  generalize ht : tr ++ [o] = t at h
  cases h with
  | start => simp at ht
  | act hx hp hs =>
    obtain ⟨rfl, ho⟩ := List.append_inj' ht rfl
    cases List.singleton_inj.mp ho
    exact ⟨_, hx, fun _ _ h => .act h hp hs⟩
  | env hx he =>
    obtain ⟨rfl, ho⟩ := List.append_inj' ht rfl
    cases List.singleton_inj.mp ho
    exact ⟨_, hx, fun _ _ h => .env h he⟩

theorem split {t₁ t₂ : List (Occurrence ι Resp W)} (h : Exec step env c₀ (t₁ ++ t₂) c) :
    ∃ c₁, Exec step env c₀ t₁ c₁ ∧ Exec step env c₁ t₂ c := by
  induction t₂ using List.reverseRecOn generalizing c with
  | nil => exact ⟨c, by simpa using h, .start⟩
  | append_singleton t o ih =>
    rw [← List.append_assoc] at h
    obtain ⟨c₂, h₂, hlast⟩ := h.last
    obtain ⟨c₁, h₁, ht⟩ := ih h₂
    exact ⟨c₁, h₁, hlast c₁ t ht⟩

theorem restrict {P : (op : Op) → W → Resp op → W → Prop} (h : Exec step env c₀ tr c)
    (hP : ∀ i e, .act i e ∈ tr → P e.op e.before e.resp e.after) :
    Exec (fun op w r w' => step op w r w' ∧ P op w r w') env c₀ tr c := by
  induction h with
  | start => exact .start
  | @act tr c i op k r w' _ hp hs ih =>
    have hlast : P op c.world r w' :=
      hP i ⟨op, r, c.world, w'⟩ (List.mem_append_right _ (List.mem_singleton.mpr rfl))
    exact .act (ih fun i e he => hP i e (List.mem_append_left _ he)) hp ⟨hs, hlast⟩
  | env _ he ih => exact .env (ih fun i e hm => hP i e (List.mem_append_left _ hm)) he

theorem last_act {i : ι} {e : Event Resp W} (h : Exec step env c₀ (tr ++ [.act i e]) c) :
    ∃ c₁ k, Exec step env c₀ tr c₁ ∧ c₁.procs i = .call e.op k ∧ c₁.world = e.before ∧
      step e.op e.before e.resp e.after ∧
      c = ⟨e.after, Function.update c₁.procs i (k e.resp)⟩ := by
  generalize ht : tr ++ [Occurrence.act i e] = t at h
  cases h with
  | start => simp at ht
  | act hx hp hs =>
    obtain ⟨rfl, ho⟩ := List.append_inj' ht rfl
    cases List.singleton_inj.mp ho
    exact ⟨_, _, hx, hp, rfl, hs, rfl⟩
  | env hx he =>
    obtain ⟨-, ho⟩ := List.append_inj' ht rfl
    cases List.singleton_inj.mp ho

theorem last_env {w w' : W} (h : Exec step env c₀ (tr ++ [.env w w']) c) :
    ∃ c₁, Exec step env c₀ tr c₁ ∧ c₁.world = w ∧ env w w' ∧ c = ⟨w', c₁.procs⟩ := by
  generalize ht : tr ++ [Occurrence.env w w'] = t at h
  cases h with
  | start => simp at ht
  | act hx hp hs =>
    obtain ⟨-, ho⟩ := List.append_inj' ht rfl
    cases List.singleton_inj.mp ho
  | env hx he =>
    obtain ⟨rfl, ho⟩ := List.append_inj' ht rfl
    cases List.singleton_inj.mp ho
    exact ⟨_, hx, rfl, he, rfl⟩

theorem eq_of_nil (h : Exec step env c₀ ([] : List (Occurrence ι Resp W)) c) : c = c₀ := by
  generalize ht : ([] : List (Occurrence ι Resp W)) = t at h
  cases h with
  | start => rfl
  | act => simp at ht
  | env => simp at ht

theorem head_act {i : ι} {e : Event Resp W} (h : Exec step env c₀ (.act i e :: tr) c) :
    ∃ k, c₀.procs i = .call e.op k ∧ c₀.world = e.before ∧
      step e.op e.before e.resp e.after ∧
      Exec step env ⟨e.after, Function.update c₀.procs i (k e.resp)⟩ tr c := by
  rw [← List.singleton_append] at h
  obtain ⟨c₁, h₁, h₂⟩ := h.split
  obtain ⟨c₂, k, hnil, hp, hb, hs, rfl⟩ := (show Exec step env c₀ ([] ++ [.act i e]) c₁ from
    h₁).last_act
  cases hnil.eq_of_nil
  exact ⟨k, hp, hb, hs, h₂⟩

theorem step_of_mem {i : ι} {e : Event Resp W} (h : Exec step env c₀ tr c)
    (he : .act i e ∈ tr) : step e.op e.before e.resp e.after := by
  obtain ⟨t₁, t₂, rfl⟩ := List.append_of_mem he
  rw [← List.singleton_append, ← List.append_assoc] at h
  obtain ⟨c₁, h₁, -⟩ := h.split
  obtain ⟨-, -, -, -, -, hs, -⟩ := h₁.last_act
  exact hs

theorem env_of_mem {w w' : W} (h : Exec step env c₀ tr c) (he : .env w w' ∈ tr) : env w w' := by
  obtain ⟨t₁, t₂, rfl⟩ := List.append_of_mem he
  rw [← List.singleton_append, ← List.append_assoc] at h
  obtain ⟨c₁, h₁, -⟩ := h.split
  obtain ⟨-, -, -, henv, -⟩ := h₁.last_env
  exact henv

/-- What every call of a run and every move of the environment keeps, the whole run keeps. -/
theorem related {R : W → W → Prop} (hrefl : ∀ w, R w w)
    (htrans : ∀ {w w₁ w₂}, R w w₁ → R w₁ w₂ → R w w₂) (henv : ∀ w w', env w w' → R w w')
    (h : Exec step env c₀ tr c) (hact : ∀ i e, .act i e ∈ tr → R e.before e.after) :
    R c₀.world c.world := by
  induction h with
  | start => exact hrefl _
  | act _ _ _ ih =>
    have hbefore := ih fun i e he => hact i e (List.mem_append_left _ he)
    exact htrans hbefore (hact _ _ (List.mem_append_right _ (List.mem_singleton.mpr rfl)))
  | env _ he ih =>
    have hbefore := ih fun i e hm => hact i e (List.mem_append_left _ hm)
    exact htrans hbefore (henv _ _ he)

/-- The rely-guarantee rule. What is proved of each program may speak of its own calls. -/
theorem sound {S : ι → Setting Resp W} {Q : ι → Outcome ε α → W × List (Event Resp W) → Prop}
    (hstep : ∀ i op w r w', step op w r w' → (S i).step op w r w')
    (henv : ∀ i w w', env w w' → (S i).rely w w')
    (hcompat : ∀ i j, i ≠ j → ∀ op r w w', step op w r w' → (S i).guar op r w w' →
      (S j).rely w w')
    (hQ : ∀ i o, (S i).traced.Stable (Q i o))
    (h₀ : ∀ i, (S i).traced.wp (c₀.procs i) (Q i) (c₀.world, []))
    (h : Exec step env c₀ tr c) :
    (∀ i, (S i).traced.wp (c.procs i) (Q i) (c.world, own i tr)) ∧
      ∀ i e, .act i e ∈ tr →
        (S i).pre e.op e.before ∧ (S i).guar e.op e.resp e.before e.after := by
  induction h with
  | start => exact ⟨h₀, by simp⟩
  | @act tr c i op k r w' _ hp hs ih =>
    obtain ⟨hwp, htr⟩ := ih
    have hi := hwp i
    rw [hp] at hi
    obtain ⟨hpre, hk⟩ := hi _ ((S i).traced.rely_refl _)
    obtain ⟨hguar, hrest⟩ := hk r (w', own i tr ++ [⟨op, r, c.world, w'⟩])
      ⟨hstep i _ _ _ _ hs, rfl⟩
    refine ⟨?_, ?_⟩
    · intro j
      by_cases hj : j = i
      · subst hj; simpa [own_append] using hrest
      · have hrely := hcompat i j (Ne.symm hj) _ _ _ _ hs hguar
        rw [own_append, own_act_ne (Ne.symm hj), List.append_nil]
        have hmoved : (S j).traced.rely (c.world, own j tr) (w', own j tr) := ⟨hrely, rfl⟩
        simpa only [Function.update_of_ne hj] using Setting.wp_rely (hQ j) (hwp j) hmoved
    · intro j e he
      rcases List.mem_append.mp he with he | he
      · exact htr j e he
      · cases List.mem_singleton.mp he
        exact ⟨hpre, hguar⟩
  | env _ he ih =>
    obtain ⟨hwp, htr⟩ := ih
    refine ⟨?_, ?_⟩
    · intro i
      rw [own_append, own_env, List.append_nil]
      exact Setting.wp_rely (hQ i) (hwp i) ⟨henv i _ _ he, rfl⟩
    · intro j e hm
      rcases List.mem_append.mp hm with hm | hm
      · exact htr j e hm
      · cases List.mem_singleton.mp hm

end Exec

def labels {L : Type} (label : (op : Op) → Resp op → Option L)
    (tr : List (Occurrence ι Resp W)) : List (ι × L) :=
  tr.filterMap fun
    | .act i e => (label e.op e.resp).map fun t => (i, t)
    | .env _ _ => none

omit [DecidableEq ι] in
theorem labels_append {L : Type} (label : (op : Op) → Resp op → Option L)
    (t₁ t₂ : List (Occurrence ι Resp W)) :
    labels label (t₁ ++ t₂) = labels label t₁ ++ labels label t₂ :=
  List.filterMap_append

omit [DecidableEq ι] in
theorem mem_labels {L : Type} {label : (op : Op) → Resp op → Option L} {i : ι} {t : L}
    {e : Event Resp W} {tr : List (Occurrence ι Resp W)} (he : .act i e ∈ tr)
    (ht : label e.op e.resp = some t) : (i, t) ∈ labels label tr :=
  List.mem_filterMap.mpr ⟨.act i e, he, by simp [ht]⟩

/-- Labels that the services hand out only while they are unused are handed out once. -/
theorem Exec.labels_fresh {L : Type} {step : (op : Op) → W → Resp op → W → Prop}
    {env : W → W → Prop} {c₀ c : Config ι Resp ε α W} {tr : List (Occurrence ι Resp W)}
    {label : (op : Op) → Resp op → Option L} {used : W → L → Prop}
    (hfresh : ∀ op w r w', step op w r w' → ∀ t, label op r = some t → ¬ used w t ∧ used w' t)
    (hstep : ∀ op w r w', step op w r w' → ∀ t, used w t → used w' t)
    (henv : ∀ w w', env w w' → ∀ t, used w t → used w' t) (h : Exec step env c₀ tr c) :
    ((labels label tr).map Prod.snd).Nodup ∧ ∀ p ∈ labels label tr, used c.world p.2 := by
  induction h with
  | start => exact ⟨List.nodup_nil, by simp [labels]⟩
  | @act tr c i op k r w' _ _ hs ih =>
    obtain ⟨hnodup, hused⟩ := ih
    rw [labels_append]
    cases hlabel : label op r with
    | none =>
      have hnone : labels label [Occurrence.act i ⟨op, r, c.world, w'⟩] = [] := by
        simp [labels, hlabel]
      rw [hnone, List.append_nil]
      exact ⟨hnodup, fun p hp => hstep op _ r _ hs _ (hused p hp)⟩
    | some t =>
      have hone : labels label [Occurrence.act i ⟨op, r, c.world, w'⟩] = [(i, t)] := by
        simp [labels, hlabel]
      obtain ⟨hnew, hnow⟩ := hfresh op _ r _ hs t hlabel
      rw [hone]
      refine ⟨?_, ?_⟩
      · rw [List.map_append]
        have hnot : t ∉ (labels label tr).map Prod.snd := by
          intro ht
          obtain ⟨p, hp, hpt⟩ := List.mem_map.mp ht
          exact hnew (hpt ▸ hused p hp)
        refine List.nodup_append.mpr ⟨hnodup, List.pairwise_singleton _ _, ?_⟩
        intro a ha b hb hab
        rw [hab, List.mem_singleton.mp hb] at ha
        exact hnot ha
      · intro p hp
        rcases List.mem_append.mp hp with hp | hp
        · exact hstep op _ r _ hs _ (hused p hp)
        · rw [List.mem_singleton.mp hp]
          exact hnow
  | env _ he ih =>
    rw [labels_append]
    have hnone : ∀ w w' : W, labels label [(Occurrence.env w w' : Occurrence ι Resp W)] = [] :=
      fun _ _ => rfl
    rw [hnone, List.append_nil]
    exact ⟨ih.1, fun p hp => henv _ _ he _ (ih.2 p hp)⟩

/-- A protocol for the calls of one program, driven by its own answers. -/
structure Monitor {Op : Type} (Resp : Op → Type) where
  State : Type
  allows : State → Op → Prop
  next : State → (op : Op) → Resp op → State

namespace Monitor

variable (m : Monitor Resp)

/-- Following a monitor is a weakest precondition over the monitor's own state. -/
def setting : Setting Resp m.State where
  step op s r s' := s' = m.next s op r
  rely := Eq
  guar _ _ _ _ := True
  pre op s := m.allows s op
  rely_refl _ := rfl
  rely_trans := Eq.trans

def after (i : ι) (s : m.State) (tr : List (Occurrence ι Resp W)) : m.State :=
  tr.foldl (fun s o => match o with
    | .act j e => if j = i then m.next s e.op e.resp else s
    | .env _ _ => s) s

variable {m}

theorem after_act_self (i : ι) (s : m.State) (tr : List (Occurrence ι Resp W))
    (e : Event Resp W) :
    m.after i s (tr ++ [.act i e]) = m.next (m.after i s tr) e.op e.resp := by
  simp [after]

theorem after_act_ne {i j : ι} (h : j ≠ i) (s : m.State) (tr : List (Occurrence ι Resp W))
    (e : Event Resp W) : m.after i s (tr ++ [.act j e]) = m.after i s tr := by
  simp [after, h]

theorem after_env (i : ι) (s : m.State) (tr : List (Occurrence ι Resp W)) (w w' : W) :
    m.after i s (tr ++ [.env w w']) = m.after i s tr := by
  simp [after]

theorem wp_ret {a : α} {Q : Outcome ε α → m.State → Prop} {s : m.State} :
    m.setting.wp (.ret a) Q s ↔ Q (.ret a) s := Iff.rfl

theorem wp_raise {e : ε} {Q : Outcome ε α → m.State → Prop} {s : m.State} :
    m.setting.wp (.raise e) Q s ↔ Q (.raise e) s := Iff.rfl

theorem wp_call {op : Op} {k : Resp op → Prog Resp ε α} {Q : Outcome ε α → m.State → Prop}
    {s : m.State} :
    m.setting.wp (.call op k) Q s ↔
      m.allows s op ∧ ∀ r, m.setting.wp (k r) Q (m.next s op r) := by
  simp [Setting.wp, setting]

theorem wp_of_uses {φ : Op → Prop} {s : m.State} (hφ : ∀ op, φ op → m.allows s op)
    (hs : ∀ op r, φ op → m.next s op r = s) {p : Prog Resp ε α} (hp : p.Uses φ) :
    m.setting.wp p (fun _ s' => s' = s) s := by
  induction p with
  | ret a => exact wp_ret.mpr rfl
  | raise e => exact wp_raise.mpr rfl
  | call op k ih =>
    refine wp_call.mpr ⟨hφ op hp.1, fun r => ?_⟩
    rw [hs op r hp.1]
    exact ih r (hp.2 r)

end Monitor

/-- A program that follows a monitor keeps following it, and every call it issues is one the
monitor allows after the program's earlier calls. -/
theorem Exec.monitored {step : (op : Op) → W → Resp op → W → Prop} {env : W → W → Prop}
    {c₀ c : Config ι Resp ε α W} {tr : List (Occurrence ι Resp W)} {m : Monitor Resp}
    {i : ι} {s : m.State} {Q : Outcome ε α → m.State → Prop}
    (h₀ : m.setting.wp (c₀.procs i) Q s) (h : Exec step env c₀ tr c) :
    m.setting.wp (c.procs i) Q (m.after i s tr) ∧
      ∀ t₁ e t₂, tr = t₁ ++ .act i e :: t₂ → m.allows (m.after i s t₁) e.op := by
  induction h with
  | start => exact ⟨h₀, by simp⟩
  | @act tr c j op k r w' _ hp hs ih =>
    obtain ⟨hwp, htr⟩ := ih
    by_cases hj : j = i
    · subst hj
      rw [hp] at hwp
      obtain ⟨hallow, hk⟩ := Monitor.wp_call.mp hwp
      rw [Monitor.after_act_self]
      refine ⟨by simpa using hk r, ?_⟩
      intro t₁ e t₂ ht
      rcases List.eq_nil_or_concat t₂ with rfl | ⟨t, o, rfl⟩
      · obtain ⟨rfl, ho⟩ := List.append_inj' ht rfl
        cases List.singleton_inj.mp ho
        exact hallow
      · rw [List.concat_eq_append, ← List.cons_append, ← List.append_assoc] at ht
        exact htr t₁ e t (List.append_inj' ht rfl).1
    · rw [Monitor.after_act_ne hj]
      refine ⟨by simpa [Function.update_of_ne (Ne.symm hj)] using hwp, ?_⟩
      intro t₁ e t₂ ht
      rcases List.eq_nil_or_concat t₂ with rfl | ⟨t, o, rfl⟩
      · obtain ⟨-, ho⟩ := List.append_inj' ht rfl
        cases List.singleton_inj.mp ho
        exact absurd rfl hj
      · rw [List.concat_eq_append, ← List.cons_append, ← List.append_assoc] at ht
        exact htr t₁ e t (List.append_inj' ht rfl).1
  | env _ he ih =>
    obtain ⟨hwp, htr⟩ := ih
    rw [Monitor.after_env]
    refine ⟨hwp, ?_⟩
    intro t₁ e t₂ ht
    rcases List.eq_nil_or_concat t₂ with rfl | ⟨t, o, rfl⟩
    · obtain ⟨-, ho⟩ := List.append_inj' ht rfl
      cases List.singleton_inj.mp ho
    · rw [List.concat_eq_append, ← List.cons_append, ← List.append_assoc] at ht
      exact htr t₁ e t (List.append_inj' ht rfl).1

/-! ## Playing a schedule -/

inductive Move (ι C W : Type) : Type
  | act (i : ι) (c : C)
  | env (f : W → W)

/-- Plays a schedule; a move of a program that has ended does nothing. -/
def play {C : Type} (exec : C → (op : Op) → W → Resp op × W) :
    List (Move ι C W) → Config ι Resp ε α W →
      List (Occurrence ι Resp W) × Config ι Resp ε α W
  | [], c => ([], c)
  | .act i ch :: ms, c =>
    match c.procs i with
    | .call op k =>
      let answer := exec ch op c.world
      let rest := play exec ms ⟨answer.2, Function.update c.procs i (k answer.1)⟩
      (.act i ⟨op, answer.1, c.world, answer.2⟩ :: rest.1, rest.2)
    | _ => play exec ms c
  | .env f :: ms, c =>
    let rest := play exec ms ⟨f c.world, c.procs⟩
    (.env c.world (f c.world) :: rest.1, rest.2)

theorem exec_play {C : Type} {exec : C → (op : Op) → W → Resp op × W} {env : W → W → Prop}
    (ms : List (Move ι C W)) (henv : ∀ f, .env f ∈ ms → ∀ w, env w (f w))
    (c : Config ι Resp ε α W) :
    Exec (fun op w r w' => ∃ ch, exec ch op w = (r, w')) env c (play exec ms c).1
      (play exec ms c).2 := by
  induction ms generalizing c with
  | nil => exact .start
  | cons m ms ih =>
    have ih := ih fun f hf => henv f (List.mem_cons_of_mem _ hf)
    cases m with
    | act i ch =>
      simp only [play]
      split
      · rename_i op k hp
        exact (Exec.act .start hp ⟨ch, rfl⟩).append (ih _)
      · exact ih c
    | env f =>
      exact (Exec.env .start (henv f List.mem_cons_self _)).append (ih _)

theorem env_of_mem_play {C : Type} {exec : C → (op : Op) → W → Resp op × W}
    {ms : List (Move ι C W)} {c : Config ι Resp ε α W} {w w' : W}
    (h : .env w w' ∈ (play exec ms c).1) : ∃ f, .env f ∈ ms ∧ w' = f w := by
  induction ms generalizing c with
  | nil => simp [play] at h
  | cons m ms ih =>
    have later : ∀ c' : Config ι Resp ε α W, .env w w' ∈ (play exec ms c').1 →
        ∃ f, .env f ∈ m :: ms ∧ w' = f w := by
      intro c' h'
      obtain ⟨f, hf, heq⟩ := ih h'
      exact ⟨f, List.mem_cons_of_mem _ hf, heq⟩
    cases m with
    | act i ch =>
      simp only [play] at h
      split at h
      · exact later _ ((List.mem_cons.mp h).resolve_left (by simp))
      · exact later _ h
    | env f =>
      rcases List.mem_cons.mp h with heq | h
      · cases heq
        exact ⟨f, List.mem_cons_self, rfl⟩
      · exact later _ h

end FutureWas.Effect
