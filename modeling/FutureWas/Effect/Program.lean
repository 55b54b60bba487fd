import Mathlib.Order.Basic

/-!
# Programs that call external services

A program returns, unwinds with an exception value, or issues one external call and
continues with the answer. Nothing here fixes what the calls are: the operations, the
type of each answer and the states of the services are parameters.

`Setting` collects what a proof may assume and must show about a program that shares its
state with others: the step relation of the services, the interference (`rely`), the
condition under which each call may be issued (`pre`) and the effect each call may have
(`guar`). `Setting.wp` is the weakest precondition in such a setting, computed by recursion
on the program; `Setting.wp_sound` connects it with the executions `Runs`.
-/

set_option autoImplicit false

namespace FutureWas.Effect

inductive Prog {Op : Type} (Resp : Op → Type) (ε α : Type) : Type
  | ret (a : α)
  | raise (e : ε)
  | call (op : Op) (k : Resp op → Prog Resp ε α)

inductive Outcome (ε α : Type) : Type
  | ret (a : α)
  | raise (e : ε)

def Outcome.prog {Op : Type} {Resp : Op → Type} {ε α : Type} : Outcome ε α → Prog Resp ε α
  | .ret a => .ret a
  | .raise e => .raise e

structure Event {Op : Type} (Resp : Op → Type) (W : Type) where
  op : Op
  resp : Resp op
  before : W
  after : W

variable {Op : Type} {Resp : Op → Type} {ε α β γ W V : Type}

namespace Prog

def bind (p : Prog Resp ε α) (f : α → Prog Resp ε β) : Prog Resp ε β :=
  match p with
  | .ret a => f a
  | .raise e => .raise e
  | .call op k => .call op fun r => (k r).bind f

/-- Deferred cleanup: `c` runs after `p` whether `p` returns or unwinds. -/
def ensure (p : Prog Resp ε α) (c : Prog Resp ε Unit) : Prog Resp ε α :=
  match p with
  | .ret a => c.bind fun _ => .ret a
  | .raise e => c.bind fun _ => .raise e
  | .call op k => .call op fun r => (k r).ensure c

@[simp] theorem ret_bind (a : α) (f : α → Prog Resp ε β) : (ret a).bind f = f a := rfl

@[simp] theorem raise_bind (e : ε) (f : α → Prog Resp ε β) :
    (raise e : Prog Resp ε α).bind f = .raise e := rfl

@[simp] theorem call_bind (op : Op) (k : Resp op → Prog Resp ε α) (f : α → Prog Resp ε β) :
    (call op k).bind f = .call op fun r => (k r).bind f := rfl

def Uses (φ : Op → Prop) : Prog Resp ε α → Prop
  | .ret _ => True
  | .raise _ => True
  | .call op k => φ op ∧ ∀ r, (k r).Uses φ

theorem Uses.mono {φ ψ : Op → Prop} (h : ∀ op, φ op → ψ op) {p : Prog Resp ε α}
    (hp : p.Uses φ) : p.Uses ψ := by
  induction p with
  | ret a => trivial
  | raise e => trivial
  | call op k ih => exact ⟨h op hp.1, fun r => ih r (hp.2 r)⟩

theorem Uses.bind {φ : Op → Prop} {p : Prog Resp ε α} {f : α → Prog Resp ε β}
    (hp : p.Uses φ) (hf : ∀ a, (f a).Uses φ) : (p.bind f).Uses φ := by
  induction p with
  | ret a => exact hf a
  | raise e => trivial
  | call op k ih => exact ⟨hp.1, fun r => ih r (hp.2 r)⟩

def Safe (φ : Op → Prop) : Prog Resp ε α → Prop
  | .ret _ => True
  | .raise _ => False
  | .call op k => φ op ∧ ∀ r, (k r).Safe φ

theorem Safe.mono {φ ψ : Op → Prop} (h : ∀ op, φ op → ψ op) {p : Prog Resp ε α}
    (hp : p.Safe φ) : p.Safe ψ := by
  induction p with
  | ret a => trivial
  | raise e => exact hp.elim
  | call op k ih => exact ⟨h op hp.1, fun r => ih r (hp.2 r)⟩

theorem Safe.uses {φ : Op → Prop} {p : Prog Resp ε α} (hp : p.Safe φ) : p.Uses φ := by
  induction p with
  | ret a => trivial
  | raise e => trivial
  | call op k ih => exact ⟨hp.1, fun r => ih r (hp.2 r)⟩

theorem Safe.bind {φ : Op → Prop} {p : Prog Resp ε α} {f : α → Prog Resp ε β}
    (hp : p.Safe φ) (hf : ∀ a, (f a).Safe φ) : (p.bind f).Safe φ := by
  induction p with
  | ret a => exact hf a
  | raise e => exact hp
  | call op k ih => exact ⟨hp.1, fun r => ih r (hp.2 r)⟩

def Returns (φ : α → Prop) : Prog Resp ε α → Prop
  | .ret a => φ a
  | .raise _ => True
  | .call _ k => ∀ r, (k r).Returns φ

theorem Returns.bind {φ : α → Prop} {ψ : β → Prop} {p : Prog Resp ε α} {f : α → Prog Resp ε β}
    (hp : p.Returns φ) (hf : ∀ a, φ a → (f a).Returns ψ) : (p.bind f).Returns ψ := by
  induction p with
  | ret a => exact hf a hp
  | raise e => trivial
  | call op k ih => exact fun r => ih r (hp r)

theorem Returns.mono {φ ψ : α → Prop} (h : ∀ a, φ a → ψ a) {p : Prog Resp ε α}
    (hp : p.Returns φ) : p.Returns ψ := by
  induction p with
  | ret a => exact h a hp
  | raise e => trivial
  | call op k ih => exact fun r => ih r (hp r)

theorem Returns.of_forall {φ : α → Prop} (h : ∀ a, φ a) (p : Prog Resp ε α) : p.Returns φ := by
  induction p with
  | ret a => exact h a
  | raise e => trivial
  | call op k ih => exact fun r => ih r

def Yields : Prog Resp ε α → α → Prop
  | .ret a, b => b = a
  | .raise _, _ => False
  | .call _ k, b => ∃ r, (k r).Yields b

theorem Returns.of_yields {φ : α → Prop} {p : Prog Resp ε α} {a : α} (hp : p.Returns φ)
    (ha : p.Yields a) : φ a := by
  induction p with
  | ret b =>
    rw [ha]
    exact hp
  | raise e => exact ha.elim
  | call op k ih =>
    obtain ⟨r, hr⟩ := ha
    exact ih r (hp r) hr

/-- Deterministic execution: the services answer through `exec`, which reads one choice of
the environment for each call. -/
def run {C : Type} (exec : C → (op : Op) → W → Resp op × W) (cs : ℕ → C) :
    ℕ → Prog Resp ε α → W → List (Event Resp W) × Outcome ε α × W
  | _, .ret a, w => ([], .ret a, w)
  | _, .raise e, w => ([], .raise e, w)
  | n, .call op k, w =>
    let answer := exec (cs n) op w
    let rest := run exec cs (n + 1) (k answer.1) answer.2
    (⟨op, answer.1, w, answer.2⟩ :: rest.1, rest.2)

def runAmong {C : Type} (exec : C → (op : Op) → W → Resp op × W) (env : ℕ → W → W) (cs : ℕ → C) :
    ℕ → Prog Resp ε α → W → List (Event Resp W) × Outcome ε α × W
  | _, .ret a, w => ([], .ret a, w)
  | _, .raise e, w => ([], .raise e, w)
  | n, .call op k, w =>
    let answer := exec (cs n) op (env n w)
    let rest := runAmong exec env cs (n + 1) (k answer.1) answer.2
    (⟨op, answer.1, env n w, answer.2⟩ :: rest.1, rest.2)

end Prog

/-- `Runs step rely p w tr o w'`: started at `w`, the program issues the calls `tr` and ends
with outcome `o` at `w'`; before each call the environment may move by `rely`. -/
inductive Runs (step : (op : Op) → W → Resp op → W → Prop) (rely : W → W → Prop) :
    Prog Resp ε α → W → List (Event Resp W) → Outcome ε α → W → Prop
  | ret {a w} : Runs step rely (.ret a) w [] (.ret a) w
  | raise {e w} : Runs step rely (.raise e) w [] (.raise e) w
  | call {op k w w₁ r w₂ tr o w'} : rely w w₁ → step op w₁ r w₂ →
      Runs step rely (k r) w₂ tr o w' →
      Runs step rely (.call op k) w (⟨op, r, w₁, w₂⟩ :: tr) o w'

theorem Runs.mono {step step' : (op : Op) → W → Resp op → W → Prop} {rely rely' : W → W → Prop}
    (hstep : ∀ op w r w', step op w r w' → step' op w r w')
    (hrely : ∀ w w', rely w w' → rely' w w')
    {p : Prog Resp ε α} {w w' : W} {tr : List (Event Resp W)} {o : Outcome ε α}
    (h : Runs step rely p w tr o w') : Runs step' rely' p w tr o w' := by
  induction h with
  | ret => exact .ret
  | raise => exact .raise
  | call hr hs _ ih => exact .call (hrely _ _ hr) (hstep _ _ _ _ hs) ih

theorem Runs.restrict {step : (op : Op) → W → Resp op → W → Prop} {rely : W → W → Prop}
    {φ : (op : Op) → Resp op → Prop} {p : Prog Resp ε α} {w w' : W} {tr : List (Event Resp W)}
    {o : Outcome ε α} (h : Runs step rely p w tr o w') (hφ : ∀ e ∈ tr, φ e.op e.resp) :
    Runs (fun op w r w' => φ op r ∧ step op w r w') rely p w tr o w' := by
  induction h with
  | ret => exact .ret
  | raise => exact .raise
  | call hr hs _ ih =>
    obtain ⟨hanswer, hrest⟩ := List.forall_mem_cons.mp hφ
    exact .call hr ⟨hanswer, hs⟩ (ih hrest)

def Event.map (π : W → V) (e : Event Resp W) : Event Resp V := ⟨e.op, e.resp, π e.before, π e.after⟩

theorem Runs.project {step : (op : Op) → W → Resp op → W → Prop} {rely : W → W → Prop}
    {step' : (op : Op) → V → Resp op → V → Prop} {rely' : V → V → Prop} {π : W → V}
    (hstep : ∀ op w r w', step op w r w' → step' op (π w) r (π w'))
    (hrely : ∀ w w', rely w w' → rely' (π w) (π w')) {p : Prog Resp ε α} {w w' : W}
    {tr : List (Event Resp W)} {o : Outcome ε α} (h : Runs step rely p w tr o w') :
    Runs step' rely' p (π w) (tr.map (Event.map π)) o (π w') := by
  induction h with
  | ret => exact .ret
  | raise => exact .raise
  | call hr hs _ ih => exact .call (hrely _ _ hr) (hstep _ _ _ _ hs) ih

theorem Runs.of_bind {step : (op : Op) → W → Resp op → W → Prop} {rely : W → W → Prop}
    {p : Prog Resp ε α} {f : α → Prog Resp ε β} {w w' : W} {tr : List (Event Resp W)}
    {o : Outcome ε β} (h : Runs step rely (p.bind f) w tr o w') :
    (∃ e, o = .raise e ∧ Runs step rely p w tr (.raise e) w') ∨
      ∃ a w₁ tr₁ tr₂, tr = tr₁ ++ tr₂ ∧ Runs step rely p w tr₁ (.ret a) w₁ ∧
        Runs step rely (f a) w₁ tr₂ o w' := by
  induction p generalizing w tr with
  | ret a => exact Or.inr ⟨a, w, [], tr, rfl, .ret, h⟩
  | raise e =>
    cases h
    exact Or.inl ⟨e, rfl, .raise⟩
  | call op k ih =>
    cases h with
    | call hr hs hrest =>
      obtain ⟨e, ho, hp⟩ | ⟨a, w₁, tr₁, tr₂, htr, hp, hf⟩ := ih _ hrest
      · exact Or.inl ⟨e, ho, .call hr hs hp⟩
      · exact Or.inr ⟨a, w₁, _ :: tr₁, tr₂, congrArg _ htr, .call hr hs hp, hf⟩

theorem Runs.of_ensure {step : (op : Op) → W → Resp op → W → Prop} {rely : W → W → Prop}
    {p : Prog Resp ε α} {c : Prog Resp ε Unit} {w w' : W} {tr : List (Event Resp W)}
    {o : Outcome ε α} (h : Runs step rely (p.ensure c) w tr o w') :
    ∃ o₁ w₁ tr₁ tr₂, tr = tr₁ ++ tr₂ ∧ Runs step rely p w tr₁ o₁ w₁ ∧
      Runs step rely (c.bind fun _ => o₁.prog) w₁ tr₂ o w' := by
  induction p generalizing w tr with
  | ret a => exact ⟨.ret a, w, [], tr, rfl, .ret, h⟩
  | raise e => exact ⟨.raise e, w, [], tr, rfl, .raise, h⟩
  | call op k ih =>
    cases h with
    | call hr hs hrest =>
      obtain ⟨o₁, w₁, tr₁, tr₂, htr, hp, hc⟩ := ih _ hrest
      exact ⟨o₁, w₁, _ :: tr₁, tr₂, congrArg _ htr, .call hr hs hp, hc⟩

theorem Runs.uses {step : (op : Op) → W → Resp op → W → Prop} {rely : W → W → Prop}
    {p : Prog Resp ε α} {φ : Op → Prop} (hp : p.Uses φ) {w w' : W} {tr : List (Event Resp W)}
    {o : Outcome ε α} (h : Runs step rely p w tr o w') : ∀ e ∈ tr, φ e.op := by
  induction h with
  | ret => simp
  | raise => simp
  | call _ _ _ ih => exact List.forall_mem_cons.mpr ⟨hp.1, ih (hp.2 _)⟩

theorem Runs.returns {step : (op : Op) → W → Resp op → W → Prop} {rely : W → W → Prop}
    {p : Prog Resp ε α} {φ : α → Prop} (hp : p.Returns φ) {w w' : W} {tr : List (Event Resp W)}
    {a : α} (h : Runs step rely p w tr (.ret a) w') : φ a := by
  generalize ho : Outcome.ret a = o at h
  induction h with
  | ret =>
    cases ho
    exact hp
  | raise => cases ho
  | call _ _ _ ih => exact ih (hp _) ho

theorem Runs.safe {step : (op : Op) → W → Resp op → W → Prop} {rely : W → W → Prop}
    {p : Prog Resp ε α} {φ : Op → Prop} (hp : p.Safe φ) {w w' : W} {tr : List (Event Resp W)}
    {o : Outcome ε α} (h : Runs step rely p w tr o w') :
    (∃ a, o = .ret a) ∧ ∀ e ∈ tr, φ e.op := by
  induction h with
  | ret => exact ⟨⟨_, rfl⟩, by simp⟩
  | raise => exact hp.elim
  | call _ _ _ ih => exact ⟨(ih (hp.2 _)).1, List.forall_mem_cons.mpr ⟨hp.1, (ih (hp.2 _)).2⟩⟩

theorem Runs.of_safe_bind {step : (op : Op) → W → Resp op → W → Prop} {rely : W → W → Prop}
    {φ : Op → Prop} {p : Prog Resp ε α} (hp : p.Safe φ) {f : α → Prog Resp ε β} {w w' : W}
    {tr : List (Event Resp W)} {o : Outcome ε β} (h : Runs step rely (p.bind f) w tr o w') :
    ∃ a w₁ tr₁ tr₂, tr = tr₁ ++ tr₂ ∧ Runs step rely p w tr₁ (.ret a) w₁ ∧
      Runs step rely (f a) w₁ tr₂ o w' ∧ ∀ e ∈ tr₁, φ e.op := by
  rcases h.of_bind with ⟨e, -, hrun⟩ | ⟨a, w₁, tr₁, tr₂, htr, hrun, hrest⟩
  · obtain ⟨⟨_, hne⟩, -⟩ := hrun.safe hp
    cases hne
  · exact ⟨a, w₁, tr₁, tr₂, htr, hrun, hrest, (hrun.safe hp).2⟩

theorem runs_run {C : Type} {exec : C → (op : Op) → W → Resp op × W} (cs : ℕ → C) (n : ℕ)
    (p : Prog Resp ε α) (w : W) :
    Runs (fun op w r w' => ∃ c, exec c op w = (r, w')) Eq p w
      (p.run exec cs n w).1 (p.run exec cs n w).2.1 (p.run exec cs n w).2.2 := by
  induction p generalizing n w with
  | ret a => exact .ret
  | raise e => exact .raise
  | call op k ih => exact .call rfl ⟨cs n, rfl⟩ (ih _ _ _)

theorem runs_runAmong {C : Type} {exec : C → (op : Op) → W → Resp op × W} {rely : W → W → Prop}
    {env : ℕ → W → W} (henv : ∀ n w, rely w (env n w)) (cs : ℕ → C) (n : ℕ) (p : Prog Resp ε α)
    (w : W) :
    Runs (fun op w r w' => ∃ c, exec c op w = (r, w')) rely p w
      (p.runAmong exec env cs n w).1 (p.runAmong exec env cs n w).2.1
      (p.runAmong exec env cs n w).2.2 := by
  induction p generalizing n w with
  | ret a => exact .ret
  | raise e => exact .raise
  | call op k ih => exact .call (henv n w) ⟨cs n, rfl⟩ (ih _ _ _)

structure Setting {Op : Type} (Resp : Op → Type) (W : Type) where
  step : (op : Op) → W → Resp op → W → Prop
  rely : W → W → Prop
  guar : (op : Op) → Resp op → W → W → Prop
  pre : Op → W → Prop
  rely_refl : ∀ w, rely w w
  rely_trans : ∀ {w w₁ w₂}, rely w w₁ → rely w₁ w₂ → rely w w₂

namespace Setting

def alone (step : (op : Op) → W → Resp op → W → Prop) : Setting Resp W where
  step := step
  rely := Eq
  guar _ _ _ _ := True
  pre _ _ := True
  rely_refl _ := rfl
  rely_trans := Eq.trans

def crowded (step : (op : Op) → W → Resp op → W → Prop) : Setting Resp W where
  step := step
  rely _ _ := True
  guar _ _ _ _ := True
  pre _ _ := True
  rely_refl _ := trivial
  rely_trans _ _ := trivial

/-- A setting read through a projection `π` of the services, with their own steps. -/
def comap (S : Setting Resp V) (π : W → V) (step : (op : Op) → W → Resp op → W → Prop) :
    Setting Resp W where
  step := step
  rely w w' := S.rely (π w) (π w')
  guar op r w w' := S.guar op r (π w) (π w')
  pre op w := S.pre op (π w)
  rely_refl _ := S.rely_refl _
  rely_trans := S.rely_trans

variable (S : Setting Resp W)

def wp : Prog Resp ε α → (Outcome ε α → W → Prop) → W → Prop
  | .ret a, Q, w => Q (.ret a) w
  | .raise e, Q, w => Q (.raise e) w
  | .call op k, Q, w => ∀ w₁, S.rely w w₁ → S.pre op w₁ ∧
      ∀ r w₂, S.step op w₁ r w₂ → S.guar op r w₁ w₂ ∧ wp (k r) Q w₂

def Stable (P : W → Prop) : Prop := ∀ w w', S.rely w w' → P w → P w'

variable {S}

theorem wp_mono {p : Prog Resp ε α} {Q Q' : Outcome ε α → W → Prop}
    (hQ : ∀ o w, Q o w → Q' o w) {w : W} (h : S.wp p Q w) : S.wp p Q' w := by
  induction p generalizing w with
  | ret a => exact hQ _ _ h
  | raise e => exact hQ _ _ h
  | call op k ih =>
    intro w₁ hw
    obtain ⟨hpre, hk⟩ := h w₁ hw
    exact ⟨hpre, fun r w₂ hs => ⟨(hk r w₂ hs).1, ih r (hk r w₂ hs).2⟩⟩

theorem wp_rely {p : Prog Resp ε α} {Q : Outcome ε α → W → Prop} (hQ : ∀ o, S.Stable (Q o))
    {w w' : W} (h : S.wp p Q w) (hw : S.rely w w') : S.wp p Q w' := by
  cases p with
  | ret a => exact hQ _ w w' hw h
  | raise e => exact hQ _ w w' hw h
  | call op k => exact fun w₁ h₁ => h w₁ (S.rely_trans hw h₁)

theorem wp_bind {p : Prog Resp ε α} {f : α → Prog Resp ε β} {Q : Outcome ε β → W → Prop} {w : W}
    (h : S.wp p (fun o w => match o with
      | .ret a => S.wp (f a) Q w
      | .raise e => Q (.raise e) w) w) : S.wp (p.bind f) Q w := by
  induction p generalizing w with
  | ret a => exact h
  | raise e => exact h
  | call op k ih =>
    intro w₁ hw
    obtain ⟨hpre, hk⟩ := h w₁ hw
    exact ⟨hpre, fun r w₂ hs => ⟨(hk r w₂ hs).1, ih r (hk r w₂ hs).2⟩⟩

theorem wp_returns {p : Prog Resp ε α} {φ : α → Prop} {Q : Outcome ε α → W → Prop} {w : W}
    (hp : p.Returns φ) (h : S.wp p Q w) :
    S.wp p (fun o w => Q o w ∧ ∀ a, o = .ret a → φ a) w := by
  induction p generalizing w with
  | ret a =>
    refine ⟨h, ?_⟩
    intro a' ha
    cases ha
    exact hp
  | raise e => exact ⟨h, by simp⟩
  | call op k ih =>
    intro w₁ hw
    obtain ⟨hpre, hk⟩ := h w₁ hw
    exact ⟨hpre, fun r w₂ hs => ⟨(hk r w₂ hs).1, ih r (hp r) (hk r w₂ hs).2⟩⟩

theorem wp_ensure {p : Prog Resp ε α} {c : Prog Resp ε Unit} {Q : Outcome ε α → W → Prop} {w : W}
    (h : S.wp p (fun o w => S.wp (c.bind fun _ => o.prog) Q w) w) : S.wp (p.ensure c) Q w := by
  induction p generalizing w with
  | ret a => exact h
  | raise e => exact h
  | call op k ih =>
    intro w₁ hw
    obtain ⟨hpre, hk⟩ := h w₁ hw
    exact ⟨hpre, fun r w₂ hs => ⟨(hk r w₂ hs).1, ih r (hk r w₂ hs).2⟩⟩

theorem wp_call {P : W → Prop} (hP : S.Stable P) {op : Op} {k : Resp op → Prog Resp ε α}
    {Q : Outcome ε α → W → Prop} {w : W} (hw : P w)
    (h : ∀ w₁, P w₁ → S.pre op w₁ ∧
      ∀ r w₂, S.step op w₁ r w₂ → S.guar op r w₁ w₂ ∧ S.wp (k r) Q w₂) :
    S.wp (.call op k) Q w :=
  fun w₁ hr => h w₁ (hP w w₁ hr hw)

theorem wp_safe {P : W → Prop} (hP : S.Stable P) {φ : Op → Prop}
    (hcall : ∀ op w, φ op → P w → S.pre op w ∧
      ∀ r w', S.step op w r w' → S.guar op r w w' ∧ P w')
    {p : Prog Resp ε α} (hp : p.Safe φ) {w : W} (hw : P w) :
    S.wp p (fun o w' => (∃ a, o = .ret a) ∧ P w') w := by
  induction p generalizing w with
  | ret a => exact ⟨⟨a, rfl⟩, hw⟩
  | raise e => exact hp.elim
  | call op k ih =>
    refine wp_call hP hw ?_
    intro w₁ hw₁
    obtain ⟨hpre, hstep⟩ := hcall op w₁ hp.1 hw₁
    exact ⟨hpre, fun r w₂ hs => ⟨(hstep r w₂ hs).1, ih r (hp.2 r) (hstep r w₂ hs).2⟩⟩

/-- What a proof in a setting says about an execution: the outcome satisfies the
postcondition, and every call was issued under its precondition and kept its guarantee. -/
theorem wp_sound {p : Prog Resp ε α} {Q : Outcome ε α → W → Prop} {w w' : W}
    {tr : List (Event Resp W)} {o : Outcome ε α} (h : S.wp p Q w)
    (hrun : Runs S.step S.rely p w tr o w') :
    Q o w' ∧ ∀ e ∈ tr, S.pre e.op e.before ∧ S.guar e.op e.resp e.before e.after := by
  induction hrun with
  | ret => exact ⟨h, by simp⟩
  | raise => exact ⟨h, by simp⟩
  | call hr hs _ ih =>
    obtain ⟨hpre, hk⟩ := h _ hr
    obtain ⟨hguar, hrest⟩ := hk _ _ hs
    obtain ⟨hQ, htr⟩ := ih hrest
    refine ⟨hQ, ?_⟩
    intro e he
    rcases List.mem_cons.mp he with rfl | he
    · exact ⟨hpre, hguar⟩
    · exact htr e he

/-- A proof about an abstraction `π` of the services is a proof about the services, when
every step of theirs is a step of the abstraction. -/
theorem wp_comap {T : Setting Resp V} {π : W → V}
    {step : (op : Op) → W → Resp op → W → Prop}
    (hstep : ∀ op w r w', step op w r w' → T.step op (π w) r (π w'))
    {p : Prog Resp ε α} {Q : Outcome ε α → V → Prop} {w : W} (h : T.wp p Q (π w)) :
    (T.comap π step).wp p (fun o w => Q o (π w)) w := by
  induction p generalizing w with
  | ret a => exact h
  | raise e => exact h
  | call op k ih =>
    intro w₁ hr
    obtain ⟨hpre, hk⟩ := h (π w₁) hr
    refine ⟨hpre, fun r w₂ hs => ?_⟩
    obtain ⟨hguar, hrest⟩ := hk r (π w₂) (hstep _ _ _ _ hs)
    exact ⟨hguar, ih r hrest⟩

/-- The same setting with the program's own calls so far beside the services. -/
def traced (S : Setting Resp W) : Setting Resp (W × List (Event Resp W)) where
  step op s r s' := S.step op s.1 r s'.1 ∧ s'.2 = s.2 ++ [⟨op, r, s.1, s'.1⟩]
  rely s s' := S.rely s.1 s'.1 ∧ s'.2 = s.2
  guar op r s s' := S.guar op r s.1 s'.1
  pre op s := S.pre op s.1
  rely_refl _ := ⟨S.rely_refl _, rfl⟩
  rely_trans h₁ h₂ := ⟨S.rely_trans h₁.1 h₂.1, h₂.2.trans h₁.2⟩

theorem wp_traced {p : Prog Resp ε α} {Q : Outcome ε α → W → Prop} {w : W}
    (h : S.wp p Q w) (tr : List (Event Resp W)) :
    S.traced.wp p (fun o s => Q o s.1 ∧ ∃ t, s.2 = tr ++ t ∧
      ∀ e ∈ t, S.pre e.op e.before ∧ S.guar e.op e.resp e.before e.after) (w, tr) := by
  induction p generalizing w tr with
  | ret a => exact ⟨h, [], by simp, by simp⟩
  | raise e => exact ⟨h, [], by simp, by simp⟩
  | call op k ih =>
    rintro ⟨w₁, tr₁⟩ ⟨hr, rfl⟩
    obtain ⟨hpre, hk⟩ := h w₁ hr
    refine ⟨hpre, ?_⟩
    rintro r ⟨w₂, tr₂⟩ ⟨hs, htr⟩
    change tr₂ = tr₁ ++ [⟨op, r, w₁, w₂⟩] at htr
    subst htr
    obtain ⟨hguar, hrest⟩ := hk r w₂ hs
    refine ⟨hguar, wp_mono ?_ (ih r hrest _)⟩
    rintro o s ⟨hQ, t, ht, hall⟩
    have hhead : ∀ e ∈ (⟨op, r, w₁, w₂⟩ : Event Resp W) :: t,
        S.pre e.op e.before ∧ S.guar e.op e.resp e.before e.after := by
      intro e he
      rcases List.mem_cons.mp he with rfl | he
      · exact ⟨hpre, hguar⟩
      · exact hall e he
    exact ⟨hQ, _, by rw [ht, List.append_assoc]; rfl, hhead⟩

theorem wp_traced_comap {T : Setting Resp V} {π : W → V}
    {step : (op : Op) → W → Resp op → W → Prop}
    (hstep : ∀ op w r w', step op w r w' → T.step op (π w) r (π w'))
    {p : Prog Resp ε α} {Q : Outcome ε α → V × List (Event Resp V) → Prop} {w : W}
    {tr : List (Event Resp W)} (h : T.traced.wp p Q (π w, tr.map (Event.map π))) :
    (T.comap π step).traced.wp p (fun o s => Q o (π s.1, s.2.map (Event.map π))) (w, tr) := by
  induction p generalizing w tr with
  | ret a => exact h
  | raise e => exact h
  | call op k ih =>
    rintro ⟨w₁, tr₁⟩ ⟨hr, htr⟩
    change tr₁ = tr at htr
    subst htr
    obtain ⟨hpre, hk⟩ := h (π w₁, tr₁.map (Event.map π)) ⟨hr, rfl⟩
    refine ⟨hpre, ?_⟩
    rintro r ⟨w₂, tr₂⟩ ⟨hs, htr⟩
    change tr₂ = tr₁ ++ [⟨op, r, w₁, w₂⟩] at htr
    subst htr
    have hmap : (tr₁ ++ [(⟨op, r, w₁, w₂⟩ : Event Resp W)]).map (Event.map π) =
        tr₁.map (Event.map π) ++ [⟨op, r, π w₁, π w₂⟩] := List.map_append
    obtain ⟨hguar, hrest⟩ := hk r (π w₂, _) ⟨hstep _ _ _ _ hs, hmap⟩
    exact ⟨hguar, ih r hrest⟩

theorem traced_sound {p : Prog Resp ε α} {Q : Outcome ε α → W × List (Event Resp W) → Prop}
    {w w' : W} {tr : List (Event Resp W)} {o : Outcome ε α}
    (hrun : Runs S.step S.rely p w tr o w') {tr₀ : List (Event Resp W)}
    (h : S.traced.wp p Q (w, tr₀)) : Q o (w', tr₀ ++ tr) := by
  induction hrun generalizing tr₀ with
  | ret => rw [List.append_nil]; exact h
  | raise => rw [List.append_nil]; exact h
  | @call op k w w₁ r w₂ tr o w' hr hs _ ih =>
    have hmoved : S.traced.rely (w, tr₀) (w₁, tr₀) := ⟨hr, rfl⟩
    have hcall : S.traced.step op (w₁, tr₀) r (w₂, tr₀ ++ [⟨op, r, w₁, w₂⟩]) := ⟨hs, rfl⟩
    have hrest := ih ((h _ hmoved).2 r _ hcall).2
    rwa [List.append_assoc] at hrest

/-- From one setting to another, under an assertion `F` that the environment and the
program's own calls keep. -/
theorem wp_conseq {T : Setting Resp W} {F : W → Prop}
    (hrely : ∀ w w', T.rely w w' → S.rely w w') (hF : T.Stable F)
    (hcall : ∀ op w, F w → S.pre op w → T.pre op w ∧ ∀ r w', T.step op w r w' →
      S.step op w r w' ∧ (S.guar op r w w' → T.guar op r w w' ∧ F w'))
    {p : Prog Resp ε α} {Q : Outcome ε α → W → Prop} {w : W} (hw : F w) (h : S.wp p Q w) :
    T.wp p (fun o w => F w ∧ Q o w) w := by
  induction p generalizing w with
  | ret a => exact ⟨hw, h⟩
  | raise e => exact ⟨hw, h⟩
  | call op k ih =>
    intro w₁ hr
    have hF₁ : F w₁ := hF w w₁ hr hw
    obtain ⟨hpre, hk⟩ := h w₁ (hrely _ _ hr)
    obtain ⟨hpre', hcall⟩ := hcall op w₁ hF₁ hpre
    refine ⟨hpre', fun r w₂ hs => ?_⟩
    obtain ⟨hs', hg⟩ := hcall r w₂ hs
    obtain ⟨hguar, hrest⟩ := hk r w₂ hs'
    obtain ⟨hguar', hF₂⟩ := hg hguar
    exact ⟨hguar', ih r hF₂ hrest⟩

theorem wp_frame {F : W → Prop} {φ : Op → Prop} (hF : S.Stable F)
    (hstep : ∀ op w r w', φ op → S.step op w r w' → F w → F w') {p : Prog Resp ε α}
    (hp : p.Uses φ) {Q : Outcome ε α → W → Prop} {w : W} (hw : F w) (h : S.wp p Q w) :
    S.wp p (fun o w => F w ∧ Q o w) w := by
  induction p generalizing w with
  | ret a => exact ⟨hw, h⟩
  | raise e => exact ⟨hw, h⟩
  | call op k ih =>
    intro w₁ hr
    have hF₁ : F w₁ := hF w w₁ hr hw
    obtain ⟨hpre, hk⟩ := h w₁ hr
    refine ⟨hpre, fun r w₂ hs => ⟨(hk r w₂ hs).1, ?_⟩⟩
    exact ih r (hp.2 r) (hstep op w₁ r w₂ hp.1 hs hF₁) (hk r w₂ hs).2

def watching (S : Setting Resp W) : Setting Resp W where
  step := S.step
  rely := S.rely
  guar _ _ _ _ := True
  pre _ _ := True
  rely_refl := S.rely_refl
  rely_trans := S.rely_trans

theorem wp_watching {p : Prog Resp ε α} {Q : Outcome ε α → W → Prop} {w : W} (h : S.wp p Q w) :
    S.watching.wp p Q w := by
  induction p generalizing w with
  | ret a => exact h
  | raise e => exact h
  | call op k ih =>
    intro w₁ hr
    exact ⟨trivial, fun r w₂ hs => ⟨trivial, ih r ((h w₁ hr).2 r w₂ hs).2⟩⟩

theorem wp_and {p : Prog Resp ε α} {Q Q' : Outcome ε α → W → Prop} {w : W}
    (h : S.watching.wp p Q w) (h' : S.wp p Q' w) : S.wp p (fun o w => Q o w ∧ Q' o w) w := by
  induction p generalizing w with
  | ret a => exact ⟨h, h'⟩
  | raise e => exact ⟨h, h'⟩
  | call op k ih =>
    intro w₁ hr
    obtain ⟨-, hk⟩ := h w₁ hr
    obtain ⟨hpre, hk'⟩ := h' w₁ hr
    refine ⟨hpre, fun r w₂ hs => ⟨(hk' r w₂ hs).1, ?_⟩⟩
    exact ih r (hk r w₂ hs).2 (hk' r w₂ hs).2

end Setting

/-! ## Two runs with the same choices -/

def calls (tr : List (Event Resp W)) : List (Σ op, Resp op) := tr.map fun e => ⟨e.op, e.resp⟩

/-- Two states that answer alike every call issued under its precondition, and stay related,
cannot be told apart by a program that respects the preconditions in both. -/
theorem lockstep {C : Type} {exec : C → (op : Op) → W → Resp op × W} {S : Setting Resp W}
    {R : W → W → Prop} (hstep : ∀ c op w, S.step op w (exec c op w).1 (exec c op w).2)
    (hR : ∀ c op w v, R w v → S.pre op w → S.pre op v →
      S.guar op (exec c op w).1 w (exec c op w).2 → S.guar op (exec c op v).1 v (exec c op v).2 →
      (exec c op w).1 = (exec c op v).1 ∧ R (exec c op w).2 (exec c op v).2)
    {p : Prog Resp ε α} {Q Q' : Outcome ε α → W → Prop} {w v : W} (hw : S.wp p Q w)
    (hv : S.wp p Q' v) (h : R w v) (cs : ℕ → C) (n : ℕ) :
    calls (p.run exec cs n w).1 = calls (p.run exec cs n v).1 ∧
      (p.run exec cs n w).2.1 = (p.run exec cs n v).2.1 ∧
      R (p.run exec cs n w).2.2 (p.run exec cs n v).2.2 := by
  induction p generalizing w v n with
  | ret a => exact ⟨rfl, rfl, h⟩
  | raise e => exact ⟨rfl, rfl, h⟩
  | call op k ih =>
    obtain ⟨hprew, hkw⟩ := hw w (S.rely_refl w)
    obtain ⟨hprev, hkv⟩ := hv v (S.rely_refl v)
    obtain ⟨hguarw, hw'⟩ := hkw _ _ (hstep (cs n) op w)
    obtain ⟨hguarv, hv'⟩ := hkv _ _ (hstep (cs n) op v)
    obtain ⟨hresp, hrel⟩ := hR (cs n) op w v h hprew hprev hguarw hguarv
    rw [← hresp] at hv'
    obtain ⟨hcalls, hout, hlast⟩ := ih (exec (cs n) op w).1 hw' hv' hrel (n + 1)
    simp only [Prog.run, calls, List.map_cons, ← hresp]
    refine ⟨?_, hout, hlast⟩
    exact congrArg (List.cons _) hcalls

end FutureWas.Effect
