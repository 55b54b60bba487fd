import FutureWas.Effect.Interleaving
import Mathlib.Data.List.Forall2

/-!
# Programs one after another

`Series` records programs that have run to their ends, one after another, while the
environment moves by `rely` between and during them. `Reaches` is the run of one program so
far. `Series.keeps` carries an invariant that every program keeps, and `Series.simulates` a
simulation: every program does one step of an abstraction. `Reaches.finished` makes a part of a
series of a program that has reached an end.
-/

set_option autoImplicit false

namespace FutureWas.Effect

variable {Op : Type} {Resp : Op → Type} {ε α W V : Type}

structure Episode {Op : Type} (Resp : Op → Type) (ε α W : Type) where
  program : Prog Resp ε α
  events : List (Event Resp W)
  outcome : Outcome ε α

def Episode.map (π : W → V) (p : Episode Resp ε α W) : Episode Resp ε α V :=
  ⟨p.program, p.events.map (Event.map π), p.outcome⟩

inductive Series (step : (op : Op) → W → Resp op → W → Prop) (rely : W → W → Prop) (w₀ : W) :
    List (Episode Resp ε α W) → W → Prop
  | start : Series step rely w₀ [] w₀
  | moved {episodes w w'} : Series step rely w₀ episodes w → rely w w' →
      Series step rely w₀ episodes w'
  | ran {episodes w p w'} : Series step rely w₀ episodes w →
      Runs step rely p.program w p.events p.outcome w' → Series step rely w₀ (episodes ++ [p]) w'

/-- `Reaches step rely p w tr q w'`: started at `w`, the program `p` has issued the calls `tr`
and goes on as `q` at `w'`. -/
inductive Reaches (step : (op : Op) → W → Resp op → W → Prop) (rely : W → W → Prop)
    (p : Prog Resp ε α) (w : W) : List (Event Resp W) → Prog Resp ε α → W → Prop
  | start : Reaches step rely p w [] p w
  | moved {tr q w₁ w₂} : Reaches step rely p w tr q w₁ → rely w₁ w₂ → Reaches step rely p w tr q w₂
  | call {tr op k w₁ r w₂} : Reaches step rely p w tr (.call op k) w₁ → step op w₁ r w₂ →
      Reaches step rely p w (tr ++ [⟨op, r, w₁, w₂⟩]) (k r) w₂

variable {step : (op : Op) → W → Resp op → W → Prop} {rely : W → W → Prop} {w₀ w w' : W}
  {episodes : List (Episode Resp ε α W)} {p q : Prog Resp ε α} {tr : List (Event Resp W)}
  {o : Outcome ε α}

theorem Series.keeps {S : Setting Resp W} {I : W → Prop} (hI : S.Stable I)
    (h : Series S.step S.rely w₀ episodes w)
    (hepisodes : ∀ p ∈ episodes, ∀ w, I w → S.wp p.program (fun _ w' => I w') w) (h₀ : I w₀) :
    I w := by
  induction h with
  | start => exact h₀
  | moved _ hr ih => exact hI _ _ hr (ih hepisodes)
  | @ran episodes w p w' _ hrun ih =>
    have hbefore := ih fun p' hp' => hepisodes p' (List.mem_append_left _ hp')
    have hp := hepisodes p (List.mem_append_right _ (List.mem_singleton.mpr rfl)) w hbefore
    exact (Setting.wp_sound hp hrun).1

def Chain {A P : Type} (spec : P → A → A → Prop) : List P → A → A → Prop
  | [], a, a' => a' = a
  | i :: items, a, a' => ∃ b, spec i a b ∧ Chain spec items b a'

theorem Chain.append_iff {A P : Type} {spec : P → A → A → Prop} {items items' : List P}
    {a a' : A} :
    Chain spec (items ++ items') a a' ↔ ∃ b, Chain spec items a b ∧ Chain spec items' b a' := by
  induction items generalizing a with
  | nil => exact ⟨fun h => ⟨a, rfl, h⟩, fun ⟨_, hb, h⟩ => hb ▸ h⟩
  | cons i items ih =>
    constructor
    · rintro ⟨b, hi, hrest⟩
      obtain ⟨b', hfirst, hlast⟩ := ih.mp hrest
      exact ⟨b', ⟨b, hi, hfirst⟩, hlast⟩
    · rintro ⟨b', ⟨b, hi, hfirst⟩, hlast⟩
      exact ⟨b, hi, ih.mpr ⟨b', hfirst, hlast⟩⟩

/-- If every program of a series does a step of the abstraction `R`, the series does the steps
one after another. -/
theorem Series.simulates {A P : Type} {S : Setting Resp W} {R : A → W → Prop}
    {spec : P → A → A → Prop} {M : P → Episode Resp ε α W → Prop} (hR : ∀ a, S.Stable (R a))
    (h : Series S.step S.rely w₀ episodes w) {items : List P}
    (hitems : List.Forall₂ M items episodes)
    (hstep : ∀ i p, M i p → ∀ a w, R a w →
      S.wp p.program (fun o w' => ∃ a', R a' w' ∧ (o = p.outcome → spec i a a')) w)
    {a : A} (h₀ : R a w₀) : ∃ a', R a' w ∧ Chain spec items a a' := by
  induction h generalizing items with
  | start =>
    cases hitems
    exact ⟨a, h₀, rfl⟩
  | moved _ hr ih =>
    obtain ⟨a', ha', hchain⟩ := ih hitems
    exact ⟨a', hR a' _ _ hr ha', hchain⟩
  | @ran episodes w p w' _ hrun ih =>
    have hlast := List.forall₂_drop_append items episodes [p] hitems
    obtain ⟨i, rest, hp, hnil, hdrop⟩ := List.forall₂_cons_right_iff.mp hlast
    rw [List.forall₂_nil_right_iff.mp hnil] at hdrop
    obtain ⟨a', ha', hchain⟩ := ih (List.forall₂_take_append items episodes [p] hitems)
    obtain ⟨a'', ha'', hspec⟩ := (Setting.wp_sound (hstep i p hp a' w ha') hrun).1
    refine ⟨a'', ha'', ?_⟩
    rw [← List.take_append_drop episodes.length items, hdrop]
    exact Chain.append_iff.mpr ⟨a', hchain, a'', hspec rfl, rfl⟩

theorem Series.project {step' : (op : Op) → V → Resp op → V → Prop} {rely' : V → V → Prop}
    {π : W → V} {φ : (op : Op) → Resp op → Prop}
    (hstep : ∀ op w r w', step op w r w' → φ op r → step' op (π w) r (π w'))
    (hrely : ∀ w w', rely w w' → rely' (π w) (π w')) (h : Series step rely w₀ episodes w)
    (hφ : ∀ p ∈ episodes, ∀ e ∈ p.events, φ e.op e.resp) :
    Series step' rely' (π w₀) (episodes.map (Episode.map π)) (π w) := by
  induction h with
  | start => exact .start
  | moved _ hr ih => exact .moved (ih hφ) (hrely _ _ hr)
  | @ran episodes w p w' _ hrun ih =>
    rw [List.map_append, List.map_singleton]
    refine .ran (ih fun p' hp' => hφ p' (List.mem_append_left _ hp')) ?_
    have hmem : p ∈ episodes ++ [p] := List.mem_append_right _ (List.mem_singleton.mpr rfl)
    exact (hrun.restrict (hφ p hmem)).project (fun _ _ _ _ hs => hstep _ _ _ _ hs.2 hs.1) hrely

theorem Reaches.runs_append (hrefl : ∀ w, rely w w)
    (htrans : ∀ {w w₁ w₂}, rely w w₁ → rely w₁ w₂ → rely w w₂) {w₁ : W}
    (h : Reaches step rely p w tr q w₁) {tr' : List (Event Resp W)}
    (hrun : Runs step rely q w₁ tr' o w') :
    ∃ w₂, Runs step rely p w (tr ++ tr') o w₂ ∧ rely w₂ w' := by
  induction h generalizing tr' w' with
  | start => exact ⟨_, hrun, hrefl _⟩
  | moved _ hr ih =>
    -- A move at the very end comes after the run; an earlier one joins the next call's.
    cases hrun with
    | ret =>
      obtain ⟨w₂, hp, hlast⟩ := ih .ret
      exact ⟨w₂, hp, htrans hlast hr⟩
    | raise =>
      obtain ⟨w₂, hp, hlast⟩ := ih .raise
      exact ⟨w₂, hp, htrans hlast hr⟩
    | call hr' hs hrest => exact ih (.call (htrans hr hr') hs hrest)
  | call _ hs ih =>
    rw [List.append_assoc]
    exact ih (.call (hrefl _) hs hrun)

theorem Reaches.finished (hrefl : ∀ w, rely w w)
    (htrans : ∀ {w w₁ w₂}, rely w w₁ → rely w₁ w₂ → rely w w₂)
    (h : Reaches step rely p w tr o.prog w') : ∃ w₁, Runs step rely p w tr o w₁ ∧ rely w₁ w' := by
  have hend : Runs step rely o.prog w' [] o w' := by
    cases o with
    | ret a => exact .ret
    | raise e => exact .raise
  simpa using h.runs_append hrefl htrans hend

end FutureWas.Effect
