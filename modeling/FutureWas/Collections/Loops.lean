import Mathlib.Data.List.Forall2

/-!
# Loops that stop at the first error

What is known of a list after `mapM` or `foldlM` in `Except` or `Option` has gone through it.
-/

set_option autoImplicit false

namespace Collections

universe u

section

variable {α β ε : Type u} {f : α → Except ε β}

theorem mapM_cons_eq_ok {a : α} {l : List α} {r : List β} (h : (a :: l).mapM f = .ok r) :
    ∃ b bs, f a = .ok b ∧ l.mapM f = .ok bs ∧ r = b :: bs := by
  rw [List.mapM_cons] at h
  cases hb : f a with
  | error err => rw [hb] at h; cases h
  | ok b =>
    cases hbs : l.mapM f with
    | error err => rw [hb, hbs] at h; cases h
    | ok bs =>
      rw [hb, hbs] at h
      cases h
      exact ⟨b, bs, rfl, rfl, rfl⟩

theorem mem_of_mapM_eq_ok {l : List α} {r : List β} (h : l.mapM f = .ok r) (b : β) :
    b ∈ r ↔ ∃ a ∈ l, f a = .ok b := by
  induction l generalizing r with
  | nil => cases h; simp
  | cons a l ih =>
    obtain ⟨b', bs, hb, hbs, rfl⟩ := mapM_cons_eq_ok h
    have hhead : b = b' ↔ f a = .ok b := by rw [hb, Except.ok.injEq, eq_comm]
    simp only [List.mem_cons, ih hbs, hhead, exists_eq_or_imp]

theorem map_of_mapM_eq_ok {g : β → α} (hg : ∀ a b, f a = .ok b → g b = a) {l : List α}
    {r : List β} (h : l.mapM f = .ok r) : r.map g = l := by
  induction l generalizing r with
  | nil => cases h; rfl
  | cons a l ih =>
    obtain ⟨b, bs, hb, hbs, rfl⟩ := mapM_cons_eq_ok h
    rw [List.map_cons, hg a b hb, ih hbs]

theorem mapM_eq_ok_imp {g : α → Except ε β} (hfg : ∀ a b, f a = .ok b → g a = .ok b)
    {l : List α} {r : List β} (h : l.mapM f = .ok r) : l.mapM g = .ok r := by
  induction l generalizing r with
  | nil => exact h
  | cons a l ih =>
    obtain ⟨b, bs, hb, hbs, rfl⟩ := mapM_cons_eq_ok h
    rw [List.mapM_cons, hfg a b hb, ih hbs]
    rfl

theorem exists_mapM_eq_ok {l : List α} :
    (∃ r, l.mapM f = .ok r) ↔ ∀ a ∈ l, ∃ b, f a = .ok b := by
  induction l with
  | nil => exact ⟨by simp, fun _ => ⟨[], rfl⟩⟩
  | cons a l ih =>
    rw [List.forall_mem_cons, ← ih]
    constructor
    · intro h
      obtain ⟨r, hr⟩ := h
      obtain ⟨b, bs, hb, hbs, -⟩ := mapM_cons_eq_ok hr
      exact ⟨⟨b, hb⟩, bs, hbs⟩
    · intro h
      obtain ⟨⟨b, hb⟩, bs, hbs⟩ := h
      refine ⟨b :: bs, ?_⟩
      rw [List.mapM_cons, hb, hbs]
      rfl

theorem mapM_eq_ok {l : List α} {r : List β} :
    l.mapM f = .ok r ↔ List.Forall₂ (fun a b => f a = .ok b) l r := by
  induction l generalizing r with
  | nil =>
    rw [List.forall₂_nil_left_iff]
    exact ⟨fun h => by cases h; rfl, fun h => by rw [h]; rfl⟩
  | cons a l ih =>
    constructor
    · intro h
      obtain ⟨b, bs, hb, hbs, rfl⟩ := mapM_cons_eq_ok h
      exact .cons hb (ih.mp hbs)
    · intro h
      cases h with
      | cons hb hbs =>
        rw [List.mapM_cons, hb, ih.mpr hbs]
        rfl

theorem exists_of_mem_right {γ : Type u} {R : α → γ → Prop} {l : List α} {r : List γ}
    (h : List.Forall₂ R l r) {c : γ} (hc : c ∈ r) : ∃ a ∈ l, R a c := by
  induction h with
  | nil => cases hc
  | cons hR _ ih =>
    rcases List.mem_cons.mp hc with heq | hmem
    · rw [heq]
      exact ⟨_, List.mem_cons_self, hR⟩
    · obtain ⟨a, ha, hR'⟩ := ih hmem
      exact ⟨a, List.mem_cons_of_mem _ ha, hR'⟩

theorem forall₂_trans {γ δ : Type u} {R : α → γ → Prop} {S : γ → δ → Prop} {l : List α}
    {m : List γ} {n : List δ} (hl : List.Forall₂ R l m) (hm : List.Forall₂ S m n) :
    List.Forall₂ (fun a d => ∃ c, R a c ∧ S c d) l n := by
  induction hl generalizing n with
  | nil =>
    cases hm
    exact .nil
  | cons hR _ ih =>
    cases hm with
    | cons hS hrest => exact .cons ⟨_, hR, hS⟩ (ih hrest)

theorem map_eq_of_forall₂ {γ δ : Type u} {R : α → γ → Prop} {g : α → δ} {g' : γ → δ} {l : List α}
    {r : List γ} (h : List.Forall₂ R l r) (hg : ∀ a c, R a c → g a = g' c) :
    l.map g = r.map g' := by
  induction h with
  | nil => rfl
  | cons hR _ ih => rw [List.map_cons, List.map_cons, hg _ _ hR, ih]

theorem foldlM_invariant {I : β → Prop} {step : β → α → Except ε β} {l : List α}
    (hstep : ∀ b, ∀ a ∈ l, ∀ b', I b → step b a = .ok b' → I b') {b b' : β} (hb : I b)
    (h : l.foldlM step b = .ok b') : I b' := by
  induction l generalizing b with
  | nil =>
    cases h
    exact hb
  | cons a l ih =>
    rw [List.foldlM_cons] at h
    cases hround : step b a with
    | error err =>
      rw [hround] at h
      cases h
    | ok b₁ =>
      rw [hround] at h
      have hb₁ : I b₁ := hstep b a List.mem_cons_self b₁ hb hround
      exact ih (fun b a ha => hstep b a (List.mem_cons_of_mem _ ha)) hb₁ h

theorem foldlM_map {γ : Type u} {g : β → γ} {step : β → α → Except ε β}
    {step' : γ → α → Except ε γ} (hstep : ∀ b a, step' (g b) a = (step b a).map g) (l : List α)
    (b : β) : l.foldlM step' (g b) = (l.foldlM step b).map g := by
  induction l generalizing b with
  | nil => rfl
  | cons a l ih =>
    rw [List.foldlM_cons, List.foldlM_cons, hstep]
    cases step b a with
    | error err => rfl
    | ok b₁ => exact ih b₁

end

section

variable {α β : Type u} {f : α → Option β}

theorem mapM_eq_some {l : List α} {r : List β} :
    l.mapM f = some r ↔ List.Forall₂ (fun a b => f a = some b) l r := by
  induction l generalizing r with
  | nil =>
    rw [List.forall₂_nil_left_iff]
    exact ⟨fun h => by cases h; rfl, fun h => by rw [h]; rfl⟩
  | cons a l ih =>
    rw [List.mapM_cons, List.forall₂_cons_left_iff]
    constructor
    · intro h
      obtain ⟨b, hb, h⟩ := Option.bind_eq_some_iff.mp h
      obtain ⟨bs, hbs, h⟩ := Option.bind_eq_some_iff.mp h
      cases h
      exact ⟨b, bs, hb, ih.mp hbs, rfl⟩
    · rintro ⟨b, bs, hb, hbs, rfl⟩
      rw [hb, ih.mpr hbs]
      rfl

end

end Collections
