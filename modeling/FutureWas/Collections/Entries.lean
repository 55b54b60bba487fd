import Mathlib.Data.List.Induction
import Mathlib.Data.List.Nodup

/-!
# Maps as sorted entries

A finite map is the list of its entries by ascending key, the keys compared by a rank. What a
map holds after a sequence of assignments depends on their order only if two of them give one
key different values.
-/

set_option autoImplicit false

namespace Collections.Entries

universe u v

variable {κ : Type u} {ν : Type v} (rank : κ → ℕ)

abbrev Sorted (l : List (κ × ν)) : Prop := l.Pairwise fun a b => rank a.1 < rank b.1

def put (k : κ) (x : ν) : List (κ × ν) → List (κ × ν)
  | [] => [(k, x)]
  | e :: l =>
    if rank k < rank e.1 then (k, x) :: e :: l
    else if rank k = rank e.1 then (k, x) :: l
    else e :: put k x l

def fill (l : List (κ × ν)) : List (κ × ν) := l.foldl (fun m e => put rank e.1 e.2 m) []

def Functional (l : List (κ × ν)) : Prop := ∀ a ∈ l, ∀ b ∈ l, a.1 = b.1 → a = b

variable {rank} {l l' : List (κ × ν)} {k : κ} {x : ν} {e : κ × ν}

theorem mem_put (h : Sorted rank l) :
    e ∈ put rank k x l ↔ e = (k, x) ∨ rank e.1 ≠ rank k ∧ e ∈ l := by
  induction l with
  | nil => simp [put]
  | cons first l ih =>
    obtain ⟨hfirst, hl⟩ := List.pairwise_cons.mp h
    have hrest : e ∈ l → rank first.1 < rank e.1 := hfirst e
    unfold put
    split_ifs with hlt heq
    · have hafter : e ∈ first :: l → rank e.1 ≠ rank k := by
        intro he
        rcases List.mem_cons.mp he with rfl | he
        · exact Nat.ne_of_gt hlt
        · exact Nat.ne_of_gt (Nat.lt_trans hlt (hrest he))
      rw [List.mem_cons]
      exact or_congr_right ⟨fun he => ⟨hafter he, he⟩, And.right⟩
    · rw [List.mem_cons, List.mem_cons]
      apply or_congr_right
      constructor
      · intro he
        exact ⟨heq ▸ Nat.ne_of_gt (hrest he), Or.inr he⟩
      · rintro ⟨hne, rfl | he⟩
        · exact absurd heq.symm hne
        · exact he
    · rw [List.mem_cons, ih hl, List.mem_cons]
      constructor
      · rintro (rfl | he | ⟨hne, he⟩)
        · exact Or.inr ⟨fun hsame => heq hsame.symm, Or.inl rfl⟩
        · exact Or.inl he
        · exact Or.inr ⟨hne, Or.inr he⟩
      · rintro (he | ⟨hne, rfl | he⟩)
        · exact Or.inr (Or.inl he)
        · exact Or.inl rfl
        · exact Or.inr (Or.inr ⟨hne, he⟩)

theorem Sorted.put (h : Sorted rank l) (k : κ) (x : ν) : Sorted rank (put rank k x l) := by
  induction l with
  | nil => exact List.pairwise_singleton _ _
  | cons first l ih =>
    obtain ⟨hfirst, hl⟩ := List.pairwise_cons.mp h
    unfold Entries.put
    split_ifs with hlt heq
    · refine List.pairwise_cons.mpr ⟨?_, h⟩
      intro e he
      rcases List.mem_cons.mp he with rfl | he
      · exact hlt
      · exact Nat.lt_trans hlt (hfirst e he)
    · refine List.pairwise_cons.mpr ⟨?_, hl⟩
      intro e he
      show rank k < rank e.1
      rw [heq]
      exact hfirst e he
    · refine List.pairwise_cons.mpr ⟨?_, ih hl⟩
      intro e he
      rcases (mem_put hl).mp he with rfl | ⟨-, he⟩
      · show rank first.1 < rank k
        omega
      · exact hfirst e he

theorem Sorted.nodup (h : Sorted rank l) : l.Nodup := by
  refine List.Pairwise.imp ?_ h
  rintro a b hlt rfl
  exact Nat.lt_irrefl _ hlt

theorem Sorted.ext (h : Sorted rank l) (h' : Sorted rank l') (hmem : ∀ e, e ∈ l ↔ e ∈ l') :
    l = l' :=
  List.Perm.eq_of_pairwise (fun _ _ _ _ hab hba => absurd hab (Nat.lt_asymm hba)) h h'
    ((List.perm_ext_iff_of_nodup h.nodup h'.nodup).mpr hmem)

theorem Sorted.functional (h : Sorted rank l) : Functional l := by
  intro a ha b hb hkey
  induction l with
  | nil => cases ha
  | cons first l ih =>
    obtain ⟨hfirst, hl⟩ := List.pairwise_cons.mp h
    have hbefore : ∀ c ∈ l, first.1 ≠ c.1 := by
      intro c hc heq
      have hlt := hfirst c hc
      rw [heq] at hlt
      exact Nat.lt_irrefl _ hlt
    rcases List.mem_cons.mp ha with hafirst | hal
    · rcases List.mem_cons.mp hb with hbfirst | hbl
      · rw [hafirst, hbfirst]
      · rw [hafirst] at hkey
        exact absurd hkey (hbefore b hbl)
    · rcases List.mem_cons.mp hb with hbfirst | hbl
      · rw [hbfirst] at hkey
        exact absurd hkey.symm (hbefore a hal)
      · exact ih hl hal hbl

/-! ## Assignments -/

@[simp] theorem fill_nil : fill rank ([] : List (κ × ν)) = [] := rfl

theorem fill_concat (l : List (κ × ν)) (e : κ × ν) :
    fill rank (l ++ [e]) = put rank e.1 e.2 (fill rank l) := by
  rw [fill, List.foldl_append]
  rfl

theorem sorted_fill (l : List (κ × ν)) : Sorted rank (fill rank l) := by
  induction l using List.reverseRecOn with
  | nil => exact .nil
  | append_singleton l e ih =>
    rw [fill_concat]
    exact ih.put e.1 e.2

theorem mem_of_mem_fill (h : e ∈ fill rank l) : e ∈ l := by
  induction l using List.reverseRecOn with
  | nil => exact h
  | append_singleton l p ih =>
    rw [fill_concat, mem_put (sorted_fill l)] at h
    rcases h with rfl | ⟨-, h⟩
    · exact List.mem_append_right _ (List.mem_singleton.mpr rfl)
    · exact List.mem_append_left _ (ih h)

theorem mem_fill_concat (l : List (κ × ν)) (e : κ × ν) : e ∈ fill rank (l ++ [e]) := by
  rw [fill_concat, mem_put (sorted_fill l)]
  exact Or.inl rfl

section

variable (hrank : Function.Injective rank)
include hrank

theorem Functional.mem_fill (h : Functional l) : e ∈ fill rank l ↔ e ∈ l := by
  refine ⟨mem_of_mem_fill, ?_⟩
  intro he
  induction l using List.reverseRecOn with
  | nil => cases he
  | append_singleton l p ih =>
    by_cases hkey : e.1 = p.1
    · rw [h e he p (List.mem_append_right _ (List.mem_singleton.mpr rfl)) hkey]
      exact mem_fill_concat l p
    · have hsub : Functional l := fun a ha b hb =>
        h a (List.mem_append_left _ ha) b (List.mem_append_left _ hb)
      have hel : e ∈ l := by
        rcases List.mem_append.mp he with he | he
        · exact he
        · exact absurd (congrArg Prod.fst (List.mem_singleton.mp he)) hkey
      rw [fill_concat, mem_put (sorted_fill l)]
      exact Or.inr ⟨fun hsame => hkey (hrank hsame), ih hsub hel⟩

theorem Functional.fill_congr (h : Functional l) (hmem : ∀ e, e ∈ l ↔ e ∈ l') :
    fill rank l = fill rank l' := by
  have h' : Functional l' := fun a ha b hb => h a ((hmem a).mpr ha) b ((hmem b).mpr hb)
  apply (sorted_fill l).ext (sorted_fill l')
  intro e
  rw [h.mem_fill hrank, h'.mem_fill hrank, hmem]

/-- The order of the assignments does not matter exactly when no key is given two values. -/
theorem fill_perm_iff {ι : Type*} (assignment : ι → κ × ν) {l : List ι} :
    (∀ l₁ l₂, l.Perm l₁ → l.Perm l₂ →
        fill rank (l₁.map assignment) = fill rank (l₂.map assignment))
      ↔ Functional (l.map assignment) := by
  classical
  constructor
  · intro h a ha b hb hkey
    obtain ⟨i, hi, rfl⟩ := List.mem_map.mp ha
    obtain ⟨j, hj, rfl⟩ := List.mem_map.mp hb
    -- each of the two can be assigned last
    have hlast : ∀ i ∈ l, l.Perm (l.erase i ++ [i]) := fun i hi =>
      (List.perm_cons_erase hi).trans (List.perm_append_singleton i _).symm
    have hmem : ∀ i, assignment i ∈ fill rank ((l.erase i ++ [i]).map assignment) := by
      intro i
      rw [List.map_append, List.map_singleton]
      exact mem_fill_concat _ _
    have hj' := hmem j
    rw [← h _ _ (hlast i hi) (hlast j hj)] at hj'
    exact (sorted_fill _).functional _ (hmem i) _ hj' hkey
  · intro h l₁ l₂ h₁ h₂
    rw [← h.fill_congr hrank fun e => (h₁.map assignment).mem_iff,
      h.fill_congr hrank fun e => (h₂.map assignment).mem_iff]

end

theorem Sorted.fill_eq (hrank : Function.Injective rank) (h : Sorted rank l) :
    fill rank l = l :=
  (sorted_fill l).ext h fun _ => h.functional.mem_fill hrank

end Collections.Entries
