import Mathlib.Algebra.BigOperators.Group.List.Basic
import Mathlib.Algebra.GroupWithZero.Nat
import Mathlib.Order.Interval.Finset.Nat

/-!
# A choice by running sums

Every entry of a list has a weight. The entries divide the interval that starts at `b` and is as
long as the total weight: each owns as many consecutive points as it weighs, and a point is owned
by the first entry whose running sum lies above it.
-/

set_option autoImplicit false

namespace Collections

universe u

variable {ι : Type u}

def totalWeight (l : List (ι × ℕ)) : ℕ := (l.map Prod.snd).sum

def weightOf [DecidableEq ι] (l : List (ι × ℕ)) (i : ι) : ℕ :=
  totalWeight (l.filter fun e => e.1 = i)

/-- Each entry with the sum of the weights up to it. -/
def runningSums (b : ℕ) : List (ι × ℕ) → List (ι × ℕ)
  | [] => []
  | e :: l => (e.1, b + e.2) :: runningSums (b + e.2) l

def firstAbove (sums : List (ι × ℕ)) (r : ℕ) : Option ι :=
  (sums.find? fun e => r < e.2).map Prod.fst

@[simp] theorem totalWeight_nil : totalWeight ([] : List (ι × ℕ)) = 0 := rfl

@[simp] theorem totalWeight_cons (e : ι × ℕ) (l : List (ι × ℕ)) :
    totalWeight (e :: l) = e.2 + totalWeight l := rfl

@[simp] theorem totalWeight_append (l l' : List (ι × ℕ)) :
    totalWeight (l ++ l') = totalWeight l + totalWeight l' := by
  rw [totalWeight, List.map_append, List.sum_append]
  rfl

theorem totalWeight_eq_zero {l : List (ι × ℕ)} (hpos : ∀ e ∈ l, 0 < e.2) :
    totalWeight l = 0 ↔ l = [] := by
  cases l with
  | nil => exact iff_of_true rfl rfl
  | cons e l =>
    have he := hpos e List.mem_cons_self
    rw [totalWeight_cons]
    exact iff_of_false (by omega) (List.cons_ne_nil _ _)

theorem weightOf_cons [DecidableEq ι] (e : ι × ℕ) (l : List (ι × ℕ)) (i : ι) :
    weightOf (e :: l) i = (if e.1 = i then e.2 else 0) + weightOf l i := by
  unfold weightOf
  by_cases h : e.1 = i
  · rw [List.filter_cons_of_pos (by simpa using h), if_pos h, totalWeight_cons]
  · rw [List.filter_cons_of_neg (by simpa using h), if_neg h, Nat.zero_add]

theorem runningSums_append (b : ℕ) (l l' : List (ι × ℕ)) :
    runningSums b (l ++ l') = runningSums b l ++ runningSums (b + totalWeight l) l' := by
  induction l generalizing b with
  | nil => rfl
  | cons e l ih =>
    rw [List.cons_append, runningSums, ih, runningSums, totalWeight_cons, Nat.add_assoc,
      List.cons_append]

theorem map_fst_runningSums (b : ℕ) (l : List (ι × ℕ)) :
    (runningSums b l).map Prod.fst = l.map Prod.fst := by
  induction l generalizing b with
  | nil => rfl
  | cons e l ih => rw [runningSums, List.map_cons, ih, List.map_cons]

/-! ## The sums -/

theorem lt_of_mem_runningSums {b : ℕ} {l : List (ι × ℕ)} (hpos : ∀ e ∈ l, 0 < e.2) {s : ι × ℕ}
    (hs : s ∈ runningSums b l) : b < s.2 := by
  induction l generalizing b with
  | nil => cases hs
  | cons e l ih =>
    have he := hpos e List.mem_cons_self
    rcases List.mem_cons.mp hs with heq | hmem
    · rw [heq]
      exact Nat.lt_add_of_pos_right he
    · have := ih (fun e h => hpos e (List.mem_cons_of_mem _ h)) hmem
      omega

theorem runningSums_increasing {b : ℕ} {l : List (ι × ℕ)} (hpos : ∀ e ∈ l, 0 < e.2) :
    ((runningSums b l).map Prod.snd).Pairwise (· < ·) := by
  induction l generalizing b with
  | nil => exact .nil
  | cons e l ih =>
    have hrest : ∀ e ∈ l, 0 < e.2 := fun e h => hpos e (List.mem_cons_of_mem _ h)
    refine .cons ?_ (ih hrest)
    intro n hn
    obtain ⟨s, hs, rfl⟩ := List.mem_map.mp hn
    exact lt_of_mem_runningSums hrest hs

theorem getLast?_runningSums (b : ℕ) (l : List (ι × ℕ)) :
    (((runningSums b l).map Prod.snd).getLast?).getD b = b + totalWeight l := by
  induction l generalizing b with
  | nil => rfl
  | cons e l ih =>
    have hlast := ih (b + e.2)
    rw [totalWeight_cons, ← Nat.add_assoc, ← hlast, runningSums, List.map_cons,
      List.getLast?_cons]
    rfl

/-! ## The entry of a point -/

variable {b r : ℕ} {e : ι × ℕ} {l : List (ι × ℕ)}

theorem firstAbove_of_lt (h : r < b + e.2) : firstAbove (runningSums b (e :: l)) r = some e.1 := by
  unfold firstAbove runningSums
  rw [List.find?_cons_of_pos (by simpa using h)]
  rfl

theorem firstAbove_of_le (h : b + e.2 ≤ r) :
    firstAbove (runningSums b (e :: l)) r = firstAbove (runningSums (b + e.2) l) r := by
  unfold firstAbove
  rw [runningSums, List.find?_cons_of_neg (by simpa using h)]

theorem firstAbove_isSome (h : r < b + totalWeight l) (hb : b ≤ r) :
    (firstAbove (runningSums b l) r).isSome := by
  induction l generalizing b with
  | nil =>
    rw [totalWeight_nil] at h
    omega
  | cons e l ih =>
    rcases Nat.lt_or_ge r (b + e.2) with hlt | hle
    · rw [firstAbove_of_lt hlt]
      rfl
    · rw [firstAbove_of_le hle]
      rw [totalWeight_cons, ← Nat.add_assoc] at h
      exact ih h hle

theorem mem_of_firstAbove {i : ι} (h : firstAbove (runningSums b l) r = some i) :
    i ∈ l.map Prod.fst := by
  rw [firstAbove, Option.map_eq_some_iff] at h
  obtain ⟨s, hs, rfl⟩ := h
  have hmem := List.mem_map_of_mem (f := Prod.fst) (List.mem_of_find?_eq_some hs)
  rwa [map_fst_runningSums] at hmem

/-- The points that an id owns are as many as its entries weigh. -/
theorem card_firstAbove [DecidableEq ι] (b : ℕ) (l : List (ι × ℕ)) (i : ι) :
    ((Finset.Ico b (b + totalWeight l)).filter fun r =>
      firstAbove (runningSums b l) r = some i).card = weightOf l i := by
  induction l generalizing b with
  | nil => simp [weightOf]
  | cons e l ih =>
    have hsplit : Finset.Ico b (b + totalWeight (e :: l))
        = Finset.Ico b (b + e.2) ∪ Finset.Ico (b + e.2) (b + e.2 + totalWeight l) := by
      rw [totalWeight_cons, ← Nat.add_assoc]
      exact (Finset.Ico_union_Ico_eq_Ico (Nat.le_add_right _ _) (Nat.le_add_right _ _)).symm
    have hhead : (Finset.Ico b (b + e.2)).filter
          (fun r => firstAbove (runningSums b (e :: l)) r = some i)
        = if e.1 = i then Finset.Ico b (b + e.2) else ∅ := by
      rw [Finset.filter_congr (q := fun _ => e.1 = i)]
      · rw [Finset.filter_const]
      · intro r hr
        rw [firstAbove_of_lt (Finset.mem_Ico.mp hr).2, Option.some.injEq]
    have htail : (Finset.Ico (b + e.2) (b + e.2 + totalWeight l)).filter
          (fun r => firstAbove (runningSums b (e :: l)) r = some i)
        = (Finset.Ico (b + e.2) (b + e.2 + totalWeight l)).filter
          fun r => firstAbove (runningSums (b + e.2) l) r = some i := by
      apply Finset.filter_congr
      intro r hr
      rw [firstAbove_of_le (Finset.mem_Ico.mp hr).1]
    have hdisjoint : Disjoint (Finset.Ico b (b + e.2))
        (Finset.Ico (b + e.2) (b + e.2 + totalWeight l)) :=
      Finset.Ico_disjoint_Ico_consecutive _ _ _
    rw [hsplit, Finset.filter_union,
      Finset.card_union_of_disjoint (Finset.disjoint_filter_filter hdisjoint), htail, ih, hhead,
      weightOf_cons]
    congr 1
    split
    · rw [Nat.card_Ico, Nat.add_sub_cancel_left]
    · rfl

end Collections
