import Mathlib.Data.List.Basic
import Mathlib.Data.List.Induction
import Mathlib.Data.List.Nodup

/-!
# Reordering actions

A list of actions is executed one after the other. Grouping the list by a key, the groups in
order of first appearance and the actions of each in their order, reaches the same states if
the actions that are moved past each other commute.
-/

set_option autoImplicit false

namespace FutureWas.Effect

/-! ## First appearances -/

section

variable {K : Type}

theorem eraseDups_concat [BEq K] [LawfulBEq K] (l : List K) (x : K) :
    (l ++ [x]).eraseDups = if x ∈ l then l.eraseDups else l.eraseDups ++ [x] := by
  rw [List.eraseDups_append]
  simp only [List.removeAll, List.filter_cons, List.filter_nil]
  by_cases hmem : x ∈ l
  · have helem : List.elem x l = true := List.elem_iff.mpr hmem
    simp only [helem, hmem, Bool.not_true, Bool.false_eq_true, if_false, if_true,
      List.eraseDups_nil, List.append_nil]
  · have helem : List.elem x l = false := by simpa using hmem
    simp only [helem, hmem, Bool.not_false, if_true, if_false, List.eraseDups_cons,
      List.filter_nil, List.eraseDups_nil]

theorem nodup_eraseDups [BEq K] [LawfulBEq K] (l : List K) : l.eraseDups.Nodup := by
  induction l using List.reverseRecOn with
  | nil => exact List.nodup_nil
  | append_singleton l x ih =>
    rw [eraseDups_concat]
    split_ifs with hmem
    · exact ih
    · refine ih.append (List.nodup_singleton _) ?_
      intro y hy hyx
      rw [List.mem_singleton.mp hyx] at hy
      exact hmem (List.mem_eraseDups.mp hy)

/-- The first `x` comes before the first `y`. -/
def Ahead (l : List K) (x y : K) : Prop := ∃ l₁ l₂, l = l₁ ++ l₂ ∧ x ∈ l₁ ∧ y ∉ l₁

theorem Ahead.append {l : List K} {x y : K} (h : Ahead l x y) (l' : List K) :
    Ahead (l ++ l') x y := by
  obtain ⟨l₁, l₂, rfl, hx, hy⟩ := h
  exact ⟨l₁, l₂ ++ l', List.append_assoc _ _ _, hx, hy⟩

theorem ahead_of_eraseDups [BEq K] [LawfulBEq K] {l pre post : List K} {x y : K}
    (h : l.eraseDups = pre ++ x :: post) (hy : y ∈ post) : Ahead l x y := by
  induction l using List.reverseRecOn generalizing post with
  | nil => simp at h
  | append_singleton l z ih =>
    rw [eraseDups_concat] at h
    split_ifs at h with hmem
    · exact (ih h hy).append [z]
    · rcases List.eq_nil_or_concat post with rfl | ⟨post', z', rfl⟩
      · cases hy
      · rw [List.concat_eq_append] at h hy
        rw [← List.cons_append, ← List.append_assoc] at h
        obtain ⟨hl, hz⟩ := List.append_inj' h rfl
        cases hz
        rcases List.mem_append.mp hy with hy | hy
        · exact (ih hl hy).append [z]
        · have hx : x ∈ l := by
            rw [← List.mem_eraseDups, hl]
            exact List.mem_append_right _ List.mem_cons_self
          rw [List.mem_singleton.mp hy]
          exact ⟨l, [z], rfl, hx, hmem⟩

end

/-! ## Grouping by a key -/

section

variable {A K : Type} [BEq K] (key : A → K)

def groupsOf (l : List A) (xs : List K) : List A :=
  xs.flatMap fun x => l.filter fun a => key a == x

/-- The actions grouped by their keys, in order of first appearance. -/
def byKey (l : List A) : List A := groupsOf key l (l.map key).eraseDups

variable {key}

theorem groupsOf_append (l : List A) (xs ys : List K) :
    groupsOf key l (xs ++ ys) = groupsOf key l xs ++ groupsOf key l ys :=
  List.flatMap_append

theorem mem_groupsOf [LawfulBEq K] {l : List A} {xs : List K} {a : A} :
    a ∈ groupsOf key l xs ↔ a ∈ l ∧ key a ∈ xs := by
  simp only [groupsOf, List.mem_flatMap, List.mem_filter, beq_iff_eq]
  constructor
  · intro h
    obtain ⟨x, hx, ha, hkey⟩ := h
    exact ⟨ha, hkey ▸ hx⟩
  · intro h
    exact ⟨key a, h.2, h.1, rfl⟩

theorem groupsOf_concat_of_notMem [LawfulBEq K] {l : List A} {a : A} {xs : List K}
    (h : key a ∉ xs) :
    groupsOf key (l ++ [a]) xs = groupsOf key l xs := by
  refine List.flatMap_congr ?_
  intro x hx
  have hne : key a ≠ x := by
    intro heq
    rw [heq] at h
    exact h hx
  simp [hne]

theorem groupsOf_concat_self [LawfulBEq K] (l : List A) (a : A) :
    groupsOf key (l ++ [a]) [key a] = groupsOf key l [key a] ++ [a] := by
  simp [groupsOf]

theorem byKey_concat_new [LawfulBEq K] {l : List A} {a : A} (h : key a ∉ l.map key) :
    byKey key (l ++ [a]) = byKey key l ++ [a] := by
  have hnot : key a ∉ (l.map key).eraseDups := fun hmem => h (List.mem_eraseDups.mp hmem)
  have hnone : groupsOf key l [key a] = [] := by
    rw [List.eq_nil_iff_forall_not_mem]
    intro b hb
    obtain ⟨hmem, hkey⟩ := mem_groupsOf.mp hb
    exact h (List.mem_map.mpr ⟨b, hmem, List.mem_singleton.mp hkey⟩)
  unfold byKey
  rw [List.map_append, List.map_singleton, eraseDups_concat, if_neg h, groupsOf_append,
    groupsOf_concat_of_notMem hnot, groupsOf_concat_self, hnone, List.nil_append]

theorem byKey_concat_old [LawfulBEq K] {l : List A} {a : A} (h : key a ∈ l.map key) :
    ∃ pre post, (l.map key).eraseDups = pre ++ key a :: post ∧
      byKey key l = groupsOf key l (pre ++ [key a]) ++ groupsOf key l post ∧
      byKey key (l ++ [a]) = groupsOf key l (pre ++ [key a]) ++ a :: groupsOf key l post := by
  obtain ⟨pre, post, hsplit⟩ := List.append_of_mem (List.mem_eraseDups.mpr h)
  have hnodup := nodup_eraseDups (l.map key)
  rw [hsplit] at hnodup
  obtain ⟨-, hrest, hdisjoint⟩ := List.nodup_append.mp hnodup
  have hpre : key a ∉ pre := fun hmem => hdisjoint _ hmem _ List.mem_cons_self rfl
  have hpost : key a ∉ post := (List.nodup_cons.mp hrest).1
  have hkeys : ((l ++ [a]).map key).eraseDups = pre ++ [key a] ++ post := by
    rw [List.map_append, List.map_singleton, eraseDups_concat, if_pos h, hsplit,
      List.append_cons]
  refine ⟨pre, post, hsplit, ?_, ?_⟩
  · unfold byKey
    rw [hsplit, List.append_cons, groupsOf_append]
  · unfold byKey
    rw [hkeys, groupsOf_append, groupsOf_append, groupsOf_append, groupsOf_concat_of_notMem hpre,
      groupsOf_concat_self, groupsOf_concat_of_notMem hpost]
    simp only [List.append_assoc, List.singleton_append]

theorem byKey_perm [LawfulBEq K] (l : List A) : (byKey key l).Perm l := by
  induction l using List.reverseRecOn with
  | nil => exact .nil
  | append_singleton l a ih =>
    by_cases hmem : key a ∈ l.map key
    · obtain ⟨pre, post, -, hl, hla⟩ := byKey_concat_old hmem
      have hmoved : (byKey key (l ++ [a])).Perm (byKey key l ++ [a]) := by
        rw [hl, hla, List.append_assoc]
        exact (List.perm_append_singleton a (groupsOf key l post)).symm.append_left _
      exact hmoved.trans (ih.append_right [a])
    · rw [byKey_concat_new hmem]
      exact ih.append_right [a]

end

/-! ## Executing a list of actions -/

section

variable {A K S : Type}

inductive Steps (step : A → S → S → Prop) : List A → S → S → Prop
  | nil {s} : Steps step [] s s
  | cons {a as s m s'} : step a s m → Steps step as m s' → Steps step (a :: as) s s'

def Commutes (step : A → S → S → Prop) (a b : A) : Prop :=
  ∀ s s', (∃ m, step a s m ∧ step b m s') ↔ ∃ m, step b s m ∧ step a m s'

variable {step : A → S → S → Prop} {a : A} {as bs : List A} {s s' : S}

theorem steps_singleton : Steps step [a] s s' ↔ step a s s' := by
  constructor
  · intro h
    cases h with
    | cons ha hrest =>
      cases hrest
      exact ha
  · intro h
    exact .cons h .nil

theorem steps_cons : Steps step (a :: as) s s' ↔ ∃ m, step a s m ∧ Steps step as m s' := by
  constructor
  · intro h
    cases h with
    | cons ha hrest => exact ⟨_, ha, hrest⟩
  · intro h
    obtain ⟨m, ha, hrest⟩ := h
    exact .cons ha hrest

theorem steps_append :
    Steps step (as ++ bs) s s' ↔ ∃ m, Steps step as s m ∧ Steps step bs m s' := by
  induction as generalizing s with
  | nil =>
    constructor
    · intro h
      exact ⟨s, .nil, h⟩
    · intro h
      obtain ⟨m, hnil, hbs⟩ := h
      cases hnil
      exact hbs
  | cons a as ih =>
    rw [List.cons_append, steps_cons]
    constructor
    · intro h
      obtain ⟨m, ha, hrest⟩ := h
      obtain ⟨n, has, hbs⟩ := ih.mp hrest
      exact ⟨n, .cons ha has, hbs⟩
    · intro h
      obtain ⟨n, has, hbs⟩ := h
      obtain ⟨m, ha, hrest⟩ := steps_cons.mp has
      exact ⟨m, ha, ih.mpr ⟨n, hrest, hbs⟩⟩

theorem steps_move (h : ∀ x ∈ as, Commutes step x a) :
    Steps step (as ++ [a]) s s' ↔ Steps step (a :: as) s s' := by
  induction as generalizing s with
  | nil => exact Iff.rfl
  | cons x as ih =>
    have hx := h x List.mem_cons_self
    have has := fun n => @ih n fun y hy => h y (List.mem_cons_of_mem _ hy)
    calc Steps step (x :: as ++ [a]) s s'
        ↔ ∃ m, step x s m ∧ Steps step (a :: as) m s' := by
          rw [List.cons_append, steps_cons]
          simp only [has]
      _ ↔ ∃ n, (∃ m, step x s m ∧ step a m n) ∧ Steps step as n s' := by
          simp only [steps_cons]
          tauto
      _ ↔ ∃ n, (∃ m, step a s m ∧ step x m n) ∧ Steps step as n s' := by
          simp only [hx s]
      _ ↔ Steps step (a :: x :: as) s s' := by
          simp only [steps_cons]
          tauto

/-- Grouping moves an action ahead of earlier ones of groups that come later. If it commutes
with these, the grouped list reaches the same states. -/
theorem steps_byKey [BEq K] [LawfulBEq K] {key : A → K} {l : List A}
    (h : ∀ before a after, l = before ++ a :: after →
      ∀ x ∈ before, Ahead (before.map key) (key a) (key x) → Commutes step x a) :
    Steps step (byKey key l) s s' ↔ Steps step l s s' := by
  induction l using List.reverseRecOn generalizing s' with
  | nil => exact Iff.rfl
  | append_singleton l a ih =>
    have hl := fun m => @ih m fun before b after heq =>
      h before b (after ++ [a]) (by rw [heq, List.append_assoc]; rfl)
    by_cases hmem : key a ∈ l.map key
    · obtain ⟨pre, post, hkeys, hold, hnew⟩ := byKey_concat_old hmem
      have hmove : ∀ x ∈ groupsOf key l post, Commutes step x a := by
        intro x hx
        obtain ⟨hxl, hxpost⟩ := mem_groupsOf.mp hx
        exact h l a [] rfl x hxl (ahead_of_eraseDups hkeys hxpost)
      calc Steps step (byKey key (l ++ [a])) s s'
          ↔ Steps step (byKey key l ++ [a]) s s' := by
            rw [hnew, hold, List.append_assoc, steps_append, steps_append]
            simp only [steps_move hmove]
        _ ↔ Steps step (l ++ [a]) s s' := by
            rw [steps_append, steps_append]
            simp only [hl]
    · rw [byKey_concat_new hmem, steps_append, steps_append]
      simp only [hl]

end

end FutureWas.Effect
