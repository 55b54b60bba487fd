import Mathlib.Data.List.AList
import Mathlib.Data.List.Induction

/-!
# Dictionaries and tables filled from lists

A dictionary keeps its keys in the order of their first assignment, and assigning to a key
again replaces the value in place. A table filled from a list keeps, for each key, the last
element with that key.
-/

set_option autoImplicit false

namespace Collections

universe u v w

variable {K : Type u} {V : Type v} {W : Type w} [BEq K]

abbrev Dictionary (K : Type u) (V : Type v) : Type (max u v) := List (K × V)

namespace Dictionary

def assign (d : Dictionary K V) (k : K) (v : V) : Dictionary K V :=
  if d.any (fun p => p.1 == k) then d.map (fun p => if p.1 == k then (p.1, v) else p)
  else d ++ [(k, v)]

def ofPairs (l : List (K × V)) : Dictionary K V :=
  l.foldl (fun d p => d.assign p.1 p.2) []

theorem ofPairs_concat (l : List (K × V)) (p : K × V) :
    ofPairs (l ++ [p]) = (ofPairs l).assign p.1 p.2 := by
  simp [ofPairs]

theorem map_assign (f : V → W) (d : Dictionary K V) (k : K) (v : V) :
    (d.assign k v).map (Prod.map id f) = assign (d.map (Prod.map id f)) k (f v) := by
  have hany : (d.map (Prod.map id f)).any (fun p => p.1 == k) = d.any (fun p => p.1 == k) := by
    simp [List.any_map, Function.comp_def]
  unfold assign
  rw [hany]
  split_ifs with h
  · rw [List.map_map, List.map_map]
    apply List.map_congr_left
    intro p _
    by_cases hp : (p.1 == k) = true
    · simp [hp]
    · simp [hp]
  · simp

theorem map_ofPairs (f : V → W) (l : List (K × V)) :
    (ofPairs l).map (Prod.map id f) = ofPairs (l.map (Prod.map id f)) := by
  induction l using List.reverseRecOn with
  | nil => rfl
  | append_singleton l p ih =>
    rw [List.map_append, List.map_singleton, ofPairs_concat, ofPairs_concat, map_assign, ih]
    rfl

theorem mem_of_mem_assign [LawfulBEq K] {d : Dictionary K V} {k : K} {v : V} {p : K × V}
    (h : p ∈ d.assign k v) : p ∈ d ∨ p = (k, v) := by
  unfold assign at h
  split_ifs at h with hk
  · obtain ⟨q, hq, hp⟩ := List.mem_map.mp h
    by_cases hqk : (q.1 == k) = true
    · have hkey : q.1 = k := eq_of_beq hqk
      rw [if_pos hqk, hkey] at hp
      exact .inr hp.symm
    · rw [if_neg hqk] at hp
      rw [← hp]
      exact .inl hq
  · rcases List.mem_append.mp h with hd | hd
    · exact .inl hd
    · exact .inr (List.mem_singleton.mp hd)

theorem mem_of_mem_ofPairs [LawfulBEq K] {l : List (K × V)} {p : K × V} (h : p ∈ ofPairs l) :
    p ∈ l := by
  induction l using List.reverseRecOn with
  | nil => exact h
  | append_singleton l q ih =>
    rw [ofPairs_concat] at h
    rcases mem_of_mem_assign h with hp | hp
    · exact List.mem_append_left _ (ih hp)
    · rw [hp]
      simp

theorem ofPairs_of_nodup [LawfulBEq K] {l : List (K × V)} (h : (l.map Prod.fst).Nodup) :
    ofPairs l = l := by
  induction l using List.reverseRecOn with
  | nil => rfl
  | append_singleton l p ih =>
    rw [List.map_append, List.map_singleton] at h
    have hfresh : l.any (fun q => q.1 == p.1) = false := by
      refine List.any_eq_false.mpr ?_
      intro q hq heq
      refine (List.disjoint_of_nodup_append h) (List.mem_map_of_mem hq) ?_
      rw [eq_of_beq heq]
      exact List.mem_singleton.mpr rfl
    rw [ofPairs_concat, ih (List.Nodup.of_append_left h), assign, hfresh]
    rfl

end Dictionary

theorem find?_of_unique {V : Type v} {p : V → Bool} {l : List V} {x : V} (hx : x ∈ l)
    (hp : p x = true) (h : ∀ y ∈ l, p y = true → y = x) : l.find? p = some x := by
  have hsome : (l.find? p).isSome = true := List.find?_isSome.mpr ⟨x, hx, hp⟩
  obtain ⟨y, hy⟩ := Option.isSome_iff_exists.mp hsome
  rw [hy, h y (List.mem_of_find?_eq_some hy) (List.find?_some hy)]

theorem find?_of_nodup {V : Type v} {W : Type w} [DecidableEq W] {key : V → W} {l : List V}
    (hnodup : (l.map key).Nodup) {x : V} (hx : x ∈ l) :
    l.find? (fun y => key y = key x) = some x := by
  refine find?_of_unique hx (by simp) fun y hy hkey => ?_
  exact List.inj_on_of_nodup_map hnodup hy hx (of_decide_eq_true hkey)

/-! ## Tables -/

section

variable [DecidableEq W]

theorem lookup_foldl_insert (key : V → W) (l : List V) (t : AList fun _ : W => V) (k : W) :
    (l.foldl (fun t v => t.insert (key v) v) t).lookup k =
      (l.reverse.find? fun v => key v = k).or (t.lookup k) := by
  induction l using List.reverseRecOn with
  | nil => rfl
  | append_singleton l v ih =>
    rw [List.foldl_append, List.foldl_cons, List.foldl_nil, List.reverse_append,
      List.reverse_singleton, List.singleton_append, List.find?_cons]
    by_cases hk : key v = k
    · rw [← hk, AList.lookup_insert]
      simp
    · rw [AList.lookup_insert_ne (Ne.symm hk), ih]
      simp [hk]

def fillTable (key : V → W) (l : List V) : AList fun _ : W => V × ℕ :=
  l.zipIdx.foldl (fun t v => t.insert (key v.1) v) ∅

theorem fillTable_concat (key : V → W) (l : List V) (v : V) :
    fillTable key (l ++ [v]) = (fillTable key l).insert (key v) (v, l.length) := by
  simp [fillTable, List.zipIdx_append]

theorem getElem?_concat_eq_some {l : List V} {x v : V} {i : ℕ} :
    (l ++ [x])[i]? = some v ↔ l[i]? = some v ∨ i = l.length ∧ x = v := by
  by_cases hi : i < l.length
  · rw [List.getElem?_append_left hi]
    have hne : i ≠ l.length := by omega
    simp [hne]
  · have hnone : l[i]? = none := List.getElem?_eq_none (by omega)
    rw [List.getElem?_append_right (by omega), hnone, List.getElem?_singleton]
    have hzero : i - l.length = 0 ↔ i = l.length := by omega
    simp [hzero]

theorem lookup_fillTable {key : V → W} {l : List V} {k : W} {v : V} {i : ℕ} :
    (fillTable key l).lookup k = some (v, i) ↔
      l[i]? = some v ∧ key v = k ∧ ∀ j w, i < j → l[j]? = some w → key w ≠ k := by
  induction l using List.reverseRecOn generalizing v i with
  | nil => simp [fillTable]
  | append_singleton l x ih =>
    have hlt : ∀ {j w}, l[j]? = some w → j < l.length :=
      fun h => (List.getElem?_eq_some_iff.mp h).1
    simp only [fillTable_concat, getElem?_concat_eq_some]
    by_cases hk : k = key x
    · rw [hk, AList.lookup_insert, Option.some_inj, Prod.mk.injEq]
      constructor
      · rintro ⟨rfl, rfl⟩
        refine ⟨.inr ⟨rfl, rfl⟩, rfl, fun j w hj hw => ?_⟩
        rcases hw with hw | hw
        · have := hlt hw
          omega
        · omega
      · rintro ⟨hi, -, hlast⟩
        rcases hi with hi | hi
        · exact absurd rfl (hlast l.length x (hlt hi) (.inr ⟨rfl, rfl⟩))
        · exact ⟨hi.2, hi.1.symm⟩
    · rw [AList.lookup_insert_ne hk, ih]
      constructor
      · rintro ⟨hi, hkey, hlast⟩
        refine ⟨.inl hi, hkey, fun j w hj hw => ?_⟩
        rcases hw with hw | hw
        · exact hlast j w hj hw
        · rw [← hw.2]
          exact fun h => hk h.symm
      · rintro ⟨hi, hkey, hlast⟩
        have hi : l[i]? = some v := by
          apply hi.resolve_right
          rintro ⟨-, rfl⟩
          exact hk hkey.symm
        exact ⟨hi, hkey, fun j w hj hw => hlast j w hj (.inl hw)⟩

theorem exists_lookup_fillTable (key : V → W) {l : List V} {v : V} {i : ℕ} (h : l[i]? = some v) :
    ∃ w j, i ≤ j ∧ (fillTable key l).lookup (key v) = some (w, j) := by
  induction l using List.reverseRecOn with
  | nil => cases h
  | append_singleton l x ih =>
    rw [fillTable_concat]
    rcases getElem?_concat_eq_some.mp h with hi | ⟨rfl, rfl⟩
    · by_cases hk : key v = key x
      · have hlt := (List.getElem?_eq_some_iff.mp hi).1
        exact ⟨x, l.length, by omega, by rw [hk, AList.lookup_insert]⟩
      · obtain ⟨w, j, hj, hlookup⟩ := ih hi
        exact ⟨w, j, hj, by rw [AList.lookup_insert_ne hk, hlookup]⟩
    · exact ⟨x, l.length, le_refl _, AList.lookup_insert _⟩

end

end Collections
