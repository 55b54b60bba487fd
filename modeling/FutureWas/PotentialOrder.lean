import FutureWas.Model.PotentialMap

/-!
# Potential maps and the order of iteration

An object is read through a Go map with string keys, which is iterated in any order. What is
read depends on that order exactly when two names are numerals of one id with different
values, and nothing else in the object is refused.
-/

set_option autoImplicit false

namespace FutureWas.PotentialMap

open Collections

variable {iterate : List (List Char × UInt32) → List (List Char × UInt32)}

def IsID (k : List Char) : Prop :=
  k ≠ [] ∧ (∀ c ∈ k, c.isDigit = true) ∧ decimal k < 2 ^ 32

def assignment (m : List Char × UInt32) : UInt32 × UInt32 := (.ofNat (decimal m.1), m.2)

theorem parseUint_of_isID {k : List Char} (h : IsID k) : parseUint (2 ^ 32) k = some (decimal k) :=
  if_pos ⟨h.1, List.all_eq_true.mpr h.2.1, h.2.2⟩

theorem parseUint_of_not_isID {k : List Char} (h : ¬IsID k) : parseUint (2 ^ 32) k = none :=
  if_neg fun hk => h ⟨hk.1, List.all_eq_true.mp hk.2.1, hk.2.2⟩

theorem ofNat_decimal_inj {k k' : List Char} (h : IsID k) (h' : IsID k') :
    UInt32.ofNat (decimal k) = UInt32.ofNat (decimal k') ↔ decimal k = decimal k' := by
  constructor
  · intro heq
    have htoNat := congrArg UInt32.toNat heq
    rwa [UInt32.toNat_ofNat_of_lt' h.2.2, UInt32.toNat_ofNat_of_lt' h'.2.2] at htoNat
  · exact fun heq => by rw [heq]

/-! ## The loop over the raw map -/

theorem assignMembers_of_not_isID {l : List (List Char × UInt32)} {m : List Char × UInt32}
    (hm : m ∈ l) (h : ¬IsID m.1) (out : PotentialMap) : (assignMembers l out).toOption = none := by
  induction l generalizing out with
  | nil => cases hm
  | cons first l ih =>
    unfold assignMembers
    rcases List.mem_cons.mp hm with rfl | hm
    · rw [parseUint_of_not_isID h]
      rfl
    · cases parseUint (2 ^ 32) first.1 with
      | none => rfl
      | some id => exact ih hm _

theorem assignMembers_of_isID {l : List (List Char × UInt32)} (h : ∀ m ∈ l, IsID m.1)
    (out : PotentialMap) :
    assignMembers l out = .ok ((l.map assignment).foldl (fun m e => m.assign e.1 e.2) out) := by
  induction l generalizing out with
  | nil => rfl
  | cons first l ih =>
    obtain ⟨hfirst, hl⟩ := List.forall_mem_cons.mp h
    unfold assignMembers
    rw [parseUint_of_isID hfirst]
    exact ih hl _

theorem entries_foldl_assign (l : List (UInt32 × UInt32)) :
    (l.foldl (fun m e => m.assign e.1 e.2) empty).entries = Entries.fill UInt32.toNat l := by
  induction l using List.reverseRecOn with
  | nil => rfl
  | append_singleton l e ih =>
    rw [List.foldl_append, Entries.fill_concat, ← ih]
    rfl

theorem entries_injective : Function.Injective entries := by
  rintro ⟨l, _⟩ ⟨l', _⟩ rfl
  rfl

/-! ## Objects -/

theorem unmarshalJSON_object (iterate : List (List Char × UInt32) → List (List Char × UInt32))
    {members : List (List Char × JsonValue)} {raw : List (List Char × UInt32)}
    (h : uint32.decodeMap members = some raw) :
    unmarshalJSON iterate (.object members) = assignMembers (iterate raw) empty := by
  rw [unmarshalJSON, h]

theorem unmarshalJSON_object_of_none {members : List (List Char × JsonValue)}
    (h : uint32.decodeMap members = none) :
    unmarshalJSON iterate (.object members) = .error .json := by
  rw [unmarshalJSON, h]

def Accepted (members : List (List Char × JsonValue)) : Prop :=
  ∀ m ∈ members, IsID m.1 ∧ (uint32.decode m.2 0).isSome = true

def raw (members : List (List Char × JsonValue)) : List (List Char × UInt32) :=
  members.map fun m => (m.1, (uint32.decode m.2 0).getD 0)

variable {members : List (List Char × JsonValue)}

theorem decodeMap_eq_raw (hnames : (members.map Prod.fst).Nodup)
    (hvalues : ∀ m ∈ members, (uint32.decode m.2 0).isSome = true) :
    uint32.decodeMap members = some (raw members) := by
  refine Codec.decodeMap_of_nodup hnames (fun v => (uint32.decode v 0).getD 0) ?_
  intro m hm
  obtain ⟨x, hx⟩ := Option.isSome_iff_exists.mp (hvalues m hm)
  show uint32.decode m.2 0 = some ((uint32.decode m.2 0).getD 0)
  rw [hx, Option.getD_some]

theorem unmarshalJSON_of_accepted (hiterate : IsIteration iterate)
    (hnames : (members.map Prod.fst).Nodup) (h : Accepted members) :
    ∃ m, unmarshalJSON iterate (.object members) = .ok m ∧
      m.entries = Entries.fill UInt32.toNat ((iterate (raw members)).map assignment) := by
  have hread := unmarshalJSON_object iterate (decodeMap_eq_raw hnames fun m hm => (h m hm).2)
  have hids : ∀ m ∈ iterate (raw members), IsID m.1 := by
    intro m hm
    obtain ⟨m', hm', rfl⟩ := List.mem_map.mp ((hiterate _).mem_iff.mp hm)
    exact (h m' hm').1
  exact ⟨_, hread.trans (assignMembers_of_isID hids empty), entries_foldl_assign _⟩

theorem unmarshalJSON_of_not_accepted (hiterate : IsIteration iterate)
    (hnames : (members.map Prod.fst).Nodup) (h : ¬Accepted members) :
    (unmarshalJSON iterate (.object members)).toOption = none := by
  by_cases hvalues : ∀ m ∈ members, (uint32.decode m.2 0).isSome = true
  · obtain ⟨m, hm, hid⟩ : ∃ m ∈ members, ¬IsID m.1 := by
      by_contra hall
      push Not at hall
      exact h fun m hm => ⟨hall m hm, hvalues m hm⟩
    have hraw : (m.1, (uint32.decode m.2 0).getD 0) ∈ iterate (raw members) :=
      (hiterate _).mem_iff.mpr (List.mem_map_of_mem hm)
    rw [unmarshalJSON_object iterate (decodeMap_eq_raw hnames hvalues)]
    exact assignMembers_of_not_isID hraw hid empty
  · push Not at hvalues
    obtain ⟨m, hm, hvalue⟩ := hvalues
    have hnone := Codec.decodeMap_eq_none hm (Option.not_isSome_iff_eq_none.mp hvalue)
    rw [unmarshalJSON_object_of_none hnone]
    rfl

theorem functional_iff (h : Accepted members) :
    Entries.Functional ((raw members).map assignment)
      ↔ ∀ a ∈ members, ∀ b ∈ members, decimal a.1 = decimal b.1 →
        uint32.decode a.2 0 = uint32.decode b.2 0 := by
  have hvalue : ∀ m ∈ members,
      uint32.decode m.2 0 = some ((uint32.decode m.2 0).getD 0) := by
    intro m hm
    obtain ⟨x, hx⟩ := Option.isSome_iff_exists.mp (h m hm).2
    rw [hx, Option.getD_some]
  unfold Entries.Functional raw
  rw [List.map_map, List.forall_mem_map]
  refine forall₂_congr fun a ha => ?_
  rw [List.forall_mem_map]
  refine forall₂_congr fun b hb => ?_
  rw [hvalue a ha, hvalue b hb, Option.some_inj,
    ← ofNat_decimal_inj (h a ha).1 (h b hb).1]
  constructor
  · exact fun hab hid => congrArg Prod.snd (hab hid)
  · exact fun hab hid => Prod.ext hid (hab hid)

theorem exists_iteration {l l₁ : List (List Char × UInt32)} (h : l.Perm l₁) :
    ∃ iterate, IsIteration iterate ∧ iterate l = l₁ := by
  refine ⟨fun m => if m = l then l₁ else m, ?_, if_pos rfl⟩
  intro m
  dsimp only
  split_ifs with hm
  · rw [hm]
    exact h.symm
  · exact List.Perm.refl m

/-- The order of iteration shows exactly if the object is accepted and two of its names are
numerals of one id with different values. -/
theorem unmarshalJSON_order_iff (hnames : (members.map Prod.fst).Nodup) :
    (∀ i₁ i₂, IsIteration i₁ → IsIteration i₂ →
        (unmarshalJSON i₁ (.object members)).toOption =
          (unmarshalJSON i₂ (.object members)).toOption)
      ↔ (∃ m ∈ members, ¬IsID m.1 ∨ uint32.decode m.2 0 = none) ∨
        ∀ a ∈ members, ∀ b ∈ members, decimal a.1 = decimal b.1 →
          uint32.decode a.2 0 = uint32.decode b.2 0 := by
  by_cases h : Accepted members
  · have hnot : ¬∃ m ∈ members, ¬IsID m.1 ∨ uint32.decode m.2 0 = none := by
      rintro ⟨m, hm, hid | hvalue⟩
      · exact hid (h m hm).1
      · have hsome := (h m hm).2
        rw [hvalue] at hsome
        cases hsome
    rw [or_iff_right hnot, ← functional_iff h,
      ← Entries.fill_perm_iff (fun _ _ => UInt32.toNat_inj.mp) assignment]
    constructor
    · intro horders l₁ l₂ h₁ h₂
      obtain ⟨i₁, hi₁, rfl⟩ := exists_iteration h₁
      obtain ⟨i₂, hi₂, rfl⟩ := exists_iteration h₂
      obtain ⟨m₁, hread₁, hentries₁⟩ := unmarshalJSON_of_accepted hi₁ hnames h
      obtain ⟨m₂, hread₂, hentries₂⟩ := unmarshalJSON_of_accepted hi₂ hnames h
      have heq := horders i₁ i₂ hi₁ hi₂
      rw [hread₁, hread₂] at heq
      rw [← hentries₁, ← hentries₂, Option.some.inj heq]
    · intro hfill i₁ i₂ hi₁ hi₂
      obtain ⟨m₁, hread₁, hentries₁⟩ := unmarshalJSON_of_accepted hi₁ hnames h
      obtain ⟨m₂, hread₂, hentries₂⟩ := unmarshalJSON_of_accepted hi₂ hnames h
      have heq : m₁ = m₂ := by
        apply entries_injective
        rw [hentries₁, hentries₂]
        exact hfill _ _ (hi₁ _).symm (hi₂ _).symm
      rw [hread₁, hread₂, heq]
  · have hrefused : ∃ m ∈ members, ¬IsID m.1 ∨ uint32.decode m.2 0 = none := by
      unfold Accepted at h
      push Not at h
      obtain ⟨m, hm, hor⟩ := h
      refine ⟨m, hm, ?_⟩
      by_cases hid : IsID m.1
      · exact Or.inr (Option.not_isSome_iff_eq_none.mp (hor hid))
      · exact Or.inl hid
    refine ⟨fun _ => Or.inl hrefused, ?_⟩
    intro _ i₁ i₂ hi₁ hi₂
    rw [unmarshalJSON_of_not_accepted hi₁ hnames h, unmarshalJSON_of_not_accepted hi₂ hnames h]

def twoSpellings (x y : List Char) : List (List Char × JsonValue) :=
  [(['1'], .number x), (['0', '1'], .number y)]

theorem order_irrelevant_same_value :
    (unmarshalJSON id (.object (twoSpellings ['5'] ['5']))).toOption =
      (unmarshalJSON List.reverse (.object (twoSpellings ['5'] ['5']))).toOption :=
  (unmarshalJSON_order_iff (by decide)).mpr (Or.inr (by decide)) id List.reverse List.Perm.refl
    List.reverse_perm

theorem order_shows :
    ((twoSpellings ['5'] ['6']).map Prod.fst).Nodup ∧
      (∀ m ∈ twoSpellings ['5'] ['6'], ∃ x : UInt32, m.2 = .number (formatUint x.toNat)) ∧
      ∃ i₁ i₂, IsIteration i₁ ∧ IsIteration i₂ ∧
        (unmarshalJSON i₁ (.object (twoSpellings ['5'] ['6']))).toOption ≠
          (unmarshalJSON i₂ (.object (twoSpellings ['5'] ['6']))).toOption := by
  refine ⟨by decide, ?_, id, List.reverse, List.Perm.refl, List.reverse_perm, by decide⟩
  exact List.forall_mem_cons.mpr ⟨⟨5, rfl⟩, List.forall_mem_cons.mpr ⟨⟨6, rfl⟩, nofun⟩⟩

end FutureWas.PotentialMap
