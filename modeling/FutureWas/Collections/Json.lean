import FutureWas.Collections.Dictionary
import FutureWas.Collections.Text

/-!
# Codecs between values and JSON

A codec writes a value as JSON and reads JSON into a value that is already there, as
`encoding/json` does: `null` leaves a number or a struct as it is, a member goes to the field
with its name as tag or else to the first whose tag folds to the same name, and members without
a field are skipped. `Returns s t` says of a codec that `s` is written as a value that a new
variable reads back as `t`.
-/

set_option autoImplicit false

namespace Collections

/-- Numbers and strings stand as they are written. -/
inductive JsonValue
  | null
  | bool (b : Bool)
  | number (literal : List Char)
  | string (literal : List Char)
  | array (elements : List JsonValue)
  | object (members : List (List Char × JsonValue))

/-! ## Numerals -/

/-- `strconv.FormatUint` in base 10. -/
def formatUint (n : ℕ) : List Char := Nat.toDigits 10 n

/-- `strconv.ParseUint` in base 10, of a type that holds the numbers below `limit`. -/
def parseUint (limit : ℕ) (s : List Char) : Option ℕ :=
  if s ≠ [] ∧ s.all Char.isDigit = true ∧ decimal s < limit then some (decimal s) else none

theorem decimal_formatUint (n : ℕ) : decimal (formatUint n) = n := Nat.ofDigitChars_ten_toDigits

theorem isDigit_formatUint (n : ℕ) : ∀ c ∈ formatUint n, c.isDigit = true :=
  fun _ hc => Nat.isDigit_of_mem_toDigits (by decide) (by decide) hc

theorem formatUint_injective : Function.Injective formatUint := by
  intro m n h
  rw [← decimal_formatUint m, h, decimal_formatUint]

theorem parseUint_formatUint {limit n : ℕ} (h : n < limit) :
    parseUint limit (formatUint n) = some n := by
  unfold parseUint
  rw [if_pos ⟨Nat.toDigits_ne_nil, List.all_eq_true.mpr (isDigit_formatUint n),
    by rwa [decimal_formatUint]⟩, decimal_formatUint]

/-! ## Codecs -/

universe u

structure Codec (σ : Type u) where
  zero : σ
  /-- `none` is an error. -/
  encode : σ → Option JsonValue
  decode : JsonValue → σ → Option σ

namespace Codec

variable {σ τ : Type u}

def Returns (c : Codec σ) (s t : σ) : Prop :=
  ∃ v, c.encode s = some v ∧ c.decode v c.zero = some t

def uint (limit : ℕ) (toNat : σ → ℕ) (ofNat : ℕ → σ) : Codec σ where
  zero := ofNat 0
  encode n := some (.number (formatUint (toNat n)))
  decode v old :=
    match v with
    | .null => some old
    | .number literal => (parseUint limit literal).map ofNat
    | _ => none

theorem uint_returns {limit : ℕ} {toNat : σ → ℕ} {ofNat : ℕ → σ} {n : σ}
    (hlt : toNat n < limit) (hof : ofNat (toNat n) = n) :
    (uint limit toNat ofNat).Returns n n := by
  refine ⟨_, rfl, ?_⟩
  show (parseUint limit (formatUint (toNat n))).map ofNat = some n
  rw [parseUint_formatUint hlt, Option.map_some, hof]

/-- A pointer. A new variable is read into when there is none yet. -/
def pointer (c : Codec σ) : Codec (Option σ) where
  zero := none
  encode
    | none => some .null
    | some x => c.encode x
  decode
    | .null, _ => some none
    | v, old => (c.decode v (old.getD c.zero)).map some

theorem pointer_returns_none (c : Codec σ) : c.pointer.Returns none none := ⟨.null, rfl, rfl⟩

theorem pointer_returns_some {c : Codec σ} {s t : σ} (h : c.Returns s t)
    (hnull : c.encode s ≠ some .null) : c.pointer.Returns (some s) (some t) := by
  obtain ⟨v, hencode, hdecode⟩ := h
  refine ⟨v, hencode, ?_⟩
  have hread : (c.decode v c.zero).map some = some (some t) := by rw [hdecode, Option.map_some]
  cases v with
  | null => exact absurd hencode hnull
  | _ => exact hread

/-! ### Slices -/

/-- The elements are read into those of the old slice as far as it goes. -/
def decodeElements (c : Codec σ) : List JsonValue → List σ → Option (List σ)
  | [], _ => some []
  | v :: vs, old => do
    let x ← c.decode v (old.headD c.zero)
    let xs ← c.decodeElements vs old.tail
    pure (x :: xs)

/-- A slice; `none` is nil. -/
def slice (c : Codec σ) : Codec (Option (List σ)) where
  zero := none
  encode
    | none => some .null
    | some xs => (xs.mapM c.encode).map .array
  decode
    | .null, _ => some none
    | .array vs, old => (c.decodeElements vs (old.getD [])).map some
    | _, _ => none

theorem slice_returns_none (c : Codec σ) : c.slice.Returns none none := ⟨.null, rfl, rfl⟩

theorem decodeElements_of_returns {c : Codec σ} {xs : List σ} (h : ∀ x ∈ xs, c.Returns x x) :
    ∃ vs, xs.mapM c.encode = some vs ∧ c.decodeElements vs [] = some xs := by
  induction xs with
  | nil => exact ⟨[], rfl, rfl⟩
  | cons x xs ih =>
    obtain ⟨hx, hxs⟩ := List.forall_mem_cons.mp h
    obtain ⟨v, hencode, hdecode⟩ := hx
    obtain ⟨vs, hencodes, hdecodes⟩ := ih hxs
    refine ⟨v :: vs, ?_, ?_⟩
    · rw [List.mapM_cons, hencode, hencodes]
      rfl
    · have hrest : c.decodeElements vs ([] : List σ).tail = some xs := hdecodes
      rw [decodeElements, List.headD_nil, hdecode, hrest]
      rfl

theorem slice_returns_some {c : Codec σ} {xs : List σ} (h : ∀ x ∈ xs, c.Returns x x) :
    c.slice.Returns (some xs) (some xs) := by
  obtain ⟨vs, hencode, hdecode⟩ := decodeElements_of_returns h
  refine ⟨.array vs, ?_, ?_⟩
  · show (xs.mapM c.encode).map JsonValue.array = some (.array vs)
    rw [hencode, Option.map_some]
  · show (c.decodeElements vs ((none : Option (List σ)).getD [])).map some = some (some xs)
    rw [Option.getD_none, hdecode, Option.map_some]

/-! ### Maps -/

/-- A map with string keys: the last of the members with one name stands. -/
def decodeMap (c : Codec σ) (members : List (List Char × JsonValue)) :
    Option (Dictionary (List Char) σ) :=
  (members.mapM fun m => (c.decode m.2 c.zero).map (Prod.mk m.1)).map .ofPairs

theorem decodeMap_eq_none {c : Codec σ} {members : List (List Char × JsonValue)}
    {m : List Char × JsonValue} (hm : m ∈ members) (h : c.decode m.2 c.zero = none) :
    c.decodeMap members = none := by
  have hnone : members.mapM (fun m => (c.decode m.2 c.zero).map (Prod.mk m.1)) = none := by
    induction members with
    | nil => cases hm
    | cons first members ih =>
      rw [List.mapM_cons]
      rcases List.mem_cons.mp hm with rfl | hm
      · rw [h]
        rfl
      · rw [ih hm]
        cases c.decode first.2 c.zero <;> rfl
  rw [decodeMap, hnone, Option.map_none]

theorem decodeMap_of_nodup {c : Codec σ} {members : List (List Char × JsonValue)}
    (hnodup : (members.map Prod.fst).Nodup) (value : JsonValue → σ)
    (h : ∀ m ∈ members, c.decode m.2 c.zero = some (value m.2)) :
    c.decodeMap members = some (members.map fun m => (m.1, value m.2)) := by
  have hread : members.mapM (fun m => (c.decode m.2 c.zero).map (Prod.mk m.1)) =
      some (members.map fun m => (m.1, value m.2)) := by
    clear hnodup
    induction members with
    | nil => rfl
    | cons m members ih =>
      obtain ⟨hm, hrest⟩ := List.forall_mem_cons.mp h
      rw [List.mapM_cons, hm, ih hrest]
      rfl
  have hkeys : (members.map fun m => (m.1, value m.2)).map Prod.fst = members.map Prod.fst := by
    rw [List.map_map]
    rfl
  rw [decodeMap, hread, Option.map_some, Dictionary.ofPairs_of_nodup (hkeys ▸ hnodup)]

end Codec

/-! ## Structs -/

/-- A field of a struct; it is left out where `encode` answers no value. -/
structure StructField (σ : Type u) where
  tag : List Char
  encode : σ → Option (Option JsonValue)
  decode : JsonValue → σ → Option σ

namespace StructField

variable {σ τ : Type u}

/-- `json:"tag"`. -/
def of (tag : List Char) (c : Codec τ) (get : σ → τ) (set : τ → σ → σ) : StructField σ where
  tag := tag
  encode s := (c.encode (get s)).map some
  decode v s := (c.decode v (get s)).map fun x => set x s

/-- `json:"tag,omitempty"`. -/
def omitEmpty [DecidableEq τ] (tag : List Char) (c : Codec τ) (get : σ → τ) (set : τ → σ → σ) :
    StructField σ where
  tag := tag
  encode s := if get s = c.zero then some none else (c.encode (get s)).map some
  decode v s := (c.decode v (get s)).map fun x => set x s

def Sends (f : StructField σ) (s before after : σ) : Prop :=
  (∃ v, f.encode s = some (some v) ∧ f.decode v before = some after) ∨
    f.encode s = some none ∧ after = before

theorem of_sends {tag : List Char} {c : Codec τ} {get : σ → τ} {set : τ → σ → σ} {s before : σ}
    {t : τ} (h : c.Returns (get s) t) (hzero : get before = c.zero) :
    (of tag c get set).Sends s before (set t before) := by
  obtain ⟨v, hencode, hdecode⟩ := h
  refine Or.inl ⟨v, ?_, ?_⟩
  · show (c.encode (get s)).map some = some (some v)
    rw [hencode, Option.map_some]
  · show (c.decode v (get before)).map (fun x => set x before) = some (set t before)
    rw [hzero, hdecode, Option.map_some]

theorem omitEmpty_sends [DecidableEq τ] {tag : List Char} {c : Codec τ} {get : σ → τ}
    {set : τ → σ → σ} {s before : σ} (h : c.Returns (get s) (get s))
    (hzero : get before = c.zero) (hset : set (get before) before = before) :
    (omitEmpty tag c get set).Sends s before (set (get s) before) := by
  by_cases hempty : get s = c.zero
  · refine Or.inr ⟨if_pos hempty, ?_⟩
    rw [hempty, ← hzero, hset]
  · obtain ⟨v, hencode, hdecode⟩ := h
    refine Or.inl ⟨v, ?_, ?_⟩
    · show (if get s = c.zero then some none else (c.encode (get s)).map some) = some (some v)
      rw [if_neg hempty, hencode, Option.map_some]
    · show (c.decode v (get before)).map (fun x => set x before) = some (set (get s) before)
      rw [hzero, hdecode, Option.map_some]

inductive SendAll (s : σ) : List (StructField σ) → σ → σ → Prop
  | nil {t : σ} : SendAll s [] t t
  | cons {f : StructField σ} {fs : List (StructField σ)} {before between after : σ} :
      f.Sends s before between → SendAll s fs between after → SendAll s (f :: fs) before after

def encodeMembers (s : σ) : List (StructField σ) → Option (List (List Char × JsonValue))
  | [] => some []
  | f :: fs => do
    let v ← f.encode s
    let ms ← encodeMembers s fs
    pure (match v with
      | some v => (f.tag, v) :: ms
      | none => ms)

/-- The field that a member is for; `fold` is the folding of names. -/
def lookup (fold : List Char → List Char) (fields : List (StructField σ)) (name : List Char) :
    Option (StructField σ) :=
  (fields.find? fun f => f.tag = name).or (fields.find? fun f => fold f.tag = fold name)

def decodeMember (fold : List Char → List Char) (fields : List (StructField σ)) (s : σ)
    (member : List Char × JsonValue) : Option σ :=
  match lookup fold fields member.1 with
  | some f => f.decode member.2 s
  | none => some s

theorem lookup_of_mem {fold : List Char → List Char} {fields : List (StructField σ)}
    (hnodup : (fields.map StructField.tag).Nodup) {f : StructField σ} (hf : f ∈ fields) :
    lookup fold fields f.tag = some f := by
  have hfind : fields.find? (fun g => g.tag = f.tag) = some f := find?_of_nodup hnodup hf
  rw [lookup, hfind, Option.some_or]

theorem SendAll.decode {fold : List Char → List Char} {fields fs : List (StructField σ)}
    (hnodup : (fields.map StructField.tag).Nodup) (hfs : ∀ f ∈ fs, f ∈ fields) {s before after : σ}
    (h : SendAll s fs before after) :
    ∃ ms, encodeMembers s fs = some ms ∧
      ms.foldlM (decodeMember fold fields) before = some after := by
  induction h with
  | nil => exact ⟨[], rfl, rfl⟩
  | @cons f fs before between after hf _ ih =>
    obtain ⟨hmem, hrest⟩ := List.forall_mem_cons.mp hfs
    obtain ⟨ms, hencodes, hdecodes⟩ := ih hrest
    rcases hf with ⟨v, hencode, hdecode⟩ | ⟨hencode, rfl⟩
    · refine ⟨(f.tag, v) :: ms, ?_, ?_⟩
      · rw [encodeMembers, hencode, hencodes]
        rfl
      · have hmember : decodeMember fold fields before (f.tag, v) = some between := by
          unfold decodeMember
          rw [lookup_of_mem hnodup hmem]
          exact hdecode
        rw [List.foldlM_cons, hmember]
        exact hdecodes
    · refine ⟨ms, ?_, hdecodes⟩
      rw [encodeMembers, hencode, hencodes]
      rfl

end StructField

variable {σ : Type u}

def Codec.struct (fold : List Char → List Char) (fields : List (StructField σ)) (zero : σ) :
    Codec σ where
  zero := zero
  encode s := (StructField.encodeMembers s fields).map .object
  decode v old :=
    match v with
    | .null => some old
    | .object ms => ms.foldlM (StructField.decodeMember fold fields) old
    | _ => none

theorem Codec.struct_returns {fold : List Char → List Char} {fields : List (StructField σ)}
    {zero : σ} (hnodup : (fields.map StructField.tag).Nodup) {s t : σ}
    (h : StructField.SendAll s fields zero t) :
    (struct fold fields zero).Returns s t := by
  obtain ⟨ms, hencode, hdecode⟩ := h.decode hnodup fun _ => id
  refine ⟨.object ms, ?_, hdecode⟩
  show (StructField.encodeMembers s fields).map JsonValue.object = some (.object ms)
  rw [hencode, Option.map_some]

theorem Codec.struct_not_null {fold : List Char → List Char} {fields : List (StructField σ)}
    {zero s : σ} : (struct fold fields zero).encode s ≠ some .null := by
  show (StructField.encodeMembers s fields).map JsonValue.object ≠ some .null
  cases StructField.encodeMembers s fields with
  | none => exact nofun
  | some ms => exact nofun

end Collections
