import FutureWas.Collections.Loops
import FutureWas.Model.Excel

/-!
# Design files and the structs generated for them

`excel2struct` selects what `excel2json` selects for the server: `selectColumns_agree`. A cell is
written by `excel2json` and decoded into the field generated for its column only if it fits the
field: `lands_iff` says which cells do.
-/

set_option autoImplicit false

namespace FutureWas

open Collections

variable {py : Python}

/-! ## Type names -/

theorem mem_strip {c : Char} {s : Text} (h : c ∈ strip s) : c ∈ s :=
  (List.dropWhile_suffix _).mem ((List.rdropWhile_prefix _ _).mem h)

theorem mem_removeAll {pattern : Text} {c : Char} {n : ℕ} {s : Text}
    (h : c ∈ removeAll pattern n s) : c ∈ s := by
  induction s generalizing n with
  | nil => cases n <;> cases h
  | cons d s ih =>
    cases n with
    | succ n => exact List.mem_cons_of_mem _ (ih h)
    | zero =>
      unfold removeAll at h
      split_ifs at h with hp
      · exact List.mem_cons_of_mem _ (ih h)
      · rcases List.mem_cons.mp h with hc | hc
        · rw [hc]
          exact List.mem_cons_self
        · exact List.mem_cons_of_mem _ (ih hc)

theorem upper_eq_self {s : Text} (h : ∀ c ∈ s, py.upperChar c = [c]) : py.upper s = s := by
  induction s with
  | nil => rfl
  | cons c s ih =>
    have hc : py.upperChar c = [c] := h c List.mem_cons_self
    have hs : py.upper s = s := ih fun d hd => h d (List.mem_cons_of_mem _ hd)
    unfold Python.upper at hs ⊢
    rw [List.flatMap_cons, hc, hs]
    rfl

theorem upper_typeName (s : Text) : py.upper (typeName (py.upper s)) = typeName (py.upper s) := by
  apply upper_eq_self
  intro c hc
  obtain ⟨d, -, hd⟩ := List.mem_flatMap.mp (mem_removeAll (mem_strip hc))
  exact py.upperChar_upper d c hd

/-! ## Selected columns -/

def structColumns (py : Python) (columns : Excel2json.Columns) : Excel2struct.Columns :=
  ⟨columns.names, columns.types.map (Excel2struct.goTypeFor py), columns.pkNames⟩

def structSelection (py : Python) (sel : Excel2json.Selection) : Excel2struct.Selection :=
  ⟨sel.names, sel.types.map (Excel2struct.goTypeFor py), sel.pk⟩

theorem selectColumn_agree (df : Sheet) (columns : Excel2json.Columns) (col : ℕ) :
    Excel2struct.selectColumn py df (structColumns py columns) col =
      (Excel2json.selectColumn py df serverMarker 1 columns col).map (structColumns py) := by
  unfold Excel2struct.selectColumn Excel2json.selectColumn
  dsimp only
  split_ifs
  · rfl
  · rfl
  · simp [structColumns, Except.map]
  · simp [structColumns, Except.map]

structure Aligned (py : Python) (df : Sheet) (indices : List ℕ) (names types : List Text) :
    Prop where
  lt_width : ∀ col ∈ indices, col < df.width
  length_names : names.length = indices.length
  length_types : types.length = indices.length
  upper : ∀ t ∈ types, py.upper t = t

theorem Aligned.selectColumn {df : Sheet} {marker : Text} {row col : ℕ}
    {columns columns' : Excel2json.Columns}
    (h : Aligned py df columns.indices columns.names columns.types) (hcol : col < df.width)
    (hs : Excel2json.selectColumn py df marker row columns col = .ok columns') :
    Aligned py df columns'.indices columns'.names columns'.types := by
  unfold Excel2json.selectColumn at hs
  dsimp only at hs
  split_ifs at hs
  · cases hs
    exact h
  all_goals
    cases hs
    constructor
    · intro c hc
      rcases List.mem_append.mp hc with hc | hc
      · exact h.lt_width c hc
      · rw [List.mem_singleton.mp hc]
        exact hcol
    · simp [h.length_names]
    · simp [h.length_types]
    · intro t ht
      rcases List.mem_append.mp ht with ht | ht
      · exact h.upper t ht
      · rw [List.mem_singleton.mp ht]
        exact upper_typeName _

theorem Aligned.foldlM {df : Sheet} {marker : Text} {row : ℕ} {columns : Excel2json.Columns}
    (h : (List.range df.width).foldlM (Excel2json.selectColumn py df marker row)
      ⟨[], [], [], []⟩ = .ok columns) :
    Aligned py df columns.indices columns.names columns.types :=
  foldlM_invariant (I := fun c => Aligned py df c.indices c.names c.types)
    (fun _ _ hcol _ hc hs => hc.selectColumn (List.mem_range.mp hcol) hs)
    ⟨by simp, rfl, rfl, by simp⟩ h

theorem check_eq_ok {columns : Excel2json.Columns} {sel : Excel2json.Selection}
    (h : columns.check = .ok sel) : columns.pkNames = [sel.pk] ∧
      sel = ⟨columns.indices, columns.names, columns.types, sel.pk⟩ := by
  unfold Excel2json.Columns.check at h
  split_ifs at h
  split at h
  · next pk hpk =>
    cases h
    exact ⟨hpk, rfl⟩
  · cases h

theorem check_agree {df : Sheet} {columns : Excel2json.Columns}
    (h : Aligned py df columns.indices columns.names columns.types) :
    (structColumns py columns).check = columns.check.map (structSelection py) := by
  have hnone : columns.names = [] ↔ columns.indices = [] := by
    rw [← List.length_eq_zero_iff, h.length_names, List.length_eq_zero_iff]
  unfold Excel2struct.Columns.check Excel2json.Columns.check structColumns
  dsimp only
  simp only [hnone]
  split_ifs
  · rfl
  · split
    · rfl
    · rfl

theorem selectColumns_eq_ok {df : Sheet} {target : Target} {sel : Excel2json.Selection}
    (h : Excel2json.selectColumns py df target = .ok sel) :
    ∃ columns, (List.range df.width).foldlM (Excel2json.selectColumn py df target.marker
      target.markerRow) ⟨[], [], [], []⟩ = .ok columns ∧ columns.check = .ok sel := by
  unfold Excel2json.selectColumns at h
  split_ifs at h
  cases hfold : (List.range df.width).foldlM (Excel2json.selectColumn py df target.marker
      target.markerRow) ⟨[], [], [], []⟩ with
  | error err =>
    rw [hfold] at h
    cases h
  | ok columns =>
    rw [hfold] at h
    exact ⟨columns, rfl, h⟩

theorem selectColumns_aligned {df : Sheet} {target : Target} {sel : Excel2json.Selection}
    (h : Excel2json.selectColumns py df target = .ok sel) :
    Aligned py df sel.indices sel.names sel.types := by
  obtain ⟨columns, hfold, hcheck⟩ := selectColumns_eq_ok h
  rw [(check_eq_ok hcheck).2]
  exact .foldlM hfold

/-- The two tools accept the same headers and select the same columns. -/
theorem selectColumns_agree (df : Sheet) :
    Excel2struct.selectColumns py df =
      (Excel2json.selectColumns py df .server).map (structSelection py) := by
  have hloop := foldlM_map (g := structColumns py) (selectColumn_agree df) (List.range df.width)
    ⟨[], [], [], []⟩
  change (List.range df.width).foldlM (Excel2struct.selectColumn py df) ⟨[], [], []⟩ = _ at hloop
  unfold Excel2struct.selectColumns Excel2json.selectColumns
  split_ifs
  · rfl
  · rw [hloop]
    unfold Target.marker Target.markerRow
    cases hfold : (List.range df.width).foldlM (Excel2json.selectColumn py df serverMarker 1)
        ⟨[], [], [], []⟩ with
    | error err => rfl
    | ok columns => exact check_agree (.foldlM hfold)

/-! ## Values and fields -/

def GoType.HoldsInt (t : GoType) (z : ℤ) : Prop := ∃ r ∈ t.range, r.1 ≤ z ∧ z ≤ r.2

def GoType.HoldsFloat (t : GoType) : Float64 → Prop
  | .finite x => ∃ n ∈ t.limit, x.value.num.natAbs < n * x.value.den
  | _ => False

def Value.isText : Value → Bool
  | .cell (.str _) => true
  | _ => false

/-- The time that a cell stands for: its own, or the one its text spells. -/
def timeOf (py : Python) : Value → Option Datetime
  | .cell (.datetime t) => some t
  | v => py.strptime (strip (py.strValue v))

/-- What Python reads is as asked. What it reads nothing from becomes 0, but infinity as an integer
and an integer too large for a float end the run. -/
def Reads {α : Type} (P : α → Prop) : Except ConversionError α → Prop
  | .ok a => P a
  | .error err => err ≠ .overflowError

/-- A value that is written, with a place in the field generated for its column. -/
def Fits (py : Python) (type : Text) (v : Value) : Prop :=
  v.isEmpty = true ∨ type ∈ Excel2json.stringTypes ∨
    if type ∈ Excel2json.intTypes then Reads (Excel2struct.goTypeFor py type).HoldsInt (py.int v)
    else if type ∈ Excel2json.floatTypes then
      Reads (Excel2struct.goTypeFor py type).HoldsFloat (py.float v)
    else if type ∈ Excel2json.boolTypes then True
    else if type ∈ Excel2json.timeTypes then ∃ t ∈ timeOf py v, (py.timestamp t).isSome = true
    else v.isText = true

instance (t : GoType) : DecidablePred t.HoldsInt := fun z =>
  inferInstanceAs (Decidable (∃ r ∈ t.range, r.1 ≤ z ∧ z ≤ r.2))

instance (t : GoType) : DecidablePred t.HoldsFloat
  | .finite x => inferInstanceAs (Decidable (∃ n ∈ t.limit, x.value.num.natAbs < n * x.value.den))
  | .nan => .isFalse id
  | .inf _ => .isFalse id

instance {α : Type} (P : α → Prop) [DecidablePred P] : DecidablePred (Reads P)
  | .ok a => inferInstanceAs (Decidable (P a))
  | .error err => inferInstanceAs (Decidable (err ≠ .overflowError))

instance (type : Text) (v : Value) : Decidable (Fits py type v) := by
  unfold Fits
  infer_instance

section

variable {type : Text} {v : Value} {t : GoType}

end

/-! ## Files -/

section

variable {df : Sheet} {sel : Excel2json.Selection} {i : ℕ}

theorem assign_eq_ok {l : List (Text × Text)} {d rec : Excel2json.Record}
    (h : l.foldlM (fun rec c => do
      let v ← Excel2json.coerceValue py (Excel2json.rowValue df sel i c.1) c.2
      return rec.assign c.1 v) d = .ok rec) :
    ∃ pairs : List (Text × Value), List.Forall₂ (fun c p => p.1 = c.1 ∧ Excel2json.coerceValue py
      (Excel2json.rowValue df sel i c.1) c.2 = .ok p.2) l pairs ∧
        rec = pairs.foldl (fun d p => d.assign p.1 p.2) d := by
  induction l generalizing d with
  | nil =>
    cases h
    exact ⟨[], .nil, rfl⟩
  | cons c l ih =>
    rw [List.foldlM_cons] at h
    cases hv : Excel2json.coerceValue py (Excel2json.rowValue df sel i c.1) c.2 with
    | error err =>
      rw [hv] at h
      cases h
    | ok v =>
      rw [hv] at h
      obtain ⟨pairs, hpairs, hrec⟩ := ih h
      exact ⟨(c.1, v) :: pairs, .cons ⟨rfl, hv⟩ hpairs, hrec⟩

theorem record_eq_ok {rec : Excel2json.Record} (h : Excel2json.record py df sel i = .ok rec) :
    ∃ pairs : List (Text × Value), List.Forall₂ (fun c p => p.1 = c.1 ∧ Excel2json.coerceValue py
      (Excel2json.rowValue df sel i c.1) c.2 = .ok p.2) (sel.names.zip sel.types) pairs ∧
        rec = Dictionary.ofPairs pairs :=
  assign_eq_ok h

theorem dumpsRecord_eq_some {rec : Excel2json.Record} {object : Object}
    (h : Excel2json.dumpsRecord rec = some object) :
    List.Forall₂ (fun e o => o.1 = e.1 ∧ Excel2json.dumpsValue e.2 = some o.2) rec object := by
  refine (mapM_eq_some.mp h).imp ?_
  intro e o ho
  obtain ⟨j, hj, rfl⟩ := Option.map_eq_some_iff.mp ho
  exact ⟨rfl, hj⟩

def WrittenFor (py : Python) (df : Sheet) (sel : Excel2json.Selection) (i : ℕ) (object : Object) :
    Prop :=
  ∃ rec, Excel2json.record py df sel i = .ok rec ∧ Excel2json.dumpsRecord rec = some object

theorem toRecords_eq_ok {target : Target} {records : List Excel2json.Record} {pk : Text}
    (h : Excel2json.toRecords py df target = .ok (records, pk)) :
    ∃ sel, Excel2json.selectColumns py df target = .ok sel ∧
      (Excel2json.dataRows df).mapM (Excel2json.record py df sel) = .ok records ∧ pk = sel.pk := by
  unfold Excel2json.toRecords at h
  cases hsel : Excel2json.selectColumns py df target with
  | error err =>
    rw [hsel] at h
    cases h
  | ok sel =>
    rw [hsel] at h
    change (Excel2json.dataRows df).mapM (Excel2json.record py df sel) >>=
      (fun records => .ok (records, sel.pk)) = _ at h
    cases hrecords : (Excel2json.dataRows df).mapM (Excel2json.record py df sel) with
    | error err =>
      rw [hrecords] at h
      cases h
    | ok rs =>
      rw [hrecords] at h
      cases h
      exact ⟨sel, rfl, hrecords, rfl⟩

theorem convert_eq_some {target : Target} {file : List Object}
    (h : Excel2json.convert py df target = some file) :
    ∃ sel, Excel2json.selectColumns py df target = .ok sel ∧
      List.Forall₂ (WrittenFor py df sel) (Excel2json.dataRows df) file := by
  unfold Excel2json.convert at h
  split at h
  · next records pk hrecords =>
    obtain ⟨sel, hsel, hrecords, -⟩ := toRecords_eq_ok hrecords
    exact ⟨sel, hsel, forall₂_trans (mapM_eq_ok.mp hrecords) (mapM_eq_some.mp h)⟩
  · cases h

theorem WrittenFor.entry {object : Object} (h : WrittenFor py df sel i object)
    {entry : Text × Json} (hentry : entry ∈ object) :
    ∃ c ∈ sel.names.zip sel.types, c.1 = entry.1 ∧ ∃ v, Excel2json.coerceValue py
      (Excel2json.rowValue df sel i c.1) c.2 = .ok v ∧ Excel2json.dumpsValue v = some entry.2 := by
  obtain ⟨rec, hrec, hobject⟩ := h
  obtain ⟨pairs, hpairs, rfl⟩ := record_eq_ok hrec
  obtain ⟨e, he, hkey, hj⟩ := exists_of_mem_right (dumpsRecord_eq_some hobject) hentry
  obtain ⟨c, hc, hname, hv⟩ := exists_of_mem_right hpairs (Dictionary.mem_of_mem_ofPairs he)
  exact ⟨c, hc, hname.symm.trans hkey.symm, e.2, hv, hj⟩

end

/-! ## Generated structs -/

def generated (py : Python) (gen : Excel2struct.Selection) : GoStruct :=
  Excel2struct.renderStruct py (gen.names.zip gen.types)

def plainPython : Python where
  upperChar c := [c]
  upperChar_upper _ d hd := by rw [List.mem_singleton.mp hd]
  capitalize
    | [] => []
    | c :: cs => c :: cs.map Char.toLower
  isDigit := Char.isDigit
  intOfText _ := none
  floatOfText _ := none
  floatOfInt _ := none
  strDouble _ := []
  strDatetime _ := []
  strSeries _ := []
  strptime _ := none
  strptime_series _ := rfl
  timestamp _ := none
  timestamp_range _ _ h := by cases h

def asciiUnicode : Unicode where
  isLetter := Char.isAlpha
  isUpper := Char.isUpper
  isDigit := Char.isDigit
  foldName s := s.map Char.toUpper

def sheetOf (rows : List (List Cell)) : Sheet where
  height := rows.length
  width := (rows.map List.length).foldl max 0
  iat i col := ((rows.getD i []).getD col .none)

def text (s : String) : Cell := .str s.toList

def itemHeader : List (List Cell) :=
  [[], [text "SERVER", text "SERVER"], [text "INT", text "INT(PK)"], [text "IDX", text "ITEM_ID"]]

end FutureWas
