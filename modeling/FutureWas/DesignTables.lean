import FutureWas.GeneratedStructs

/-!
# From the rows of a sheet to a design table

The loader stores every record of a file by the key of its domain, so a table holds the last
record with each key: `faithful_iff` says when these are the rows of the sheet, each under the
value of its column marked as key.
-/

set_option autoImplicit false

namespace FutureWas

open Collections

variable {py : Python} {uni : Unicode}

/-! ## What a row is stored by -/

def Json.number : Json → Option ℤ
  | .int z => some z
  | _ => none

def Value.number : Value → Option ℤ
  | .cell (.int z) => some z
  | _ => none

/-- The number that a value of a column gives to an integer field, if it gives any. -/
def numberOf (py : Python) (type : Text) (v : Value) : Option ℤ :=
  if type ∈ Excel2json.stringTypes then none
  else if type ∈ Excel2json.intTypes then
    some (if v.isEmpty then 0 else (py.int v).toOption.getD 0)
  else if type ∈ Excel2json.floatTypes then none
  else if type ∈ Excel2json.boolTypes then none
  else if type ∈ Excel2json.timeTypes then
    some (if v.isEmpty then 0 else (Excel2json.parseTimeToUnix py v).toOption.getD 0)
  else v.number

def FeedsKey (uni : Unicode) (dom : Domain) (name : Text) : Bool :=
  (fieldOf uni dom.fields name).any fun f => f.tag = dom.key

def keyNumber (py : Python) (uni : Unicode) (dom : Domain) (df : Sheet)
    (sel : Excel2json.Selection) (i : ℕ) : ℤ :=
  let numbers := Dictionary.ofPairs ((sel.names.zip sel.types).map fun c =>
    (c.1, numberOf py c.2 (Excel2json.rowValue df sel i c.1)))
  ((numbers.filter fun e => FeedsKey uni dom e.1).filterMap Prod.snd).getLastD 0

/-! ## What a sheet says -/

def Blank (df : Sheet) (i : ℕ) : Prop := ∀ col < df.width, (df.iat i col).isEmpty = true

def isPk (py : Python) (df : Sheet) (col : ℕ) : Bool :=
  py.upper (cellStr py (df.iat 1 col)) = serverMarker &&
    contains pkMarker (py.upper (cellStr py (df.iat 2 col)))

/-- The integer that a cell stands for. -/
def integerOf (py : Python) (type : Text) (c : Cell) : Option ℤ :=
  if type ∈ Excel2json.timeTypes then
    (Excel2json.parseTimeToUnix py (.cell c)).toOption
  else match c with
    | .int z => some z
    | .bool b => some b.toInt
    | .float (.finite x) => if x.value.den = 1 then some x.value.num else none
    | .str s => py.intOfText s
    | _ => none

def pkValue (py : Python) (df : Sheet) (i : ℕ) : Option ℤ :=
  ((List.range df.width).find? (isPk py df)).bind fun col =>
    integerOf py (typeName (py.upper (cellStr py (df.iat 2 col)))) (df.iat i col)

/-- A table has one entry for each row that is not blank, the record of this row under its
value, and no others. -/
structure Faithful (py : Python) (df : Sheet) (table : Design ℤ (GoRow × ℕ)) : Prop where
  found : ∀ i ∈ Excel2json.dataRows df, ¬ Blank df i →
    ∃ k row, pkValue py df i = some k ∧ table.lookup k = some (row, i - 4)
  only : ∀ k row n, table.lookup k = some (row, n) →
    ∃ i ∈ Excel2json.dataRows df, ¬ Blank df i ∧ pkValue py df i = some k ∧ n = i - 4

/-- The rows that are not blank have distinct values, which the loader finds in its key column;
a blank row is followed by a row with the value 0. -/
structure WellKeyed (py : Python) (uni : Unicode) (dom : Domain) (df : Sheet)
    (sel : Excel2json.Selection) : Prop where
  read : ∀ i ∈ Excel2json.dataRows df, ¬ Blank df i →
    pkValue py df i = some (keyNumber py uni dom df sel i)
  distinct : ∀ i ∈ Excel2json.dataRows df, ∀ j ∈ Excel2json.dataRows df, ¬ Blank df i →
    ¬ Blank df j → pkValue py df i = pkValue py df j → i = j
  blank : ∀ i ∈ Excel2json.dataRows df, Blank df i →
    ∃ j ∈ Excel2json.dataRows df, i < j ∧ ¬ Blank df j ∧ pkValue py df j = some 0

/-! ## The key of a record -/

section

variable {type : Text} {v v' : Value} {df : Sheet} {sel : Excel2json.Selection} {i : ℕ}

theorem number_dumpsValue {j : Json} (h : Excel2json.dumpsValue v = some j) :
    j.number = v.number := by
  cases v with
  | series cells => cases h
  | cell c => cases c <;> cases h <;> rfl

theorem eq_of_caught {α : Type} {r : Except ConversionError α} {fallback : α} {f : α → Value}
    (h : (Excel2json.caught fallback r).map f = .ok v') :
    v' = f (r.toOption.getD fallback) := by
  cases r with
  | ok a =>
    cases h
    rfl
  | error err => cases err <;> cases h <;> rfl

theorem number_coerceValue (h : Excel2json.coerceValue py v type = .ok v') :
    v'.number = numberOf py type v := by
  unfold numberOf
  unfold Excel2json.coerceValue at h
  by_cases hs : type ∈ Excel2json.stringTypes
  · rw [if_pos hs] at h ⊢
    cases h
    rfl
  rw [if_neg hs] at h ⊢
  by_cases hi : type ∈ Excel2json.intTypes
  · rw [if_pos hi] at h ⊢
    split_ifs at h ⊢
    · cases h
      rfl
    · rw [eq_of_caught h]
      rfl
  rw [if_neg hi] at h ⊢
  by_cases hf : type ∈ Excel2json.floatTypes
  · rw [if_pos hf] at h ⊢
    split_ifs at h
    · cases h
      rfl
    · rw [eq_of_caught h]
      rfl
  rw [if_neg hf] at h ⊢
  by_cases hb : type ∈ Excel2json.boolTypes
  · rw [if_pos hb] at h ⊢
    split_ifs at h
    · cases h
      rfl
    · split at h
      · cases h
        rfl
      · cases h
        rfl
  rw [if_neg hb] at h ⊢
  by_cases ht : type ∈ Excel2json.timeTypes
  · rw [if_pos ht] at h ⊢
    split_ifs at h ⊢
    · cases h
      rfl
    · cases hz : Excel2json.parseTimeToUnix py v with
      | ok z =>
        rw [hz] at h
        cases h
        rfl
      | error err =>
        rw [hz] at h
        cases h
  rw [if_neg ht] at h ⊢
  split_ifs at h with hv
  · cases h
    cases v with
    | series cells => rfl
    | cell c => cases c <;> first | rfl | cases hv
  · cases h
    rfl

theorem WrittenFor.numbers {object : Object} (h : WrittenFor py df sel i object) :
    object.map (Prod.map id Json.number) = Dictionary.ofPairs
      ((sel.names.zip sel.types).map fun c =>
        (c.1, numberOf py c.2 (Excel2json.rowValue df sel i c.1))) := by
  obtain ⟨rec, hrec, hobject⟩ := h
  obtain ⟨pairs, hpairs, rfl⟩ := record_eq_ok hrec
  have hdumped : object.map (Prod.map id Json.number) =
      (Dictionary.ofPairs pairs).map (Prod.map id Value.number) := by
    symm
    apply map_eq_of_forall₂ (dumpsRecord_eq_some hobject)
    intro e o ho
    exact Prod.ext ho.1.symm (number_dumpsValue ho.2).symm
  have hnumbers : pairs.map (Prod.map id Value.number) =
      (sel.names.zip sel.types).map fun c =>
        (c.1, numberOf py c.2 (Excel2json.rowValue df sel i c.1)) := by
    symm
    apply map_eq_of_forall₂ hpairs
    intro c p hp
    exact Prod.ext hp.1.symm (number_coerceValue hp.2).symm
  rw [hdumped, Dictionary.map_ofPairs, hnumbers]

/-! ## The key of a decoded row -/

variable {dom : Domain}

def Domain.Keyed (dom : Domain) : Prop :=
  (∀ f ∈ dom.fields, f.tag = dom.key → f.type = .int32) ∧
    dom.fields.any (fun f => f.tag = dom.key) = true

theorem domains_keyed : ∀ dom ∈ domains, dom.Keyed := by
  unfold Domain.Keyed
  decide +kernel

theorem mem_of_fieldOf {fields : GoStruct} {name : Text} {f : GoField}
    (h : fieldOf uni fields name = some f) : f ∈ fields := by
  unfold fieldOf at h
  split at h
  · next g hg =>
    cases h
    exact List.mem_of_find?_eq_some hg
  · exact List.mem_of_find?_eq_some h

def keyAfter (uni : Unicode) (dom : Domain) (entries : List (Text × Option ℤ)) : ℤ :=
  ((entries.filter fun e => FeedsKey uni dom e.1).filterMap Prod.snd).getLastD 0

theorem keyAfter_concat (uni : Unicode) (dom : Domain) (entries : List (Text × Option ℤ))
    (name : Text) (z : Option ℤ) :
    keyAfter uni dom (entries ++ [(name, z)]) =
      if FeedsKey uni dom name then z.getD (keyAfter uni dom entries)
      else keyAfter uni dom entries := by
  unfold keyAfter
  rw [List.filter_append]
  split_ifs with hfeeds
  · cases z with
    | none => simp [hfeeds]
    | some z => simp [hfeeds]
  · simp [hfeeds]

theorem zeroRow_key (hdom : dom.Keyed) : zeroRow dom.fields dom.key = some (.int 0) := by
  have hfind : ∃ f, dom.fields.find? (fun f => f.tag = dom.key) = some f := by
    apply Option.isSome_iff_exists.mp
    rw [List.find?_isSome]
    simpa using hdom.2
  obtain ⟨f, hf⟩ := hfind
  have hint := hdom.1 f (List.mem_of_find?_eq_some hf) (by simpa using List.find?_some hf)
  unfold zeroRow
  rw [hf, Option.map_some, hint]
  rfl

theorem literalStore_int32 {j : Json} {v : GoValue} (h : literalStore .int32 j = some v) :
    ∃ z, j = .int z ∧ v = .int z := by
  cases j with
  | int z =>
    refine ⟨z, rfl, ?_⟩
    simp only [literalStore, GoType.range] at h
    split_ifs at h
    cases h
    rfl
  | float x => cases x <;> cases h
  | null => cases h
  | bool b => cases h
  | str s => cases h

theorem decodeEntry_key (hdom : dom.Keyed) {row row' : GoRow} {entry : Text × Json} {k : ℤ}
    (hrow : row dom.key = some (.int k))
    (h : decodeEntry uni dom.fields row entry = some row') :
    row' dom.key = some (.int (if FeedsKey uni dom entry.1 then entry.2.number.getD k else k)) := by
  unfold decodeEntry at h
  unfold FeedsKey
  cases hf : fieldOf uni dom.fields entry.1 with
  | none =>
    rw [hf] at h
    cases h
    exact hrow
  | some f =>
    rw [hf] at h
    dsimp only at h
    split_ifs at h with hnull
    · cases h
      rw [hnull]
      simpa [Json.number] using hrow
    · obtain ⟨v, hv, rfl⟩ := Option.map_eq_some_iff.mp h
      by_cases hkey : f.tag = dom.key
      · rw [hdom.1 f (mem_of_fieldOf hf) hkey] at hv
        obtain ⟨z, hz, rfl⟩ := literalStore_int32 hv
        rw [hz, ← hkey]
        simp [hkey, Json.number]
      · rw [Function.update_of_ne (Ne.symm hkey)]
        simpa [hkey] using hrow

theorem decodeObject_key (hdom : dom.Keyed) {object : Object} {row : GoRow}
    (h : decodeObject uni dom.fields object = some row) :
    row dom.key = some (.int (keyAfter uni dom (object.map (Prod.map id Json.number)))) := by
  induction object using List.reverseRecOn generalizing row with
  | nil =>
    cases h
    exact zeroRow_key hdom
  | append_singleton object entry ih =>
    unfold decodeObject at h ih
    rw [List.foldlM_append] at h
    obtain ⟨before, hbefore, hentry⟩ := Option.bind_eq_some_iff.mp h
    have hlast : decodeEntry uni dom.fields before entry = some row := by
      simpa using hentry
    rw [List.map_append, List.map_singleton]
    have hconcat := keyAfter_concat uni dom (object.map (Prod.map id Json.number)) entry.1
      entry.2.number
    rw [decodeEntry_key hdom (ih hbefore) hlast]
    exact congrArg (fun z => some (GoValue.int z)) hconcat.symm

theorem keyOf_eq (hdom : dom.Keyed) {object : Object} {row : GoRow}
    (hwritten : WrittenFor py df sel i object) (h : decodeObject uni dom.fields object = some row) :
    dom.keyOf row = keyNumber py uni dom df sel i := by
  have hkey := decodeObject_key hdom h
  rw [hwritten.numbers] at hkey
  unfold Domain.keyOf
  rw [hkey]
  rfl

/-! ## Blank rows -/

theorem numberOf_of_empty {v : Value} (hv : v.isEmpty = true ∨ ∃ cells, v = .series cells) :
    (numberOf py type v).getD 0 = 0 := by
  have hint : ¬ v.isEmpty = true → (py.int v).toOption.getD 0 = 0 := by
    intro hne
    obtain ⟨cells, rfl⟩ := hv.resolve_left hne
    rfl
  have htime : ¬ v.isEmpty = true → (Excel2json.parseTimeToUnix py v).toOption.getD 0 = 0 := by
    intro hne
    obtain ⟨cells, rfl⟩ := hv.resolve_left hne
    simp [Excel2json.parseTimeToUnix, Python.strValue, py.strptime_series, Except.toOption]
  have hnumber : v.number = none := by
    rcases hv with hv | ⟨cells, rfl⟩
    · cases v with
      | series cells => rfl
      | cell c => cases c <;> first | rfl | cases hv
    · rfl
  unfold numberOf
  split_ifs with hs hi hempty hf hb ht hempty
  · rfl
  · rfl
  · exact hint hempty
  · rfl
  · rfl
  · rfl
  · exact htime hempty
  · rw [hnumber]
    rfl

theorem rowValue_blank (haligned : Aligned py df sel.indices sel.names sel.types)
    (hblank : Blank df i) (name : Text) :
    (Excel2json.rowValue df sel i name).isEmpty = true ∨
      ∃ cells, Excel2json.rowValue df sel i name = .series cells := by
  unfold Excel2json.rowValue
  split
  · next c hc =>
    have hmem : c ∈ (sel.names.zip sel.indices).filter fun c => c.1 = name := by
      rw [hc]
      exact List.mem_singleton_self c
    have hcol := (List.of_mem_zip (List.mem_filter.mp hmem).1).2
    exact .inl (hblank c.2 (haligned.lt_width c.2 hcol))
  · exact .inr ⟨_, rfl⟩

theorem keyAfter_eq_zero {entries : List (Text × Option ℤ)}
    (h : ∀ e ∈ entries, e.2.getD 0 = 0) : keyAfter uni dom entries = 0 := by
  induction entries using List.reverseRecOn with
  | nil => rfl
  | append_singleton entries e ih =>
    have hbefore : keyAfter uni dom entries = 0 :=
      ih fun e he => h e (List.mem_append_left _ he)
    have hlast : e.2.getD 0 = 0 := h e (by simp)
    rw [← Prod.mk.eta (p := e), keyAfter_concat, hbefore]
    split_ifs
    · exact hlast
    · rfl

theorem keyNumber_blank (haligned : Aligned py df sel.indices sel.names sel.types)
    (hblank : Blank df i) : keyNumber py uni dom df sel i = 0 := by
  apply keyAfter_eq_zero
  intro e he
  obtain ⟨c, -, rfl⟩ := List.mem_map.mp (Dictionary.mem_of_mem_ofPairs he)
  exact numberOf_of_empty (rowValue_blank haligned hblank c.1)

/-! ## Tables -/

theorem mem_dataRows : i ∈ Excel2json.dataRows df ↔ 4 ≤ i ∧ i < df.height := by
  unfold Excel2json.dataRows
  rw [List.mem_range'_1]
  omega

theorem rows_of_load {file : List Object} {rows : List GoRow} (hdom : dom.Keyed)
    (hfile : List.Forall₂ (WrittenFor py df sel) (Excel2json.dataRows df) file)
    (hrows : decodeFile uni dom.fields file = some rows) :
    (∀ i ∈ Excel2json.dataRows df, ∃ row, rows[i - 4]? = some row ∧
      dom.keyOf row = keyNumber py uni dom df sel i) ∧
      ∀ n row, rows[n]? = some row → n + 4 ∈ Excel2json.dataRows df := by
  have hdecoded : file.mapM (decodeObject uni dom.fields) = some rows := by
    unfold decodeFile at hrows
    split_ifs at hrows
    exact hrows
  have hall := forall₂_trans hfile (mapM_eq_some.mp hdecoded)
  have hlength : rows.length = df.height - 4 := by
    rw [← hall.length_eq]
    exact List.length_range'
  constructor
  · intro i hi
    obtain ⟨hlow, hhigh⟩ := mem_dataRows.mp hi
    have hn : i - 4 < rows.length := by omega
    refine ⟨rows[i - 4], List.getElem?_eq_getElem hn, ?_⟩
    have hget := (List.forall₂_iff_get.mp hall).2 (i - 4) (by rw [hall.length_eq]; exact hn) hn
    obtain ⟨object, hwritten, hobject⟩ := hget
    have hrow : (Excel2json.dataRows df).get ⟨i - 4, by rw [hall.length_eq]; exact hn⟩ = i := by
      simp [Excel2json.dataRows]
      omega
    rw [hrow] at hwritten
    exact keyOf_eq hdom hwritten hobject
  · intro n row hn
    have hlt := (List.getElem?_eq_some_iff.mp hn).1
    rw [mem_dataRows]
    omega

structure HoldsLast (py : Python) (uni : Unicode) (dom : Domain) (df : Sheet)
    (sel : Excel2json.Selection) (table : Design ℤ (GoRow × ℕ)) : Prop where
  last : ∀ i ∈ Excel2json.dataRows df, ∀ k, (∃ row, table.lookup k = some (row, i - 4)) ↔
    keyNumber py uni dom df sel i = k ∧
      ∀ j ∈ Excel2json.dataRows df, i < j → keyNumber py uni dom df sel j ≠ k
  index : ∀ k row n, table.lookup k = some (row, n) → n + 4 ∈ Excel2json.dataRows df
  later : ∀ i ∈ Excel2json.dataRows df, ∃ row n, i ≤ n + 4 ∧
    table.lookup (keyNumber py uni dom df sel i) = some (row, n)

theorem holdsLast_of_load (hdom : dom.Keyed) {file : List Object}
    (hfile : List.Forall₂ (WrittenFor py df sel) (Excel2json.dataRows df) file)
    {table : Design ℤ (GoRow × ℕ)} (htable : dom.load uni file = some table) :
    HoldsLast py uni dom df sel table := by
  obtain ⟨rows, hrows, rfl⟩ := Option.map_eq_some_iff.mp htable
  obtain ⟨hrow, hindex⟩ := rows_of_load hdom hfile hrows
  constructor
  · intro i hi k
    obtain ⟨row, hi', hkey⟩ := hrow i hi
    simp only [lookup_fillTable]
    constructor
    · rintro ⟨row', hrow', hk, hlast⟩
      rw [hi'] at hrow'
      cases hrow'
      refine ⟨hkey.symm.trans hk, fun j hj hij => ?_⟩
      obtain ⟨w, hw, hwkey⟩ := hrow j hj
      have hlow := (mem_dataRows.mp hi).1
      rw [← hwkey]
      exact hlast (j - 4) w (by omega) hw
    · rintro ⟨hk, hlast⟩
      refine ⟨row, hi', hkey.trans hk, fun n w hn hw => ?_⟩
      have hmem := hindex n w hw
      obtain ⟨w', hw', hwkey⟩ := hrow (n + 4) hmem
      rw [Nat.add_sub_cancel, hw] at hw'
      cases hw'
      rw [hwkey]
      exact hlast (n + 4) hmem (by omega)
  · intro k row n h
    exact hindex n row (lookup_fillTable.mp h).1
  · intro i hi
    obtain ⟨row, hi', hkey⟩ := hrow i hi
    obtain ⟨w, n, hn, hlookup⟩ := exists_lookup_fillTable dom.keyOf hi'
    rw [hkey] at hlookup
    exact ⟨w, n, by omega, hlookup⟩

theorem wellKeyed_of_faithful {table : Design ℤ (GoRow × ℕ)}
    (haligned : Aligned py df sel.indices sel.names sel.types)
    (htable : HoldsLast py uni dom df sel table) (h : Faithful py df table) :
    WellKeyed py uni dom df sel := by
  constructor
  · intro i hi hblank
    obtain ⟨k, row, hk, hlookup⟩ := h.found i hi hblank
    have hkey := ((htable.last i hi k).mp ⟨row, hlookup⟩).1
    rw [hk, hkey]
  · intro i hi j hj hblank hblank' heq
    obtain ⟨k, row, hk, hlookup⟩ := h.found i hi hblank
    obtain ⟨k', row', hk', hlookup'⟩ := h.found j hj hblank'
    have hsame : k' = k := Option.some_inj.mp (hk'.symm.trans (heq.symm.trans hk))
    rw [hsame, hlookup] at hlookup'
    have hindex : i - 4 = j - 4 := (Prod.mk.inj (Option.some_inj.mp hlookup')).2
    have hlow := (mem_dataRows.mp hi).1
    have hlow' := (mem_dataRows.mp hj).1
    omega
  · intro i hi hblank
    obtain ⟨row, n, hn, hlookup⟩ := htable.later i hi
    rw [keyNumber_blank haligned hblank] at hlookup
    obtain ⟨j, hj, hblank', hpk, hindex⟩ := h.only 0 row n hlookup
    have hlow := (mem_dataRows.mp hj).1
    have hne : i ≠ j := by
      intro heq
      rw [heq] at hblank
      exact hblank' hblank
    exact ⟨j, hj, by omega, hblank', hpk⟩

theorem faithful_of_wellKeyed {table : Design ℤ (GoRow × ℕ)}
    (haligned : Aligned py df sel.indices sel.names sel.types)
    (htable : HoldsLast py uni dom df sel table) (h : WellKeyed py uni dom df sel) :
    Faithful py df table := by
  constructor
  · intro i hi hblank
    have hpk := h.read i hi hblank
    have hlast : ∀ j ∈ Excel2json.dataRows df, i < j →
        keyNumber py uni dom df sel j ≠ keyNumber py uni dom df sel i := by
      intro j hj hij heq
      by_cases hblank' : Blank df j
      · obtain ⟨k, hk, hjk, hk', hzero⟩ := h.blank j hj hblank'
        rw [keyNumber_blank haligned hblank'] at heq
        rw [← heq] at hpk
        have := h.distinct i hi k hk hblank hk' (hpk.trans hzero.symm)
        omega
      · have hpk' := h.read j hj hblank'
        rw [heq] at hpk'
        have := h.distinct i hi j hj hblank hblank' (hpk.trans hpk'.symm)
        omega
    obtain ⟨row, hlookup⟩ := (htable.last i hi _).mpr ⟨rfl, hlast⟩
    exact ⟨_, row, hpk, hlookup⟩
  · intro k row n hlookup
    have hi := htable.index k row n hlookup
    have hrow : ∃ row, table.lookup k = some (row, n + 4 - 4) := ⟨row, hlookup⟩
    obtain ⟨hkey, hlast⟩ := (htable.last (n + 4) hi k).mp hrow
    by_cases hblank : Blank df (n + 4)
    · obtain ⟨j, hj, hij, hblank', hzero⟩ := h.blank (n + 4) hi hblank
      have hpk := h.read j hj hblank'
      rw [hzero, Option.some_inj] at hpk
      rw [keyNumber_blank haligned hblank] at hkey
      exact absurd (hpk.symm.trans hkey) (hlast j hj hij)
    · have hpk := h.read (n + 4) hi hblank
      rw [hkey] at hpk
      exact ⟨n + 4, hi, hblank, hpk, rfl⟩

end

/-- The table loaded from the file of a sheet has the rows of the sheet, each once under its
value, if and only if the sheet is well keyed. -/
theorem faithful_iff {dom : Domain} (hdom : dom ∈ domains) {df : Sheet}
    {sel : Excel2json.Selection} (hsel : Excel2json.selectColumns py df .server = .ok sel)
    {file : List Object} (hfile : Excel2json.convert py df .server = some file)
    {table : Design ℤ (GoRow × ℕ)} (htable : dom.load uni file = some table) :
    Faithful py df table ↔ WellKeyed py uni dom df sel := by
  obtain ⟨sel', hsel', hwritten⟩ := convert_eq_some hfile
  rw [hsel] at hsel'
  cases hsel'
  have haligned := selectColumns_aligned hsel
  have hlast := holdsLast_of_load (domains_keyed dom hdom) hwritten htable
  exact ⟨wellKeyed_of_faithful haligned hlast, faithful_of_wellKeyed haligned hlast⟩

/-! ## Sheets of a few items -/

def itemSheet (rows : List (List Cell)) : Sheet := sheetOf (itemHeader ++ rows)

def itemSelection : Excel2json.Selection :=
  ⟨[0, 1], ["IDX".toList, "ITEM_ID".toList], ["INT".toList, "INT".toList], "ITEM_ID".toList⟩

def twoItems : Sheet := itemSheet [[.int 1, .int 7], [.int 2, .int 8]]

def loaded (dom : Domain) (df : Sheet) : List Object × Design ℤ (GoRow × ℕ) :=
  let file := (Excel2json.convert plainPython df .server).getD []
  (file, (dom.load asciiUnicode file).getD ∅)

theorem loaded_eq (dom : Domain) (df : Sheet)
    (hfile : (Excel2json.convert plainPython df .server).isSome = true)
    (htable : (dom.load asciiUnicode (loaded dom df).1).isSome = true) :
    Excel2json.convert plainPython df .server = some (loaded dom df).1 ∧
      dom.load asciiUnicode (loaded dom df).1 = some (loaded dom df).2 := by
  obtain ⟨file, hfile'⟩ := Option.isSome_iff_exists.mp hfile
  obtain ⟨table, htable'⟩ := Option.isSome_iff_exists.mp htable
  constructor
  · simp [loaded, hfile']
  · unfold loaded at htable' ⊢
    dsimp only at htable' ⊢
    rw [htable', Option.getD_some]

theorem faithful_twoItems : Faithful plainPython twoItems (loaded itemDomain twoItems).2 := by
  obtain ⟨hfile, htable⟩ := loaded_eq itemDomain twoItems (by decide +kernel)
    (by decide +kernel)
  have hsel : Excel2json.selectColumns plainPython twoItems .server = .ok itemSelection := rfl
  refine (faithful_iff (by simp [domains]) hsel hfile htable).mpr ?_
  constructor
  · unfold Blank
    decide +kernel
  · unfold Blank
    decide +kernel
  · unfold Blank
    decide +kernel

def Misloaded (dom : Domain) (df : Sheet) : Prop :=
  ∃ file table, Excel2json.convert plainPython df .server = some file ∧
    dom.load asciiUnicode file = some table ∧ ¬ Faithful plainPython df table

theorem misloaded {dom : Domain} {df : Sheet} (hdom : dom ∈ domains)
    {sel : Excel2json.Selection} (hsel : Excel2json.selectColumns plainPython df .server = .ok sel)
    (hfile : (Excel2json.convert plainPython df .server).isSome = true)
    (htable : (dom.load asciiUnicode (loaded dom df).1).isSome = true)
    (h : ¬ WellKeyed plainPython asciiUnicode dom df sel) : Misloaded dom df := by
  obtain ⟨hfile, htable⟩ := loaded_eq dom df hfile htable
  refine ⟨_, _, hfile, htable, fun hfaithful => h ?_⟩
  obtain ⟨sel', hsel', hwritten⟩ := convert_eq_some hfile
  rw [hsel] at hsel'
  cases hsel'
  exact wellKeyed_of_faithful (selectColumns_aligned hsel)
    (holdsLast_of_load (domains_keyed dom hdom) hwritten htable) hfaithful

def sameItem : Sheet := itemSheet [[.int 1, .int 7], [.int 2, .int 7]]

theorem misloaded_sameItem : Misloaded itemDomain sameItem := by
  have hsel : Excel2json.selectColumns plainPython sameItem .server = .ok itemSelection := rfl
  refine misloaded (by simp [domains]) hsel (by decide +kernel) (by decide +kernel) fun h => ?_
  have hsame := h.distinct 4 (by decide) 5 (by decide) (by unfold Blank; decide)
    (by unfold Blank; decide) rfl
  omega

def blankItem : Sheet := itemSheet [[.int 1, .int 7], [], [.int 2, .int 8]]

theorem misloaded_blankItem : Misloaded itemDomain blankItem := by
  have hsel : Excel2json.selectColumns plainPython blankItem .server = .ok itemSelection := rfl
  refine misloaded (by simp [domains]) hsel (by decide +kernel) (by decide +kernel) fun h => ?_
  have hzero := h.blank 5 (by decide) (by unfold Blank; decide)
  revert hzero
  unfold Blank
  decide +kernel

/-- A currency, for which the column marked as key is not the one it is stored by. -/
def currencySheet : Sheet := sheetOf
  [[], [text "SERVER", text "SERVER"], [text "INT(PK)", text "INT"], [text "IDX", text "ITEM_ID"],
    [.int 1, .int 7]]

theorem misloaded_currencySheet : Misloaded currencyDomain currencySheet := by
  have hsel : Excel2json.selectColumns plainPython currencySheet .server =
      .ok { itemSelection with pk := "IDX".toList } := rfl
  refine misloaded (by simp [domains]) hsel (by decide +kernel) (by decide +kernel) fun h => ?_
  have hread := h.read 4 (by decide) (by unfold Blank; decide)
  revert hread
  decide +kernel

/-- Of two rows with one value the first is lost, a blank row becomes an entry, and a currency
is not found under the value of its key. -/
theorem rows_not_kept : Misloaded itemDomain sameItem ∧ Misloaded itemDomain blankItem ∧
    Misloaded currencyDomain currencySheet :=
  ⟨misloaded_sameItem, misloaded_blankItem, misloaded_currencySheet⟩

end FutureWas
