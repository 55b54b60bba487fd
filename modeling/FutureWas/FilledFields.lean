import FutureWas.FieldNames

/-!
# Generated fields that are filled

`encoding/json` knows an exported field by its tag, the name of the column, if that is readable,
and otherwise by the field's own name. A generated struct compiles and all of its fields are filled
exactly when the field names are exported and distinct, no white space but blanks stands in a
column's name, and the columns with other unreadable names are reached by the case folding of
their field names: `fieldsUsable_iff`.
-/

set_option autoImplicit false

namespace FutureWas

open Collections Excel2struct

/-! ## Names in JSON -/

def isReadable (uni : Unicode) (name : Text) : Bool :=
  name.all fun c => c = ' ' || c = '_' || c = '-' || uni.isLetter c || uni.isDigit c

/-- What a column's field is known by in JSON: the name of the column, or else the field's. -/
def knownAs (py : Python) (uni : Unicode) (name : Text) : Text :=
  if isReadable uni name then name else (spelled py name).flatMap py.capitalize

def known (py : Python) (uni : Unicode) (f : GoField) : JsonField :=
  ⟨knownAs py uni f.tag, isReadable uni f.tag, f⟩

theorem not_mem_tagMarks {c : Char} (h : 128 ≤ c.toNat) : tagMarks.contains c = false := by
  have hmarks : tagMarks.all (fun c => c.toNat < 128) = true := by decide
  rw [← Bool.not_eq_true, List.contains_iff_mem]
  intro hmem
  have hascii := List.all_eq_true.mp hmarks c hmem
  rw [decide_eq_true_eq] at hascii
  omega

theorem toNat_lt_of_isAlphanum {c : Char} (h : c.isAlphanum = true) : c.toNat < 128 := by
  unfold Char.isAlphanum at h
  rw [Bool.or_eq_true, isAlpha_iff, isDigit_iff] at h
  omega

section

variable {py : Python} {uni : Unicode} (conv : Conventions py uni) {quoted : Text → Option Text}

theorem eq_space_of_mem_tagMarks {c : Char} (hc : c ∈ tagMarks) (h : isSpace c = true) :
    c = ' ' := by
  have hall : tagMarks.all (fun c => !isSpace c || c = ' ') = true := by decide
  have hmark := List.all_eq_true.mp hall c hc
  rwa [h, Bool.not_true, Bool.false_or, decide_eq_true_eq] at hmark

include conv

theorem not_space_of_inName {c : Char} (h : inName uni c = true) : isSpace c = false := by
  rw [← Bool.not_eq_true]
  intro hspace
  obtain ⟨hletter, hdigit⟩ := conv.not_space c hspace
  unfold inName at h
  rw [hletter, hdigit, Bool.or_false, Bool.or_false, decide_eq_true_eq] at h
  rw [h] at hspace
  revert hspace
  decide

theorem inName_of_isExported {name : Text} (h : isExported uni name = true) :
    ∀ c ∈ name, inName uni c = true := by
  intro c hc
  cases name with
  | nil => cases h
  | cons d ds =>
    unfold isExported at h
    rw [Bool.and_eq_true] at h
    rcases List.mem_cons.mp hc with rfl | hc
    · exact inName_of_isUpper conv h.1
    · exact List.all_eq_true.mp h.2 c hc

theorem eq_space_of_isExported {name : Text} (h : isExported uni name = true) :
    ∀ c ∈ name, isSpace c = true → c = ' ' := by
  intro c hc hspace
  rw [not_space_of_inName conv (inName_of_isExported conv h c hc)] at hspace
  cases hspace

theorem eq_space_of_isValidTag {tag : Text} (h : isValidTag uni tag = true) :
    ∀ c ∈ tag, isSpace c = true → c = ' ' := by
  intro c hc hspace
  obtain ⟨hletter, hdigit⟩ := conv.not_space c hspace
  unfold isValidTag at h
  rw [Bool.and_eq_true, List.all_eq_true] at h
  have hmark := h.2 c hc
  rw [hletter, hdigit, Bool.or_false, Bool.or_false, List.contains_iff_mem] at hmark
  exact eq_space_of_mem_tagMarks hmark hspace

theorem eq_space_of_mem_jsonFields {fields : GoStruct} {v : JsonField}
    (hv : v ∈ jsonFields uni quoted fields) : ∀ c ∈ v.name, isSpace c = true → c = ' ' := by
  obtain ⟨f, -, hf⟩ := List.mem_filterMap.mp (List.mem_of_mem_filter hv)
  unfold jsonField at hf
  split_ifs at hf with hexported
  have hname : isExported uni f.name = true := by simpa using hexported
  split at hf
  · cases hf
    exact eq_space_of_isExported conv hname
  · dsimp only at hf
    split_ifs at hf with hdash hvalid
    · cases hf
      exact eq_space_of_isValidTag conv hvalid
    · cases hf
      exact eq_space_of_isExported conv hname

theorem eq_space_of_jsonFieldOf {fields : GoStruct} {key : Text} {f : GoField}
    (h : jsonFieldOf uni quoted fields key = some f) : ∀ c ∈ key, isSpace c = true → c = ' ' := by
  intro c hc hspace
  unfold jsonFieldOf at h
  split at h
  · rename_i v hfind
    have hname : v.name = key := by simpa using List.find?_some hfind
    rw [← hname] at hc
    exact eq_space_of_mem_jsonFields conv (List.mem_of_find?_eq_some hfind) c hc hspace
  · obtain ⟨v, hfind, -⟩ := Option.map_eq_some_iff.mp h
    have hfold : uni.foldName v.name = uni.foldName key := by simpa using List.find?_some hfind
    rw [← conv.fold_space key c hspace, ← hfold, conv.fold_space v.name c hspace] at hc
    exact eq_space_of_mem_jsonFields conv (List.mem_of_find?_eq_some hfind) c hc hspace

theorem WellNamed.mem {name : Text} (h : WellNamed py uni name) {c : Char} (hc : c ∈ name) :
    (c = ' ' ∨ c = '_' ∨ c = '-') ∨ 128 ≤ c.toNat ∨ c.isAlphanum = true := by
  by_cases hsep : isSeparator c = true
  · unfold isSeparator at hsep
    simp only [Bool.or_eq_true, decide_eq_true_eq] at hsep
    rcases hsep with (hsep | hsep) | hsep
    · exact Or.inl (Or.inr (Or.inl hsep))
    · exact Or.inl (Or.inr (Or.inr hsep))
    · exact Or.inl (Or.inl (h.spaces c hc hsep))
  · right
    by_contra hother
    rw [not_or, Nat.not_le, Bool.not_eq_true] at hother
    obtain ⟨hascii, hother⟩ := hother
    obtain ⟨w, hw, hcw⟩ := mem_words.mpr ⟨hc, by simpa using hsep⟩
    have hin := h.chars w hw c (conv.capitalize_keeps w c hcw hascii hother)
    unfold Char.isAlphanum at hother
    rw [Bool.or_eq_false_iff] at hother
    unfold inName at hin
    rw [conv.letter_ascii c hascii, conv.digit_ascii c hascii, hother.1, hother.2, Bool.or_false,
      Bool.or_false, decide_eq_true_eq] at hin
    rw [hin] at hsep
    exact hsep (by decide)

theorem WellNamed.notMem {name : Text} (h : WellNamed py uni name) {c : Char}
    (hascii : c.toNat < 128) (hc : c.isAlphanum = false ∧ c ≠ ' ' ∧ c ≠ '_' ∧ c ≠ '-') :
    c ∉ name := by
  intro hmem
  obtain ⟨hother, hblank, hlow, hdash⟩ := hc
  rcases h.mem conv hmem with (h | h | h) | h | h
  · exact hblank h
  · exact hlow h
  · exact hdash h
  · omega
  · rw [hother] at h
    cases h

theorem WellNamed.tagValue {name : Text} (h : WellNamed py uni name) :
    tagValue quoted name = some name := by
  have hreturn : name.filter (fun c => c ≠ '\r') = name := by
    refine List.filter_eq_self.mpr ?_
    intro c hc
    rw [decide_eq_true_eq]
    rintro rfl
    exact h.notMem conv (by decide) (by decide) hc
  have hquotes : ¬name.any tagQuotes.contains = true := by
    rw [List.any_eq_true]
    rintro ⟨c, hc, hquote⟩
    have hall : tagQuotes.all (fun c => c.toNat < 128 ∧
        (c.isAlphanum = false ∧ c ≠ ' ' ∧ c ≠ '_' ∧ c ≠ '-')) = true := by decide
    have hother := List.all_eq_true.mp hall c (List.contains_iff_mem.mp hquote)
    rw [decide_eq_true_eq] at hother
    exact h.notMem conv hother.1 hother.2 hc
  have hline : ¬name.contains '\n' = true := by
    rw [List.contains_iff_mem]
    exact h.notMem conv (by decide) (by decide)
  unfold FutureWas.tagValue
  dsimp only
  rw [hreturn, if_neg hquotes, if_neg hline]

theorem WellNamed.isValidTag {name : Text} (h : WellNamed py uni name) :
    isValidTag uni name = isReadable uni name := by
  obtain ⟨c, cs, ws, hwords, -⟩ := h.start
  have hne : name ≠ [] := by
    rintro rfl
    cases hwords
  have hmark : ∀ d ∈ name, (tagMarks.contains d || uni.isLetter d || uni.isDigit d) =
      (d = ' ' || d = '_' || d = '-' || uni.isLetter d || uni.isDigit d) := by
    intro d hd
    rcases h.mem conv hd with (rfl | rfl | rfl) | hwide | halnum
    · rfl
    · rfl
    · rfl
    · have hplain : (d = ' ' || d = '_' || d = '-') = false := by
        simp only [Bool.or_eq_false_iff, decide_eq_false_iff_not]
        refine ⟨⟨?_, ?_⟩, ?_⟩
        all_goals
          rintro rfl
          revert hwide
          decide
      rw [not_mem_tagMarks hwide, hplain]
    · have hletter : (uni.isLetter d || uni.isDigit d) = true := by
        have hascii := toNat_lt_of_isAlphanum halnum
        rw [conv.letter_ascii d hascii, conv.digit_ascii d hascii]
        exact halnum
      rw [Bool.or_assoc, Bool.or_assoc, hletter, Bool.or_true, Bool.or_true]
  unfold FutureWas.isValidTag isReadable
  rw [decide_eq_true hne, Bool.true_and, Bool.eq_iff_iff, List.all_eq_true, List.all_eq_true]
  exact forall₂_congr fun d hd => by rw [hmark d hd]

theorem WellNamed.jsonField {f : GoField} (h : WellNamed py uni f.tag)
    (hname : f.name = toGoFieldName py f.tag) : jsonField uni quoted f = some (known py uni f) := by
  have hexported : isExported uni f.name = true := by
    rw [hname]
    exact (isExported_iff conv f.tag).mpr ⟨h.start, h.chars⟩
  have hdash : f.tag ≠ ['-'] := by
    intro heq
    obtain ⟨c, cs, ws, hwords, -⟩ := h.start
    rw [heq] at hwords
    revert hwords
    simp [words, List.splitOnP_cons_eq_if_modifyHead, isSeparator]
  have hcut : f.tag.takeWhile (fun c => c ≠ ',') = f.tag := by
    refine List.takeWhile_eq_self_iff.mpr ?_
    intro c hc
    rw [decide_eq_true_eq]
    rintro rfl
    exact h.notMem conv (by decide) (by decide) hc
  unfold FutureWas.jsonField known knownAs
  rw [if_neg (by simp [hexported]), h.tagValue conv]
  dsimp only
  rw [if_neg hdash, hcut, h.isValidTag conv, hname, toGoFieldName_eq conv]
  cases isReadable uni f.tag with
  | false => rfl
  | true => rfl

end

/-! ## Structs of well named columns -/

def WellTagged (py : Python) (uni : Unicode) (fields : GoStruct) : Prop :=
  (fields.map GoField.tag).Nodup ∧
    ∀ f ∈ fields, f.name = toGoFieldName py f.tag ∧ WellNamed py uni f.tag

def Sole (py : Python) (uni : Unicode) (fields : GoStruct) (f : GoField) : Prop :=
  ∀ g ∈ fields, knownAs py uni g.tag = knownAs py uni f.tag → g = f

/-- A name that `encoding/json` does not read in a tag still leads to its field if the field's name
is the same up to case, no other field is known by that name and none that comes first is the
same up to case. -/
structure Reached (py : Python) (uni : Unicode) (names : List Text) (name : Text) : Prop where
  sole : ∀ a ∈ names, knownAs py uni a = knownAs py uni name → a = name
  first : names.find? (fun a => uni.foldName (knownAs py uni a) = uni.foldName name) = some name

section

variable {py : Python} {uni : Unicode} {quoted : Text → Option Text} {fields : GoStruct}
  {f : GoField}

theorem knownAs_of_readable {name : Text} (h : isReadable uni name = true) :
    knownAs py uni name = name :=
  if_pos h

theorem countP_eq_one_iff {α : Type} {p : α → Bool} {l : List α} (hl : l.Nodup) {a : α}
    (ha : a ∈ l) (hp : p a = true) : l.countP p = 1 ↔ ∀ b ∈ l, p b = true → b = a := by
  rw [List.countP_eq_length_filter, List.length_eq_one_iff]
  constructor
  · rintro ⟨x, hx⟩ b hb hpb
    have hmem : ∀ c ∈ l.filter p, c = x := by
      rw [hx]
      exact fun c hc => List.mem_singleton.mp hc
    rw [hmem b (List.mem_filter.mpr ⟨hb, hpb⟩), hmem a (List.mem_filter.mpr ⟨ha, hp⟩)]
  · intro h
    refine ⟨a, List.perm_singleton.mp ?_⟩
    refine (List.perm_ext_iff_of_nodup (hl.filter p) (List.nodup_singleton a)).mpr fun b => ?_
    rw [List.mem_filter, List.mem_singleton]
    refine ⟨fun hb => h b hb.1 hb.2, ?_⟩
    rintro rfl
    exact ⟨ha, hp⟩

theorem dominant_iff (htags : (fields.map GoField.tag).Nodup) (hf : f ∈ fields) :
    dominant (fields.map (known py uni)) (known py uni f) = true ↔
      isReadable uni f.tag = true ∨ Sole py uni fields f := by
  have hcount := countP_eq_one_iff (p := fun g => knownAs py uni g.tag = knownAs py uni f.tag &&
    (isReadable uni g.tag || !isReadable uni f.tag)) htags.of_map hf (by simp)
  have hdominant : dominant (fields.map (known py uni)) (known py uni f) = true ↔
      fields.countP (fun g => knownAs py uni g.tag = knownAs py uni f.tag &&
        (isReadable uni g.tag || !isReadable uni f.tag)) = 1 := by
    unfold dominant
    rw [decide_eq_true_eq, ← List.countP_eq_length_filter, List.countP_map]
    rfl
  rw [hdominant, hcount]
  cases hread : isReadable uni f.tag with
  | true =>
    refine iff_of_true (fun g hg hp => ?_) (Or.inl rfl)
    simp only [Bool.not_true, Bool.or_false, Bool.and_eq_true, decide_eq_true_eq] at hp
    rw [knownAs_of_readable hread, knownAs_of_readable hp.2] at hp
    exact List.inj_on_of_nodup_map htags hg hf hp.1
  | false =>
    rw [or_iff_right Bool.false_ne_true]
    refine forall₂_congr fun g _ => ?_
    rw [Bool.not_false, Bool.or_true, Bool.and_true, decide_eq_true_eq]

theorem sole_iff (htags : (fields.map GoField.tag).Nodup) (hf : f ∈ fields) :
    Sole py uni fields f ↔ ∀ a ∈ fields.map GoField.tag,
      knownAs py uni a = knownAs py uni f.tag → a = f.tag := by
  rw [List.forall_mem_map]
  refine forall₂_congr fun g hg => ⟨fun h heq => congrArg GoField.tag (h heq), fun h heq => ?_⟩
  exact List.inj_on_of_nodup_map htags hg hf (h heq)

theorem find?_tag_iff (htags : (fields.map GoField.tag).Nodup) (hf : f ∈ fields) (p : Text → Bool) :
    (fields.map GoField.tag).find? p = some f.tag ↔ fields.find? (fun g => p g.tag) = some f := by
  rw [List.find?_map, Option.map_eq_some_iff]
  constructor
  · rintro ⟨g, hg, htag⟩
    have hsame : g = f := List.inj_on_of_nodup_map htags (List.mem_of_find?_eq_some hg) hf htag
    rw [← hsame]
    exact hg
  · exact fun h => ⟨f, h, rfl⟩

theorem jsonFieldOf_readable (h : WellTagged py uni fields)
    (hstand : jsonFields uni quoted fields = fields.map (known py uni))
    (hsole : ∀ g ∈ fields, isReadable uni g.tag = true ∨ Sole py uni fields g) (hf : f ∈ fields)
    (hread : isReadable uni f.tag = true) : jsonFieldOf uni quoted fields f.tag = some f := by
  have hfind : fields.find? (fun g => knownAs py uni g.tag = f.tag) = some f := by
    refine find?_of_unique hf (decide_eq_true (knownAs_of_readable hread)) fun g hg hknown => ?_
    rw [decide_eq_true_eq] at hknown
    rcases hsole g hg with hgread | hgsole
    · rw [knownAs_of_readable hgread] at hknown
      exact List.inj_on_of_nodup_map h.1 hg hf hknown
    · exact (hgsole f hf ((knownAs_of_readable hread).trans hknown.symm)).symm
  have hexact : (jsonFields uni quoted fields).find? (fun v => v.name = f.tag) =
      some (known py uni f) := by
    rw [hstand, List.find?_map]
    exact congrArg (Option.map (known py uni)) hfind
  unfold jsonFieldOf
  rw [hexact]
  rfl

variable (conv : Conventions py uni)

include conv

theorem isReadable_knownAs {name : Text} (h : WellNamed py uni name) :
    isReadable uni (knownAs py uni name) = true := by
  unfold knownAs
  split_ifs with hread
  · exact hread
  · rw [← toGoFieldName_eq conv]
    refine List.all_eq_true.mpr fun c hc => ?_
    have hin := inName_of_isExported conv ((isExported_iff conv name).mpr ⟨h.start, h.chars⟩) c hc
    unfold inName at hin
    simp only [Bool.or_eq_true] at hin ⊢
    rcases hin with (hlow | hletter) | hdigit
    · exact Or.inl (Or.inl (Or.inl (Or.inr hlow)))
    · exact Or.inl (Or.inr hletter)
    · exact Or.inr hdigit

theorem jsonFields_eq (h : WellTagged py uni fields) : jsonFields uni quoted fields =
    (fields.map (known py uni)).filter (dominant (fields.map (known py uni))) := by
  have hall : fields.filterMap (jsonField uni quoted) = fields.map (known py uni) := by
    rw [← List.filterMap_eq_map]
    apply List.filterMap_congr
    intro f hf
    exact (h.2 f hf).2.jsonField conv (h.2 f hf).1
  unfold jsonFields
  rw [hall]

theorem dominant_of_jsonFieldOf (h : WellTagged py uni fields) {key : Text}
    (hlookup : jsonFieldOf uni quoted fields key = some f) :
    dominant (fields.map (known py uni)) (known py uni f) = true := by
  have hfound : ∃ v ∈ jsonFields uni quoted fields, v.field = f := by
    unfold jsonFieldOf at hlookup
    split at hlookup
    · rename_i v hfind
      exact ⟨v, List.mem_of_find?_eq_some hfind, Option.some.inj hlookup⟩
    · obtain ⟨v, hfind, hv⟩ := Option.map_eq_some_iff.mp hlookup
      exact ⟨v, List.mem_of_find?_eq_some hfind, hv⟩
  obtain ⟨v, hv, rfl⟩ := hfound
  rw [jsonFields_eq conv h] at hv
  obtain ⟨hmem, hdominant⟩ := List.mem_filter.mp hv
  obtain ⟨g, -, rfl⟩ := List.mem_map.mp hmem
  exact hdominant

theorem jsonFieldOf_unread (h : WellTagged py uni fields)
    (hstand : jsonFields uni quoted fields = fields.map (known py uni))
    (hread : isReadable uni f.tag = false) : jsonFieldOf uni quoted fields f.tag =
      fields.find? fun g => uni.foldName (knownAs py uni g.tag) = uni.foldName f.tag := by
  have hexact : (jsonFields uni quoted fields).find? (fun v => v.name = f.tag) = none := by
    rw [hstand, List.find?_eq_none]
    intro v hv hname
    obtain ⟨g, hg, rfl⟩ := List.mem_map.mp hv
    have hknown := isReadable_knownAs conv (h.2 g hg).2
    rw [show knownAs py uni g.tag = f.tag from of_decide_eq_true hname, hread] at hknown
    cases hknown
  unfold jsonFieldOf
  rw [hexact, hstand, List.find?_map]
  dsimp only
  rw [Option.map_map]
  exact Option.map_id'

theorem jsonFieldOf_iff (h : WellTagged py uni fields) :
    (∀ f ∈ fields, jsonFieldOf uni quoted fields f.tag = some f) ↔
      ∀ f ∈ fields, isReadable uni f.tag = true ∨
        Reached py uni (fields.map GoField.tag) f.tag := by
  have hstands : (∀ g ∈ fields, isReadable uni g.tag = true ∨ Sole py uni fields g) →
      jsonFields uni quoted fields = fields.map (known py uni) := by
    intro hsole
    rw [jsonFields_eq conv h]
    refine List.filter_eq_self.mpr fun v hv => ?_
    obtain ⟨g, hg, rfl⟩ := List.mem_map.mp hv
    exact (dominant_iff h.1 hg).mpr (hsole g hg)
  constructor
  · intro hall f hf
    have hsole : ∀ g ∈ fields, isReadable uni g.tag = true ∨ Sole py uni fields g := fun g hg =>
      (dominant_iff h.1 hg).mp (dominant_of_jsonFieldOf conv h (hall g hg))
    refine or_iff_not_imp_left.mpr fun hread => ?_
    have hlookup := jsonFieldOf_unread conv h (hstands hsole) (Bool.eq_false_iff.mpr hread)
    rw [hall f hf] at hlookup
    exact ⟨(sole_iff h.1 hf).mp ((hsole f hf).resolve_left hread),
      (find?_tag_iff h.1 hf _).mpr hlookup.symm⟩
  · intro hall f hf
    have hsole : ∀ g ∈ fields, isReadable uni g.tag = true ∨ Sole py uni fields g := fun g hg =>
      (hall g hg).imp_right fun hreached => (sole_iff h.1 hg).mpr hreached.sole
    cases hread : isReadable uni f.tag with
    | true => exact jsonFieldOf_readable h (hstands hsole) hsole hf hread
    | false =>
      rw [jsonFieldOf_unread conv h (hstands hsole) hread]
      have hreached := (hall f hf).resolve_left (by simp [hread])
      exact (find?_tag_iff h.1 hf _).mp hreached.first

end

/-! ## Generated structs -/

/-- The fields have distinct exported names, and a member under the name of a column goes to the
field of the column. -/
def FieldsUsable (py : Python) (uni : Unicode) (quoted : Text → Option Text) (sel : Selection) :
    Prop :=
  (sel.names.map (toGoFieldName py)).Nodup ∧
    (∀ name ∈ sel.names, isExported uni (toGoFieldName py name) = true) ∧
    ∀ f ∈ generated py sel, jsonFieldOf uni quoted (generated py sel) f.tag = some f

section

variable {py : Python} {uni : Unicode} {quoted : Text → Option Text} {df : Sheet}
  {sel : Selection}

theorem length_types (h : selectColumns py df = .ok sel) : sel.types.length = sel.names.length := by
  rw [selectColumns_agree] at h
  cases hsel : Excel2json.selectColumns py df .server with
  | error err =>
    rw [hsel] at h
    cases h
  | ok sel' =>
    rw [hsel] at h
    cases h
    have haligned := selectColumns_aligned hsel
    unfold structSelection
    rw [List.length_map, haligned.length_types, haligned.length_names]

theorem tags_generated (h : selectColumns py df = .ok sel) :
    (generated py sel).map GoField.tag = sel.names := by
  unfold generated renderStruct
  rw [List.map_map]
  exact List.map_fst_zip (length_types h).ge

theorem name_of_mem_generated {f : GoField} (hf : f ∈ generated py sel) :
    f.name = toGoFieldName py f.tag := by
  obtain ⟨c, -, rfl⟩ := List.mem_map.mp hf
  rfl

/-- Names that the tools, Go and `encoding/json` can all do with. -/
structure Named (py : Python) (uni : Unicode) (names : List Text) : Prop where
  well : ∀ name ∈ names, WellNamed py uni name
  apart : ∀ a ∈ names, ∀ b ∈ names, Clash py a b → a = b
  reached : ∀ name ∈ names, isReadable uni name = true ∨ Reached py uni names name

theorem nodup_fieldNames_iff (conv : Conventions py uni) {names : List Text}
    (hdistinct : names.Nodup) : (names.map (toGoFieldName py)).Nodup ↔
      ∀ a ∈ names, ∀ b ∈ names, Clash py a b → a = b := by
  rw [List.nodup_map_iff_inj_on hdistinct]
  simp only [toGoFieldName_eq_iff conv]

theorem wellTagged_generated (htags : (generated py sel).map GoField.tag = sel.names)
    (hdistinct : sel.names.Nodup) (hwell : ∀ name ∈ sel.names, WellNamed py uni name) :
    WellTagged py uni (generated py sel) := by
  refine ⟨htags.symm ▸ hdistinct, fun f hf => ⟨name_of_mem_generated hf, ?_⟩⟩
  exact hwell f.tag (htags ▸ List.mem_map_of_mem hf)

theorem FieldsUsable.named (conv : Conventions py uni)
    (htags : (generated py sel).map GoField.tag = sel.names) (hdistinct : sel.names.Nodup)
    (h : FieldsUsable py uni quoted sel) : Named py uni sel.names := by
  obtain ⟨hnodup, hexported, hlookup⟩ := h
  have hwell : ∀ name ∈ sel.names, WellNamed py uni name := by
    intro name hname
    obtain ⟨hstart, hchars⟩ := (isExported_iff conv name).mp (hexported name hname)
    refine ⟨hstart, hchars, ?_⟩
    obtain ⟨f, hf, rfl⟩ := List.mem_map.mp (htags ▸ hname)
    exact eq_space_of_jsonFieldOf conv (hlookup f hf)
  have htagged := wellTagged_generated htags hdistinct hwell
  refine ⟨hwell, (nodup_fieldNames_iff conv hdistinct).mp hnodup, fun name hname => ?_⟩
  obtain ⟨f, hf, rfl⟩ := List.mem_map.mp (htags ▸ hname)
  have hreached := (jsonFieldOf_iff conv htagged).mp hlookup f hf
  rwa [htags] at hreached

theorem Named.usable (conv : Conventions py uni)
    (htags : (generated py sel).map GoField.tag = sel.names) (hdistinct : sel.names.Nodup)
    (h : Named py uni sel.names) : FieldsUsable py uni quoted sel := by
  have htagged := wellTagged_generated htags hdistinct h.well
  refine ⟨(nodup_fieldNames_iff conv hdistinct).mpr h.apart, fun name hname => ?_, ?_⟩
  · exact (isExported_iff conv name).mpr ⟨(h.well name hname).start, (h.well name hname).chars⟩
  · refine (jsonFieldOf_iff conv htagged).mpr fun f hf => ?_
    rw [htags]
    exact h.reached f.tag (htags ▸ List.mem_map_of_mem hf)

/-- The struct generated for distinct columns is usable exactly when `encoding/json` and Go can do
with the names. -/
theorem fieldsUsable_iff (conv : Conventions py uni) (hsel : selectColumns py df = .ok sel)
    (hdistinct : sel.names.Nodup) : FieldsUsable py uni quoted sel ↔ Named py uni sel.names :=
  ⟨FieldsUsable.named conv (tags_generated hsel) hdistinct,
    Named.usable conv (tags_generated hsel) hdistinct⟩

end

/-! ## Two spellings of one name -/

def statistics : Sheet :=
  sheetOf [[], List.replicate 8 (text "SERVER"),
    [text "INT(PK)", text "UINT64", text "INT8", text "FLOAT", text "STRING", text "BOOL",
      text "TIME", text "NOTE"],
    [text "IDX", text "LB_NUMBER", text "2B", text "VS-OUT", text "FULL NAME", text "USEFLAG",
      text "OPEN_TIME", text "COMMENT"],
    [.int 1, .int 18446744073709551615, .int (-128), .float (.finite .zero), text "A", .bool true,
      .datetime ⟨2026, 5, 20, 9, 0, 0, 0⟩, text "first"],
    [.int 2, .int 7, text "none", .float .nan, .int 30, text "yes", .none, .none]]

def statisticNames : List Text :=
  ["IDX", "LB_NUMBER", "2B", "VS-OUT", "FULL NAME", "USEFLAG", "OPEN_TIME", "COMMENT"].map
    String.toList

def statisticFields : Selection :=
  ⟨statisticNames, [.int32, .uint64, .int8, .float32, .string, .bool, .int64, .string],
    "IDX".toList⟩

theorem named_statistics : Named asciiPython asciiUnicode statisticNames where
  well := by decide +kernel
  apart := by decide +kernel
  reached := by
    have hread : ∀ name ∈ statisticNames, isReadable asciiUnicode name = true := by
      decide +kernel
    exact fun name hname => Or.inl (hread name hname)

theorem fieldsUsable_statistics :
    FieldsUsable asciiPython asciiUnicode (fun _ => none) statisticFields := by
  have hsel : selectColumns asciiPython statistics = .ok statisticFields := rfl
  exact (fieldsUsable_iff conventions_ascii hsel (by decide +kernel)).mpr named_statistics

def spellings : Sheet :=
  sheetOf [[], [text "SERVER", text "SERVER", text "SERVER"],
    [text "INT(PK)", text "INT", text "INT"], [text "IDX", text "VS_OUT", text "VS-OUT"],
    [.int 1, .int 2, .int 3]]

theorem not_fieldsUsable_spellings :
    ∃ sel, selectColumns asciiPython spellings = .ok sel ∧ sel.names.Nodup ∧
      ¬FieldsUsable asciiPython asciiUnicode (fun _ => none) sel := by
  refine ⟨⟨["IDX".toList, "VS_OUT".toList, "VS-OUT".toList], [.int32, .int32, .int32],
    "IDX".toList⟩, rfl, by decide, ?_⟩
  intro h
  have hnames := h.1
  revert hnames
  decide

end FutureWas
