import FutureWas.Model.CardJson
import FutureWas.PotentialOrder

/-!
# Cards and potential maps through JSON

A card comes back from the cache and from its JSON columns up to nil and empty potential maps,
where its two times have a text that says everything. The two shapes of a potential map agree
on every sequence whose positions are ids, and a map comes back from what it is written as.
-/

set_option autoImplicit false

namespace FutureWas

open Collections

/-! ## Numbers -/

theorem uint8_returns (n : UInt8) : uint8.Returns n n :=
  Codec.uint_returns n.toNat_lt (UInt8.ofNat_toNat)

theorem uint16_returns (n : UInt16) : uint16.Returns n n :=
  Codec.uint_returns n.toNat_lt (UInt16.ofNat_toNat)

theorem uint32_returns (n : UInt32) : uint32.Returns n n :=
  Codec.uint_returns n.toNat_lt (UInt32.ofNat_toNat)

theorem uint64_returns (n : UInt64) : uint64.Returns n n :=
  Codec.uint_returns n.toNat_lt (UInt64.ofNat_toNat)

theorem timeCodec_returns (parse : List Char → Option Time) {offset : ℤ} {t : Time}
    (h : Calendar.InRange offset t) : (timeCodec parse offset).Returns t t := by
  obtain ⟨text, hformat, hparse⟩ := Calendar.parseRFC3339_formatRFC3339 h
  refine ⟨.string text, ?_, ?_⟩
  · show (Calendar.formatRFC3339 offset t).map JsonValue.string = some (.string text)
    rw [hformat, Option.map_some]
  · show (Calendar.parseRFC3339 text).or (parse text) = some t
    rw [hparse, Option.some_or]

/-! ## Skills -/

namespace SkillData

variable {fold : List Char → List Char}

theorem codec_returns (s : SkillData) : (codec fold).Returns s s := by
  apply Codec.struct_returns (by decide)
  refine .cons (StructField.omitEmpty_sends (uint32_returns _) rfl rfl) ?_
  refine .cons (StructField.omitEmpty_sends (uint32_returns _) rfl rfl) ?_
  refine .cons (StructField.omitEmpty_sends (uint32_returns _) rfl rfl) ?_
  refine .cons (StructField.omitEmpty_sends (uint32_returns _) rfl rfl) ?_
  exact .nil

theorem listCodec_returns (l : Option (List (Option SkillData))) :
    (listCodec fold).Returns l l := by
  cases l with
  | none => exact Codec.slice_returns_none _
  | some l =>
    apply Codec.slice_returns_some
    intro s _
    cases s with
    | none => exact Codec.pointer_returns_none _
    | some s => exact Codec.pointer_returns_some (codec_returns s) Codec.struct_not_null

end SkillData

/-! ## Potential maps -/

namespace PotentialMap

variable {iterate : List (List Char × UInt32) → List (List Char × UInt32)}

theorem isID_formatUint (id : UInt32) : IsID (formatUint id.toNat) :=
  ⟨Nat.toDigits_ne_nil, isDigit_formatUint _, by
    rw [decimal_formatUint]
    exact id.toNat_lt⟩

theorem decode_number (v : UInt32) :
    uint32.decode (.number (formatUint v.toNat)) 0 = some v := by
  show (parseUint (2 ^ 32) (formatUint v.toNat)).map UInt32.ofNat = some v
  rw [parseUint_formatUint v.toNat_lt, Option.map_some, UInt32.ofNat_toNat]

theorem nodup_members (m : PotentialMap) : (m.members.map Prod.fst).Nodup := by
  unfold members
  rw [List.map_map]
  refine List.Pairwise.map _ ?_ m.sorted
  intro a b hlt heq
  have hsame : a.1.toNat = b.1.toNat := formatUint_injective heq
  have hltNat : a.1.toNat < b.1.toNat := hlt
  omega

theorem unmarshalJSON_members (hiterate : IsIteration iterate) (m : PotentialMap)
    {ms : List (List Char × JsonValue)} (hms : ms.Perm m.members) :
    unmarshalJSON iterate (.object ms) = .ok m := by
  have hmem : ∀ p ∈ ms, ∃ e ∈ m.entries,
      (formatUint e.1.toNat, JsonValue.number (formatUint e.2.toNat)) = p :=
    fun p hp => List.mem_map.mp (hms.mem_iff.mp hp)
  have haccepted : Accepted ms := by
    intro p hp
    obtain ⟨e, -, rfl⟩ := hmem p hp
    refine ⟨isID_formatUint e.1, ?_⟩
    rw [decode_number]
    rfl
  have hnames : (ms.map Prod.fst).Nodup :=
    (hms.map Prod.fst).nodup_iff.mpr m.nodup_members
  obtain ⟨m', hread, hentries⟩ := unmarshalJSON_of_accepted hiterate hnames haccepted
  have hassignments : (raw m.members).map assignment = m.entries := by
    unfold raw members
    rw [List.map_map, List.map_map]
    refine (List.map_congr_left ?_).trans (List.map_id _)
    intro e _
    show (UInt32.ofNat (decimal (formatUint e.1.toNat)),
      (uint32.decode (.number (formatUint e.2.toNat)) 0).getD 0) = e
    rw [decimal_formatUint, UInt32.ofNat_toNat, decode_number, Option.getD_some]
  have hsorted : Entries.Sorted UInt32.toNat m.entries := m.sorted
  have hperm : ((iterate (raw ms)).map assignment).Perm m.entries := by
    rw [← hassignments]
    exact ((hiterate _).trans (hms.map _)).map _
  have hrank : Function.Injective UInt32.toNat := fun _ _ => UInt32.toNat_inj.mp
  have hsame : m' = m := by
    apply entries_injective
    rw [hentries, ← hsorted.functional.fill_congr hrank fun e => hperm.symm.mem_iff,
      hsorted.fill_eq hrank]
  rw [hread, hsame]

theorem unmarshalJSON_marshalJSON (hiterate : IsIteration iterate) (m : PotentialMap) :
    unmarshalJSON iterate (marshalJSON (some m)) = .ok m :=
  unmarshalJSON_members hiterate m (List.perm_insertionSort _ _)

/-- A nil map comes back empty. -/
theorem codec_returns (hiterate : IsIteration iterate) (m : Option PotentialMap) :
    (codec iterate).Returns m (some (m.getD empty)) := by
  refine ⟨marshalJSON m, rfl, ?_⟩
  show (unmarshalJSON iterate (marshalJSON m)).toOption.map some = some (some (m.getD empty))
  cases m with
  | none =>
    have hempty : unmarshalJSON iterate (marshalJSON none) = .ok empty :=
      unmarshalJSON_members hiterate empty (List.Perm.refl _)
    rw [hempty]
    rfl
  | some m =>
    rw [unmarshalJSON_marshalJSON hiterate]
    rfl

/-! ### Sequences -/

def elements (v : List UInt32) : JsonValue :=
  .array (v.map fun x => .number (formatUint x.toNat))

def indexed (v : List UInt32) : List (List Char × JsonValue) :=
  v.zipIdx.map fun p => (formatUint p.2, .number (formatUint p.1.toNat))

theorem unmarshalJSON_elements (v : List UInt32) :
    unmarshalJSON iterate (elements v) = .ok (assignElements v) := by
  obtain ⟨data, hencode, hdecode⟩ :=
    Codec.decodeElements_of_returns fun x (_ : x ∈ v) => uint32_returns x
  have hdata : v.map (fun x => JsonValue.number (formatUint x.toNat)) = data :=
    Option.some.inj (List.mapM_pure.symm.trans hencode)
  rw [elements, hdata, unmarshalJSON, hdecode]

theorem entries_assignElements {v : List UInt32} (h : v.length ≤ 2 ^ 32) :
    (assignElements v).entries = v.zipIdx.map fun p => (UInt32.ofNat p.2, p.1) := by
  have hfill : (assignElements v).entries =
      Entries.fill UInt32.toNat (v.zipIdx.map fun p => (UInt32.ofNat p.2, p.1)) := by
    rw [← entries_foldl_assign, List.foldl_map]
    rfl
  have hindex : ∀ p ∈ v.zipIdx, p.2 < 2 ^ 32 := by
    intro p hp
    have := List.snd_lt_of_mem_zipIdx hp
    omega
  have hascending : v.zipIdx.Pairwise fun p q => p.2 < q.2 := by
    have hrange : (v.zipIdx.map Prod.snd).Pairwise (· < ·) := by
      rw [List.zipIdx_map_snd]
      exact List.pairwise_lt_range'
    exact List.pairwise_map.mp hrange
  have hsorted : Entries.Sorted UInt32.toNat
      (v.zipIdx.map fun p => (UInt32.ofNat p.2, p.1)) := by
    refine List.pairwise_map.mpr (hascending.imp_of_mem ?_)
    intro p q hp hq hlt
    rwa [UInt32.toNat_ofNat_of_lt' (hindex p hp), UInt32.toNat_ofNat_of_lt' (hindex q hq)]
  rw [hfill, hsorted.fill_eq fun _ _ => UInt32.toNat_inj.mp]

theorem members_assignElements {v : List UInt32} (h : v.length ≤ 2 ^ 32) :
    (assignElements v).members = indexed v := by
  unfold members indexed
  rw [entries_assignElements h, List.map_map]
  apply List.map_congr_left
  intro p hp
  have hlt : p.2 < 2 ^ 32 := by
    have := List.snd_lt_of_mem_zipIdx hp
    omega
  show (formatUint (UInt32.ofNat p.2).toNat, _) = _
  rw [UInt32.toNat_ofNat_of_lt' hlt]

theorem unmarshalJSON_indexed_of_long (hiterate : IsIteration iterate) {v : List UInt32}
    (h : 2 ^ 32 < v.length) : (unmarshalJSON iterate (.object (indexed v))).toOption = none := by
  have hnames : ((indexed v).map Prod.fst).Nodup := by
    have hpositions : (indexed v).map Prod.fst = (List.range' 0 v.length).map formatUint := by
      unfold indexed
      rw [List.map_map, ← List.zipIdx_map_snd 0 v, List.map_map]
      rfl
    have hnodup : (List.range' 0 v.length).Nodup := List.nodup_range'
    rw [hpositions]
    exact hnodup.map formatUint_injective
  apply unmarshalJSON_of_not_accepted hiterate hnames
  intro haccepted
  have hmem : (v[2 ^ 32], 2 ^ 32) ∈ v.zipIdx := by
    rw [List.mem_zipIdx_iff_getElem?]
    exact List.getElem?_eq_getElem h
  have hid := (haccepted _ (List.mem_map_of_mem hmem)).1
  have hlt := hid.2.2
  rw [decimal_formatUint] at hlt
  omega

end PotentialMap

/-! ## Cards -/

theorem JSONField.scan_value {σ : Type} {c : Codec σ} {x y : σ} (h : c.Returns x y) :
    ∃ data, value c x = some (.bytes data) ∧ scan c (.bytes data) c.zero = some y ∧
      scan c (.string data) c.zero = some y := by
  obtain ⟨data, hencode, hdecode⟩ := h
  refine ⟨data, ?_, hdecode, hdecode⟩
  unfold value
  rw [hencode, Option.map_some]

namespace Card

/-- Nil and empty potential maps are one. -/
def normalized (c : Card) : Card :=
  { c with potentialList := some (c.potentialList.getD .empty) }

/-- The times of the card have a text that is read back. -/
def TimesInRange (ctx : JsonContext) (c : Card) : Prop :=
  Calendar.InRange ctx.insertOffset c.insertTime ∧ Calendar.InRange ctx.updateOffset c.updateTime

theorem codec_returns {ctx : JsonContext} (hiterate : IsIteration ctx.iterate) {c : Card}
    (h : c.TimesInRange ctx) : (codec ctx).Returns c c.normalized := by
  obtain ⟨hinsert, hupdate⟩ := h
  apply Codec.struct_returns (by simp only [fields, List.map_cons, StructField.of]; decide)
  refine .cons (StructField.of_sends (uint64_returns _) rfl) ?_
  refine .cons (StructField.of_sends (uint64_returns _) rfl) ?_
  refine .cons (StructField.of_sends (uint32_returns _) rfl) ?_
  refine .cons (StructField.of_sends (uint64_returns _) rfl) ?_
  refine .cons (StructField.of_sends (uint16_returns _) rfl) ?_
  refine .cons (StructField.of_sends (uint16_returns _) rfl) ?_
  refine .cons (StructField.of_sends (uint16_returns _) rfl) ?_
  refine .cons (StructField.of_sends (uint32_returns _) rfl) ?_
  refine .cons (StructField.of_sends (uint16_returns _) rfl) ?_
  refine .cons (StructField.of_sends (uint32_returns _) rfl) ?_
  refine .cons (StructField.of_sends (uint32_returns _) rfl) ?_
  refine .cons (StructField.of_sends (uint16_returns _) rfl) ?_
  refine .cons (StructField.of_sends (uint16_returns _) rfl) ?_
  refine .cons (StructField.of_sends (uint8_returns _) rfl) ?_
  refine .cons (StructField.of_sends (SkillData.listCodec_returns _) rfl) ?_
  refine .cons (StructField.of_sends (PotentialMap.codec_returns hiterate _) rfl) ?_
  refine .cons (StructField.of_sends (uint64_returns _) rfl) ?_
  refine .cons (StructField.of_sends (timeCodec_returns _ hinsert) rfl) ?_
  refine .cons (StructField.of_sends (timeCodec_returns _ hupdate) rfl) ?_
  exact .nil

/-! ### What comes back -/

section

open PotentialMap

/-- Cards through the cache and through their columns, and sequences through both shapes of a
potential map. -/
theorem json_lossless (ctx : JsonContext) (hiterate : IsIteration ctx.iterate) :
    (∀ c : Card, c.TimesInRange ctx →
      (codec ctx).Returns c c.normalized ∧
      (∃ data, JSONField.value (SkillData.listCodec ctx.fold) c.skill = some (.bytes data) ∧
        JSONField.scan (SkillData.listCodec ctx.fold) (.bytes data) none = some c.skill ∧
        JSONField.scan (SkillData.listCodec ctx.fold) (.string data) none = some c.skill) ∧
      ∃ data, JSONField.value (PotentialMap.codec ctx.iterate) c.potentialList =
          some (.bytes data) ∧
        JSONField.scan (PotentialMap.codec ctx.iterate) (.bytes data) none =
          some c.normalized.potentialList ∧
        JSONField.scan (PotentialMap.codec ctx.iterate) (.string data) none =
          some c.normalized.potentialList) ∧
    ∀ v : List UInt32, v.length ≤ 2 ^ 32 → ∃ m ms,
      unmarshalJSON ctx.iterate (elements v) = .ok m ∧
      (∀ ms', ms'.Perm (indexed v) → unmarshalJSON ctx.iterate (.object ms') = .ok m) ∧
      marshalJSON (some m) = .object ms ∧ unmarshalJSON ctx.iterate (.object ms) = .ok m := by
  constructor
  · intro c htimes
    exact ⟨codec_returns hiterate htimes, JSONField.scan_value (SkillData.listCodec_returns _),
      JSONField.scan_value (PotentialMap.codec_returns hiterate _)⟩
  · intro v hv
    refine ⟨assignElements v, _, unmarshalJSON_elements v, ?_, rfl,
      unmarshalJSON_marshalJSON hiterate _⟩
    intro ms' hms'
    apply unmarshalJSON_members hiterate
    rwa [members_assignElements hv]

def year10000 : Time := 315537897600 * 10 ^ 9

/-- An instant of 1900, when the local time of Seoul was 8:27:52 ahead. -/
def year1900 : Time := 59926608000 * 10 ^ 9

def plainContext (offset : ℤ) : JsonContext := ⟨id, fun _ => none, id, offset, 0⟩

def cardAt (t : Time) : Card := { (Row.zero .cards : Card) with insertTime := t }

def seoulContext : JsonContext where
  fold s := s.map Char.toLower
  parse _ := none
  iterate := List.reverse
  insertOffset := 32400
  updateOffset := 32400

def trainedCard : Card :=
  { (Row.zero .cards : Card) with
    idx := 7, userID := 42, cardID := 1001, twoWayIdx := 8, limitBreakExp := 150, level := 60
    isLock := 1
    skill := some [some ⟨120, 1, 5, 3001⟩, none, some ⟨0, 0, 0, 0⟩, some ⟨0, 2, 1, 3002⟩]
    potentialList := some (assignElements [30, 0, 4294967295])
    insertTime := 63914884212 * 10 ^ 9 + 123456789
    updateTime := 63914970612 * 10 ^ 9 }

theorem json_lossless_trained :
    ((codec seoulContext).Returns trainedCard trainedCard ∧
      (∃ data, JSONField.value (SkillData.listCodec seoulContext.fold) trainedCard.skill =
          some (.bytes data) ∧
        JSONField.scan (SkillData.listCodec seoulContext.fold) (.string data) none =
          some trainedCard.skill) ∧
      ∃ data, JSONField.value (PotentialMap.codec List.reverse) trainedCard.potentialList =
          some (.bytes data) ∧
        JSONField.scan (PotentialMap.codec List.reverse) (.string data) none =
          some trainedCard.potentialList) ∧
    ∃ m ms, unmarshalJSON List.reverse (elements [30, 0, 4294967295]) = .ok m ∧
      (∀ ms', ms'.Perm (indexed [30, 0, 4294967295]) →
        unmarshalJSON List.reverse (.object ms') = .ok m) ∧
      marshalJSON (some m) = .object ms ∧ unmarshalJSON List.reverse (.object ms) = .ok m := by
  have hiterate : IsIteration seoulContext.iterate := List.reverse_perm
  have htimes : trainedCard.TimesInRange seoulContext :=
    ⟨⟨by decide, by decide +kernel, by decide, by decide⟩,
      ⟨by decide, by decide +kernel, by decide, by decide⟩⟩
  obtain ⟨hcards, hsequences⟩ := json_lossless seoulContext hiterate
  obtain ⟨hcard, ⟨skills, hskills, -, hscanned⟩, potentials, hpotentials, -, hread⟩ :=
    hcards trainedCard htimes
  exact ⟨⟨hcard, ⟨skills, hskills, hscanned⟩, potentials, hpotentials, hread⟩,
    hsequences [30, 0, 4294967295] (by decide)⟩

theorem json_not_lossless :
    (codec (plainContext 0)).encode (cardAt year10000) = none ∧
      (codec (plainContext 86400)).encode (cardAt year1900) = none ∧
      (((codec (plainContext 30472)).encode (cardAt year1900)).bind fun data =>
        ((codec (plainContext 30472)).decode data (Row.zero .cards)).map insertTime) =
          some (year1900 + 52 * 10 ^ 9) ∧
      ∃ m, unmarshalJSON id (elements (List.replicate (2 ^ 32 + 1) 0)) = .ok m ∧
        (unmarshalJSON id (.object (indexed (List.replicate (2 ^ 32 + 1) 0)))).toOption =
          none := by
  refine ⟨Option.isNone_iff_eq_none.mp (by decide +kernel),
    Option.isNone_iff_eq_none.mp (by decide +kernel), by decide +kernel, ?_⟩
  refine ⟨_, unmarshalJSON_elements _, ?_⟩
  apply unmarshalJSON_indexed_of_long (fun l => List.Perm.refl l)
  rw [List.length_replicate]
  omega

end

end Card

end FutureWas
