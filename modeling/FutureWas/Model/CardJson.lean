import FutureWas.Collections.Calendar
import FutureWas.Model.PotentialMap

/-!
# The JSON of a card

`internal/model/card.go` and `internal/model/json_field.go`: the codec of the cache and the
values of the JSON columns. A time carries the offset of its zone, which `encoding/json` shows
and an instant does not. What `encoding/json` takes from elsewhere are parameters: the folding
of names, and `time.Parse` on texts that are not of the shape of RFC 3339.
-/

set_option autoImplicit false

namespace FutureWas

open Collections

def uint8 : Codec UInt8 := .uint (2 ^ 8) UInt8.toNat UInt8.ofNat

def uint16 : Codec UInt16 := .uint (2 ^ 16) UInt16.toNat UInt16.ofNat

def uint64 : Codec UInt64 := .uint (2 ^ 64) UInt64.toNat UInt64.ofNat

/-- `time.Time` in a zone. -/
def timeCodec (parse : List Char → Option Time) (offset : ℤ) : Codec Time where
  zero := 0
  encode t := (Calendar.formatRFC3339 offset t).map .string
  decode v old :=
    match v with
    | .null => some old
    | .string s => (Calendar.parseRFC3339 s).or (parse s)
    | _ => none

def PotentialMap.codec (iterate : List (List Char × UInt32) → List (List Char × UInt32)) :
    Codec (Option PotentialMap) where
  zero := none
  encode m := some (marshalJSON m)
  decode v _ := (unmarshalJSON iterate v).toOption.map some

namespace SkillData

def fields : List (StructField SkillData) :=
  [.omitEmpty "exp".toList uint32 exp fun x s => { s with exp := x },
    .omitEmpty "slot".toList uint32 slot fun x s => { s with slot := x },
    .omitEmpty "level".toList uint32 level fun x s => { s with level := x },
    .omitEmpty "skill_id".toList uint32 skillID fun x s => { s with skillID := x }]

def codec (fold : List Char → List Char) : Codec SkillData := .struct fold fields ⟨0, 0, 0, 0⟩

/-- `[]*SkillData`. -/
def listCodec (fold : List Char → List Char) : Codec (Option (List (Option SkillData))) :=
  (codec fold).pointer.slice

end SkillData

structure JsonContext where
  fold : List Char → List Char
  parse : List Char → Option Time
  iterate : List (List Char × UInt32) → List (List Char × UInt32)
  insertOffset : ℤ
  updateOffset : ℤ

namespace Card

variable (ctx : JsonContext)

def fields : List (StructField Card) :=
  [.of "idx".toList uint64 idx fun x c => { c with idx := x },
    .of "user_id".toList uint64 userID fun x c => { c with userID := x },
    .of "card_id".toList uint32 cardID fun x c => { c with cardID := x },
    .of "two_way_idx".toList uint64 twoWayIdx fun x c => { c with twoWayIdx := x },
    .of "level_break_step".toList uint16 levelBreakStep fun x c => { c with levelBreakStep := x },
    .of "level_break_cur_material".toList uint16 levelBreakCurMaterial
      fun x c => { c with levelBreakCurMaterial := x },
    .of "limit_break_level".toList uint16 limitBreakLevel
      fun x c => { c with limitBreakLevel := x },
    .of "limit_break_exp".toList uint32 limitBreakExp fun x c => { c with limitBreakExp := x },
    .of "level".toList uint16 level fun x c => { c with level := x },
    .of "exp".toList uint32 exp fun x c => { c with exp := x },
    .of "exp_exceed".toList uint32 expExceed fun x c => { c with expExceed := x },
    .of "theme_id".toList uint16 themeID fun x c => { c with themeID := x },
    .of "extra_theme_id".toList uint16 extraThemeID fun x c => { c with extraThemeID := x },
    .of "is_lock".toList uint8 isLock fun x c => { c with isLock := x },
    .of "skill".toList (SkillData.listCodec ctx.fold) skill fun x c => { c with skill := x },
    .of "potential_list".toList (PotentialMap.codec ctx.iterate) potentialList
      fun x c => { c with potentialList := x },
    .of "enhance_card_idx".toList uint64 enhanceCardIdx fun x c => { c with enhanceCardIdx := x },
    .of "insert_time".toList (timeCodec ctx.parse ctx.insertOffset) insertTime
      fun x c => { c with insertTime := x },
    .of "update_time".toList (timeCodec ctx.parse ctx.updateOffset) updateTime
      fun x c => { c with updateTime := x }]

def codec : Codec Card := .struct ctx.fold (fields ctx) (Row.zero .cards)

end Card

/-! ## JSON columns -/

inductive DriverValue
  | bytes (data : JsonValue)
  | string (data : JsonValue)
  | other

namespace JSONField

universe u

variable {σ : Type u}

def scan (c : Codec σ) (src : DriverValue) (old : σ) : Option σ :=
  match src with
  | .bytes data => c.decode data old
  | .string data => c.decode data old
  | .other => none

def value (c : Codec σ) (x : σ) : Option DriverValue := (c.encode x).map .bytes

end JSONField

end FutureWas
