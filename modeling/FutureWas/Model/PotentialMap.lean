import FutureWas.Collections.Entries
import FutureWas.Collections.Json
import FutureWas.Model.Rows

/-!
# The potential map and its JSON

`internal/model/potential_map.go` and `internal/model/json_field.go`, with a JSON text as the
value it denotes. A Go map is iterated in any order, so what an iteration visits is a
parameter: it rearranges the entries of the map.
-/

set_option autoImplicit false

namespace FutureWas

open Collections

def uint32 : Codec UInt32 := .uint (2 ^ 32) UInt32.toNat UInt32.ofNat

def IsIteration {κ ν : Type} (iterate : List (κ × ν) → List (κ × ν)) : Prop :=
  ∀ l, (iterate l).Perm l

/-- `key` is `PotentialMap key %q: %w`, `unexpectedToken` names the first byte of the text. -/
inductive PotentialError
  | json
  | key (k : List Char)
  | unexpectedToken (first : Option Char)
  deriving DecidableEq

def firstByte : JsonValue → Option Char
  | .null => some 'n'
  | .bool true => some 't'
  | .bool false => some 'f'
  | .number literal => literal.head?
  | .string _ => some '"'
  | .array _ => some '['
  | .object _ => some '\x7b'

namespace PotentialMap

def empty : PotentialMap := ⟨[], .nil⟩

theorem sorted_put (m : PotentialMap) (id v : UInt32) :
    (Entries.put UInt32.toNat id v m.entries).Pairwise fun a b => a.1 < b.1 := by
  have hsorted : Entries.Sorted UInt32.toNat m.entries := m.sorted
  exact hsorted.put id v

def assign (m : PotentialMap) (id v : UInt32) : PotentialMap := ⟨_, m.sorted_put id v⟩

def assignMembers : List (List Char × UInt32) → PotentialMap → Except PotentialError PotentialMap
  | [], out => .ok out
  | (k, v) :: rest, out =>
    match parseUint (2 ^ 32) k with
    | none => .error (.key k)
    | some id => assignMembers rest (out.assign (.ofNat id) v)

def assignElements (arr : List UInt32) : PotentialMap :=
  arr.zipIdx.foldl (fun out p => out.assign (.ofNat p.2) p.1) empty

def unmarshalJSON (iterate : List (List Char × UInt32) → List (List Char × UInt32)) :
    JsonValue → Except PotentialError PotentialMap
  | .null => .ok empty
  | .object members =>
    match uint32.decodeMap members with
    | none => .error .json
    | some raw => assignMembers (iterate raw) empty
  | .array elements =>
    match uint32.decodeElements elements [] with
    | none => .error .json
    | some arr => .ok (assignElements arr)
  | data => .error (.unexpectedToken (firstByte data))

def members (m : PotentialMap) : List (List Char × JsonValue) :=
  m.entries.map fun e => (formatUint e.1.toNat, .number (formatUint e.2.toNat))

/-- `encoding/json` sorts the keys of a map as strings. -/
def marshalJSON : Option PotentialMap → JsonValue
  | none => .object []
  | some m => .object (m.members.insertionSort fun a b => a.1 ≤ b.1)

end PotentialMap

end FutureWas
