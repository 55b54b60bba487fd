import Mathlib.Data.Int.Notation
import Mathlib.Data.Nat.Notation
import Mathlib.Logic.Function.Basic

/-!
# Rows of the game databases and the models of a request

The row types follow `internal/model`, and `EntityKind` the six values of
`internal/uow/entity_kind.go`. A kind fixes the model type its loaders are called with
(`Row`), the scope that owns it and the database it is routed to.

The club kinds have no model in the repository yet: a club row is its primary key, its
`club_id` column and the text of its other columns. Times are instants in nanoseconds.

A request holds its models by pointer: the store, the queued writes and the dirty set share
them. `Heap` is the memory they point into; a fresh cell holds the zero value of its type.
-/

set_option autoImplicit false

namespace FutureWas

abbrev Time := ℤ

structure Account where
  userID : UInt64
  channelUID : UInt64
  deviceID : String
  isActive : UInt8
  dbShardID : Int8
  insertTime : Time
  updateTime : Time
  deriving DecidableEq

structure Asset where
  idx : UInt64
  userID : UInt64
  assetID : UInt32
  quantity : Int64
  lastRechargeTime : Int64
  insertTime : Time
  updateTime : Time
  deriving DecidableEq

structure Item where
  idx : UInt64
  userID : UInt64
  itemType : UInt16
  itemID : UInt32
  amount : UInt64
  insertTime : Time
  updateTime : Time
  deriving DecidableEq

structure SkillData where
  exp : UInt32
  slot : UInt32
  level : UInt32
  skillID : UInt32
  deriving DecidableEq

/-- A Go map from potential id to value, listed by ascending id. -/
structure PotentialMap where
  entries : List (UInt32 × UInt32)
  sorted : entries.Pairwise fun a b => a.1 < b.1
  deriving DecidableEq

/-- `skill` and `potentialList` are the `Data` of their `JSONField`; `none` is nil. -/
structure Card where
  idx : UInt64
  userID : UInt64
  cardID : UInt32
  twoWayIdx : UInt64
  levelBreakStep : UInt16
  levelBreakCurMaterial : UInt16
  limitBreakLevel : UInt16
  limitBreakExp : UInt32
  level : UInt16
  exp : UInt32
  expExceed : UInt32
  themeID : UInt16
  extraThemeID : UInt16
  isLock : UInt8
  skill : Option (List (Option SkillData))
  potentialList : Option PotentialMap
  enhanceCardIdx : UInt64
  insertTime : Time
  updateTime : Time
  deriving DecidableEq

structure ClubRow where
  idx : UInt64
  clubID : UInt64
  columns : String
  deriving DecidableEq

inductive Owner
  | user
  | club
  deriving DecidableEq

inductive EntityKind
  | account
  | assets
  | cards
  | items
  | clubInfo
  | clubMembers
  deriving DecidableEq

namespace EntityKind

def name : EntityKind → String
  | account => "account.v1"
  | assets => "assets.v1"
  | cards => "cards.v1"
  | items => "items.v1"
  | clubInfo => "info.v1"
  | clubMembers => "members.v1"

def owner : EntityKind → Owner
  | account | assets | cards | items => .user
  | clubInfo | clubMembers => .club

def isGameDB : EntityKind → Bool
  | account | clubInfo | clubMembers => true
  | assets | cards | items => false

def isSingleton : EntityKind → Bool
  | account | clubInfo => true
  | assets | cards | items | clubMembers => false

def all : List EntityKind := [account, assets, cards, items, clubInfo, clubMembers]

theorem mem_all (e : EntityKind) : e ∈ all := by cases e <;> decide

/-- Store maps and cache hashes are keyed by name, so a kind is its name. -/
theorem name_injective : Function.Injective name := by
  intro a b
  cases a <;> cases b <;> decide

theorem eq_account {e : EntityKind} (he : e.owner = .user) (h : e.isSingleton = true) :
    e = account := by
  cases e <;> simp_all [owner, isSingleton]

theorem isGameDB_of_list {e : EntityKind} (he : e.owner = .user) (h : e.isSingleton = false) :
    e.isGameDB = false := by
  cases e <;> simp_all [owner, isSingleton, isGameDB]

end EntityKind

abbrev Row : EntityKind → Type
  | .account => Account
  | .assets => Asset
  | .cards => Card
  | .items => Item
  | .clubInfo => ClubRow
  | .clubMembers => ClubRow

namespace Row

def primaryKey : {e : EntityKind} → Row e → UInt64
  | .account, m => Account.userID m
  | .assets, m => Asset.idx m
  | .cards, m => Card.idx m
  | .items, m => Item.idx m
  | .clubInfo, m => ClubRow.idx m
  | .clubMembers, m => ClubRow.idx m

def setPrimaryKey (id : UInt64) : {e : EntityKind} → Row e → Row e
  | .account, m => ({ m with userID := id } : Account)
  | .assets, m => ({ m with idx := id } : Asset)
  | .cards, m => ({ m with idx := id } : Card)
  | .items, m => ({ m with idx := id } : Item)
  | .clubInfo, m => ({ m with idx := id } : ClubRow)
  | .clubMembers, m => ({ m with idx := id } : ClubRow)

/-- The column a scope's `where` clause compares: `user_id` or `club_id`. -/
def ownerID : {e : EntityKind} → Row e → UInt64
  | .account, m => Account.userID m
  | .assets, m => Asset.userID m
  | .cards, m => Card.userID m
  | .items, m => Item.userID m
  | .clubInfo, m => ClubRow.clubID m
  | .clubMembers, m => ClubRow.clubID m

/-- The columns under the kind's UNIQUE index: `(user_id, asset_id)` and `(user_id, item_id)`. -/
def uniqueIndex : {e : EntityKind} → Row e → Option (UInt64 × UInt32)
  | .assets, m => some (Asset.userID m, Asset.assetID m)
  | .items, m => some (Item.userID m, Item.itemID m)
  | .account, _ | .cards, _ | .clubInfo, _ | .clubMembers, _ => none

def zero : (e : EntityKind) → Row e
  | .account => (⟨0, 0, "", 0, 0, 0, 0⟩ : Account)
  | .assets => (⟨0, 0, 0, 0, 0, 0, 0⟩ : Asset)
  | .cards => (⟨0, 0, 0, 0, 0, 0, 0, 0, 0, 0, 0, 0, 0, 0, none, none, 0, 0, 0⟩ : Card)
  | .items => (⟨0, 0, 0, 0, 0, 0, 0⟩ : Item)
  | .clubInfo => (⟨0, 0, ""⟩ : ClubRow)
  | .clubMembers => (⟨0, 0, ""⟩ : ClubRow)

@[simp] theorem primaryKey_setPrimaryKey {e : EntityKind} (id : UInt64) (m : Row e) :
    (m.setPrimaryKey id).primaryKey = id := by
  cases e <;> rfl

theorem ownerID_setPrimaryKey {e : EntityKind} (he : e ≠ .account) (id : UInt64) (m : Row e) :
    (m.setPrimaryKey id).ownerID = m.ownerID := by
  cases e <;> first | exact absurd rfl he | rfl

@[simp] theorem uniqueIndex_setPrimaryKey {e : EntityKind} (id : UInt64) (m : Row e) :
    (m.setPrimaryKey id).uniqueIndex = m.uniqueIndex := by
  cases e <;> rfl

theorem ownerID_of_uniqueIndex {e : EntityKind} {m m' : Row e} (h : m.uniqueIndex.isSome)
    (heq : m'.uniqueIndex = m.uniqueIndex) : m'.ownerID = m.ownerID := by
  cases e with
  | account | cards | clubInfo | clubMembers => cases h
  | assets | items => exact congrArg Prod.fst (Option.some.inj heq)

end Row

abbrev Ref := ℕ

structure Heap where
  next : ℕ
  cell : (e : EntityKind) → Ref → Row e

namespace Heap

def empty : Heap := ⟨0, fun e _ => Row.zero e⟩

def set (h : Heap) (e : EntityKind) (r : Ref) (m : Row e) : Heap :=
  { h with cell := Function.update h.cell e (Function.update (h.cell e) r m) }

/-- `new(T)` filled with `m`. -/
def alloc (h : Heap) (e : EntityKind) (m : Row e) : Heap × Ref :=
  ({ h.set e h.next m with next := h.next + 1 }, h.next)

def allocMany (h : Heap) (e : EntityKind) : List (Row e) → Heap × List Ref
  | [] => (h, [])
  | m :: ms =>
    let first := h.alloc e m
    let rest := first.1.allocMany e ms
    (rest.1, first.2 :: rest.2)

@[simp] theorem set_next (h : Heap) (e : EntityKind) (r : Ref) (m : Row e) :
    (h.set e r m).next = h.next := rfl

@[simp] theorem set_cell_self (h : Heap) (e : EntityKind) (r : Ref) (m : Row e) :
    (h.set e r m).cell e r = m := by
  simp [set]

theorem set_cell_of_ne (h : Heap) (e : EntityKind) {r r' : ℕ} (hr : r' ≠ r) (m : Row e) :
    (h.set e r m).cell e r' = h.cell e r' := by
  simp [set, Function.update_of_ne hr]

theorem set_cell_kind (h : Heap) {e e' : EntityKind} (he : e' ≠ e) (r r' : Ref) (m : Row e) :
    (h.set e r m).cell e' r' = h.cell e' r' := by
  simp [set, Function.update_of_ne he]

theorem set_cell_other (h : Heap) {e e' : EntityKind} {r r' : Ref} (hne : e' ≠ e ∨ r' ≠ r)
    (m : Row e) : (h.set e r m).cell e' r' = h.cell e' r' := by
  by_cases he : e' = e
  · subst he
    exact h.set_cell_of_ne e' (hne.resolve_left (by simp)) m
  · exact h.set_cell_kind he r r' m

@[simp] theorem set_self (h : Heap) (e : EntityKind) (r : Ref) : h.set e r (h.cell e r) = h := by
  simp [set]

theorem set_comm (h : Heap) {e e' : EntityKind} {r r' : Ref} (hne : e' ≠ e ∨ r' ≠ r) (m : Row e)
    (m' : Row e') : (h.set e r m).set e' r' m' = (h.set e' r' m').set e r m := by
  by_cases he : e' = e
  · subst he
    have hr : r' ≠ r := hne.resolve_left (by simp)
    simp [set, Function.update_comm hr]
  · simp [set, Function.update_comm he, Function.update_of_ne he,
      Function.update_of_ne (Ne.symm he)]

@[simp] theorem alloc_next (h : Heap) (e : EntityKind) (m : Row e) :
    (h.alloc e m).1.next = h.next + 1 := rfl

@[simp] theorem alloc_ref (h : Heap) (e : EntityKind) (m : Row e) :
    (h.alloc e m).2 = h.next := rfl

@[simp] theorem alloc_cell_self (h : Heap) (e : EntityKind) (m : Row e) :
    (h.alloc e m).1.cell e h.next = m :=
  set_cell_self h e h.next m

theorem alloc_cell_of_lt (h : Heap) (e e' : EntityKind) (m : Row e) {r : ℕ} (hr : r < h.next) :
    (h.alloc e m).1.cell e' r = h.cell e' r := by
  by_cases he : e' = e
  · subst he; exact set_cell_of_ne h e' (Nat.ne_of_lt hr) m
  · exact set_cell_kind h he _ _ m

theorem allocMany_next (h : Heap) (e : EntityKind) (ms : List (Row e)) :
    (h.allocMany e ms).1.next = h.next + ms.length := by
  induction ms generalizing h with
  | nil => rfl
  | cons m ms ih =>
    simp only [allocMany, ih, alloc_next, List.length_cons]
    omega

theorem allocMany_refs (h : Heap) (e : EntityKind) (ms : List (Row e)) :
    (h.allocMany e ms).2 = List.range' h.next ms.length := by
  induction ms generalizing h with
  | nil => rfl
  | cons m ms ih => simp [allocMany, ih, List.range'_succ]

theorem allocMany_cell_of_lt (h : Heap) (e e' : EntityKind) (ms : List (Row e)) {r : ℕ}
    (hr : r < h.next) : (h.allocMany e ms).1.cell e' r = h.cell e' r := by
  induction ms generalizing h with
  | nil => rfl
  | cons m ms ih =>
    have hlt : r < (h.alloc e m).1.next := by simp only [alloc_next]; omega
    simp only [allocMany, ih _ hlt, alloc_cell_of_lt h e e' m hr]

theorem allocMany_cell_kind (h : Heap) {e e' : EntityKind} (he : e' ≠ e) (ms : List (Row e))
    (r : Ref) : (h.allocMany e ms).1.cell e' r = h.cell e' r := by
  induction ms generalizing h with
  | nil => rfl
  | cons m ms ih => exact (ih (h.alloc e m).1).trans (set_cell_kind h he _ _ m)

theorem allocMany_values (h : Heap) (e : EntityKind) (ms : List (Row e)) :
    (h.allocMany e ms).2.map ((h.allocMany e ms).1.cell e) = ms := by
  induction ms generalizing h with
  | nil => rfl
  | cons m ms ih =>
    have hlt : h.next < (h.alloc e m).1.next := by simp
    simp only [allocMany, List.map_cons, alloc_ref]
    rw [allocMany_cell_of_lt _ e e ms hlt, alloc_cell_self, ih]

theorem allocMany_cell_mem (h : Heap) (e : EntityKind) (ms : List (Row e)) {r : ℕ}
    (hr : r ∈ (h.allocMany e ms).2) : (h.allocMany e ms).1.cell e r ∈ ms := by
  have hmem := List.mem_map_of_mem (f := (h.allocMany e ms).1.cell e) hr
  rwa [allocMany_values] at hmem

theorem allocMany_lt (h : Heap) (e : EntityKind) (ms : List (Row e)) {r : ℕ}
    (hr : r ∈ (h.allocMany e ms).2) : h.next ≤ r ∧ r < (h.allocMany e ms).1.next := by
  rw [allocMany_refs] at hr
  rw [allocMany_next]
  exact List.mem_range'_1.mp hr

end Heap
end FutureWas
