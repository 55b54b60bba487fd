import FutureWas.Effect.Series
import FutureWas.Model.Dispatch
import Mathlib.Data.Multiset.MapFold

/-!
# What a user owns

The purpose of the requests of a user who is logged in, without databases, caches, locks and
servers: a user owns bags of assets, items and cards (`Holdings`), and a request reads one of
them or raises the level of a card (`Grants`). A request that is not answered with its message
has done nothing, or its answer is the one that an internal error replaces (`Serves`).

Requests served one after another do `Plays`. However many of them are refused or left without
an answer, every level is the first one plus the upgrades that took place, among which are all
that were acknowledged: `Plays.counts`.
-/

set_option autoImplicit false

namespace FutureWas

open Effect

def EntityKind.Listed (e : EntityKind) : Prop := e.owner = .user ∧ e.isSingleton = false

instance (e : EntityKind) : Decidable e.Listed := inferInstanceAs (Decidable (_ ∧ _))

abbrev Holdings : Type := (e : EntityKind) → Multiset (Row e)

def Card.raised (n : ℕ) (m : Card) : Card := { m with level := m.level + UInt16.ofNat n }

def Catalog.onSale (catalog : Catalog) (now : Time) : List ShopListDesign :=
  (catalog.shop.entries.map Sigma.snd).filter fun v =>
    v.useFlag ≠ 0 ∧ v.openTime ≤ unix now ∧ unix now < v.closeTime

namespace Holdings

def raised (H : Holdings) (n : UInt64 → ℕ) : Holdings :=
  Function.update H .cards ((H .cards).map fun m : Card => m.raised (n m.idx))

def once (cardIdx : UInt64) (idx : UInt64) : ℕ := if idx = cardIdx then 1 else 0

/-! ## Requests -/

/-- What the request answers when nothing goes wrong, and what the user owns then. -/
inductive Grants (r : Incoming) (req : GameRequest) (H : Holdings) : Message → Holdings → Prop
  | getAssets {list : List AssetData} : req.action = actionGetAssets →
      (list : Multiset AssetData) = (H .assets).map toAssetData →
      Grants r req H (.getAssets list) H
  | getItems {list : List ItemData} : req.action = actionGetItems →
      (list : Multiset ItemData) = (H .items).map toItemData →
      Grants r req H (.getItems list) H
  | getCards {list : List CardData} : req.action = actionGetCards →
      (list : Multiset CardData) = (H .cards).map toCardData →
      Grants r req H (.getCards list) H
  | getShopList {catalog : Catalog} {now : Time} : req.action = actionGetShopList →
      r.designStore.getByClientVersion req.clientVersion = some catalog →
      Grants r req H (.getShopList ((catalog.onSale now).map toShopData)) H
  | upgradeCardLevel {cardIdx : UInt64} {m : Card} : req.action = actionUpgradeCardLevel →
      req.body.upgradeCardLevel = some ⟨cardIdx⟩ → m ∈ H .cards → m.idx = cardIdx →
      Grants r req H (.upgradeCardLevel (toCardData (m.raised 1))) (H.raised (once cardIdx))

/-- One request of the user, with its answer; `none` where it unwinds. -/
inductive Serves (r : Incoming) (H : Holdings) : Option ResponseBody → Holdings → Prop
  | answered {req : GameRequest} {m : Message} {H' : Holdings} : r.raw = .envelope req →
      Grants r req H m H' → Serves r H (some (.message m)) H'
  | refused {code : Int32} {message : String} : Serves r H (some (.error code message)) H
  /-- The request has been carried out, and its answer is lost. -/
  | unreported {req : GameRequest} {m : Message} {H' : Holdings} {message : String} :
      r.raw = .envelope req → Grants r req H m H' →
      Serves r H (some (.error codeInternalError message)) H'
  | unwound : Serves r H none H

abbrev Plays : List (Incoming × Option ResponseBody) → Holdings → Holdings → Prop :=
  Chain fun p H H' => Serves p.1 H p.2 H'

/-! ## Upgrades -/

def Asks (idx : UInt64) (r : Incoming) : Bool :=
  match r.raw with
  | .envelope req =>
    decide (req.action = actionUpgradeCardLevel ∧ req.body.upgradeCardLevel = some ⟨idx⟩)
  | _ => false

def Acknowledged (idx : UInt64) (p : Incoming × Option ResponseBody) : Bool :=
  match p.2 with
  | some (.message _) => Asks idx p.1
  | _ => false

/-- Numbers of upgrades that the requests, as they were answered, can have made. -/
def Counts (items : List (Incoming × Option ResponseBody)) (n : UInt64 → ℕ) : Prop :=
  ∀ idx, items.countP (Acknowledged idx) ≤ n idx ∧ n idx ≤ items.countP fun p => Asks idx p.1

variable {H H' : Holdings} {r : Incoming} {req : GameRequest} {m : Message}

@[simp] theorem raised_zero (H : Holdings) : H.raised (fun _ => 0) = H := by
  have hsame : (fun m : Card => m.raised 0) = id := by
    funext m
    simp [Card.raised]
  simp [raised, hsame]

theorem raised_raised (H : Holdings) (n n' : UInt64 → ℕ) :
    (H.raised n).raised n' = H.raised fun idx => n idx + n' idx := by
  have hcard : ∀ m : Card, (m.raised (n m.idx)).raised (n' m.idx) =
      m.raised (n m.idx + n' m.idx) := by
    intro m
    simp [Card.raised, UInt16.ofNat_add, UInt16.add_assoc]
  unfold raised
  rw [Function.update_idem, Function.update_self, Multiset.map_map]
  congr 1
  exact Multiset.map_congr rfl fun m _ => hcard m

theorem Grants.counts (h : Grants r req H m H') (hr : r.raw = .envelope req) :
    ∃ n, H' = H.raised n ∧ ∀ idx, n idx = if Asks idx r then 1 else 0 := by
  have hreads : req.action ≠ actionUpgradeCardLevel →
      ∃ n, H = H.raised n ∧ ∀ idx, n idx = if Asks idx r then 1 else 0 := by
    intro hne
    refine ⟨fun _ => 0, H.raised_zero.symm, fun idx => ?_⟩
    simp [Asks, hr, hne]
  cases h with
  | getAssets haction | getItems haction | getCards haction | getShopList haction =>
    exact hreads (by rw [haction]; decide)
  | @upgradeCardLevel cardIdx _ haction hbody =>
    refine ⟨once cardIdx, rfl, fun idx => ?_⟩
    simp [Asks, hr, haction, hbody, once, eq_comm]

theorem Serves.counts {o : Option ResponseBody} (h : Serves r H o H') :
    ∃ n, H' = H.raised n ∧ Counts [(r, o)] n := by
  have hnone : ∀ {o : Option ResponseBody}, (∀ idx, Acknowledged idx (r, o) = false) →
      ∃ n, H = H.raised n ∧ Counts [(r, o)] n := by
    intro o ho
    refine ⟨fun _ => 0, H.raised_zero.symm, fun idx => ⟨?_, Nat.zero_le _⟩⟩
    simp [ho idx]
  cases h with
  | answered hr hgrants | unreported hr hgrants =>
    obtain ⟨n, hn, hcount⟩ := hgrants.counts hr
    refine ⟨n, hn, fun idx => ?_⟩
    rw [hcount idx]
    by_cases hasks : Asks idx r = true
    · simp [Acknowledged, hasks]
    · simp [Acknowledged, hasks]
  | refused => exact hnone fun _ => rfl
  | unwound => exact hnone fun _ => rfl

/-- Levels are the first ones plus the upgrades made; none that was acknowledged is lost, and
none is made that was not asked for. -/
theorem Plays.counts {items : List (Incoming × Option ResponseBody)} (h : Plays items H H') :
    ∃ n, Counts items n ∧ H' = H.raised n := by
  induction items generalizing H with
  | nil =>
    have hsame : H' = H := h
    subst hsame
    exact ⟨fun _ => 0, fun idx => ⟨le_refl _, le_refl _⟩, H'.raised_zero.symm⟩
  | cons p items ih =>
    obtain ⟨K, hp, hrest⟩ := h
    obtain ⟨n, rfl, hn⟩ := hp.counts
    obtain ⟨n', hn', rfl⟩ := ih hrest
    refine ⟨_, fun idx => ?_, H.raised_raised n n'⟩
    rw [← List.singleton_append, List.countP_append, List.countP_append]
    exact ⟨Nat.add_le_add (hn idx).1 (hn' idx).1, Nat.add_le_add (hn idx).2 (hn' idx).2⟩

theorem Plays.shows {before after : List (Incoming × Option ResponseBody)} {list : List CardData}
    (h : Plays (before ++ (r, some (.message (.getCards list))) :: after) H H') :
    ∃ n, Counts before n ∧ (list : Multiset CardData) = ((H.raised n) .cards).map toCardData := by
  obtain ⟨K, hbefore, K', hserves, -⟩ := Chain.append_iff.mp h
  obtain ⟨n, hn, rfl⟩ := Plays.counts hbefore
  refine ⟨n, hn, ?_⟩
  cases hserves with
  | answered _ hgrants =>
    cases hgrants with
    | getCards _ hlist => exact hlist

end Holdings

end FutureWas
