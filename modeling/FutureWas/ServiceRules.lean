import FutureWas.Routing
import FutureWas.UowRules

/-!
# Rules for services

An assertion `J X u d` relates the unit of work to the rows and cached fields, while the
statements `X` are still to be queued for models already changed or created. `Closed` lists
what each elementary step of a loader or writer must do for it: read a field, read rows, fill
a field, change a loaded model, queue a statement. Whatever the assertion is, every service
then keeps it (`Keeps`); those that add models need `Extends` besides, and `Signs` allows a
handler to store a session.
-/

set_option autoImplicit false

namespace FutureWas

open Effect UowM Uow

/-! ## Steps on the unit of work -/

/-- The columns that no service changes; the others are cleared. -/
def Row.static : {e : EntityKind} → Row e → Row e
  | .account, m => ({ m with deviceID := "", updateTime := 0 } : Account)
  | .assets, m => ({ m with quantity := 0, updateTime := 0 } : Asset)
  | .cards, m => ({ m with level := 0 } : Card)
  | .items, m => ({ m with amount := 0, updateTime := 0 } : Item)
  | .clubInfo, m => m
  | .clubMembers, m => m

namespace Stored

def refs : Stored → List Ref
  | .one r => [r]
  | .many rs => rs

end Stored

namespace UnitOfWork

def loadedOne (u : UnitOfWork) (e : EntityKind) (m : Row e) : UnitOfWork :=
  { u with heap := (u.heap.alloc e m).1 }.setStore e (.one u.heap.next)

def loadedMany (u : UnitOfWork) (e : EntityKind) (ms : List (Row e)) : UnitOfWork :=
  { u with heap := (u.heap.allocMany e ms).1 }.setStore e (.many (u.heap.allocMany e ms).2)

def changed (u : UnitOfWork) (e : EntityKind) (r : Ref) (f : Row e → Row e) : UnitOfWork :=
  { u with heap := u.heap.set e r (f (u.heap.cell e r)) }

def extended (u : UnitOfWork) (e : EntityKind) (rs : List Ref) (m : Row e) : UnitOfWork :=
  { u with heap := (u.heap.alloc e m).1 }.setStore e (.many (rs ++ [u.heap.next]))

def enqueue (u : UnitOfWork) (db : Option DbId) (s : Stmt) : UnitOfWork :=
  { u with dbOps := u.dbOps ++ [⟨db, s⟩] }

/-- The database `routedDB` finds once it has tried to load the account. -/
def route (u : UnitOfWork) (c : Container) (e : EntityKind) : Option DbId :=
  if e.isGameDB then some c.gameDB
  else match u.store .account with
    | some (.one r) => c.shards.getShard (Account.dbShardID (u.heap.cell .account r))
    | _ => none

def Held (u : UnitOfWork) (e : EntityKind) (r : Ref) : Prop :=
  ∃ s, u.store e = some s ∧ r ∈ s.refs

variable (u : UnitOfWork) (e : EntityKind) (r : Ref)

@[simp] theorem setStore_store_self (s : Stored) : (u.setStore e s).store e = some s := by
  simp [setStore]

theorem setStore_store_of_ne {e' : EntityKind} (h : e' ≠ e) (s : Stored) :
    (u.setStore e s).store e' = u.store e' := by
  simp [setStore, Function.update_of_ne h]

@[simp] theorem marked_store : (u.marked e r).store = u.store := by
  unfold marked; split <;> rfl

@[simp] theorem marked_heap : (u.marked e r).heap = u.heap := by
  unfold marked; split <;> rfl

@[simp] theorem marked_userID : (u.marked e r).userID = u.userID := by
  unfold marked; split <;> rfl

@[simp] theorem marked_clubID : (u.marked e r).clubID = u.clubID := by
  unfold marked; split <;> rfl

@[simp] theorem marked_dbOps : (u.marked e r).dbOps = u.dbOps := by
  unfold marked; split <;> rfl

@[simp] theorem marked_route (c : Container) (e' : EntityKind) :
    (u.marked e r).route c e' = u.route c e' := by
  simp [route]

@[simp] theorem loadedOne_store (m : Row e) :
    (u.loadedOne e m).store e = some (.one u.heap.next) := by
  simp [loadedOne]

theorem loadedOne_store_of_ne (m : Row e) (e' : EntityKind) (h : e' ≠ e) :
    (u.loadedOne e m).store e' = u.store e' := by
  simp [loadedOne, setStore_store_of_ne _ _ h]

@[simp] theorem loadedMany_store (ms : List (Row e)) :
    (u.loadedMany e ms).store e = some (.many (u.heap.allocMany e ms).2) := by
  simp [loadedMany]

theorem loadedMany_store_of_ne (ms : List (Row e)) (e' : EntityKind) (h : e' ≠ e) :
    (u.loadedMany e ms).store e' = u.store e' := by
  simp [loadedMany, setStore_store_of_ne _ _ h]

theorem value_loadedOne (m : Row e) :
    (u.loadedOne e m).value e (.one u.heap.next) = .one m := by
  simp [value, loadedOne, setStore]

theorem value_loadedMany (ms : List (Row e)) :
    (u.loadedMany e ms).value e (.many (u.heap.allocMany e ms).2) = .many ms := by
  simp [value, loadedMany, setStore, Heap.allocMany_values]

end UnitOfWork

/-! ## Closed assertions -/

def UnitOfWork.Kept (u u' : UnitOfWork) : Prop := ∀ e r, u.Held e r → u'.Held e r

namespace UnitOfWork

variable {u u' u'' : UnitOfWork} {e : EntityKind} {r : Ref}

theorem Kept.refl : u.Kept u := fun _ _ h => h

theorem Kept.trans (h : u.Kept u') (h' : u'.Kept u'') : u.Kept u'' :=
  fun e r hr => h' e r (h e r hr)

theorem kept_of_store (h : u'.store = u.store) : u.Kept u' := by
  intro e r hr
  simpa only [Held, h] using hr

theorem kept_of_empty (h : u.store e = none) (hother : ∀ e', e' ≠ e → u'.store e' = u.store e') :
    u.Kept u' := by
  intro e' r hr
  by_cases he : e' = e
  · subst he
    obtain ⟨s, hs, -⟩ := hr
    simp [h] at hs
  · simpa only [Held, hother e' he] using hr

theorem kept_of_loadedOne (u : UnitOfWork) (h : u.store e = none) (m : Row e) :
    u.Kept (u.loadedOne e m) :=
  kept_of_empty h (u.loadedOne_store_of_ne e m)

theorem kept_of_loadedMany (u : UnitOfWork) (h : u.store e = none) (ms : List (Row e)) :
    u.Kept (u.loadedMany e ms) :=
  kept_of_empty h (u.loadedMany_store_of_ne e ms)

end UnitOfWork

section

variable {c : Container} {e : EntityKind} {R : UnitOfWork → UnitOfWork → Prop}

/-! ### What the loaders leave alone -/

theorem within_loadOneFrom {route : UowM (Option DbId)} (hrefl : ∀ u, R u u)
    (htrans : ∀ u u' u'', R u u' → R u' u'' → R u u'') (hone : ∀ u m, R u (u.loadedOne e m))
    (hroute : route.Within R) : (loadOneFrom route e).Within R := by
  refine .bind htrans (.get hrefl) fun u => ?_
  split
  · exact .ret hrefl
  · exact .panic
  · split
    · exact .throw hrefl
    · refine .bind htrans (.perform hrefl) fun cached => ?_
      split
      · exact fun u => hone u _
      · refine .bind htrans hroute fun db => ?_
        split
        · exact .panic
        · refine .bind htrans (.perform hrefl) fun rows => ?_
          split
          · exact .throw hrefl
          · exact .throw hrefl
          · exact fun u _ => hone u _

theorem within_account (hrefl : ∀ u, R u u) (htrans : ∀ u u' u'', R u u' → R u' u'' → R u u'')
    (hone : ∀ u m, R u (u.loadedOne .account m)) : (account c).Within R :=
  within_loadOneFrom hrefl htrans hone (.ret hrefl)

theorem within_routedDB (hrefl : ∀ u, R u u) (htrans : ∀ u u' u'', R u u' → R u' u'' → R u u'')
    (hone : ∀ u m, R u (u.loadedOne .account m)) : (routedDB c e).Within R := by
  unfold routedDB
  split
  · exact .ret hrefl
  · refine .bind htrans (.attempt (within_account hrefl htrans hone)) fun acc => ?_
    split
    · exact .ret hrefl
    · exact fun u => hrefl u

theorem within_loadList (hrefl : ∀ u, R u u) (htrans : ∀ u u' u'', R u u' → R u' u'' → R u u'')
    (hone : ∀ u m, R u (u.loadedOne .account m)) (hmany : ∀ u ms, R u (u.loadedMany e ms)) :
    (loadList c e).Within R := by
  refine .bind htrans (.get hrefl) fun u => ?_
  split
  · exact .ret hrefl
  · exact .panic
  · split
    · exact .throw hrefl
    · refine .bind htrans (.perform hrefl) fun cached => ?_
      split
      · exact fun u => hmany u _
      · refine .bind htrans (within_routedDB hrefl htrans hone) fun db => ?_
        split
        · exact .panic
        · refine .bind htrans (.perform hrefl) fun rows => ?_
          split
          · exact .throw hrefl
          · exact fun u _ => hmany u _

end

section

variable (c : Container) (S : Setting Op.Resp Data)
  (J : List Stmt → UnitOfWork → Data → Prop)
  (Fresh : EntityKind → List Stmt → UnitOfWork → Data → Prop)

/-- `Fresh e X u d`: the models of kind `e` have just been read and not yet cached. -/
structure Closed : Prop where
  stable : ∀ X u, S.Stable (J X u)
  fresh_stable : ∀ e X u, S.Stable (Fresh e X u)
  now : ∀ {X u d}, J X u d → S.pre .now d ∧
    ∀ r d', S.step .now d r d' → S.guar .now r d d' ∧ J X u d'
  cacheGet : ∀ {X u d e}, J X u d → e.owner = .user → u.userID ≠ 0 →
    S.pre (.cacheGet e u.userID) d ∧ ∀ r d', S.step (.cacheGet e u.userID) d r d' →
      S.guar (.cacheGet e u.userID) r d d' ∧ J X u d' ∧ (u.store e = none →
        (∀ m, cachedOne r = some m → e.isSingleton = true → J X (u.loadedOne e m) d') ∧
        (∀ ms, cachedMany r = some ms → e.isSingleton = false → J X (u.loadedMany e ms) d'))
  select : ∀ {X u d e db}, J X u d → e.owner = .user → u.userID ≠ 0 → u.store e = none →
    u.route c e = some db → S.pre (.select db e u.userID) d ∧
      ∀ r d', S.step (.select db e u.userID) d r d' → S.guar (.select db e u.userID) r d d' ∧
        J X u d' ∧
        (∀ m ms, r = some (m :: ms) → e.isSingleton = true → Fresh e X (u.loadedOne e m) d') ∧
        (∀ ms, r = some ms → e.isSingleton = false → Fresh e X (u.loadedMany e ms) d')
  fill : ∀ {X u d e s}, Fresh e X u d → e.owner = .user → u.userID ≠ 0 → u.store e = some s →
    S.pre (.cacheSet e u.userID (u.value e s)) d ∧
      ∀ r d', S.step (.cacheSet e u.userID (u.value e s)) d r d' →
        S.guar (.cacheSet e u.userID (u.value e s)) r d d' ∧ J X u d'
  change : ∀ {u d e r f}, J [] u d → u.Held e r → (∀ m : Row e, (f m).static = m.static) →
    J [.update e r] ((u.changed e r f).marked e r) d
  queue : ∀ {u d s}, J [s] u d → J [] (u.enqueue (u.route c s.kind) s) d

def Extends : Prop :=
  ∀ {u d e rs m}, J [] u d → e.owner = .user → e.isSingleton = false →
    u.store e = some (.many rs) → m.ownerID = u.userID → m.primaryKey = 0 →
      J [.insert e u.heap.next] ((u.extended e rs m).marked e u.heap.next) d

structure Signs : Prop where
  newToken : ∀ {u d r}, J [] u d → u.Held .account r → S.pre .newToken d ∧
    ∀ token d', S.step .newToken d token d' → S.guar .newToken token d d' ∧ J [] u d'
  sessionSet : ∀ {u d r token}, J [] u d → u.Held .account r →
    S.pre (.sessionSet (Account.userID (u.heap.cell .account r)) token) d ∧
      ∀ stored d',
        S.step (.sessionSet (Account.userID (u.heap.cell .account r)) token) d stored d' →
        S.guar (.sessionSet (Account.userID (u.heap.cell .account r)) token) stored d d' ∧
          J [] u d'

/-- What unwinding leaves: some statements may not have been queued yet. -/
def Unwound (u : UnitOfWork) (d : Data) : Prop := ∃ X, J X u d

variable {α β : Type}

def Keeps (Pre : UnitOfWork → Prop) (m : UowM α) (Post : α → UnitOfWork → Prop) : Prop :=
  ∀ u d, J [] u d → Pre u →
    UowM.wp S m (fun r u' d' => J [] u' d' ∧ u.Kept u' ∧ ∀ a, r = .ok a → Post a u')
      (Unwound J) u d

variable {c S J Fresh}
variable {Pre : UnitOfWork → Prop} {Post : α → UnitOfWork → Prop}

/-! ### Sequencing -/

theorem keeps_ret {a : α} (h : ∀ u, Pre u → Post a u) : Keeps S J Pre (pure a) Post := by
  intro u d hJ hu
  refine ⟨hJ, .refl, ?_⟩
  intro a' ha
  cases ha
  exact h u hu

theorem keeps_throw {err : GoError} : Keeps S J Pre (throw err : UowM α) Post :=
  fun _ _ hJ _ => ⟨hJ, .refl, by simp⟩

theorem keeps_get : Keeps S J Pre get fun u' u => u' = u ∧ Pre u := by
  intro u d hJ hu
  refine ⟨hJ, .refl, ?_⟩
  intro a ha
  cases ha
  exact ⟨rfl, hu⟩

theorem keeps_model {e : EntityKind} {r : Ref} :
    Keeps S J Pre (model e r) fun m u => m = u.heap.cell e r ∧ Pre u := by
  intro u d hJ hu
  refine ⟨hJ, .refl, ?_⟩
  intro a ha
  cases ha
  exact ⟨rfl, hu⟩

theorem keeps_weaken {Pre' : UnitOfWork → Prop} {Post' : α → UnitOfWork → Prop} {m : UowM α}
    (h : Keeps S J Pre m Post) (hpre : ∀ u, Pre' u → Pre u)
    (hpost : ∀ a u, Post a u → Post' a u) : Keeps S J Pre' m Post' := by
  intro u d hJ hu
  refine wp_mono ?_ (fun _ _ h => h) (h u d hJ (hpre u hu))
  intro r u' d' h
  exact ⟨h.1, h.2.1, fun a ha => hpost a u' (h.2.2 a ha)⟩

theorem keeps_bind {Mid : β → UnitOfWork → Prop} {m : UowM β} {f : β → UowM α}
    (hm : Keeps S J Pre m Mid) (hf : ∀ b, Keeps S J (Mid b) (f b) Post) :
    Keeps S J Pre (m >>= f) Post := by
  intro u d hJ hu
  refine wp_bind (wp_mono ?_ (fun _ _ h => h) (hm u d hJ hu))
  intro r u₁ d₁ h
  obtain ⟨hJ₁, hkept, hmid⟩ := h
  cases r with
  | error err => exact ⟨hJ₁, hkept, by simp⟩
  | ok b =>
    refine wp_mono ?_ (fun _ _ h => h) (hf b u₁ d₁ hJ₁ (hmid b rfl))
    intro r u₂ d₂ h
    exact ⟨h.1, hkept.trans h.2.1, h.2.2⟩

theorem keeps_attempt {Mid : α → UnitOfWork → Prop} {m : UowM α} (h : Keeps S J Pre m Mid) :
    Keeps S J Pre (attempt m) fun r u => ∀ a, r = .ok a → Mid a u := by
  intro u d hJ hu
  refine wp_attempt (wp_mono ?_ (fun _ _ h => h) (h u d hJ hu))
  intro r u' d' h
  refine ⟨h.1, h.2.1, ?_⟩
  intro a ha
  cases ha
  exact h.2.2

theorem keeps_held {m : UowM α} (h : Keeps S J Pre m Post) {e : EntityKind} {r : Ref} :
    Keeps S J (fun u => Pre u ∧ u.Held e r) m fun a u => Post a u ∧ u.Held e r := by
  intro u d hJ hu
  refine wp_mono ?_ (fun _ _ h => h) (h u d hJ hu.1)
  intro o u' d' h
  exact ⟨h.1, h.2.1, fun a ha => ⟨h.2.2 a ha, h.2.1 e r hu.2⟩⟩

theorem keeps_firstModel {e : EntityKind} {rs : List Ref} {p : Row e → Bool} :
    Keeps S J (fun u => u.store e = some (.many rs)) (firstModel e rs p) fun found u =>
      (∃ rs, u.store e = some (.many rs)) ∧
        ∀ r, found = some r → u.Held e r ∧ p (u.heap.cell e r) = true := by
  refine keeps_bind keeps_get fun u₀ => keeps_ret ?_
  intro u hu
  obtain ⟨rfl, hrs⟩ := hu
  refine ⟨⟨rs, hrs⟩, fun r hr => ?_⟩
  have hfits := List.find?_some (p := fun r => p (u₀.heap.cell e r)) hr
  exact ⟨⟨.many rs, hrs, List.mem_of_find?_eq_some hr⟩, hfits⟩

/-! ### Loaders -/

variable (hC : Closed c S J Fresh)
include hC

theorem keeps_clockNow : Keeps S J Pre clockNow fun _ => Pre := by
  intro u d hJ hu
  refine wp_perform (hC.stable [] u) hJ ?_
  intro d₁ hJ₁
  obtain ⟨hpre, hstep⟩ := hC.now hJ₁
  refine ⟨hpre, fun r d₂ hs => ?_⟩
  exact ⟨(hstep r d₂ hs).1, (hstep r d₂ hs).2, .refl, fun _ _ => hu⟩

theorem account_wp {X : List Stmt} {u : UnitOfWork} {d : Data} (hJ : J X u d) :
    UowM.wp S (account c)
      (fun r u' d' => J X u' d' ∧ u.Kept u' ∧ u'.userID = u.userID ∧
        (∀ e, e ≠ .account → u'.store e = u.store e) ∧
        match r with
        | .ok acc => u'.store .account = some (.one acc)
        | .error _ => u'.store .account = none)
      (Unwound J) u d := by
  refine wp_local rfl ?_
  cases hstore : u.store .account with
  | some s =>
    cases s with
    | one r => exact ⟨hJ, .refl, rfl, fun _ _ => rfl, hstore⟩
    | many rs => exact ⟨X, hJ⟩
  | none =>
    change UowM.wp S (if u.userID = 0 then _ else _) _ _ u d
    by_cases hid : u.userID = 0
    · rw [if_pos hid]
      exact ⟨hJ, .refl, rfl, fun _ _ => rfl, hstore⟩
    · rw [if_neg hid]
      refine wp_perform_bind (hC.stable X u) hJ ?_
      intro d₁ hJ₁
      obtain ⟨hpre, hget⟩ := @Closed.cacheGet _ _ _ _ hC X u d₁ .account hJ₁ rfl hid
      refine ⟨hpre, fun cached d₂ hs => ?_⟩
      obtain ⟨hguar, hJ₂, hloaded⟩ := hget cached d₂ hs
      refine ⟨hguar, ?_⟩
      have hkept := u.kept_of_loadedOne hstore
      cases hcached : cachedOne cached with
      | some m =>
        refine wp_local rfl (wp_local rfl ?_)
        exact ⟨(hloaded hstore).1 m hcached rfl, hkept m, rfl, u.loadedOne_store_of_ne .account m,
          u.loadedOne_store .account m⟩
      | none =>
        refine wp_local rfl (wp_perform_bind (hC.stable X u) hJ₂ ?_)
        intro d₃ hJ₃
        obtain ⟨hpre₃, hselect⟩ := @Closed.select _ _ _ _ hC X u d₃ .account c.gameDB hJ₃ rfl hid
          hstore rfl
        refine ⟨hpre₃, fun rows d₄ hs₄ => ?_⟩
        obtain ⟨hguar₄, hJ₄, hfresh, -⟩ := hselect rows d₄ hs₄
        refine ⟨hguar₄, ?_⟩
        rcases rows with - | - | ⟨m, ms⟩
        · exact ⟨hJ₄, .refl, rfl, fun _ _ => rfl, hstore⟩
        · exact ⟨hJ₄, .refl, rfl, fun _ _ => rfl, hstore⟩
        · refine wp_local rfl (wp_local rfl ?_)
          refine wp_perform_bind (hC.fresh_stable .account X _) (hfresh m ms rfl rfl) ?_
          intro d₅ hF₅
          have hvalue := u.value_loadedOne .account m
          have hfill :=
            @Closed.fill _ _ _ _ hC X _ d₅ .account _ hF₅ rfl hid (u.loadedOne_store .account m)
          rw [hvalue] at hfill
          refine ⟨hfill.1, fun done d₆ hs₆ => ⟨(hfill.2 done d₆ hs₆).1, ?_⟩⟩
          exact ⟨(hfill.2 done d₆ hs₆).2, hkept m, rfl, u.loadedOne_store_of_ne .account m,
            u.loadedOne_store .account m⟩

theorem routedDB_wp {e : EntityKind} {X : List Stmt} {u : UnitOfWork} {d : Data}
    (hJ : J X u d) :
    UowM.wp S (routedDB c e)
      (fun r u' d' => r = .ok (u'.route c e) ∧ J X u' d' ∧ u.Kept u' ∧ u'.userID = u.userID ∧
        ∀ e', e' ≠ .account → u'.store e' = u.store e')
      (Unwound J) u d := by
  unfold routedDB
  by_cases he : e.isGameDB = true
  · rw [if_pos he]
    have hroute : u.route c e = some c.gameDB := by simp [UnitOfWork.route, he]
    exact ⟨by rw [hroute], hJ, .refl, rfl, fun _ _ => rfl⟩
  · rw [if_neg he]
    refine wp_bind (wp_attempt (wp_mono ?_ (fun _ _ h => h) (account_wp hC hJ)))
    intro r u' d' h
    obtain ⟨hJ', hkept, hid, hother, hacc⟩ := h
    cases r with
    | error err =>
      have hroute : u'.route c e = none := by simp [UnitOfWork.route, he, hacc]
      exact ⟨by rw [hroute], hJ', hkept, hid, hother⟩
    | ok acc =>
      refine wp_local rfl ?_
      refine ⟨?_, hJ', hkept, hid, hother⟩
      simp [UnitOfWork.route, he, hacc]

theorem keeps_loadList {e : EntityKind} (he : e.owner = .user) (hlist : e.isSingleton = false) :
    Keeps S J Pre (loadList c e) fun rs u => u.store e = some (.many rs) := by
  intro u d hJ _
  have hacc : e ≠ .account := by
    intro h
    simp [h, EntityKind.isSingleton] at hlist
  have hscope : u.scopeID e.owner = u.userID := by rw [he]; rfl
  refine wp_local rfl ?_
  rw [hscope]
  cases hstore : u.store e with
  | some s =>
    cases s with
    | one r => exact ⟨[], hJ⟩
    | many rs =>
      refine ⟨hJ, .refl, ?_⟩
      intro a ha
      cases ha
      exact hstore
  | none =>
    change UowM.wp S (if u.userID = 0 then _ else _) _ _ u d
    by_cases hid : u.userID = 0
    · rw [if_pos hid]
      exact ⟨hJ, .refl, by simp⟩
    · rw [if_neg hid]
      refine wp_perform_bind (hC.stable [] u) hJ ?_
      intro d₁ hJ₁
      obtain ⟨hpre, hget⟩ := hC.cacheGet hJ₁ he hid
      refine ⟨hpre, fun cached d₂ hs => ?_⟩
      obtain ⟨hguar, hJ₂, hloaded⟩ := hget cached d₂ hs
      refine ⟨hguar, ?_⟩
      cases hcached : cachedMany cached with
      | some ms =>
        refine wp_local rfl (wp_local rfl ?_)
        refine ⟨(hloaded hstore).2 ms hcached hlist, u.kept_of_loadedMany hstore ms, ?_⟩
        intro a ha
        cases ha
        exact u.loadedMany_store e ms
      | none =>
        refine wp_bind (wp_mono ?_ (fun _ _ h => h) (routedDB_wp hC hJ₂))
        intro r u₃ d₃ h
        obtain ⟨rfl, hJ₃, hkept, hid₃, hother⟩ := h
        have hstore₃ : u₃.store e = none := (hother e hacc).trans hstore
        dsimp only
        rw [← hid₃] at hid ⊢
        cases hroute : u₃.route c e with
        | none => exact ⟨[], hJ₃⟩
        | some db =>
          refine wp_perform_bind (hC.stable [] u₃) hJ₃ ?_
          intro d₄ hJ₄
          obtain ⟨hpre₄, hselect⟩ := hC.select hJ₄ he hid hstore₃ hroute
          refine ⟨hpre₄, fun rows d₅ hs₅ => ?_⟩
          obtain ⟨hguar₅, hJ₅, -, hfresh⟩ := hselect rows d₅ hs₅
          refine ⟨hguar₅, ?_⟩
          cases rows with
          | none => exact ⟨hJ₅, hkept, by simp⟩
          | some ms =>
            refine wp_local rfl (wp_local rfl ?_)
            refine wp_perform_bind (hC.fresh_stable e [] _) (hfresh ms rfl hlist) ?_
            intro d₆ hF₆
            have hfill := hC.fill hF₆ he hid (u₃.loadedMany_store e ms)
            rw [u₃.value_loadedMany] at hfill
            refine ⟨hfill.1, fun done d₇ hs₇ => ⟨(hfill.2 done d₇ hs₇).1, ?_⟩⟩
            refine ⟨(hfill.2 done d₇ hs₇).2, hkept.trans (u₃.kept_of_loadedMany hstore₃ ms), ?_⟩
            intro a ha
            cases ha
            exact u₃.loadedMany_store e ms

/-! ### Writers -/

theorem queueOp_wp {stmt : Stmt} {u : UnitOfWork} {d : Data} (hJ : J [stmt] u d) :
    UowM.wp S (routedDB c stmt.kind >>= fun db => queueOp db stmt)
      (fun r u' d' => J [] u' d' ∧ u.Kept u' ∧ u'.userID = u.userID ∧ r = .ok ())
      (Unwound J) u d := by
  refine wp_bind (wp_mono ?_ (fun _ _ h => h) (routedDB_wp hC hJ))
  intro r u' d' h
  obtain ⟨rfl, hJ', hkept, hid, -⟩ := h
  exact ⟨hC.queue hJ', hkept, hid, rfl⟩

theorem update_wp {e : EntityKind} {r : Ref} {f : Row e → Row e} {u : UnitOfWork} {d : Data}
    (hJ : J [] u d) (hr : u.Held e r) (hf : ∀ m : Row e, (f m).static = m.static) :
    UowM.wp S (update c e r)
      (fun o u' d' => J [] u' d' ∧ u.Kept u' ∧ u'.userID = u.userID ∧ o = .ok ())
      (Unwound J) (u.changed e r f) d := by
  have hmark : markDirty e r (u.changed e r f) = .ret (.ok (), (u.changed e r f).marked e r) := rfl
  refine wp_local hmark (wp_mono ?_ (fun _ _ h => h) (queueOp_wp hC (hC.change hJ hr hf)))
  intro o u' d' h
  have hstore : ((u.changed e r f).marked e r).store = u.store := by simp [UnitOfWork.changed]
  have hid : ((u.changed e r f).marked e r).userID = u.userID := by simp [UnitOfWork.changed]
  exact ⟨h.1, .trans (UnitOfWork.kept_of_store hstore) h.2.1, h.2.2.1.trans hid, h.2.2.2⟩

theorem keeps_update_then {e : EntityKind} {r : Ref} {f : Row e → Row e} {k : Unit → UowM α}
    (hf : ∀ m : Row e, (f m).static = m.static)
    (hk : Keeps S J (fun u => u.Held e r) (k ()) Post) :
    Keeps S J (fun u => u.Held e r) (setModel e r f >>= fun _ => update c e r >>= k) Post := by
  intro u d hJ hr
  have hset : setModel e r f u = .ret (.ok (), u.changed e r f) := rfl
  refine wp_local hset (wp_bind (wp_mono ?_ (fun _ _ h => h) (update_wp hC hJ hr hf)))
  intro o u₁ d₁ h
  obtain ⟨hJ₁, hkept, -, rfl⟩ := h
  refine wp_mono ?_ (fun _ _ h => h) (hk u₁ d₁ hJ₁ (hkept e r hr))
  intro o u₂ d₂ h
  exact ⟨h.1, hkept.trans h.2.1, h.2.2⟩

theorem keeps_update {e : EntityKind} {r : Ref} {f : Row e → Row e}
    (hf : ∀ m : Row e, (f m).static = m.static) :
    Keeps S J (fun u => u.Held e r) (setModel e r f >>= fun _ => update c e r)
      fun _ u => u.Held e r := by
  intro u d hJ hr
  have hset : setModel e r f u = .ret (.ok (), u.changed e r f) := rfl
  refine wp_local hset (wp_mono ?_ (fun _ _ h => h) (update_wp hC hJ hr hf))
  intro o u₁ d₁ h
  exact ⟨h.1, h.2.1, fun _ _ => h.2.1 e r hr⟩

omit hC in
theorem wp_create {Q : Except GoError Unit → UnitOfWork → Data → Prop}
    {R : UnitOfWork → Data → Prop} {e : EntityKind} {m : Row e} {rs : List Ref} {u : UnitOfWork}
    {d : Data} (hlist : e.isSingleton = false) (hrs : u.store e = some (.many rs))
    (h : UowM.wp S (routedDB c e >>= fun db => queueOp db (.insert e u.heap.next)) Q R
      ((u.extended e rs m).marked e u.heap.next) d) :
    UowM.wp S (new e m >>= fun r => create c e r) Q R u d := by
  have hnew : new e m u = .ret (.ok u.heap.next, { u with heap := (u.heap.alloc e m).1 }) := rfl
  have hstore : storeModel e u.heap.next { u with heap := (u.heap.alloc e m).1 } =
      .ret (.ok (), u.extended e rs m) := by
    simp [storeModel, UowM.modify, hlist, hrs, UnitOfWork.extended]
  have hmark : markDirty e u.heap.next (u.extended e rs m) =
      .ret (.ok (), (u.extended e rs m).marked e u.heap.next) := rfl
  exact wp_local hnew (wp_local hstore (wp_local hmark h))

theorem keeps_create (hE : Extends J) {e : EntityKind} {m : Row e} (he : e.owner = .user)
    (hlist : e.isSingleton = false) (hkey : m.primaryKey = 0) :
    Keeps S J (fun u => (∃ rs, u.store e = some (.many rs)) ∧ m.ownerID = u.userID)
      (new e m >>= fun r => create c e r) fun _ _ => True := by
  intro u d hJ hu
  obtain ⟨⟨rs, hrs⟩, howner⟩ := hu
  have hqueue := hE hJ he hlist hrs howner hkey
  refine wp_create hlist hrs (wp_mono ?_ (fun _ _ h => h) (queueOp_wp hC hqueue))
  intro o u₁ d₁ h
  refine ⟨h.1, .trans ?_ h.2.1, fun _ _ => trivial⟩
  intro e' r hr
  obtain ⟨s, hs, hmem⟩ := hr
  by_cases hkind : e' = e
  · subst hkind
    rw [hrs] at hs
    cases hs
    refine ⟨.many (rs ++ [u.heap.next]), by simp [UnitOfWork.extended], ?_⟩
    exact List.mem_append_left _ hmem
  · refine ⟨s, ?_, hmem⟩
    simp only [UnitOfWork.marked_store, UnitOfWork.extended,
      UnitOfWork.setStore_store_of_ne _ _ hkind]
    exact hs

/-! ### Services -/

theorem keeps_find {e : EntityKind} {p : Row e → Bool} (he : e.owner = .user)
    (hlist : e.isSingleton = false) :
    Keeps S J Pre (loadList c e >>= fun rs => firstModel e rs p) fun found u =>
      (∃ rs, u.store e = some (.many rs)) ∧
        ∀ r, found = some r → u.Held e r ∧ p (u.heap.cell e r) = true :=
  keeps_bind (keeps_loadList hC he hlist) fun _ => keeps_firstModel

theorem AssetService.keeps_addAsset (hE : Extends J) {assetID : UInt32} {quantity : Int64} :
    Keeps S J Pre (addAsset c assetID quantity) fun _ _ => True := by
  refine keeps_bind (keeps_find hC rfl rfl) fun asset => ?_
  refine keeps_bind (keeps_clockNow hC) fun now => ?_
  cases asset with
  | none =>
    refine keeps_bind keeps_get fun u₀ => ?_
    refine keeps_weaken (keeps_create hC hE rfl rfl rfl) ?_ fun _ _ h => h
    intro u hu
    exact ⟨hu.2.1, by rw [hu.1]; rfl⟩
  | some asset =>
    refine keeps_weaken (keeps_update hC ?_) (fun u hu => (hu.2 asset rfl).1) fun _ _ _ => trivial
    intro m
    rfl

theorem AssetService.keeps_consumeAsset {assetID : UInt32} {quantity : Int64} :
    Keeps S J Pre (consumeAsset c assetID quantity) fun _ _ => True := by
  refine keeps_bind (keeps_find hC rfl rfl) fun asset => ?_
  cases asset with
  | none => exact keeps_throw
  | some asset =>
    refine keeps_bind keeps_model fun m => ?_
    by_cases hless : Asset.quantity m < quantity
    · simp only [hless, if_true]
      exact keeps_throw
    · simp only [hless, if_false]
      refine keeps_bind (keeps_clockNow hC) fun now => ?_
      refine keeps_weaken (keeps_update hC ?_) (fun u hu => (hu.2.2 asset rfl).1)
        fun _ _ _ => trivial
      intro m
      rfl

theorem ItemService.keeps_addItem (hE : Extends J) {itemID : UInt32} {amount : UInt64} :
    Keeps S J Pre (addItem c itemID amount) fun _ _ => True := by
  refine keeps_bind (keeps_find hC rfl rfl) fun item => ?_
  refine keeps_bind (keeps_clockNow hC) fun now => ?_
  cases item with
  | none =>
    refine keeps_bind keeps_get fun u₀ => ?_
    cases u₀.catalog.item.lookup itemID.toInt32 with
    | none => exact keeps_throw
    | some designItem =>
      refine keeps_weaken (keeps_create hC hE rfl rfl rfl) ?_ fun _ _ h => h
      intro u hu
      exact ⟨hu.2.1, by rw [hu.1]; rfl⟩
  | some item =>
    refine keeps_weaken (keeps_update hC ?_) (fun u hu => (hu.2 item rfl).1) fun _ _ _ => trivial
    intro m
    rfl

theorem ItemService.keeps_consumeItem {itemID : UInt32} {amount : UInt64} :
    Keeps S J Pre (consumeItem c itemID amount) fun _ _ => True := by
  refine keeps_bind (keeps_find hC rfl rfl) fun item => ?_
  cases item with
  | none => exact keeps_throw
  | some item =>
    refine keeps_bind keeps_model fun m => ?_
    by_cases hless : Item.amount m < amount
    · simp only [hless, if_true]
      exact keeps_throw
    · simp only [hless, if_false]
      refine keeps_bind (keeps_clockNow hC) fun now => ?_
      refine keeps_weaken (keeps_update hC ?_) (fun u hu => (hu.2.2 item rfl).1)
        fun _ _ _ => trivial
      intro m
      rfl

theorem keeps_account : Keeps S J Pre (Uow.account c) fun acc u => u.Held .account acc := by
  intro u d hJ _
  refine wp_mono ?_ (fun _ _ h => h) (account_wp hC hJ)
  intro r u' d' h
  refine ⟨h.1, h.2.1, ?_⟩
  rintro acc rfl
  exact ⟨.one acc, h.2.2.2.2, List.mem_singleton.mpr rfl⟩

theorem AccountService.keeps_found (deviceID : String) (now : Time) :
    Keeps S J Pre (do
      let account ← Uow.account c
      setModel .account account fun m =>
        ({ m with deviceID := deviceID, updateTime := now } : Account)
      update c .account account
      pure (account, false)) fun p u => u.Held .account p.1 := by
  refine keeps_bind (keeps_account hC) fun account => ?_
  refine keeps_update_then hC ?_ (keeps_ret fun u hu => hu)
  intro m
  rfl

theorem keeps_grantInitial (hE : Extends J) :
    Keeps S J Pre (grantInitial c) fun _ _ => True := by
  refine keeps_bind (AssetService.keeps_addAsset hC hE) fun _ => ?_
  refine keeps_bind (ItemService.keeps_addItem hC hE) fun _ => ?_
  refine keeps_bind (keeps_attempt (ItemService.keeps_consumeItem hC)) fun _ => ?_
  exact keeps_ret fun _ _ => trivial

theorem keeps_grantIfNew (hE : Extends J) {isNew : Bool} :
    Keeps S J Pre (grantIfNew c isNew) fun _ _ => True := by
  cases isNew with
  | true => exact keeps_grantInitial hC hE
  | false => exact keeps_ret fun _ _ => trivial

/-! ### Handlers -/

theorem keeps_getAssets (body : Body) : Keeps S J Pre (getAssets c body) fun _ _ => True :=
  keeps_bind (keeps_loadList hC rfl rfl) fun _ => keeps_bind keeps_get fun _ =>
    keeps_ret fun _ _ => trivial

theorem keeps_getItems (body : Body) : Keeps S J Pre (getItems c body) fun _ _ => True :=
  keeps_bind (keeps_loadList hC rfl rfl) fun _ => keeps_bind keeps_get fun _ =>
    keeps_ret fun _ _ => trivial

theorem keeps_getCards (body : Body) : Keeps S J Pre (getCards c body) fun _ _ => True :=
  keeps_bind (keeps_loadList hC rfl rfl) fun _ => keeps_bind keeps_get fun _ =>
    keeps_ret fun _ _ => trivial

theorem keeps_upgradeCardLevel (body : Body) :
    Keeps S J Pre (upgradeCardLevel c body) fun _ _ => True := by
  unfold upgradeCardLevel
  cases body.upgradeCardLevel with
  | none => exact keeps_throw
  | some req =>
    refine keeps_bind (keeps_find hC rfl rfl) fun card => ?_
    cases card with
    | none => exact keeps_throw
    | some card =>
      refine keeps_weaken (keeps_update_then hC ?_ ?_) (fun u hu => (hu.2 card rfl).1)
        fun _ _ h => h
      · intro m
        rfl
      · exact keeps_bind keeps_model fun _ => keeps_ret fun _ _ => trivial

theorem keeps_getShopList (body : Body) : Keeps S J Pre (getShopList body) fun _ _ => True :=
  keeps_bind keeps_get fun _ => keeps_bind (keeps_clockNow hC) fun _ =>
    keeps_ret fun _ _ => trivial

theorem keeps_handler {action : UInt32} {def_ : ActionDef}
    (h : actionRegistry c action = some def_) (hauth : def_.noAuth = false) (body : Body) :
    Keeps S J Pre (def_.handler body) fun _ _ => True := by
  unfold actionRegistry at h
  split_ifs at h <;> cases h
  · cases hauth
  · exact keeps_getCards hC body
  · exact keeps_upgradeCardLevel hC body
  · exact keeps_getItems hC body
  · exact keeps_getAssets hC body
  · exact keeps_getShopList hC body

theorem keeps_userSessionSet (hS : Signs S J) {acc : Ref} {id : UInt64} :
    Keeps S J (fun u => u.Held .account acc ∧ id = Account.userID (u.heap.cell .account acc))
      (userSessionSet id) fun _ u =>
        u.Held .account acc ∧ id = Account.userID (u.heap.cell .account acc) := by
  intro u d hJ hu
  obtain ⟨hacc, rfl⟩ := hu
  refine wp_perform_bind (hC.stable [] u) hJ ?_
  intro d₁ hJ₁
  obtain ⟨hpre, hnew⟩ := hS.newToken hJ₁ hacc
  refine ⟨hpre, fun token d₂ hs => ?_⟩
  obtain ⟨hguar, hJ₂⟩ := hnew token d₂ hs
  refine ⟨hguar, ?_⟩
  cases token with
  | none => exact ⟨hJ₂, .refl, by simp⟩
  | some token =>
    refine wp_perform_bind (hC.stable [] u) hJ₂ ?_
    intro d₃ hJ₃
    obtain ⟨hpre₃, hset⟩ := @Signs.sessionSet _ _ hS u d₃ acc token hJ₃ hacc
    refine ⟨hpre₃, fun stored d₄ hs₄ => ?_⟩
    obtain ⟨hguar₄, hJ₄⟩ := hset stored d₄ hs₄
    refine ⟨hguar₄, ?_⟩
    cases stored with
    | true => exact ⟨hJ₄, .refl, fun _ _ => ⟨hacc, rfl⟩⟩
    | false => exact ⟨hJ₄, .refl, by simp⟩

def Names (m : Message) (u : UnitOfWork) : Prop :=
  ∃ acc res, m = .login res ∧ u.Held .account acc ∧
    res.userId = Account.userID (u.heap.cell .account acc)

def loginWith (c : Container) (account : Ref) (isNew : Bool) : UowM Message := do
  grantIfNew c isNew
  let m ← model .account account
  match ← attempt (userSessionSet (Account.userID m)) with
  | .error err => throw (.app codeInternalError ("session set: " ++ err.text))
  | .ok token =>
    pure (.login
      { userId := Account.userID m
        channelUid := Account.channelUID m
        isNew := isNew
        sessionToken := token })

def signIn (account : Ref) (isNew : Bool) : UowM Message := do
  let m ← model .account account
  match ← attempt (userSessionSet (Account.userID m)) with
  | .error err => throw (.app codeInternalError ("session set: " ++ err.text))
  | .ok token =>
    pure (.login
      { userId := Account.userID m
        channelUid := Account.channelUID m
        isNew := isNew
        sessionToken := token })

theorem keeps_signIn (hS : Signs S J) (account : Ref) (isNew : Bool) :
    Keeps S J (fun u => u.Held .account account) (signIn account isNew) Names := by
  refine keeps_bind keeps_model fun m => ?_
  refine keeps_bind (keeps_attempt (keeps_weaken (keeps_userSessionSet hC hS) (fun u hu =>
    ⟨hu.2, congrArg Account.userID hu.1⟩) fun _ _ h => h)) fun token => ?_
  cases token with
  | error err => exact keeps_throw
  | ok token =>
    refine keeps_ret fun u hu => ?_
    exact ⟨account, _, rfl, (hu token rfl).1, (hu token rfl).2⟩

theorem keeps_loginWith (hE : Extends J) (hS : Signs S J) (account : Ref) (isNew : Bool) :
    Keeps S J (fun u => u.Held .account account) (loginWith c account isNew) Names := by
  refine keeps_bind (keeps_weaken (keeps_held (keeps_grantIfNew hC hE) (r := account))
    (fun u hu => ⟨trivial, hu⟩) fun _ _ h => h.2) fun _ => ?_
  exact keeps_signIn hC hS account isNew

end

end FutureWas
