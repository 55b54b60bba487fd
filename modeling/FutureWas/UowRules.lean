import FutureWas.Model.Dispatch

/-!
# Rules for the code of a request

Weakest preconditions of `UowM` programs, one rule for each way of building one, and the
calls that the services and handlers can issue at all. `UowM.wp S m Q R u w` says that `m`,
started with the unit of work `u` and the services at `w`, satisfies `Q` when it returns a
result or an error, and `R` when it unwinds.
-/

set_option autoImplicit false

namespace FutureWas

open Effect

namespace UowM

variable {α β W : Type}

def Ends (Q : Except GoError α → UnitOfWork → W → Prop) (R : UnitOfWork → W → Prop) :
    Outcome UnitOfWork (Except GoError α × UnitOfWork) → W → Prop
  | .ret (r, u), w => Q r u w
  | .raise u, w => R u w

def wp (S : Setting Op.Resp W) (m : UowM α) (Q : Except GoError α → UnitOfWork → W → Prop)
    (R : UnitOfWork → W → Prop) (u : UnitOfWork) (w : W) : Prop :=
  S.wp (m u) (Ends Q R) w

variable {S : Setting Op.Resp W} {Q : Except GoError α → UnitOfWork → W → Prop}
  {R : UnitOfWork → W → Prop} {u : UnitOfWork} {w : W}

theorem wp_mono {Q' : Except GoError α → UnitOfWork → W → Prop} {R' : UnitOfWork → W → Prop}
    {m : UowM α} (hQ : ∀ r u w, Q r u w → Q' r u w) (hR : ∀ u w, R u w → R' u w)
    (h : wp S m Q R u w) : wp S m Q' R' u w := by
  refine Setting.wp_mono ?_ h
  rintro (⟨r, u⟩ | u) w hw
  · exact hQ r u w hw
  · exact hR u w hw

theorem wp_bind {m : UowM β} {f : β → UowM α}
    (h : wp S m (fun r u w => match r with
      | .ok b => wp S (f b) Q R u w
      | .error err => Q (.error err) u w) R u w) : wp S (m >>= f) Q R u w := by
  refine Setting.wp_bind (Setting.wp_mono ?_ h)
  rintro (⟨r | b, u⟩ | u) w hw
  · exact hw
  · exact hw
  · exact hw

theorem wp_attempt {m : UowM β} {Q : Except GoError (Except GoError β) → UnitOfWork → W → Prop}
    (h : wp S m (fun r u w => Q (.ok r) u w) R u w) : wp S (attempt m) Q R u w := by
  refine Setting.wp_bind (Setting.wp_mono ?_ h)
  rintro (⟨r, u⟩ | u) w hw
  · exact hw
  · exact hw

theorem wp_perform {op : Op} {Q : Except GoError op.Resp → UnitOfWork → W → Prop}
    {P : W → Prop} (hP : S.Stable P) (hw : P w)
    (h : ∀ w₁, P w₁ → S.pre op w₁ ∧
      ∀ r w₂, S.step op w₁ r w₂ → S.guar op r w₁ w₂ ∧ Q (.ok r) u w₂) :
    wp S (perform op) Q R u w :=
  Setting.wp_call hP hw h

theorem wp_perform_bind {op : Op} {f : op.Resp → UowM α} {P : W → Prop} (hP : S.Stable P)
    (hw : P w) (h : ∀ w₁, P w₁ → S.pre op w₁ ∧
      ∀ r w₂, S.step op w₁ r w₂ → S.guar op r w₁ w₂ ∧ wp S (f r) Q R u w₂) :
    wp S (perform op >>= f) Q R u w :=
  wp_bind (wp_perform hP hw h)

theorem wp_traced {m : UowM α} (h : wp S m Q R u w) (tr : List (Event Op.Resp W)) :
    wp S.traced m (fun r u s => Q r u s.1 ∧ tr <+: s.2) (fun u s => R u s.1 ∧ tr <+: s.2) u
      (w, tr) := by
  refine Setting.wp_mono ?_ (Setting.wp_traced h tr)
  rintro (⟨r, u⟩ | u) s ⟨hw, t, ht, -⟩
  · exact ⟨hw, t, ht.symm⟩
  · exact ⟨hw, t, ht.symm⟩

theorem wp_local {m : UowM β} {f : β → UowM α} {b : β} {u' : UnitOfWork}
    (hm : m u = .ret (.ok b, u')) (h : wp S (f b) Q R u' w) : wp S (m >>= f) Q R u w := by
  refine wp_bind ?_
  unfold wp
  rw [hm]
  exact h

/-! ## The calls a program can issue -/

def Uses (φ : Op → Prop) (m : UowM α) : Prop := ∀ u, (m u).Uses φ

namespace Uses

variable {φ : Op → Prop}

theorem mono {ψ : Op → Prop} (h : ∀ op, φ op → ψ op) {m : UowM α} (hm : m.Uses φ) :
    m.Uses ψ :=
  fun u => (hm u).mono h

theorem ret {a : α} : (pure a : UowM α).Uses φ := fun _ => trivial

theorem throw {err : GoError} : (UowM.throw err : UowM α).Uses φ := fun _ => trivial

theorem panic : (UowM.panic : UowM α).Uses φ := fun _ => trivial

theorem get : UowM.get.Uses φ := fun _ => trivial

theorem modify {f : UnitOfWork → UnitOfWork} : (UowM.modify f).Uses φ := fun _ => trivial

theorem perform {op : Op} (h : φ op) : (UowM.perform op).Uses φ := fun _ => ⟨h, fun _ => trivial⟩

theorem bind {m : UowM β} {f : β → UowM α} (hm : m.Uses φ) (hf : ∀ b, (f b).Uses φ) :
    (m >>= f).Uses φ := by
  intro u
  refine Prog.Uses.bind (hm u) ?_
  rintro ⟨err | b, u⟩
  · trivial
  · exact hf b u

theorem attempt {m : UowM α} (hm : m.Uses φ) : (UowM.attempt m).Uses φ :=
  fun u => Prog.Uses.bind (hm u) fun _ => trivial

end Uses

/-! ## What a program leaves alone -/

def Leaves {γ : Type} (f : UnitOfWork → γ) (m : UowM α) : Prop :=
  ∀ u, (m u).Returns fun p => f p.2 = f u

namespace Leaves

variable {γ : Type} {f : UnitOfWork → γ}

theorem ret {a : α} : (pure a : UowM α).Leaves f := fun _ => rfl

theorem throw {err : GoError} : (UowM.throw err : UowM α).Leaves f := fun _ => rfl

theorem panic : (UowM.panic : UowM α).Leaves f := fun _ => trivial

theorem get : UowM.get.Leaves f := fun _ => rfl

theorem modify {g : UnitOfWork → UnitOfWork} (h : ∀ u, f (g u) = f u) :
    (UowM.modify g).Leaves f :=
  h

theorem perform {op : Op} : (UowM.perform op).Leaves f := fun _ _ => rfl

theorem bind {m : UowM β} {g : β → UowM α} (hm : m.Leaves f) (hg : ∀ b, (g b).Leaves f) :
    (m >>= g).Leaves f := by
  intro u
  refine Prog.Returns.bind (hm u) ?_
  rintro ⟨err | b, u'⟩ hu
  · exact hu
  · rw [← hu]
    exact hg b u'

end Leaves

theorem returns_bind {m : UowM β} {g : β → UowM α} {φ : Except GoError β × UnitOfWork → Prop}
    {ψ : Except GoError α × UnitOfWork → Prop} {u : UnitOfWork} (hm : (m u).Returns φ)
    (hok : ∀ b u', φ (.ok b, u') → (g b u').Returns ψ)
    (herr : ∀ err u', φ (.error err, u') → ψ (.error err, u')) : ((m >>= g) u).Returns ψ := by
  apply Prog.Returns.bind hm
  intro p hp
  obtain ⟨r, u'⟩ := p
  cases r with
  | error err => exact herr err u' hp
  | ok b => exact hok b u' hp

theorem returns_local {m : UowM β} {g : β → UowM α} {ψ : Except GoError α × UnitOfWork → Prop}
    {u v : UnitOfWork} {b : β} (hm : m u = .ret (.ok b, v)) (hg : (g b v).Returns ψ) :
    ((m >>= g) u).Returns ψ := by
  have hfirst : (m u).Returns fun p => p = (.ok b, v) := by
    rw [hm]
    rfl
  apply returns_bind hfirst
  · intro b' u'' h
    cases h
    exact hg
  · intro err u'' h
    cases h

theorem runs_bind {step : (op : Op) → W → op.Resp → W → Prop} {rely : W → W → Prop} {m : UowM β}
    {g : β → UowM α} {u : UnitOfWork} {w w' : W} {tr : List (Event Op.Resp W)}
    {o : Outcome UnitOfWork (Except GoError α × UnitOfWork)}
    (h : Runs step rely ((m >>= g) u) w tr o w') :
    (∃ v, o = .raise v ∧ Runs step rely (m u) w tr (.raise v) w') ∨
      (∃ err v, o = .ret (.error err, v) ∧ Runs step rely (m u) w tr (.ret (.error err, v)) w') ∨
      ∃ b v w₁ tr₁ tr₂, tr = tr₁ ++ tr₂ ∧ Runs step rely (m u) w tr₁ (.ret (.ok b, v)) w₁ ∧
        Runs step rely (g b v) w₁ tr₂ o w' := by
  rcases Runs.of_bind h with ⟨v, ho, hm⟩ | ⟨⟨r, v⟩, w₁, tr₁, tr₂, htr, hm, hg⟩
  · exact Or.inl ⟨v, ho, hm⟩
  · cases r with
    | error err =>
      cases hg
      rw [List.append_nil] at htr
      subst htr
      exact Or.inr (Or.inl ⟨err, v, rfl, hm⟩)
    | ok b => exact Or.inr (Or.inr ⟨b, v, w₁, tr₁, tr₂, htr, hm, hg⟩)

theorem runs_local {step : (op : Op) → W → op.Resp → W → Prop} {rely : W → W → Prop}
    {m : UowM β} {g : β → UowM α} {u v : UnitOfWork} {b : β} {w w' : W}
    {tr : List (Event Op.Resp W)} {o : Outcome UnitOfWork (Except GoError α × UnitOfWork)}
    (hm : m u = .ret (.ok b, v)) (h : Runs step rely ((m >>= g) u) w tr o w') :
    Runs step rely (g b v) w tr o w' := by
  have hbind : (m >>= g) u = g b v := by
    change (m u).bind _ = _
    rw [hm]
    rfl
  rw [← hbind]
  exact h

theorem runs_attempt {step : (op : Op) → W → op.Resp → W → Prop} {rely : W → W → Prop}
    {m : UowM α} {u : UnitOfWork} {w w' : W} {tr : List (Event Op.Resp W)}
    {o : Outcome UnitOfWork (Except GoError (Except GoError α) × UnitOfWork)}
    (h : Runs step rely (attempt m u) w tr o w') :
    (∃ v, o = .raise v ∧ Runs step rely (m u) w tr (.raise v) w') ∨
      ∃ r v, o = .ret (.ok r, v) ∧ Runs step rely (m u) w tr (.ret (r, v)) w' := by
  rcases Runs.of_bind h with ⟨v, ho, hm⟩ | ⟨⟨r, v⟩, w₁, tr₁, tr₂, htr, hm, hret⟩
  · exact Or.inl ⟨v, ho, hm⟩
  · cases hret
    rw [List.append_nil] at htr
    subst htr
    exact Or.inr ⟨r, v, rfl, hm⟩

def Within (R : UnitOfWork → UnitOfWork → Prop) (m : UowM α) : Prop :=
  ∀ u, (m u).Returns fun p => R u p.2

namespace Within

variable {R : UnitOfWork → UnitOfWork → Prop}

theorem ret (hR : ∀ u, R u u) {a : α} : (pure a : UowM α).Within R := fun u => hR u

theorem throw (hR : ∀ u, R u u) {err : GoError} : (UowM.throw err : UowM α).Within R :=
  fun u => hR u

theorem panic : (UowM.panic : UowM α).Within R := fun _ => trivial

theorem get (hR : ∀ u, R u u) : UowM.get.Within R := fun u => hR u

theorem perform (hR : ∀ u, R u u) {op : Op} : (UowM.perform op).Within R := fun u _ => hR u

theorem bind (htrans : ∀ u u' u'', R u u' → R u' u'' → R u u'') {m : UowM β} {g : β → UowM α}
    (hm : m.Within R) (hg : ∀ b, (g b).Within R) : (m >>= g).Within R := by
  intro u
  apply returns_bind (hm u)
  · exact fun b u' h => (hg b u').mono fun p hp => htrans u u' p.2 h hp
  · exact fun err u' h => h

theorem attempt {m : UowM α} (hm : m.Within R) : (UowM.attempt m).Within R :=
  fun u => Prog.Returns.bind (hm u) fun _ h => h

end Within
end UowM

/-- The calls of the unit of work and of the services: rows, cached fields, the clock and
the shard draw. -/
def Op.Storage : Op → Prop
  | .findUserID _ _ | .select _ _ _ | .create _ _ _ | .transaction _ _ _ => True
  | .cacheGet _ _ | .cacheSet _ _ _ | .cacheSetMulti _ _ _ | .cacheDeleteAll _ _ => True
  | .now | .intN _ => True
  | _ => False

def Op.Fetching : Op → Prop
  | .select _ _ _ | .cacheGet _ _ | .cacheSet _ _ _ => True
  | _ => False

def Op.Loading : Op → Prop
  | .select _ _ _ | .cacheGet _ _ | .cacheSet _ _ _ | .now => True
  | _ => False

theorem UowM.Uses.loading {α : Type} {m : UowM α} (h : m.Uses Op.Fetching) : m.Uses Op.Loading :=
  h.mono fun op hop => by cases op <;> first | exact hop | trivial

theorem Op.Loading.storage {op : Op} (h : op.Loading) : op.Storage := by
  cases op <;> trivial

/-- The calls of a handler; only `Login` creates session tokens. -/
def Op.OfHandler : Op → Prop
  | .newToken | .sessionSet _ _ => True
  | op => op.Storage

theorem Op.Storage.ofHandler {op : Op} (h : op.Storage) : op.OfHandler := by
  cases op <;> trivial

def Op.OfCache : Op → Prop
  | .cacheSetMulti _ _ _ | .cacheDeleteAll _ _ => True
  | _ => False

def Op.OfCommit : Op → Prop
  | .transaction _ _ _ | .cacheSetMulti _ _ _ | .cacheDeleteAll _ _ => True
  | _ => False

theorem Op.OfCache.ofCommit {op : Op} (h : op.OfCache) : op.OfCommit := by
  cases op <;> first | exact h | trivial

namespace Uow

open UowM

/-! ## Grouping -/

theorem groupOps_concat (ops : List DbOp) (op : DbOp) :
    groupOps (ops ++ [op]) = addToGroup op (groupOps ops) := by
  simp [groupOps]

theorem mem_addToGroup {op : DbOp} {gs : List (Option DbId × List Stmt)}
    {g : Option DbId × List Stmt} {s : Stmt} (hg : g ∈ addToGroup op gs) (hs : s ∈ g.2) :
    (⟨g.1, s⟩ : DbOp) = op ∨ ∃ g' ∈ gs, g'.1 = g.1 ∧ s ∈ g'.2 := by
  induction gs with
  | nil =>
    rw [List.mem_singleton.mp hg] at hs ⊢
    rw [List.mem_singleton.mp hs]
    exact Or.inl rfl
  | cons g₀ gs ih =>
    simp only [addToGroup] at hg
    split_ifs at hg with hdb
    · rcases List.mem_cons.mp hg with rfl | hg
      · rcases List.mem_append.mp hs with hs | hs
        · exact Or.inr ⟨g₀, List.mem_cons_self, rfl, hs⟩
        · rw [List.mem_singleton.mp hs, hdb]
          exact Or.inl rfl
      · exact Or.inr ⟨g, List.mem_cons_of_mem _ hg, rfl, hs⟩
    · rcases List.mem_cons.mp hg with rfl | hg
      · exact Or.inr ⟨g, List.mem_cons_self, rfl, hs⟩
      · refine (ih hg).imp_right fun h => ?_
        obtain ⟨g', hg', hsame⟩ := h
        exact ⟨g', List.mem_cons_of_mem _ hg', hsame⟩

theorem mem_groupOps {ops : List DbOp} {g : Option DbId × List Stmt} {s : Stmt}
    (hg : g ∈ groupOps ops) (hs : s ∈ g.2) : ⟨g.1, s⟩ ∈ ops := by
  induction ops using List.reverseRecOn generalizing g with
  | nil => simp [groupOps] at hg
  | append_singleton ops op ih =>
    rw [groupOps_concat] at hg
    rcases mem_addToGroup hg hs with hop | ⟨g', hg', hdb, hs'⟩
    · exact List.mem_append_right _ (List.mem_singleton.mpr hop)
    · rw [← hdb]
      exact List.mem_append_left _ (ih hg' hs')

theorem exists_mem_addToGroup (op : DbOp) (gs : List (Option DbId × List Stmt)) :
    (∃ g ∈ addToGroup op gs, op.stmt ∈ g.2) ∧
      ∀ s, (∃ g ∈ gs, s ∈ g.2) → ∃ g ∈ addToGroup op gs, s ∈ g.2 := by
  induction gs with
  | nil => simp [addToGroup]
  | cons g₀ gs ih =>
    simp only [addToGroup]
    split_ifs
    · refine ⟨⟨_, List.mem_cons_self, by simp⟩, ?_⟩
      rintro s ⟨g, hg, hs⟩
      rcases List.mem_cons.mp hg with rfl | hg
      · exact ⟨_, List.mem_cons_self, List.mem_append_left _ hs⟩
      · exact ⟨g, List.mem_cons_of_mem _ hg, hs⟩
    · obtain ⟨⟨g₁, hg₁, hop⟩, hrest⟩ := ih
      refine ⟨⟨g₁, List.mem_cons_of_mem _ hg₁, hop⟩, ?_⟩
      rintro s ⟨g, hg, hs⟩
      rcases List.mem_cons.mp hg with rfl | hg
      · exact ⟨g, List.mem_cons_self, hs⟩
      · obtain ⟨g', hg', hs'⟩ := hrest s ⟨g, hg, hs⟩
        exact ⟨g', List.mem_cons_of_mem _ hg', hs'⟩

theorem exists_mem_groupOps {ops : List DbOp} {op : DbOp} (hop : op ∈ ops) :
    ∃ g ∈ groupOps ops, op.stmt ∈ g.2 := by
  induction ops using List.reverseRecOn with
  | nil => cases hop
  | append_singleton ops last ih =>
    rw [groupOps_concat]
    obtain ⟨hlast, hrest⟩ := exists_mem_addToGroup last (groupOps ops)
    rcases List.mem_append.mp hop with hop | hop
    · exact hrest op.stmt (ih hop)
    · rw [List.mem_singleton.mp hop]
      exact hlast

theorem addToGroup_dbs (op : DbOp) (gs : List (Option DbId × List Stmt)) (db : Option DbId) :
    (∃ g ∈ addToGroup op gs, g.1 = db) ↔ op.db = db ∨ ∃ g ∈ gs, g.1 = db := by
  induction gs with
  | nil => simp [addToGroup]
  | cons g₀ gs ih =>
    simp only [addToGroup]
    split_ifs with hdb
    · simp only [List.exists_mem_cons_iff, ← hdb]
      tauto
    · simp only [List.exists_mem_cons_iff, ih]
      tauto

theorem groupOps_dbs (ops : List DbOp) (db : Option DbId) :
    (∃ g ∈ groupOps ops, g.1 = db) ↔ ∃ op ∈ ops, op.db = db := by
  induction ops using List.reverseRecOn with
  | nil => simp [groupOps]
  | append_singleton ops op ih =>
    rw [groupOps_concat, addToGroup_dbs, ih]
    simp only [List.mem_append, List.mem_singleton]
    constructor
    · rintro (h | ⟨o, ho, h⟩)
      · exact ⟨op, Or.inr rfl, h⟩
      · exact ⟨o, Or.inl ho, h⟩
    · rintro ⟨o, ho | rfl, h⟩
      · exact Or.inr ⟨o, ho, h⟩
      · exact Or.inl h

/-! ## The calls of services and handlers -/

variable {c : Container} {e : EntityKind}

theorem uses_clockNow : clockNow.Uses Op.Loading := .perform trivial

theorem uses_pickShard {φ : Op → Prop} (h : ∀ n, φ (.intN n)) : (pickShard c).Uses φ := by
  unfold pickShard
  split
  · exact .throw
  · refine .bind (.perform (h _)) fun r => ?_
    split
    · exact .ret
    · split
      · exact .ret
      · exact .panic

theorem pickShard_wp {W : Type} {S : Setting Op.Resp W} {P : W → Prop} (hP : S.Stable P)
    (hdraw : ∀ n w, P w → S.pre (.intN n) w ∧
      ∀ r w', S.step (.intN n) w r w' → S.guar (.intN n) r w w' ∧ P w')
    {u : UnitOfWork} {w : W} (hw : P w) :
    UowM.wp S (pickShard c) (fun _ u' w' => u' = u ∧ P w') (fun _ w' => P w') u w := by
  unfold pickShard
  split_ifs
  · exact ⟨rfl, hw⟩
  · refine wp_perform_bind hP hw ?_
    intro w₁ hw₁
    obtain ⟨hpre, hstep⟩ := hdraw _ w₁ hw₁
    refine ⟨hpre, fun r w₂ hs => ⟨(hstep r w₂ hs).1, ?_⟩⟩
    have hw₂ := (hstep r w₂ hs).2
    split
    · exact ⟨rfl, hw₂⟩
    · split
      · exact ⟨rfl, hw₂⟩
      · exact hw₂

theorem uses_loadOneFrom {route : UowM (Option DbId)} (hr : route.Uses Op.Fetching) :
    (loadOneFrom route e).Uses Op.Fetching := by
  refine .bind .get fun u => ?_
  split
  · exact .ret
  · exact .panic
  · split
    · exact .throw
    · refine .bind (.perform trivial) fun cached => ?_
      split
      · exact .bind (fun _ => trivial) fun dest => .bind .modify fun _ => .ret
      · refine .bind hr fun db => ?_
        split
        · exact .panic
        · refine .bind (.perform trivial) fun rows => ?_
          split
          · exact .throw
          · exact .throw
          · exact .bind (fun _ => trivial) fun dest =>
              .bind .modify fun _ => .bind (.perform trivial) fun _ => .ret

theorem uses_account : (account c).Uses Op.Fetching := uses_loadOneFrom .ret

theorem uses_routedDB : (routedDB c e).Uses Op.Fetching := by
  unfold routedDB
  split
  · exact .ret
  · refine .bind (.attempt uses_account) fun acc => ?_
    split
    · exact .ret
    · exact .bind (fun _ => trivial) fun m => .ret

theorem uses_loadList : (loadList c e).Uses Op.Fetching := by
  refine .bind .get fun u => ?_
  split
  · exact .ret
  · exact .panic
  · split
    · exact .throw
    · refine .bind (.perform trivial) fun cached => ?_
      split
      · exact .bind (fun _ => trivial) fun list => .bind .modify fun _ => .ret
      · refine .bind uses_routedDB fun db => ?_
        split
        · exact .panic
        · refine .bind (.perform trivial) fun rows => ?_
          split
          · exact .throw
          · exact .bind (fun _ => trivial) fun list =>
              .bind .modify fun _ => .bind (.perform trivial) fun _ => .ret

theorem uses_create {r : Ref} : (create c e r).Uses Op.Fetching :=
  .bind .modify fun _ => .bind .modify fun _ => .bind uses_routedDB fun _ => .modify

theorem uses_update {r : Ref} : (update c e r).Uses Op.Fetching :=
  .bind .modify fun _ => .bind uses_routedDB fun _ => .modify

theorem uses_createNow {r : Ref} : (createNow c e r).Uses Op.Storage := by
  refine .bind (uses_routedDB.loading.mono fun _ => Op.Loading.storage) fun db => ?_
  split
  · exact .panic
  · refine .bind (fun _ => trivial) fun m => .bind (.perform trivial) fun id => ?_
    split
    · exact .throw
    · refine .bind .modify fun _ => .bind .modify fun _ => .bind .modify fun _ => ?_
      split
      · exact .modify
      · exact .ret

theorem uses_commitGroups (groups : List (Option DbId × List Stmt)) :
    (commitGroups groups).Uses Op.OfCommit := by
  induction groups with
  | nil => exact .ret
  | cons g groups ih =>
    obtain ⟨_ | db, stmts⟩ := g
    · exact .panic
    · refine .bind .get fun u => .bind (.perform trivial) fun r => ?_
      split
      · exact .bind .modify fun _ => ih
      · exact .bind .modify fun _ => .throw
      · exact .bind .modify fun _ => .panic

theorem uses_writeBack {o : Owner} {context : String} :
    (writeBack o context).Uses Op.OfCache := by
  refine .bind .get fun u => ?_
  split
  · refine .bind (.perform trivial) fun written => ?_
    split
    · exact .ret
    · exact .throw
  · exact .ret

theorem uses_invalidate {o : Owner} : (invalidate o).Uses Op.OfCache := by
  refine .bind .get fun u => ?_
  split
  · exact .bind (.perform trivial) fun _ => .ret
  · exact .ret

theorem uses_commit : commit.Uses Op.OfCommit := by
  have hcache : ∀ {o context}, (writeBack o context).Uses Op.OfCommit :=
    uses_writeBack.mono fun _ => Op.OfCache.ofCommit
  refine .bind (.bind .get fun u => ?_) fun _ => .bind hcache fun _ => hcache
  split
  · exact .ret
  · exact .bind (uses_commitGroups _) fun _ => .modify

theorem uses_commitOrRollback : commitOrRollback.Uses Op.OfCommit := by
  refine .bind (.attempt uses_commit) fun r => ?_
  split
  · exact .ret
  · have hcache : ∀ {o}, (invalidate o).Uses Op.OfCommit :=
      uses_invalidate.mono fun _ => Op.OfCache.ofCommit
    exact .bind hcache fun _ => .bind hcache fun _ => .throw

end Uow

section

open UowM Uow

variable {c : Container}

theorem uses_firstModel {e : EntityKind} {list : List Ref} {p : Row e → Bool} :
    (firstModel e list p).Uses Op.Fetching :=
  .bind .get fun _ => .ret

theorem AssetService.uses_addAsset {assetID : UInt32} {quantity : Int64} :
    (addAsset c assetID quantity).Uses Op.Loading := by
  refine .bind (UowM.Uses.bind uses_loadList fun _ => uses_firstModel).loading fun asset => ?_
  refine .bind uses_clockNow fun now => ?_
  split
  · exact .bind .get fun u => .bind (fun _ => trivial) fun _ => uses_create.loading
  · exact .bind .modify fun _ => uses_update.loading

theorem ItemService.uses_getItem {itemID : UInt32} : (getItem c itemID).Uses Op.Fetching :=
  .bind uses_loadList fun _ => uses_firstModel

theorem ItemService.uses_addItem {itemID : UInt32} {amount : UInt64} :
    (addItem c itemID amount).Uses Op.Loading := by
  refine .bind uses_getItem.loading fun item => .bind uses_clockNow fun now => ?_
  split
  · exact .bind .modify fun _ => uses_update.loading
  · refine .bind .get fun u => ?_
    split
    · exact .throw
    · exact .bind (fun _ => trivial) fun _ => uses_create.loading

theorem ItemService.uses_consumeItem {itemID : UInt32} {amount : UInt64} :
    (consumeItem c itemID amount).Uses Op.Loading := by
  refine .bind uses_getItem.loading fun item => ?_
  split
  · exact .throw
  · refine .bind (fun _ => trivial) fun m => ?_
    split
    · exact .throw
    · exact .bind uses_clockNow fun _ => .bind .modify fun _ => uses_update.loading

theorem AccountService.uses_login {channelUID : UInt64} {deviceID : String} :
    (AccountService.login c channelUID deviceID).Uses Op.Storage := by
  have hload : ∀ op : Op, op.Loading → op.Storage := fun _ => Op.Loading.storage
  refine .bind (.perform trivial) fun r => ?_
  split
  · exact .throw
  · refine .bind (uses_clockNow.mono hload) fun now => ?_
    split
    · exact .bind (uses_pickShard fun _ => trivial) fun _ => .bind (fun _ => trivial) fun _ =>
        .bind uses_createNow fun _ => .ret
    · exact .bind .modify fun _ => .bind (uses_account.loading.mono hload) fun _ =>
        .bind .modify fun _ => .bind (uses_update.loading.mono hload) fun _ => .ret

theorem uses_grantInitial : (grantInitial c).Uses Op.Loading :=
  .bind AssetService.uses_addAsset fun _ => .bind ItemService.uses_addItem fun _ =>
    .bind (.attempt ItemService.uses_consumeItem) fun _ => .ret

theorem uses_grantIfNew {isNew : Bool} : (grantIfNew c isNew).Uses Op.Loading := by
  unfold grantIfNew
  split
  · exact uses_grantInitial
  · exact .ret

theorem uses_userSessionSet {userID : UInt64} :
    (userSessionSet userID).Uses fun op => op = .newToken ∨ ∃ t, op = .sessionSet userID t := by
  refine .bind (.perform (Or.inl rfl)) fun token => ?_
  cases token with
  | none => exact .throw
  | some token =>
    refine .bind (.perform (Or.inr ⟨token, rfl⟩)) fun stored => ?_
    cases stored with
    | false => exact .throw
    | true => exact .ret

theorem uses_login {body : Body} : (login c body).Uses Op.OfHandler := by
  unfold login
  split
  · exact .throw
  · split
    · exact .throw
    · refine .bind (AccountService.uses_login.mono fun _ => Op.Storage.ofHandler) ?_
      rintro ⟨account, isNew⟩
      refine .bind (uses_grantIfNew.mono fun _ h => (Op.Loading.storage h).ofHandler) fun _ => ?_
      have hset : ∀ userID, (userSessionSet userID).Uses Op.OfHandler := by
        intro userID
        apply uses_userSessionSet.mono
        rintro op (rfl | ⟨t, rfl⟩) <;> trivial
      refine .bind (fun _ => trivial) fun m => .bind (.attempt (hset _)) fun token => ?_
      split
      · exact .throw
      · exact .ret

theorem uses_getAssets {body : Body} : (getAssets c body).Uses Op.Fetching :=
  .bind uses_loadList fun _ => .bind .get fun _ => .ret

theorem uses_getItems {body : Body} : (getItems c body).Uses Op.Fetching :=
  .bind uses_loadList fun _ => .bind .get fun _ => .ret

theorem uses_getCards {body : Body} : (getCards c body).Uses Op.Fetching :=
  .bind uses_loadList fun _ => .bind .get fun _ => .ret

theorem uses_upgradeCardLevel {body : Body} : (upgradeCardLevel c body).Uses Op.Fetching := by
  unfold upgradeCardLevel
  split
  · exact .throw
  · refine .bind (.bind uses_loadList fun _ => uses_firstModel) fun card => ?_
    split
    · exact .throw
    · exact .bind .modify fun _ => .bind uses_update fun _ => .bind (fun _ => trivial) fun _ => .ret

theorem uses_getShopList {body : Body} : (getShopList body).Uses Op.Loading :=
  .bind .get fun _ => .bind uses_clockNow fun _ => .ret

theorem actionRegistry_uses {action : UInt32} {def_ : ActionDef}
    (h : actionRegistry c action = some def_) (body : Body) :
    (def_.handler body).Uses Op.OfHandler ∧
      (def_.noAuth = false → (def_.handler body).Uses Op.Loading) := by
  have storage : ∀ {m : UowM Message} {b : Bool}, m.Uses Op.Loading →
      m.Uses Op.OfHandler ∧ (b = false → m.Uses Op.Loading) :=
    fun hm => ⟨hm.mono fun _ h => (Op.Loading.storage h).ofHandler, fun _ => hm⟩
  unfold actionRegistry at h
  split at h
  · cases h
    exact ⟨uses_login, by simp⟩
  · split_ifs at h <;> cases h
    · exact storage (@uses_getCards c body).loading
    · exact storage (@uses_upgradeCardLevel c body).loading
    · exact storage (@uses_getItems c body).loading
    · exact storage (@uses_getAssets c body).loading
    · exact storage (@uses_getShopList body)

theorem handler_cases {action : UInt32} {def_ : ActionDef}
    (h : actionRegistry c action = some def_) :
    (action = actionLogin ∧ def_ = ⟨login c, true⟩) ∨
      (def_.noAuth = false ∧ ∀ body, (def_.handler body).Uses Op.Loading) := by
  by_cases hlogin : action = actionLogin
  · rw [hlogin] at h
    exact Or.inl ⟨hlogin, (Option.some.inj h).symm⟩
  · have hauth : def_.noAuth = false := by
      unfold actionRegistry at h
      rw [if_neg hlogin] at h
      split_ifs at h <;> cases h <;> rfl
    exact Or.inr ⟨hauth, fun body => (actionRegistry_uses h body).2 hauth⟩

def Op.OfAnswer : Op → Prop
  | .timeNow => True
  | op => op.OfCommit

def Op.OfReply : Op → Prop
  | .timeNow => True
  | op => op.OfHandler

def Op.OfServe : Op → Prop
  | .enter _ _ => True
  | op => op.OfReply

theorem Op.OfAnswer.ofReply {op : Op} (h : op.OfAnswer) : op.OfReply := by
  cases op <;> trivial

theorem Op.OfHandler.ofReply {op : Op} (h : op.OfHandler) : op.OfReply := by
  cases op <;> trivial

theorem Op.OfReply.ofServe {op : Op} (h : op.OfReply) : op.OfServe := by
  cases op <;> trivial

theorem uses_sendGameResponse {ε : Type} {action : UInt32} {code : Int32} {body : ResponseBody}
    {sync : Option SyncData} :
    (sendGameResponse action code body sync : Call ε GameResponse).Uses Op.OfAnswer :=
  ⟨trivial, fun _ => trivial⟩

theorem uses_refuse {action : UInt32} {code : Int32} {message : String} :
    (refuse action code message).Uses Op.OfAnswer :=
  uses_sendGameResponse.bind fun _ => trivial

theorem uses_finish {s : Server} {action : UInt32} {result : Message} {u : UnitOfWork} :
    (finish s action result u).Uses Op.OfAnswer := by
  have hcommit : ∀ op : Op, op.OfCommit → op.OfAnswer := by
    intro op h
    cases op <;> trivial
  refine .bind ((uses_commitOrRollback u).mono hcommit) ?_
  rintro ⟨err | _, u⟩
  · exact .bind uses_sendGameResponse fun _ => trivial
  · dsimp only
    split
    · exact .bind uses_sendGameResponse fun _ => trivial
    · exact .bind uses_sendGameResponse fun _ => trivial

theorem serve_enters {s : Server} {catalog : Catalog} {def_ : ActionDef} {req : GameRequest}
    (h : (def_.handler req.body).Uses Op.OfHandler) :
    ∃ k, serve s catalog def_ req = .call (.enter req.action req.userId) k ∧
      ∀ r, (k r).Uses Op.OfReply := by
  refine ⟨_, rfl, fun _ => ?_⟩
  refine .bind ((h _).mono fun _ => Op.OfHandler.ofReply) ?_
  rintro ⟨err | result, u⟩
  · exact .bind (uses_sendGameResponse.mono fun _ => Op.OfAnswer.ofReply) fun _ => trivial
  · exact uses_finish.mono fun _ => Op.OfAnswer.ofReply

theorem uses_serve {s : Server} {catalog : Catalog} {def_ : ActionDef} {req : GameRequest}
    (h : (def_.handler req.body).Uses Op.OfHandler) :
    (serve s catalog def_ req).Uses Op.OfServe := by
  obtain ⟨k, hserve, hk⟩ := @serve_enters s catalog def_ req h
  rw [hserve]
  exact ⟨trivial, fun r => (hk r).mono fun _ => Op.OfReply.ofServe⟩

/-! ## The stages of a request -/

theorem safe_refuse {action : UInt32} {code : Int32} {message : String} :
    (refuse action code message).Safe (· = .timeNow) :=
  ⟨rfl, fun _ => trivial⟩

def Op.OfAcquire (userID : UInt64) (op : Op) : Prop :=
  op = .newToken ∨ op = .lockWait ∨ ∃ t, op = .lockAcquire (.user userID) t

theorem safe_acquireLoop {ε : Type} {userID : UInt64} (token : String) (retries : ℕ) :
    (acquireLoop (.user userID) token retries : Call ε (Option String)).Safe
      (Op.OfAcquire userID) := by
  induction retries with
  | zero => trivial
  | succ retries ih =>
    refine ⟨Or.inr (Or.inr ⟨token, rfl⟩), fun reply => ?_⟩
    cases reply with
    | acquired => trivial
    | failed => trivial
    | held =>
      refine ⟨Or.inr (Or.inl rfl), fun cancelled => ?_⟩
      cases cancelled with
      | true => trivial
      | false => exact ih

theorem safe_acquireUserLock {ε : Type} {userID : UInt64} :
    (acquireUserLock userID : Call ε (Option String)).Safe (Op.OfAcquire userID) := by
  refine ⟨Or.inl rfl, fun token => ?_⟩
  cases token with
  | none => trivial
  | some token => exact safe_acquireLoop token userLockMaxRetries

theorem safe_authenticate {ε : Type} {def_ : ActionDef} {req : GameRequest} :
    (authenticate def_ req : Call ε (Option (Int32 × String))).Safe
      fun op => ∃ t, op = .sessionVerify req.userId t := by
  unfold authenticate verifyAndRefresh
  split_ifs
  · trivial
  · trivial
  · trivial
  · refine ⟨⟨_, rfl⟩, fun ok => ?_⟩
    rcases ok with _ | _ | _ <;> trivial

variable {W : Type} {step : (op : Op) → W → op.Resp → W → Prop} {rely : W → W → Prop}
  {w w' : W} {tr : List (Event Op.Resp W)} {o : Outcome UnitOfWork Reply} {req : GameRequest}

/-- A request with a user id runs its body between the acquisition and the release of the user
lock, or is refused; the release comes last, whether the body returns or unwinds. -/
theorem runs_underUserLock {p : Call UnitOfWork Reply}
    (h : Runs step rely (underUserLock req p) w tr o w') :
    (req.userId = 0 ∧ Runs step rely p w tr o w') ∨
      (∃ w₁ tr₁ tr₂, tr = tr₁ ++ tr₂ ∧
        Runs step rely (acquireUserLock req.userId : Call UnitOfWork _) w tr₁ (.ret none) w₁ ∧
        Runs step rely (refuse req.action codeBusy "busy, retry later") w₁ tr₂ o w') ∨
      ∃ token w₁ tr₁ w₂ tr₂ r before,
        tr = tr₁ ++ (tr₂ ++ [⟨.lockRelease (.user req.userId) token, r, before, w'⟩]) ∧
        Runs step rely (acquireUserLock req.userId : Call UnitOfWork _) w tr₁
          (.ret (some token)) w₁ ∧
        Runs step rely p w₁ tr₂ o w₂ ∧ rely w₂ before ∧
        step (.lockRelease (.user req.userId) token) before r w' := by
  unfold underUserLock at h
  split at h
  · rename_i hzero
    exact Or.inl ⟨hzero, h⟩
  · obtain ⟨a, w₁, tr₁, tr₂, rfl, hlock, hrest, -⟩ := h.of_safe_bind safe_acquireUserLock
    cases a with
    | none => exact Or.inr (Or.inl ⟨w₁, tr₁, tr₂, rfl, hlock, hrest⟩)
    | some token =>
      obtain ⟨o₁, w₂, tr₃, tr₄, rfl, hbody, hrelease⟩ := hrest.of_ensure
      refine Or.inr (Or.inr ?_)
      cases hrelease with
      | @call _ _ _ before r _ _ _ _ hrely hstep hend =>
        cases o₁ with
        | ret reply =>
          cases hend
          exact ⟨token, w₁, tr₁, w₂, tr₃, r, before, rfl, hlock, hbody, hrely, hstep⟩
        | raise u =>
          cases hend
          exact ⟨token, w₁, tr₁, w₂, tr₃, r, before, rfl, hlock, hbody, hrely, hstep⟩

/-- A request is refused after at most the session check, or passes it and is served. -/
theorem runs_dispatch {c : Container} {marshals : Message → Bool} {store : DesignStore}
    {raw : Raw} (h : Runs step rely (dispatch (server c marshals) store raw) w tr o w') :
    (∃ w₁ tr₁ tr₂ action code message, tr = tr₁ ++ tr₂ ∧
        (∀ e ∈ tr₁, ∃ t, e.op = .sessionVerify raw.userId t) ∧
        Runs step rely (refuse action code message) w₁ tr₂ o w') ∨
      ∃ req def_ catalog w₁ tr₁ tr₂, raw = .envelope req ∧
        actionRegistry c req.action = some def_ ∧
        store.getByClientVersion req.clientVersion = some catalog ∧ tr = tr₁ ++ tr₂ ∧
        Runs step rely (authenticate def_ req : Call UnitOfWork _) w tr₁ (.ret none) w₁ ∧
        Runs step rely (underUserLock req (serve (server c marshals) catalog def_ req)) w₁ tr₂ o
          w' := by
  have hrefused : ∀ {action : UInt32} {code : Int32} {message : String} {w : W},
      Runs step rely (refuse action code message) w tr o w' →
      ∃ w₁ tr₁ tr₂ action code message, tr = tr₁ ++ tr₂ ∧
        (∀ e ∈ tr₁, ∃ t, e.op = .sessionVerify raw.userId t) ∧
        Runs step rely (refuse action code message) w₁ tr₂ o w' :=
    fun hrun => ⟨_, [], tr, _, _, _, rfl, by simp, hrun⟩
  cases raw with
  | unreadable => exact Or.inl (hrefused h)
  | malformed => exact Or.inl (hrefused h)
  | envelope req =>
    simp only [dispatch] at h
    split at h
    · exact Or.inl (hrefused h)
    · rename_i def_ hdef
      split at h
      · exact Or.inl (hrefused h)
      · rename_i catalog hcatalog
        obtain ⟨refusal, w₁, tr₁, tr₂, rfl, hauth, hrest, hverifies⟩ :=
          h.of_safe_bind safe_authenticate
        cases refusal with
        | some refusal => exact Or.inl ⟨w₁, tr₁, tr₂, _, _, _, rfl, hverifies, hrest⟩
        | none =>
          exact Or.inr ⟨req, def_, catalog, w₁, tr₁, tr₂, rfl, hdef, hcatalog, rfl, hauth, hrest⟩

end

end FutureWas
