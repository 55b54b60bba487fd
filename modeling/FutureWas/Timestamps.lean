import FutureWas.Model.Sample
import FutureWas.ServiceRules
import Mathlib.Algebra.GroupWithZero.Nat

/-!
# Time stamps

`SaveTx` writes every column of a model, `update_time` included, so the column says what the
code of the request last assigned. The unit of work is `Stamped` while every queued statement
is about a model whose `update_time` is one of the clock readings so far; all services keep it,
and `UpgradeCardLevel`, which reads no clock, does not.
-/

set_option autoImplicit false

namespace FutureWas.Timestamps

open Effect UowM Uow

variable {W : Type}

/-! ## Clock readings and written rows -/

/-- The column `update_time`; the columns of the club kinds are not modelled. -/
def updateTime : {e : EntityKind} → Row e → Option Time
  | .account, m => some (Account.updateTime m)
  | .assets, m => some (Asset.updateTime m)
  | .cards, m => some (Card.updateTime m)
  | .items, m => some (Item.updateTime m)
  | .clubInfo, _ => none
  | .clubMembers, _ => none

def writes : Op → List (Σ e, Row e)
  | .create _ e m => [⟨e, m⟩]
  | .transaction _ ops h => ops.map fun s => ⟨s.kind, h.cell s.kind s.ref⟩
  | _ => []

def reading : (op : Op) → op.Resp → List Time
  | .now, t => [t]
  | _, _ => []

def clockReads (tr : List (Event Op.Resp W)) : List Time :=
  tr.flatMap fun e => reading e.op e.resp

def IsStamped (ts : List Time) (m : Σ e, Row e) : Prop := ∃ t ∈ ts, updateTime m.2 = some t

theorem updateTime_setPrimaryKey {e : EntityKind} (k : UInt64) (m : Row e) :
    updateTime (m.setPrimaryKey k) = updateTime m := by
  cases e <;> rfl

theorem IsStamped.mono {ts ts' : List Time} {m : Σ e, Row e} (h : IsStamped ts m)
    (hts : ∀ t ∈ ts, t ∈ ts') : IsStamped ts' m := by
  obtain ⟨t, ht, hm⟩ := h
  exact ⟨t, hts t ht, hm⟩

/-! ### The statements of a transaction -/

theorem updateTime_set_key (h : Heap) (e e' : EntityKind) (r r' : Ref) (k : UInt64) :
    updateTime ((h.set e' r' ((h.cell e' r').setPrimaryKey k)).cell e r)
      = updateTime (h.cell e r) := by
  by_cases hsame : e = e' ∧ r = r'
  · obtain ⟨rfl, rfl⟩ := hsame
    rw [Heap.set_cell_self, updateTime_setPrimaryKey]
  · have hne : e ≠ e' ∨ r ≠ r' := by tauto
    rw [Heap.set_cell_other h hne]

theorem stmtRun_keeps {ops : List Stmt} {t t' : Tables} {h h' : Heap}
    (hrun : StmtRun ops t h t' h') (e : EntityKind) (r : Ref) :
    updateTime (h'.cell e r) = updateTime (h.cell e r) := by
  induction hrun with
  | nil => rfl
  | insert k _ _ ih => rw [ih, updateTime_set_key]
  | update _ _ ih => exact ih

theorem stmtRun_rows {ops : List Stmt} {t t' : Tables} {h h' : Heap}
    (hrun : StmtRun ops t h t' h') {e : EntityKind} {row : Row e} (hrow : row ∈ t' e) :
    row ∈ t e ∨ ∃ s ∈ ops, s.kind = e ∧ updateTime row = updateTime (h.cell s.kind s.ref) := by
  induction hrun with
  | nil => exact Or.inl hrow
  | @insert e' r ops t h t' h' k _ _ ih =>
    rcases ih hrow with hthere | ⟨s, hs, hkind, htime⟩
    · by_cases he : e = e'
      · subst he
        rw [Tables.insert, Function.update_self, List.mem_append, List.mem_singleton] at hthere
        rcases hthere with hthere | rfl
        · exact Or.inl hthere
        · exact Or.inr ⟨_, List.mem_cons_self, rfl, updateTime_setPrimaryKey k _⟩
      · rw [Tables.insert, Function.update_of_ne he] at hthere
        exact Or.inl hthere
    · have hkeeps := updateTime_set_key h s.kind e' s.ref r k
      exact Or.inr ⟨s, List.mem_cons_of_mem _ hs, hkind, htime.trans hkeeps⟩
  | @update e' r ops t h t' h' _ _ ih =>
    rcases ih hrow with hthere | ⟨s, hs, hkind, htime⟩
    · by_cases he : e = e'
      · subst he
        rw [Tables.update, Function.update_self, List.mem_map] at hthere
        obtain ⟨old, hold, heq⟩ := hthere
        split at heq
        · rw [← heq]
          exact Or.inr ⟨_, List.mem_cons_self, rfl, rfl⟩
        · rw [← heq]
          exact Or.inl hold
      · rw [Tables.update, Function.update_of_ne he] at hthere
        exact Or.inl hthere
    · exact Or.inr ⟨s, List.mem_cons_of_mem _ hs, hkind, htime⟩

/-- What a request does to a table is what `writes` says. -/
theorem rows_of_step {op : Op} {d d' : Data} {r : op.Resp} (h : Data.Step op d r d')
    {db : DbId} {e : EntityKind} {row : Row e} (hrow : row ∈ d'.db db e) :
    row ∈ d.db db e ∨ ∃ m ∈ writes op, m.1 = e ∧ updateTime row = updateTime m.2 := by
  cases op with
  | create db' e' m =>
    rcases h with ⟨-, rfl⟩ | ⟨k, -, -, rfl⟩
    · exact Or.inl hrow
    · by_cases hdb : db = db'
      · subst hdb
        by_cases he : e = e'
        · subst he
          simp only [Data.setDb, Tables.insert, Function.update_self, List.mem_append,
            List.mem_singleton] at hrow
          rcases hrow with hrow | rfl
          · exact Or.inl hrow
          · exact Or.inr ⟨⟨e, m⟩, List.mem_singleton.mpr rfl, rfl, updateTime_setPrimaryKey k m⟩
        · simp only [Data.setDb, Tables.insert, Function.update_self,
            Function.update_of_ne he] at hrow
          exact Or.inl hrow
      · simp only [Data.setDb, Function.update_of_ne hdb] at hrow
        exact Or.inl hrow
  | transaction db' ops heap =>
    rcases h with ⟨t', h', hrun, -, rfl⟩ | ⟨-, -, rfl⟩ | ⟨-, -, rfl⟩
    · by_cases hdb : db = db'
      · subst hdb
        simp only [Data.setDb, Function.update_self] at hrow
        rcases stmtRun_rows hrun hrow with hthere | ⟨s, hs, hkind, htime⟩
        · exact Or.inl hthere
        · exact Or.inr ⟨_, List.mem_map_of_mem hs, hkind, htime⟩
      · simp only [Data.setDb, Function.update_of_ne hdb] at hrow
        exact Or.inl hrow
    · exact Or.inl hrow
    · exact Or.inl hrow
  | findUserID _ _ | select _ _ _ | cacheGet _ _ =>
    obtain ⟨rfl, -⟩ := h
    exact Or.inl hrow
  | cacheSet _ _ _ | cacheSetMulti _ _ _ | cacheDeleteAll _ _ =>
    rcases h with ⟨-, rfl⟩ | ⟨-, rfl⟩ <;> exact Or.inl hrow
  | _ =>
    cases h
    exact Or.inl hrow

/-! ## Watching the clock -/

def KeepsTimes : (op : Op) → op.Resp → Prop
  | .transaction _ _ h, .committed h' => ∀ e r, updateTime (h'.cell e r) = updateTime (h.cell e r)
  | _, _ => True

/-- The services as a request sees them through its clock readings; each call is to meet
`pre`, given the readings before it. -/
def watching (pre : Op → List Time → Prop) : Setting Op.Resp (List Time) where
  step op ts r ts' := KeepsTimes op r ∧ ts' = ts ++ reading op r
  rely := Eq
  guar _ _ _ _ := True
  pre := pre
  rely_refl _ := rfl
  rely_trans := Eq.trans

theorem keepsTimes_of_step {op : Op} {d d' : Data} {r : op.Resp} (h : Data.Step op d r d') :
    KeepsTimes op r := by
  cases op with
  | transaction db ops heap =>
    rcases h with ⟨t', h', hrun, rfl, -⟩ | ⟨h', rfl, -⟩ | ⟨h', rfl, -⟩
    · exact stmtRun_keeps hrun
    · trivial
    · trivial
  | _ => trivial

section

variable {ε α : Type} {pre : Op → List Time → Prop}

theorem watching_sound {rely : World → World → Prop} {p : Call ε α}
    {Q : Outcome ε α → List Time → Prop} {w w' : World} {tr : List (Event Op.Resp World)}
    {o : Outcome ε α} {ts : List Time} (h : (watching pre).wp p Q ts)
    (hrun : Runs World.Step rely p w tr o w') :
    ∀ e ∈ tr, ∃ ts', (∀ t ∈ ts', t ∈ ts ++ clockReads tr) ∧ pre e.op ts' := by
  induction hrun generalizing ts with
  | ret => simp
  | raise => simp
  | @call op k w w₁ r w₂ tr o w' _ hs _ ih =>
    obtain ⟨hpre, hk⟩ := h ts rfl
    obtain ⟨-, hrest⟩ := hk r _ ⟨keepsTimes_of_step hs.data, rfl⟩
    have hreads : ts ++ clockReads (⟨op, r, w₁, w₂⟩ :: tr)
        = ts ++ reading op r ++ clockReads tr := by
      rw [List.append_assoc]
      rfl
    intro e he
    rw [hreads]
    rcases List.mem_cons.mp he with rfl | he
    · refine ⟨ts, ?_, hpre⟩
      intro t ht
      rw [List.append_assoc]
      exact List.mem_append_left _ ht
    · exact ih hrest e he

def Quiet : Op → Prop
  | .now | .create _ _ _ | .transaction _ _ _ => False
  | _ => True

theorem reading_of_quiet {op : Op} (h : Quiet op) (r : op.Resp) : reading op r = [] := by
  cases op <;> first | exact absurd h id | rfl

theorem quiet_wp (hpre : ∀ op ts, Quiet op → pre op ts) {p : Call ε α} (hp : p.Uses Quiet)
    {φ : α → Prop} (hr : p.Returns φ) (ts : List Time) :
    (watching pre).wp p (fun o ts' => ts' = ts ∧ ∀ a, o = .ret a → φ a) ts := by
  induction p with
  | ret a =>
    refine ⟨rfl, ?_⟩
    intro a' ha
    cases ha
    exact hr
  | raise e => exact ⟨rfl, by simp⟩
  | call op k ih =>
    intro ts₁ hts
    obtain rfl : ts = ts₁ := hts
    refine ⟨hpre op ts hp.1, ?_⟩
    rintro r ts₂ ⟨-, hts₂⟩
    rw [reading_of_quiet hp.1, List.append_nil] at hts₂
    rw [hts₂]
    exact ⟨trivial, ih r (hp.2 r) (hr r)⟩

theorem uses_wp {φ : Op → Prop} (hpre : ∀ op ts, φ op → pre op ts) {p : Call ε α}
    (hp : p.Uses φ) (ts : List Time) : (watching pre).wp p (fun _ _ => True) ts := by
  induction p generalizing ts with
  | ret a => trivial
  | raise e => trivial
  | call op k ih =>
    intro ts₁ _
    exact ⟨hpre op ts₁ hp.1, fun r ts₂ _ => ⟨trivial, ih r (hp.2 r) ts₂⟩⟩

end

/-! ## From the handler to the request -/

section

variable {pre : Op → List Time → Prop} (hquiet : ∀ op ts, Quiet op → pre op ts)
include hquiet

theorem refuse_wp (action : UInt32) (code : Int32) (message : String) (ts : List Time) :
    (watching pre).wp (refuse action code message) (fun _ _ => True) ts := by
  refine uses_wp hquiet (safe_refuse.uses.mono ?_) ts
  rintro op rfl
  trivial

theorem underUserLock_wp {req : GameRequest} {p : Call UnitOfWork Reply}
    (hp : ∀ ts, (watching pre).wp p (fun _ _ => True) ts) (ts : List Time) :
    (watching pre).wp (underUserLock req p) (fun _ _ => True) ts := by
  have hacquire : (acquireUserLock req.userId : Call UnitOfWork _).Uses Quiet := by
    apply safe_acquireUserLock.uses.mono
    rintro op (rfl | rfl | ⟨t, rfl⟩) <;> trivial
  unfold underUserLock
  split
  · exact hp ts
  · refine Setting.wp_bind (Setting.wp_mono ?_ (uses_wp hquiet hacquire ts))
    rintro (token | u) ts₁ -
    · cases token with
      | none => exact refuse_wp hquiet _ _ _ ts₁
      | some token =>
        refine Setting.wp_ensure (Setting.wp_mono ?_ (hp ts₁))
        intro o ts₂ _
        apply uses_wp hquiet
        refine ⟨trivial, fun r => ?_⟩
        cases o <;> trivial
    · trivial

theorem dispatch_wp {c : Container} {marshals : Message → Bool} {store : DesignStore} {raw : Raw}
    (hserve : ∀ req def_ catalog, raw = .envelope req → actionRegistry c req.action = some def_ →
      ∀ ts, (watching pre).wp (serve (server c marshals) catalog def_ req) (fun _ _ => True) ts)
    (ts : List Time) :
    (watching pre).wp (dispatch (server c marshals) store raw) (fun _ _ => True) ts := by
  cases raw with
  | unreadable => exact refuse_wp hquiet _ _ _ ts
  | malformed => exact refuse_wp hquiet _ _ _ ts
  | envelope req =>
    have hauth : ∀ def_, (authenticate def_ req : Call UnitOfWork _).Uses Quiet := by
      intro def_
      apply safe_authenticate.uses.mono
      rintro op ⟨t, rfl⟩
      trivial
    simp only [dispatch]
    split
    · exact refuse_wp hquiet _ _ _ ts
    · rename_i def_ hdef
      split
      · exact refuse_wp hquiet _ _ _ ts
      · refine Setting.wp_bind (Setting.wp_mono ?_ (uses_wp hquiet (hauth def_) ts))
        rintro (refusal | u) ts₁ -
        · cases refusal with
          | some refusal => exact refuse_wp hquiet _ _ _ ts₁
          | none => exact underUserLock_wp hquiet (hserve req def_ _ rfl hdef) ts₁
        · trivial

end

/-! ## Loading -/

variable {c : Container} {e : EntityKind} {u u' u'' : UnitOfWork} {ts : List Time}

/-- What the loaders do to a unit of work: the models there were stay as they are. -/
structure Loads (u u' : UnitOfWork) : Prop where
  ops : u'.dbOps = u.dbOps
  next : u.heap.next ≤ u'.heap.next
  cell : ∀ e r, r < u.heap.next → u'.heap.cell e r = u.heap.cell e r
  held : ∀ e r, u'.Held e r → u.Held e r ∨ r < u'.heap.next

theorem Loads.refl (u : UnitOfWork) : Loads u u :=
  ⟨rfl, le_refl _, fun _ _ _ => rfl, fun _ _ => .inl⟩

theorem Loads.trans (h : Loads u u') (h' : Loads u' u'') : Loads u u'' where
  ops := h'.ops.trans h.ops
  next := le_trans h.next h'.next
  cell e r hr := (h'.cell e r (lt_of_lt_of_le hr h.next)).trans (h.cell e r hr)
  held e r hr := by
    rcases h'.held e r hr with hr' | hr'
    · exact (h.held e r hr').imp_right fun hlt => lt_of_lt_of_le hlt h'.next
    · exact Or.inr hr'

theorem loads_loadedOne (m : Row e) : Loads u (u.loadedOne e m) where
  ops := rfl
  next := Nat.le_succ _
  cell e' r hr := u.heap.alloc_cell_of_lt e e' m hr
  held e' r hr := by
    obtain ⟨s, hs, hmem⟩ := hr
    by_cases he : e' = e
    · subst he
      rw [UnitOfWork.loadedOne_store, Option.some.injEq] at hs
      rw [← hs] at hmem
      rw [List.mem_singleton.mp hmem]
      exact Or.inr (Nat.lt_succ_self _)
    · rw [UnitOfWork.loadedOne_store_of_ne u e m e' he] at hs
      exact Or.inl ⟨s, hs, hmem⟩

theorem loads_loadedMany (ms : List (Row e)) : Loads u (u.loadedMany e ms) where
  ops := rfl
  next := by
    show u.heap.next ≤ (u.heap.allocMany e ms).1.next
    rw [Heap.allocMany_next]
    exact Nat.le_add_right _ _
  cell e' r hr := u.heap.allocMany_cell_of_lt e e' ms hr
  held e' r hr := by
    obtain ⟨s, hs, hmem⟩ := hr
    by_cases he : e' = e
    · subst he
      rw [UnitOfWork.loadedMany_store, Option.some.injEq] at hs
      rw [← hs] at hmem
      exact Or.inr (u.heap.allocMany_lt e' ms hmem).2
    · rw [UnitOfWork.loadedMany_store_of_ne u e ms e' he] at hs
      exact Or.inl ⟨s, hs, hmem⟩

def Loaded {α : Type} (e : EntityKind) (stored : α → Stored) (u : UnitOfWork)
    (p : Except GoError α × UnitOfWork) : Prop :=
  Loads u p.2 ∧ ∀ a, p.1 = .ok a → p.2.store e = some (stored a)

theorem Loaded.error {α : Type} {stored : α → Stored} {err : GoError} (h : Loads u u') :
    Loaded e stored u (.error err, u') := ⟨h, by simp⟩

theorem Loaded.ok {α : Type} {stored : α → Stored} {a : α} (h : Loads u u')
    (hs : u'.store e = some (stored a)) : Loaded e stored u (.ok a, u') := by
  refine ⟨h, ?_⟩
  intro a' ha
  cases ha
  exact hs

theorem loadOneFrom_returns {route : UowM (Option DbId)}
    (hroute : ∀ u, (route u).Returns fun p => Loads u p.2) (u : UnitOfWork) :
    (loadOneFrom route e u).Returns (Loaded e Stored.one u) := by
  apply returns_local (m := get) (v := u) (b := u) rfl
  cases hstore : u.store e with
  | some s =>
    cases s with
    | one r => exact .ok (Loads.refl u) hstore
    | many rs => trivial
  | none =>
    dsimp only
    split
    · exact .error (Loads.refl u)
    · intro cached
      cases hc : cachedOne cached with
      | some m =>
        simp only [Prog.ret_bind, hc]
        exact .ok (loads_loadedOne m) (UnitOfWork.loadedOne_store _ _ _)
      | none =>
        simp only [Prog.ret_bind, hc]
        apply returns_bind (hroute u)
        · intro db u₁ hu₁
          cases db with
          | none => trivial
          | some db =>
            intro rows
            rcases rows with _ | (_ | ⟨m, ms⟩)
            · exact .error hu₁
            · exact .error hu₁
            · exact fun _ => .ok (hu₁.trans (loads_loadedOne m)) (UnitOfWork.loadedOne_store _ _ _)
        · exact fun err u₁ hu₁ => .error hu₁

theorem account_returns (u : UnitOfWork) :
    (account c u).Returns (Loaded .account Stored.one u) := by
  have hroute : ∀ u, ((pure (some c.gameDB) : UowM (Option DbId)) u).Returns
      fun p => Loads u p.2 := fun u => Loads.refl u
  exact loadOneFrom_returns hroute u

theorem routedDB_returns (u : UnitOfWork) : (routedDB c e u).Returns fun p => Loads u p.2 :=
  within_routedDB Loads.refl (fun _ _ _ h h' => h.trans h') (fun _ m => loads_loadedOne m) u

theorem loadList_returns (u : UnitOfWork) :
    (loadList c e u).Returns (Loaded e Stored.many u) := by
  apply returns_local (m := get) (v := u) (b := u) rfl
  cases hstore : u.store e with
  | some s =>
    cases s with
    | one r => trivial
    | many rs => exact .ok (Loads.refl u) hstore
  | none =>
    dsimp only
    split
    · exact .error (Loads.refl u)
    · intro cached
      cases hc : cachedMany cached with
      | some ms =>
        simp only [Prog.ret_bind, hc]
        exact .ok (loads_loadedMany ms) (UnitOfWork.loadedMany_store _ _ _)
      | none =>
        simp only [Prog.ret_bind, hc]
        apply returns_bind (routedDB_returns u)
        · intro db u₁ hu₁
          cases db with
          | none => trivial
          | some db =>
            intro rows
            cases rows with
            | none => exact .error hu₁
            | some ms =>
              exact fun _ => .ok (hu₁.trans (loads_loadedMany ms))
                (UnitOfWork.loadedMany_store _ _ _)
        · exact fun err u₁ hu₁ => .error hu₁

/-! ## Stamped units of work -/

def Stamping (op : Op) (ts : List Time) : Prop := ∀ m ∈ writes op, IsStamped ts m

theorem stamping_of_quiet {op : Op} (h : Quiet op) (ts : List Time) : Stamping op ts := by
  have hnone : writes op = [] := by cases op <;> first | exact absurd h id | rfl
  intro m hm
  rw [hnone] at hm
  cases hm

def Timed (e : EntityKind) (r : Ref) (u : UnitOfWork) (ts : List Time) : Prop :=
  r < u.heap.next ∧ IsStamped ts ⟨e, u.heap.cell e r⟩

/-- Queued statements are about stamped models; what is loaded is allocated, so new models
are none of these. -/
structure Stamped (u : UnitOfWork) (ts : List Time) : Prop where
  held : ∀ e r, u.Held e r → r < u.heap.next
  ops : ∀ op ∈ u.dbOps, Timed op.stmt.kind op.stmt.ref u ts

theorem stamped_new (userID : UInt64) (catalog : Catalog) : Stamped (.new userID catalog) ts where
  held e r hr := by
    obtain ⟨s, hs, -⟩ := hr
    cases hs
  ops op hop := by cases hop

theorem Loads.timed {r : Ref} (h : Loads u u') (hm : Timed e r u ts) : Timed e r u' ts := by
  refine ⟨lt_of_lt_of_le hm.1 h.next, ?_⟩
  rw [h.cell e r hm.1]
  exact hm.2

theorem Stamped.loads (hs : Stamped u ts) (h : Loads u u') : Stamped u' ts where
  held e r hr := (h.held e r hr).elim (fun hr => lt_of_lt_of_le (hs.held e r hr) h.next) id
  ops op hop := by
    rw [h.ops] at hop
    exact h.timed (hs.ops op hop)

theorem Stamped.read (hs : Stamped u ts) (t : Time) : Stamped u (ts ++ [t]) where
  held := hs.held
  ops op hop := ⟨(hs.ops op hop).1, (hs.ops op hop).2.mono fun _ => List.mem_append_left _⟩

def Stamps {α : Type} (Pre : UnitOfWork → List Time → Prop) (m : UowM α)
    (Post : α → UnitOfWork → List Time → Prop) : Prop :=
  ∀ u ts, Stamped u ts → Pre u ts →
    UowM.wp (watching Stamping) m
      (fun r u' ts' => Stamped u' ts' ∧ ∀ a, r = .ok a → Post a u' ts') (fun _ _ => True) u ts

section

variable {α β : Type} {Pre : UnitOfWork → List Time → Prop}
  {Post : α → UnitOfWork → List Time → Prop}

theorem stamps_ret {a : α} (h : ∀ u ts, Pre u ts → Post a u ts) :
    Stamps Pre (pure a : UowM α) Post := by
  intro u ts hs hpre
  refine ⟨hs, ?_⟩
  intro a' ha
  cases ha
  exact h u ts hpre

theorem stamps_throw {err : GoError} : Stamps Pre (throw err : UowM α) Post :=
  fun _ _ hs _ => ⟨hs, by simp⟩

theorem stamps_panic : Stamps Pre (panic : UowM α) Post := fun _ _ _ _ => trivial

theorem stamps_get {Post : UnitOfWork → List Time → Prop} (h : ∀ u ts, Pre u ts → Post u ts) :
    Stamps Pre get fun _ => Post := by
  intro u ts hs hpre
  refine ⟨hs, ?_⟩
  intro a ha
  cases ha
  exact h u ts hpre

theorem stamps_model {e : EntityKind} {r : Ref} :
    Stamps Pre (model e r) fun m u ts => m = u.heap.cell e r ∧ Pre u ts := by
  intro u ts hs hpre
  refine ⟨hs, ?_⟩
  intro m hm
  cases hm
  exact ⟨rfl, hpre⟩

theorem stamps_perform {op : Op} (hop : ∀ r, reading op r = [])
    (hpre : ∀ u ts, Pre u ts → Stamping op ts) : Stamps Pre (perform op) fun _ => Pre := by
  intro u ts hs hu ts₁ hts
  obtain rfl : ts = ts₁ := hts
  refine ⟨hpre u ts hu, ?_⟩
  rintro r ts₂ ⟨-, hts₂⟩
  rw [hop r, List.append_nil] at hts₂
  rw [hts₂]
  exact ⟨trivial, hs, fun _ _ => hu⟩

theorem stamps_bind {Mid : β → UnitOfWork → List Time → Prop} {m : UowM β} {f : β → UowM α}
    (hm : Stamps Pre m Mid) (hf : ∀ b, Stamps (Mid b) (f b) Post) : Stamps Pre (m >>= f) Post := by
  intro u ts hs hpre
  refine wp_bind (wp_mono ?_ (fun _ _ h => h) (hm u ts hs hpre))
  intro r u₁ ts₁ h
  cases r with
  | error err => exact ⟨h.1, by simp⟩
  | ok b => exact hf b u₁ ts₁ h.1 (h.2 b rfl)

theorem stamps_attempt {m : UowM α} (h : Stamps Pre m Post) :
    Stamps Pre (attempt m) fun _ _ _ => True := by
  intro u ts hs hpre
  refine wp_attempt (wp_mono ?_ (fun _ _ h => h) (h u ts hs hpre))
  exact fun r u₁ ts₁ h => ⟨h.1, fun _ _ => trivial⟩

theorem stamps_clockNow {P : UnitOfWork → Prop} :
    Stamps (fun u _ => P u) clockNow fun t u ts => P u ∧ t ∈ ts := by
  intro u ts hs hP ts₁ hts
  obtain rfl : ts = ts₁ := hts
  refine ⟨by simp [Stamping, writes, watching], ?_⟩
  rintro t ts₂ ⟨-, rfl⟩
  refine ⟨trivial, hs.read t, ?_⟩
  intro a ha
  cases ha
  exact ⟨hP, List.mem_append_right _ (List.mem_singleton.mpr rfl)⟩

theorem stamps_loads {m : UowM α} (hm : m.Uses Quiet) {φ : UnitOfWork → α → UnitOfWork → Prop}
    (hl : ∀ u, (m u).Returns fun p => Loads u p.2 ∧ ∀ a, p.1 = .ok a → φ u a p.2)
    (hpost : ∀ u ts a u', Stamped u' ts → Pre u ts → Loads u u' → φ u a u' → Post a u' ts) :
    Stamps Pre m Post := by
  intro u ts hs hpre
  refine Setting.wp_mono ?_ (quiet_wp (fun op ts h => stamping_of_quiet h ts) (hm u) (hl u) ts)
  rintro (⟨r, u'⟩ | u') ts' ⟨rfl, hr⟩
  · obtain ⟨hloads, hφ⟩ := hr _ rfl
    have hs' := hs.loads hloads
    exact ⟨hs', fun a ha => hpost u ts' a u' hs' hpre hloads (hφ a ha)⟩
  · trivial

end

/-! ## Services -/

theorem quiet_of_fetching {α : Type} {m : UowM α} (h : m.Uses Op.Fetching) : m.Uses Quiet :=
  h.mono fun op hop => by cases op <;> first | exact absurd hop id | trivial

theorem stamps_account {P : List Time → Prop} :
    Stamps (fun _ => P) (account c) fun r u ts => r < u.heap.next ∧ P ts := by
  refine stamps_loads (φ := fun _ r u => u.store .account = some (.one r))
    (quiet_of_fetching uses_account) account_returns ?_
  intro u ts r u' hs hP _ hstore
  exact ⟨hs.held .account r ⟨_, hstore, List.mem_singleton.mpr rfl⟩, hP⟩

theorem stamps_find {p : Row e → Bool} {Pre : UnitOfWork → List Time → Prop} :
    Stamps Pre (loadList c e >>= fun list => firstModel e list p)
      fun found u _ => ∀ r, found = some r → r < u.heap.next := by
  have hfind : ∀ u : UnitOfWork, ((loadList c e >>= fun list => firstModel e list p) u).Returns
      fun q => Loads u q.2 ∧ ∀ found, q.1 = .ok found → ∀ r, found = some r → q.2.Held e r := by
    intro u
    apply returns_bind (loadList_returns u)
    · intro list u₁ hu₁
      refine ⟨hu₁.1, ?_⟩
      intro found hfound r hr
      cases hfound
      exact ⟨_, hu₁.2 list rfl, List.mem_of_find?_eq_some hr⟩
    · exact fun err u₁ hu₁ => ⟨hu₁.1, by simp⟩
  refine stamps_loads (φ := fun _ found u => ∀ r, found = some r → u.Held e r)
    (quiet_of_fetching (.bind uses_loadList fun _ => uses_firstModel)) hfind ?_
  intro u ts found u' hs _ _ hheld r hr
  exact hs.held e r (hheld r hr)

theorem stamps_setModel {r : Ref} {f : Row e → Row e} :
    Stamps (fun u ts => r < u.heap.next ∧ IsStamped ts ⟨e, f (u.heap.cell e r)⟩) (setModel e r f)
      fun _ => Timed e r := by
  intro u ts hs hpre
  have hself : IsStamped ts ⟨e, (u.heap.set e r (f (u.heap.cell e r))).cell e r⟩ := by
    rw [Heap.set_cell_self]
    exact hpre.2
  refine ⟨⟨hs.held, ?_⟩, fun _ _ => ⟨hpre.1, hself⟩⟩
  intro op hop
  obtain ⟨hlt, hstamped⟩ := hs.ops op hop
  refine ⟨hlt, ?_⟩
  by_cases hsame : op.stmt.kind = e ∧ op.stmt.ref = r
  · obtain ⟨hkind, href⟩ := hsame
    subst hkind href
    exact hself
  · have hne : op.stmt.kind ≠ e ∨ op.stmt.ref ≠ r := by tauto
    show IsStamped ts ⟨op.stmt.kind, (u.heap.set e r _).cell op.stmt.kind op.stmt.ref⟩
    rw [Heap.set_cell_other u.heap hne]
    exact hstamped

theorem stamps_new {m : Row e} {t : Time} (hm : updateTime m = some t) :
    Stamps (fun _ ts => t ∈ ts) (new e m) fun r u ts => Timed e r u ts := by
  intro u ts hs ht
  have hnew : Loads u { u with heap := (u.heap.alloc e m).1 } :=
    ⟨rfl, Nat.le_succ _, fun e' r hr => u.heap.alloc_cell_of_lt e e' m hr, fun _ _ => Or.inl⟩
  refine ⟨hs.loads hnew, ?_⟩
  intro r hr
  cases hr
  refine ⟨Nat.lt_succ_self _, t, ht, ?_⟩
  show updateTime ((u.heap.alloc e m).1.cell e u.heap.next) = some t
  rw [Heap.alloc_cell_self, hm]

theorem storeModel_eq {r : Ref} (hs : Stamped u ts) (hr : r < u.heap.next) :
    ∃ s, storeModel e r u = .ret (.ok (), u.setStore e s) ∧ ∀ r' ∈ s.refs, r' < u.heap.next := by
  have hone : ∀ r' ∈ [r], r' < u.heap.next := by
    intro r' hr'
    rw [List.mem_singleton.mp hr']
    exact hr
  unfold storeModel UowM.modify
  dsimp only
  split
  · exact ⟨.one r, rfl, hone⟩
  · split
    · rename_i rs hrs
      refine ⟨.many (rs ++ [r]), rfl, ?_⟩
      intro r' hr'
      rcases List.mem_append.mp hr' with hr' | hr'
      · exact hs.held e r' ⟨_, hrs, hr'⟩
      · exact hone r' hr'
    · exact ⟨.many [r], rfl, hone⟩

theorem stamps_storeModel {r : Ref} :
    Stamps (Timed e r) (storeModel e r) fun _ => Timed e r := by
  intro u ts hs hr
  have hstored : ∀ s : Stored, (∀ r' ∈ s.refs, r' < u.heap.next) → Stamped (u.setStore e s) ts := by
    intro s hrefs
    refine ⟨?_, hs.ops⟩
    intro e' r' hheld
    obtain ⟨s', hs', hmem⟩ := hheld
    by_cases he : e' = e
    · subst he
      rw [UnitOfWork.setStore_store_self, Option.some.injEq] at hs'
      rw [← hs'] at hmem
      exact hrefs r' hmem
    · rw [UnitOfWork.setStore_store_of_ne u e he] at hs'
      exact hs.held e' r' ⟨s', hs', hmem⟩
  obtain ⟨s, hs', hrefs⟩ := storeModel_eq hs hr.1
  unfold UowM.wp
  rw [hs']
  exact ⟨hstored s hrefs, fun _ _ => hr⟩

theorem stamps_setUserID {id : UInt64} {P : List Time → Prop} :
    Stamps (fun _ => P) (setUserID id) fun _ _ => P :=
  fun _ _ hs hP => ⟨⟨hs.held, hs.ops⟩, fun _ _ => hP⟩

theorem stamps_markDirty {r : Ref} : Stamps (Timed e r) (markDirty e r) fun _ => Timed e r := by
  intro u ts hs hr
  have hloads : Loads u (u.marked e r) := by
    refine ⟨by simp, by simp, by simp, ?_⟩
    intro e' r' hheld
    rw [UnitOfWork.Held, UnitOfWork.marked_store] at hheld
    exact Or.inl hheld
  exact ⟨hs.loads hloads, fun _ _ => hloads.timed hr⟩

theorem stamps_routedDB {r : Ref} : Stamps (Timed e r) (routedDB c e) fun _ => Timed e r := by
  refine stamps_loads (φ := fun _ _ _ => True) (quiet_of_fetching uses_routedDB)
    (fun u => (routedDB_returns u).mono fun p hp => ⟨hp, fun _ _ => trivial⟩) ?_
  exact fun u ts a u' _ hr hloads _ => hloads.timed hr

theorem stamps_queue {r : Ref} {s : Stmt} (hkind : s.kind = e) (href : s.ref = r) :
    Stamps (Timed e r) (routedDB c e >>= fun db => queueOp db s) fun _ _ _ => True := by
  subst hkind href
  refine stamps_bind stamps_routedDB fun db => ?_
  intro u ts hs hr
  refine ⟨⟨hs.held, ?_⟩, fun _ _ => trivial⟩
  intro op hop
  rcases List.mem_append.mp hop with hop | hop
  · exact hs.ops op hop
  · rw [List.mem_singleton.mp hop]
    exact hr

theorem stamps_update {r : Ref} : Stamps (Timed e r) (update c e r) fun _ _ _ => True :=
  stamps_bind stamps_markDirty fun _ => stamps_queue rfl rfl

theorem stamps_create {r : Ref} : Stamps (Timed e r) (create c e r) fun _ _ _ => True :=
  stamps_bind stamps_storeModel fun _ => stamps_bind stamps_markDirty fun _ => stamps_queue rfl rfl

abbrev Keeping {α : Type} (m : UowM α) : Prop := Stamps (fun _ _ => True) m fun _ _ _ => True

theorem stamps_assign {Pre : UnitOfWork → List Time → Prop} {r : Ref} {f : Row e → Row e}
    {t : Time} (hf : ∀ m, updateTime (f m) = some t)
    (hpre : ∀ u ts, Pre u ts → r < u.heap.next ∧ t ∈ ts) :
    Stamps Pre (setModel e r f >>= fun _ => update c e r) fun _ _ _ => True := by
  refine stamps_bind (fun u ts hs h => ?_) fun _ => stamps_update
  obtain ⟨hr, ht⟩ := hpre u ts h
  exact stamps_setModel u ts hs ⟨hr, t, ht, hf _⟩

theorem stamps_insert {m : Row e} {t : Time} (hm : updateTime m = some t) :
    Stamps (fun _ ts => t ∈ ts) (new e m >>= fun r => create c e r) fun _ _ _ => True :=
  stamps_bind (stamps_new hm) fun _ => stamps_create

theorem stamps_addAsset {assetID : UInt32} {quantity : Int64} :
    Keeping (AssetService.addAsset c assetID quantity) := by
  refine stamps_bind stamps_find fun asset => stamps_bind stamps_clockNow fun now => ?_
  cases asset with
  | none =>
    exact stamps_bind (stamps_get fun _ _ h => h.2) fun u₀ => stamps_insert rfl
  | some asset => exact stamps_assign (fun _ => rfl) fun _ _ h => ⟨h.1 _ rfl, h.2⟩

theorem stamps_consumeAsset {assetID : UInt32} {quantity : Int64} :
    Keeping (AssetService.consumeAsset c assetID quantity) := by
  refine stamps_bind stamps_find fun asset => ?_
  cases asset with
  | none => exact stamps_throw
  | some asset =>
    refine stamps_bind stamps_model fun m => ?_
    split
    · exact stamps_throw
    · refine stamps_bind stamps_clockNow fun now => ?_
      exact stamps_assign (fun _ => rfl) fun _ _ h => ⟨h.1.2 _ rfl, h.2⟩

theorem stamps_addItem {itemID : UInt32} {amount : UInt64} :
    Keeping (ItemService.addItem c itemID amount) := by
  refine stamps_bind stamps_find fun item => stamps_bind stamps_clockNow fun now => ?_
  cases item with
  | some item => exact stamps_assign (fun _ => rfl) fun _ _ h => ⟨h.1 _ rfl, h.2⟩
  | none =>
    refine stamps_bind (stamps_get fun _ _ h => h.2) fun u₀ => ?_
    split
    · exact stamps_throw
    · exact stamps_insert rfl

theorem stamps_consumeItem {itemID : UInt32} {amount : UInt64} :
    Keeping (ItemService.consumeItem c itemID amount) := by
  refine stamps_bind stamps_find fun item => ?_
  cases item with
  | none => exact stamps_throw
  | some item =>
    refine stamps_bind stamps_model fun m => ?_
    split
    · exact stamps_throw
    · refine stamps_bind stamps_clockNow fun now => ?_
      exact stamps_assign (fun _ => rfl) fun _ _ h => ⟨h.1.2 _ rfl, h.2⟩

theorem stamps_grantIfNew {isNew : Bool} : Keeping (grantIfNew c isNew) := by
  unfold grantIfNew
  split
  · exact stamps_bind stamps_addAsset fun _ => stamps_bind stamps_addItem fun _ =>
      stamps_bind (stamps_attempt stamps_consumeItem) fun _ => stamps_ret fun _ _ h => h
  · exact stamps_ret fun _ _ h => h

theorem stamps_createNow {r : Ref} : Stamps (Timed e r) (createNow c e r) fun _ _ _ => True := by
  have hkey : ∀ id : UInt64, Stamps (Timed e r) (setModel e r (Row.setPrimaryKey id))
      fun _ => Timed e r := by
    intro id u ts hs hr
    obtain ⟨hlt, t, ht, htime⟩ := hr
    have hstamped : updateTime ((u.heap.cell e r).setPrimaryKey id) = some t := by
      rw [updateTime_setPrimaryKey]
      exact htime
    exact stamps_setModel u ts hs ⟨hlt, t, ht, hstamped⟩
  refine stamps_bind stamps_routedDB fun db => ?_
  cases db with
  | none => exact stamps_panic
  | some db =>
    refine stamps_bind stamps_model fun m =>
      stamps_bind (stamps_perform (fun _ => rfl) ?_) fun id => ?_
    · intro u ts h row hrow
      obtain ⟨rfl, hr⟩ := h
      rw [List.mem_singleton.mp hrow]
      exact hr.2
    · cases id with
      | none => exact stamps_throw
      | some id =>
        refine stamps_bind (fun u ts hs h => hkey id u ts hs h.2) fun _ =>
          stamps_bind stamps_storeModel fun _ => stamps_bind stamps_markDirty fun _ => ?_
        split
        · exact fun u ts hs _ => stamps_setUserID u ts hs trivial
        · exact stamps_ret fun _ _ _ => trivial

theorem stamps_pickShard {Pre : UnitOfWork → List Time → Prop} :
    Stamps Pre (pickShard c) fun _ => Pre := by
  intro u ts hs hpre
  have hstable : (watching Stamping).Stable fun ts' => ts' = ts := by
    rintro ts₁ ts₂ rfl h
    exact h
  refine wp_mono ?_ (fun _ _ _ => trivial) (pickShard_wp hstable ?_ rfl)
  · rintro r u' ts' ⟨rfl, rfl⟩
    exact ⟨hs, fun _ _ => hpre⟩
  · rintro n ts₁ rfl
    have hquiet : Quiet (.intN n) := trivial
    refine ⟨stamping_of_quiet hquiet ts₁, ?_⟩
    rintro r ts₂ ⟨-, rfl⟩
    exact ⟨trivial, List.append_nil _⟩

theorem stamps_login {channelUID : UInt64} {deviceID : String} :
    Keeping (AccountService.login c channelUID deviceID) := by
  have hquiet : ∀ ts, Stamping (.findUserID c.gameDB channelUID) ts := stamping_of_quiet trivial
  refine stamps_bind (stamps_perform (fun _ => rfl) fun _ ts _ => hquiet ts) fun r => ?_
  cases r with
  | none => exact stamps_throw
  | some found =>
    refine stamps_bind stamps_clockNow fun now => ?_
    cases found with
    | none =>
      refine stamps_bind stamps_pickShard fun shardID => ?_
      refine stamps_bind (fun u ts hs h => stamps_new rfl u ts hs h.2) fun account => ?_
      exact stamps_bind stamps_createNow fun _ => stamps_ret fun _ _ h => h
    | some userID =>
      refine stamps_bind (fun u ts hs h => stamps_setUserID u ts hs h.2) fun _ => ?_
      refine stamps_bind stamps_account fun account => ?_
      refine stamps_bind (fun u ts hs h => ?_) fun _ =>
        stamps_bind stamps_update fun _ => stamps_ret fun _ _ h => h
      exact stamps_setModel u ts hs ⟨h.1, now, h.2, rfl⟩

theorem stamps_userSessionSet {userID : UInt64} : Keeping (userSessionSet userID) := by
  have hnew : ∀ ts, Stamping .newToken ts := stamping_of_quiet trivial
  refine stamps_bind (stamps_perform (fun _ => rfl) fun _ ts _ => hnew ts) fun token => ?_
  cases token with
  | none => exact stamps_throw
  | some token =>
    have hset : ∀ ts, Stamping (.sessionSet userID token) ts := stamping_of_quiet trivial
    refine stamps_bind (stamps_perform (fun _ => rfl) fun _ ts _ => hset ts) fun stored => ?_
    split
    · exact stamps_ret fun _ _ h => h
    · exact stamps_throw

/-! ## Handlers -/

theorem stamps_loginHandler (body : Body) : Keeping (login c body) := by
  unfold login
  split
  · exact stamps_throw
  · split
    · exact stamps_throw
    · refine stamps_bind stamps_login fun found => stamps_bind stamps_grantIfNew fun _ => ?_
      refine stamps_bind stamps_model fun m => ?_
      refine stamps_bind (fun u ts hs _ =>
        stamps_attempt stamps_userSessionSet u ts hs trivial) fun token => ?_
      cases token with
      | error err => exact stamps_throw
      | ok token => exact stamps_ret fun _ _ h => h

theorem stamps_list {f : UnitOfWork → List Ref → Message} :
    Keeping (loadList c e >>= fun list => get >>= fun u => pure (f u list)) := by
  refine stamps_bind ?_ fun list => stamps_bind (stamps_get fun _ _ h => h) fun u =>
    stamps_ret fun _ _ h => h
  refine stamps_loads (φ := fun _ _ _ => True) (quiet_of_fetching uses_loadList)
    (fun u => (loadList_returns u).mono fun p hp => ⟨hp.1, fun _ _ => trivial⟩) ?_
  exact fun _ _ _ _ _ _ _ _ => trivial

theorem stamps_handler {action : UInt32} {def_ : ActionDef}
    (h : actionRegistry c action = some def_) (hne : action ≠ actionUpgradeCardLevel)
    (body : Body) : Keeping (def_.handler body) := by
  unfold actionRegistry at h
  split_ifs at h <;> cases h
  · exact stamps_loginHandler body
  · exact stamps_list
  · exact stamps_list
  · exact stamps_list
  · exact stamps_bind (stamps_get fun _ _ h => h) fun u =>
      stamps_bind stamps_clockNow fun now => stamps_ret fun _ _ _ => trivial

/-! ## Commits -/

def Ready (groups : List (Option DbId × List Stmt)) (u : UnitOfWork) (ts : List Time) : Prop :=
  ∀ g ∈ groups, ∀ s ∈ g.2, IsStamped ts ⟨s.kind, u.heap.cell s.kind s.ref⟩

theorem commitGroups_wp {groups : List (Option DbId × List Stmt)} (h : Ready groups u ts) :
    UowM.wp (watching Stamping) (commitGroups groups) (fun _ _ _ => True) (fun _ _ => True)
      u ts := by
  induction groups generalizing u ts with
  | nil => trivial
  | cons g groups ih =>
    obtain ⟨db, stmts⟩ := g
    cases db with
    | none => trivial
    | some db =>
      obtain ⟨hstmts, hrest⟩ := List.forall_mem_cons.mp h
      refine wp_local (b := u) rfl ?_
      intro ts₁ hts
      obtain rfl : ts = ts₁ := hts
      refine ⟨?_, ?_⟩
      · intro m hm
        obtain ⟨s, hs, rfl⟩ := List.mem_map.mp hm
        exact hstmts s hs
      · rintro reply ts₂ ⟨hkeeps, hts₂⟩
        obtain rfl : ts₂ = ts := hts₂.trans (List.append_nil _)
        refine ⟨trivial, ?_⟩
        cases reply with
        | failed h' => trivial
        | panicked h' => trivial
        | committed h' =>
          apply ih
          intro g hg s hs
          obtain ⟨t, ht, htime⟩ := hrest g hg s hs
          exact ⟨t, ht, (hkeeps s.kind s.ref).trans htime⟩

theorem quiet_of_cache {α : Type} {m : UowM α} (h : m.Uses Op.OfCache) : m.Uses Quiet :=
  h.mono fun op hop => by cases op <;> first | exact absurd hop id | trivial

theorem cache_wp {α : Type} {m : UowM α} (h : m.Uses Op.OfCache) :
    UowM.wp (watching Stamping) m (fun _ _ _ => True) (fun _ _ => True) u ts := by
  refine Setting.wp_mono ?_
    (uses_wp (fun op ts h => stamping_of_quiet h ts) (quiet_of_cache h u) ts)
  rintro (⟨r, u'⟩ | u') ts' - <;> trivial

theorem runOps_wp (hs : Stamped u ts) :
    UowM.wp (watching Stamping) runOps (fun _ _ _ => True) (fun _ _ => True) u ts := by
  refine wp_local (b := u) rfl ?_
  split
  · trivial
  · have hready : Ready (groupOps u.dbOps) u ts := by
      intro g hg s hs'
      exact (hs.ops _ (mem_groupOps hg hs')).2
    refine wp_bind (wp_mono ?_ (fun _ _ h => h) (commitGroups_wp hready))
    rintro (err | _) u' ts' - <;> trivial

theorem commitOrRollback_wp (hs : Stamped u ts) :
    UowM.wp (watching Stamping) commitOrRollback (fun _ _ _ => True) (fun _ _ => True) u ts := by
  refine wp_bind (wp_attempt (wp_bind (wp_mono ?_ (fun _ _ h => h) (runOps_wp hs))))
  rintro (err | _) u₁ ts₁ -
  · exact cache_wp (.bind uses_invalidate fun _ => .bind uses_invalidate fun _ => .throw)
  · refine wp_mono ?_ (fun _ _ h => h) (cache_wp (.bind uses_writeBack fun _ => uses_writeBack))
    rintro (err | _) u₂ ts₂ -
    · exact cache_wp (.bind uses_invalidate fun _ => .bind uses_invalidate fun _ => .throw)
    · trivial

/-! ## Services -/

inductive ServiceCall
  | login (channelUID : UInt64) (deviceID : String)
  | addAsset (assetID : UInt32) (quantity : Int64)
  | consumeAsset (assetID : UInt32) (quantity : Int64)
  | addItem (itemID : UInt32) (amount : UInt64)
  | consumeItem (itemID : UInt32) (amount : UInt64)

namespace ServiceCall

def run (c : Container) : ServiceCall → UowM Unit
  | login channelUID deviceID =>
    AccountService.login c channelUID deviceID >>= fun _ => pure ()
  | addAsset assetID quantity => AssetService.addAsset c assetID quantity
  | consumeAsset assetID quantity => AssetService.consumeAsset c assetID quantity
  | addItem itemID amount => ItemService.addItem c itemID amount
  | consumeItem itemID amount => ItemService.consumeItem c itemID amount

/-- Calls one after the other; one that fails does not stop those after it. -/
def runAll (c : Container) : List ServiceCall → UowM Unit
  | [] => pure ()
  | call :: calls => attempt (call.run c) >>= fun _ => runAll c calls

theorem stamps_run (call : ServiceCall) : Keeping (call.run c) := by
  cases call with
  | login channelUID deviceID => exact stamps_bind stamps_login fun _ => stamps_ret fun _ _ h => h
  | addAsset assetID quantity => exact stamps_addAsset
  | consumeAsset assetID quantity => exact stamps_consumeAsset
  | addItem itemID amount => exact stamps_addItem
  | consumeItem itemID amount => exact stamps_consumeItem

theorem stamps_runAll (calls : List ServiceCall) : Keeping (runAll c calls) := by
  induction calls with
  | nil => exact stamps_ret fun _ _ h => h
  | cons call calls ih =>
    refine stamps_bind (stamps_attempt (stamps_run call)) fun _ => ?_
    exact fun u ts hs _ => ih u ts hs trivial

/-- Whatever a unit of work asks of the services, its rows have the time of a clock reading. -/
theorem writes_stamped (calls : List ServiceCall) {userID : UInt64} {catalog : Catalog}
    {rely : World → World → Prop} {w w' : World} {tr : List (Event Op.Resp World)}
    {o : Outcome UnitOfWork (Except GoError Unit × UnitOfWork)}
    (h : Runs World.Step rely
      ((runAll c calls >>= fun _ => commitOrRollback) (UnitOfWork.new userID catalog)) w tr o w') :
    ∀ e ∈ tr, ∀ m ∈ writes e.op, IsStamped (clockReads tr) m := by
  have hwp : (watching Stamping).wp
      ((runAll c calls >>= fun _ => commitOrRollback) (UnitOfWork.new userID catalog))
      (fun _ _ => True) [] := by
    have hrun := stamps_runAll (c := c) calls (.new userID catalog) [] (stamped_new _ _) trivial
    refine Setting.wp_bind (Setting.wp_mono ?_ hrun)
    rintro (⟨err | _, u⟩ | u) ts hu
    · trivial
    · exact Setting.wp_mono (fun _ _ _ => trivial) (commitOrRollback_wp hu.1)
    · trivial
  intro e he m hm
  obtain ⟨ts, hts, hstamping⟩ := watching_sound hwp h e he
  exact (hstamping m hm).mono hts

end ServiceCall

/-! ## Requests -/

theorem response_wp {action : UInt32} {code : Int32} {body : ResponseBody}
    {sync : Option SyncData} :
    (watching Stamping).wp ((sendGameResponse action code body sync).bind fun res =>
      (.ret ⟨res, some u⟩ : Call UnitOfWork Reply)) (fun _ _ => True) ts := by
  refine uses_wp (fun op ts h => stamping_of_quiet h ts) ?_ ts
  exact ⟨trivial, fun _ => trivial⟩

theorem finish_wp {s : Server} {action : UInt32} {result : Message} (hs : Stamped u ts) :
    (watching Stamping).wp (finish s action result u) (fun _ _ => True) ts := by
  refine Setting.wp_bind (Setting.wp_mono ?_ (commitOrRollback_wp hs))
  rintro (⟨err | _, u₁⟩ | u₁) ts₁ -
  · exact response_wp
  · dsimp only
    split
    · exact response_wp
    · exact response_wp
  · trivial

theorem serve_wp {marshals : Message → Bool} {catalog : Catalog} {def_ : ActionDef}
    {req : GameRequest} (hdef : actionRegistry c req.action = some def_)
    (hne : req.action ≠ actionUpgradeCardLevel) (ts : List Time) :
    (watching Stamping).wp (serve (server c marshals) catalog def_ req) (fun _ _ => True) ts := by
  have henter : Quiet (.enter req.action req.userId) := trivial
  intro ts₁ hts
  obtain rfl : ts = ts₁ := hts
  refine ⟨stamping_of_quiet henter ts, ?_⟩
  rintro r ts₂ ⟨-, hts₂⟩
  obtain rfl : ts₂ = ts := hts₂.trans (List.append_nil _)
  refine ⟨trivial, ?_⟩
  have hhandler := stamps_handler hdef hne req.body (.new req.userId catalog) ts₂
    (stamped_new req.userId catalog) trivial
  refine Setting.wp_bind (Setting.wp_mono ?_ hhandler)
  rintro (⟨err | result, u⟩ | u) ts₃ h
  · exact response_wp
  · exact finish_wp h.1
  · trivial

theorem serve_upgrade_wp {marshals : Message → Bool} {catalog : Catalog} {def_ : ActionDef}
    {req : GameRequest} (hdef : actionRegistry c req.action = some def_)
    (heq : req.action = actionUpgradeCardLevel) (ts : List Time) :
    (watching fun op _ => op ≠ .now).wp (serve (server c marshals) catalog def_ req)
      (fun _ _ => True) ts := by
  have hanswer : ∀ op : Op, op.OfAnswer → op ≠ .now := by
    rintro op h rfl
    exact h
  have hfetch : ∀ op : Op, op.Fetching → op ≠ .now := by
    rintro op h rfl
    exact h
  rw [heq] at hdef
  obtain rfl : ⟨upgradeCardLevel c, false⟩ = def_ := Option.some.inj hdef
  refine uses_wp (φ := fun op => op ≠ .now) (fun _ _ h => h) ?_ ts
  refine ⟨nofun, fun _ => ?_⟩
  refine Prog.Uses.bind ((uses_upgradeCardLevel _).mono hfetch) ?_
  rintro ⟨err | result, u⟩
  · exact Prog.Uses.bind (uses_sendGameResponse.mono hanswer) fun _ => trivial
  · exact uses_finish.mono hanswer

def Upgrades (raw : Raw) : Prop := ∃ req, raw = .envelope req ∧ req.action = actionUpgradeCardLevel

section

variable {marshals : Message → Bool} {store : DesignStore} {raw : Raw}
  {rely : World → World → Prop} {w w' : World} {tr : List (Event Op.Resp World)}
  {o : Outcome UnitOfWork Reply}

theorem writes_stamped (hraw : ¬ Upgrades raw)
    (h : Runs World.Step rely (dispatch (server c marshals) store raw) w tr o w') :
    ∀ e ∈ tr, ∀ m ∈ writes e.op, IsStamped (clockReads tr) m := by
  have hwp : (watching Stamping).wp (dispatch (server c marshals) store raw)
      (fun _ _ => True) [] := by
    apply dispatch_wp fun op ts h => stamping_of_quiet h ts
    intro req def_ catalog hreq hdef ts
    exact serve_wp hdef (fun heq => hraw ⟨req, hreq, heq⟩) ts
  intro e he m hm
  obtain ⟨ts, hts, hstamping⟩ := watching_sound hwp h e he
  exact (hstamping m hm).mono hts

theorem upgrade_reads_nothing (hraw : Upgrades raw)
    (h : Runs World.Step rely (dispatch (server c marshals) store raw) w tr o w') :
    clockReads tr = [] := by
  have hwp : (watching fun op _ => op ≠ .now).wp (dispatch (server c marshals) store raw)
      (fun _ _ => True) [] := by
    apply dispatch_wp
    · rintro op ts hop rfl
      exact hop
    · intro req def_ catalog hreq hdef ts
      obtain ⟨req', hreq', heq⟩ := hraw
      rw [hreq] at hreq'
      cases hreq'
      exact serve_upgrade_wp hdef heq ts
  apply List.flatMap_eq_nil_iff.mpr
  intro e he
  obtain ⟨ts, -, hne⟩ := watching_sound hwp h e he
  obtain ⟨op, r, before, after⟩ := e
  cases op <;> first | exact absurd rfl hne | rfl

/-- The rows of a request have the time of a clock reading of that request, whatever the other
requests do, except those of `UpgradeCardLevel`, which never have. -/
theorem writes_stamped_iff
    (h : Runs World.Step rely (dispatch (server c marshals) store raw) w tr o w') :
    ∀ e ∈ tr, ∀ m ∈ writes e.op, IsStamped (clockReads tr) m ↔ ¬ Upgrades raw := by
  intro e he m hm
  constructor
  · intro hm' hraw
    rw [upgrade_reads_nothing hraw h] at hm'
    obtain ⟨t, ht, -⟩ := hm'
    cases ht
  · intro hraw
    exact writes_stamped hraw h e he m hm

end

/-! ## A new account and an upgraded card -/

def firstLogin : List (Event Op.Resp World) × Outcome UnitOfWork Reply × World :=
  ((Sample.loginRequest 0 77 "b").program Sample.servers).run World.exec
    (fun k => { key := fun n => n.toUInt64 + 1, now := 7, token := "t", roll := k })
    0 Sample.emptyWorld

theorem runs_firstLogin : Runs World.Step Eq (dispatch Sample.servers Sample.designStore
    (Sample.loginRequest 0 77 "b").raw) Sample.emptyWorld firstLogin.1 firstLogin.2.1
    firstLogin.2.2 :=
  World.runs _ _ _

theorem writes_stamped_firstLogin :
    (firstLogin.1.map fun e => (writes e.op).length).sum = 4 ∧
      ∀ e ∈ firstLogin.1, ∀ m ∈ writes e.op, IsStamped (clockReads firstLogin.1) m := by
  have hlogin : ¬ Upgrades (Sample.loginRequest 0 77 "b").raw := by
    rintro ⟨req, hreq, haction⟩
    cases hreq
    revert haction
    decide
  refine ⟨by decide +kernel, ?_⟩
  intro e he m hm
  exact (writes_stamped_iff runs_firstLogin e he m hm).mpr hlogin

def upgrade : List (Event Op.Resp World) × Outcome UnitOfWork Reply × World :=
  ((Sample.upgradeRequest 1 "s" 5).program Sample.servers).run World.exec
    (fun _ => { now := 7, token := "t" }) 0 Sample.world

/-- The upgraded card is written with the time it was loaded with. -/
theorem upgrade_not_stamped :
    ¬ ∀ (c : Container) (marshals : Message → Bool) (store : DesignStore) (raw : Raw)
      (rely : World → World → Prop) (w w' : World) (tr : List (Event Op.Resp World))
      (o : Outcome UnitOfWork Reply),
      Runs World.Step rely (dispatch (server c marshals) store raw) w tr o w' →
      ∀ e ∈ tr, ∀ m ∈ writes e.op, IsStamped (clockReads tr) m := by
  intro h
  have hrun : Runs World.Step Eq (dispatch Sample.servers Sample.designStore
      (Sample.upgradeRequest 1 "s" 5).raw) Sample.world upgrade.1 upgrade.2.1 upgrade.2.2 :=
    World.runs _ _ _
  have hreads : clockReads upgrade.1 = [] := upgrade_reads_nothing ⟨_, rfl, rfl⟩ hrun
  have hwrites : ∃ e ∈ upgrade.1, writes e.op ≠ [] := by
    have hany : upgrade.1.any (fun e => !(writes e.op).isEmpty) = true := by decide +kernel
    obtain ⟨e, he, hne⟩ := List.any_eq_true.mp hany
    refine ⟨e, he, ?_⟩
    intro hnil
    rw [hnil] at hne
    cases hne
  obtain ⟨e, he, hne⟩ := hwrites
  obtain ⟨m, hm⟩ := List.exists_mem_of_ne_nil _ hne
  obtain ⟨t, ht, -⟩ := h _ _ _ _ _ _ _ _ _ hrun e he m hm
  rw [hreads] at ht
  cases ht

end FutureWas.Timestamps
