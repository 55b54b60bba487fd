import FutureWas.Effect.Reordering
import FutureWas.Invalidation
import FutureWas.Model.Sample
import Mathlib.Data.List.Nodup

/-!
# Grouped commits

`Commit` runs one transaction for each database in the queue, in order of first appearance.
The groups before one that fails are durable and nothing else is. When none fails, the result
is that of the queue executed in its own order, provided that the grouping does not move an
operation ahead of one for another database that concerns the same model and inserts it.
-/

set_option autoImplicit false

namespace FutureWas.GroupedCommit

open Effect UowM Uow Commit

/-! ## Groups -/

/-- The databases of a queue in order of first appearance, each with its statements. -/
def groups (ops : List DbOp) : List (Option DbId × List Stmt) :=
  (ops.map DbOp.db).eraseDups.map fun db =>
    (db, (ops.filter fun op => op.db == db).map DbOp.stmt)

def opsOf (g : Option DbId × List Stmt) : List DbOp := g.2.map fun s => ⟨g.1, s⟩

theorem addToGroup_new {op : DbOp} {gs : List (Option DbId × List Stmt)}
    (h : ∀ g ∈ gs, g.1 ≠ op.db) : addToGroup op gs = gs ++ [(op.db, [op.stmt])] := by
  induction gs with
  | nil => rfl
  | cons g gs ih =>
    obtain ⟨hg, hgs⟩ := List.forall_mem_cons.mp h
    simp only [addToGroup]
    rw [if_neg hg, ih hgs, List.cons_append]

theorem addToGroup_old {op : DbOp} {gs : List (Option DbId × List Stmt)}
    (hnodup : (gs.map Prod.fst).Nodup) (h : op.db ∈ gs.map Prod.fst) :
    addToGroup op gs = gs.map fun g => if g.1 = op.db then (g.1, g.2 ++ [op.stmt]) else g := by
  induction gs with
  | nil => cases h
  | cons g gs ih =>
    obtain ⟨hg, hgs⟩ := List.nodup_cons.mp hnodup
    simp only [addToGroup, List.map_cons]
    by_cases hdb : g.1 = op.db
    · have hrest : gs.map (fun g => if g.1 = op.db then (g.1, g.2 ++ [op.stmt]) else g) = gs := by
        refine (List.map_congr_left fun g' hg' => ?_).trans (List.map_id gs)
        have hne : g'.1 ≠ op.db := by
          intro heq
          rw [hdb, ← heq] at hg
          exact hg (List.mem_map_of_mem hg')
        exact if_neg hne
      rw [if_pos hdb, if_pos hdb, hrest]
    · have hmem : op.db ∈ gs.map Prod.fst := by
        rcases List.mem_cons.mp h with heq | hmem
        · exact absurd heq.symm hdb
        · exact hmem
      rw [if_neg hdb, if_neg hdb, ih hgs hmem]

theorem groups_dbs (ops : List DbOp) :
    (groups ops).map Prod.fst = (ops.map DbOp.db).eraseDups := by
  simp [groups, Function.comp_def]

theorem groupOps_eq (ops : List DbOp) : groupOps ops = groups ops := by
  induction ops using List.reverseRecOn with
  | nil => rfl
  | append_singleton ops op ih =>
    rw [groupOps_concat, ih]
    by_cases hmem : op.db ∈ ops.map DbOp.db
    · have hnodup : ((groups ops).map Prod.fst).Nodup := by
        rw [groups_dbs]
        exact nodup_eraseDups _
      have hold : op.db ∈ (groups ops).map Prod.fst := by
        rw [groups_dbs]
        exact List.mem_eraseDups.mpr hmem
      rw [addToGroup_old hnodup hold]
      unfold groups
      rw [List.map_append, List.map_singleton, eraseDups_concat, if_pos hmem, List.map_map]
      refine List.map_congr_left ?_
      intro db _
      by_cases hdb : db = op.db
      · simp [hdb]
      · simp [hdb, Ne.symm hdb]
    · have hnew : ∀ g ∈ groups ops, g.1 ≠ op.db := by
        intro g hg heq
        have hfst : g.1 ∈ (groups ops).map Prod.fst := List.mem_map_of_mem hg
        rw [groups_dbs, heq] at hfst
        exact hmem (List.mem_eraseDups.mp hfst)
      rw [addToGroup_new hnew]
      unfold groups
      rw [List.map_append, List.map_singleton, eraseDups_concat, if_neg hmem, List.map_append,
        List.map_singleton]
      congr 1
      · refine List.map_congr_left ?_
        intro db hdb
        have hne : op.db ≠ db := by
          intro heq
          rw [heq] at hmem
          exact hmem (List.mem_eraseDups.mp hdb)
        simp [hne]
      · have hnone : ops.filter (fun o => o.db == op.db) = [] := by
          rw [List.filter_eq_nil_iff]
          intro o ho heq
          exact hmem (List.mem_map.mpr ⟨o, ho, beq_iff_eq.mp heq⟩)
        simp [hnone]

theorem flatMap_groups (ops : List DbOp) : (groups ops).flatMap opsOf = byKey DbOp.db ops := by
  unfold groups byKey groupsOf
  rw [List.flatMap_map]
  refine List.flatMap_congr ?_
  intro db _
  unfold opsOf
  rw [List.map_map]
  calc (ops.filter fun op => op.db == db).map _ = (ops.filter fun op => op.db == db).map id := by
        refine List.map_congr_left ?_
        intro op hop
        have hdb : op.db = db := beq_iff_eq.mp (List.mem_filter.mp hop).2
        rw [← hdb]
        rfl
    _ = ops.filter fun op => op.db == db := List.map_id _

/-! ## Execution in order -/

/-- One operation in a transaction of its own. -/
def ExecOp (op : DbOp) (s s' : (DbId → Tables) × Heap) : Prop :=
  ∃ db t, op.db = some db ∧ StmtRun [op.stmt] (s.1 db) s.2 t s'.2 ∧
    s'.1 = Function.update s.1 db t

/-- One of two operations on the same model inserts it. -/
def Conflict (x y : DbOp) : Prop :=
  x.stmt.kind = y.stmt.kind ∧ x.stmt.ref = y.stmt.ref ∧
    (x.stmt = .insert x.stmt.kind x.stmt.ref ∨ y.stmt = .insert y.stmt.kind y.stmt.ref)

def KeepsOrder (ops : List DbOp) : Prop :=
  ∀ before op after, ops = before ++ op :: after →
    ∀ x ∈ before, Ahead (before.map DbOp.db) op.db x.db → ¬ Conflict x op

theorem keepsOrder_of_oneDatabase {ops : List DbOp}
    (h : ∀ x ∈ ops, ∀ y ∈ ops, x.stmt.kind = y.stmt.kind → x.stmt.ref = y.stmt.ref → x.db = y.db) :
    KeepsOrder ops := by
  intro before op after heq x hx hahead hconflict
  have hxops : x ∈ ops := by
    rw [heq]
    exact List.mem_append_left _ hx
  have hop : op ∈ ops := by
    rw [heq]
    exact List.mem_append_right _ List.mem_cons_self
  obtain ⟨l₁, l₂, -, hfirst, hnot⟩ := hahead
  rw [h x hxops op hop hconflict.1 hconflict.2.1] at hnot
  exact hnot hfirst

theorem stmtRun_cons {s : Stmt} {ops : List Stmt} {t t' : Tables} {h h' : Heap} :
    StmtRun (s :: ops) t h t' h' ↔ ∃ t₁ h₁, StmtRun [s] t h t₁ h₁ ∧ StmtRun ops t₁ h₁ t' h' := by
  constructor
  · intro hrun
    cases hrun with
    | insert k hinserts hrest => exact ⟨_, _, .insert k hinserts .nil, hrest⟩
    | update hupdates hrest => exact ⟨_, _, .update hupdates .nil, hrest⟩
  · intro hrun
    obtain ⟨t₁, h₁, hone, hrest⟩ := hrun
    cases hone with
    | insert k hinserts hnil =>
      cases hnil
      exact .insert k hinserts hrest
    | update hupdates hnil =>
      cases hnil
      exact .update hupdates hrest

theorem steps_of_stmtRun {db : DbId} {ops : List Stmt} {D : DbId → Tables} {t' : Tables}
    {h h' : Heap} (hrun : StmtRun ops (D db) h t' h') :
    Steps ExecOp (opsOf (some db, ops)) (D, h) (Function.update D db t', h') := by
  induction ops generalizing D h with
  | nil =>
    cases hrun
    rw [Function.update_eq_self]
    exact .nil
  | cons s ops ih =>
    obtain ⟨t₁, h₁, hone, hrest⟩ := stmtRun_cons.mp hrun
    have hstep : ExecOp ⟨some db, s⟩ (D, h) (Function.update D db t₁, h₁) :=
      ⟨db, t₁, rfl, hone, rfl⟩
    have hrun' : StmtRun ops (Function.update D db t₁ db) h₁ t' h' := by
      rw [Function.update_self]
      exact hrest
    have hsteps := ih hrun'
    rw [Function.update_idem] at hsteps
    exact .cons hstep hsteps

/-! ## Operations that commute -/

/-- A statement turns its model `m` and the tables into `m'` and `t'`. -/
def Writes : (s : Stmt) → Tables → Row s.kind → Tables → Row s.kind → Prop
  | .insert e _, t, m, t', m' =>
    ∃ k, t.Inserts e m k ∧ m' = Row.setPrimaryKey k m ∧ t' = t.insert e m'
  | .update e _, t, m, t', m' => t.Updates e m ∧ m' = m ∧ t' = t.update e m

theorem stmtRun_singleton {s : Stmt} {t t' : Tables} {h h' : Heap} :
    StmtRun [s] t h t' h' ↔
      ∃ m', Writes s t (h.cell s.kind s.ref) t' m' ∧ h' = h.set s.kind s.ref m' := by
  constructor
  · intro hrun
    cases hrun with
    | insert k hinserts hnil =>
      cases hnil
      exact ⟨_, ⟨k, hinserts, rfl, rfl⟩, rfl⟩
    | update hupdates hnil =>
      cases hnil
      exact ⟨_, ⟨hupdates, rfl, rfl⟩, (h.set_self _ _).symm⟩
  · intro hwrites
    obtain ⟨m', hwrites, rfl⟩ := hwrites
    cases s with
    | insert e r =>
      obtain ⟨k, hinserts, rfl, rfl⟩ := hwrites
      exact .insert k hinserts .nil
    | update e r =>
      obtain ⟨hupdates, rfl, rfl⟩ := hwrites
      change StmtRun _ t h _ (h.set e r (h.cell e r))
      rw [h.set_self]
      exact .update hupdates .nil

def Apart (s s' : Stmt) : Prop := s'.kind ≠ s.kind ∨ s'.ref ≠ s.ref

theorem apart_or_update {x y : DbOp} (h : ¬ Conflict x y) :
    Apart x.stmt y.stmt ∨ ∃ e r, x.stmt = .update e r ∧ y.stmt = .update e r := by
  obtain ⟨db, s⟩ := x
  obtain ⟨db', s'⟩ := y
  by_cases hsame : s.kind = s'.kind ∧ s.ref = s'.ref
  · obtain ⟨hkind, href⟩ := hsame
    cases s with
    | insert e r => exact absurd ⟨hkind, href, Or.inl rfl⟩ h
    | update e r =>
      cases s' with
      | insert e' r' => exact absurd ⟨hkind, href, Or.inr rfl⟩ h
      | update e' r' =>
        cases hkind
        cases href
        exact Or.inr ⟨e, r, rfl, rfl⟩
  · refine Or.inl ?_
    by_cases hkind : s'.kind = s.kind
    · exact Or.inr fun href => hsame ⟨hkind.symm, href.symm⟩
    · exact Or.inl hkind

theorem exec_swap {x y : DbOp} (hdb : x.db ≠ y.db) (h : ¬ Conflict x y)
    {s m s' : (DbId → Tables) × Heap} (hx : ExecOp x s m) (hy : ExecOp y m s') :
    ∃ m', ExecOp y s m' ∧ ExecOp x m' s' := by
  obtain ⟨D, heap⟩ := s
  obtain ⟨D₁, heap₁⟩ := m
  obtain ⟨D₂, heap₂⟩ := s'
  obtain ⟨a, t, ha, hrun, hm⟩ := hx
  obtain ⟨b, t', hb, hrun', hs'⟩ := hy
  dsimp only at hrun hm hrun' hs'
  subst hm hs'
  have hab : a ≠ b := by
    intro heq
    rw [ha, hb, heq] at hdb
    exact hdb rfl
  rw [Function.update_of_ne hab.symm] at hrun'
  obtain ⟨m₁, hw₁, rfl⟩ := stmtRun_singleton.mp hrun
  obtain ⟨m₂, hw₂, rfl⟩ := stmtRun_singleton.mp hrun'
  have hD : Function.update (Function.update D a t) b t' =
      Function.update (Function.update D b t') a t := Function.update_comm hab t t' D
  rcases apart_or_update h with hapart | ⟨e, r, hxs, hys⟩
  · have hcell : (heap.set x.stmt.kind x.stmt.ref m₁).cell y.stmt.kind y.stmt.ref =
        heap.cell y.stmt.kind y.stmt.ref := heap.set_cell_other hapart m₁
    have hcell' : (heap.set y.stmt.kind y.stmt.ref m₂).cell x.stmt.kind x.stmt.ref =
        heap.cell x.stmt.kind x.stmt.ref :=
      heap.set_cell_other (hapart.imp Ne.symm Ne.symm) m₂
    rw [hcell] at hw₂
    refine ⟨(Function.update D b t', heap.set y.stmt.kind y.stmt.ref m₂), ?_, ?_⟩
    · exact ⟨b, t', hb, stmtRun_singleton.mpr ⟨m₂, hw₂, rfl⟩, rfl⟩
    · refine ⟨a, t, ha, stmtRun_singleton.mpr ⟨m₁, ?_, ?_⟩, hD⟩
      · rw [hcell']
        dsimp only
        rw [Function.update_of_ne hab]
        exact hw₁
      · exact heap.set_comm hapart m₁ m₂
  · obtain ⟨db, s⟩ := x
    obtain ⟨db', s'⟩ := y
    dsimp only at hxs hys
    subst hxs hys
    -- Two updates of one model read it and leave it alone.
    obtain ⟨hupdates₁, rfl, rfl⟩ := hw₁
    obtain ⟨hupdates₂, rfl, rfl⟩ := hw₂
    dsimp only [Stmt.kind, Stmt.ref] at hD hupdates₁ hupdates₂ ⊢
    simp only [Heap.set_self] at hD hupdates₂ ⊢
    refine ⟨(Function.update D b ((D b).update e (heap.cell e r)), heap), ?_, ?_⟩
    · exact ⟨b, _, hb, .update hupdates₂ .nil, rfl⟩
    · refine ⟨a, (D a).update e (heap.cell e r), ha, ?_, hD⟩
      dsimp only
      rw [Function.update_of_ne hab]
      exact .update hupdates₁ .nil

theorem Conflict.symm {x y : DbOp} (h : Conflict x y) : Conflict y x := by
  obtain ⟨hkind, href, hinsert⟩ := h
  exact ⟨hkind.symm, href.symm, hinsert.symm⟩

theorem commutes_of_not_conflict {x y : DbOp} (hdb : x.db ≠ y.db) (h : ¬ Conflict x y) :
    Commutes ExecOp x y := by
  intro s s'
  constructor
  · intro hxy
    obtain ⟨m, hx, hy⟩ := hxy
    exact exec_swap hdb h hx hy
  · intro hyx
    obtain ⟨m, hy, hx⟩ := hyx
    exact exec_swap hdb.symm (fun hc => h hc.symm) hy hx

theorem steps_groups {ops : List DbOp} (h : KeepsOrder ops) {s s' : (DbId → Tables) × Heap} :
    Steps ExecOp ((groups ops).flatMap opsOf) s s' ↔ Steps ExecOp ops s s' := by
  rw [flatMap_groups]
  refine steps_byKey ?_
  intro before op after heq x hx hahead
  have hdb : x.db ≠ op.db := by
    intro hsame
    obtain ⟨l₁, l₂, -, hop, hnot⟩ := hahead
    rw [hsame] at hnot
    exact hnot hop
  exact commutes_of_not_conflict hdb (h before op after heq x hx hahead)

/-! ## The transactions of a commit -/

/-- The groups `done` are durable, complete and in order; `h` holds the keys they have set. -/
structure Progress (gs : List (Option DbId × List Stmt)) (d : Data) (heap : Heap)
    (t : List (Event Op.Resp Data)) (d' : Data) (done rest : List (Option DbId × List Stmt))
    (h : Heap) : Prop where
  split : gs = done ++ rest
  databases : ∀ g ∈ done, g.1 ≠ none
  durable : durable t = (done.flatMap opsOf).map fun op => (op.db, op.stmt)
  executed : Steps ExecOp (done.flatMap opsOf) (d.db, heap) (d'.db, h)

def AbortedIn (g : Option DbId × List Stmt) (e : Event Op.Resp Data) : Prop :=
  Aborted e.op e.resp ∧ ∃ db heap, g.1 = some db ∧ e.op = .transaction db g.2 heap

/-- The group has no database, or its transaction did not commit. -/
def GroupFails (t : List (Event Op.Resp Data)) (g : Option DbId × List Stmt) : Prop :=
  (g.1 = none ∧ ¬ SomeAborted t) ∨ ∃ e ∈ t, AbortedIn g e

def Stopped (t : List (Event Op.Resp Data)) (rest : List (Option DbId × List Stmt)) : Prop :=
  ∃ g rest', rest = g :: rest' ∧ GroupFails t g ∧
    ∀ e ∈ t, Aborted e.op e.resp → AbortedIn g e

def Finished (t : List (Event Op.Resp Data)) (rest : List (Option DbId × List Stmt)) : Prop :=
  rest = [] ∧ ¬ SomeAborted t

section

variable {d d' : Data} {u : UnitOfWork} {tr t : List (Event Op.Resp Data)}
  {gs done rest : List (Option DbId × List Stmt)} {h : Heap}

theorem Progress.nil {heap : Heap} : Progress gs d heap [] d [] gs heap :=
  ⟨rfl, by simp, rfl, .nil⟩

theorem Progress.cons {db : DbId} {stmts : List Stmt} {heap heap₁ : Heap} {t₁ : Tables}
    (hrun : StmtRun stmts (d.db db) heap t₁ heap₁)
    (hrest : Progress gs (d.setDb db t₁) heap₁ t d' done rest h) :
    Progress ((some db, stmts) :: gs) d heap
      (⟨.transaction db stmts heap, .committed heap₁, d, d.setDb db t₁⟩ :: t) d'
      ((some db, stmts) :: done) rest h where
  split := by rw [hrest.split, List.cons_append]
  databases := List.forall_mem_cons.mpr ⟨Option.some_ne_none db, hrest.databases⟩
  durable := by
    rw [List.flatMap_cons, List.map_append, ← hrest.durable]
    simp [Commit.durable, committedBy, opsOf]
  executed := by
    rw [List.flatMap_cons]
    exact steps_append.mpr ⟨_, steps_of_stmtRun hrun, hrest.executed⟩

theorem not_someAborted_cons {db : DbId} {stmts : List Stmt} {heap heap₁ : Heap} {d₁ : Data} :
    SomeAborted (⟨.transaction db stmts heap, .committed heap₁, d, d₁⟩ :: t) ↔ SomeAborted t := by
  simp [SomeAborted, Aborted]

theorem Stopped.cons {db : DbId} {stmts : List Stmt} {heap heap₁ : Heap} {d₁ : Data}
    (hstop : Stopped t rest) :
    Stopped (⟨.transaction db stmts heap, .committed heap₁, d, d₁⟩ :: t) rest := by
  obtain ⟨g, rest', hrest, hfails, honly⟩ := hstop
  refine ⟨g, rest', hrest, ?_, ?_⟩
  · rcases hfails with ⟨hnone, hclean⟩ | ⟨e, he, habort⟩
    · exact Or.inl ⟨hnone, fun h => hclean (not_someAborted_cons.mp h)⟩
    · exact Or.inr ⟨e, List.mem_cons_of_mem _ he, habort⟩
  · exact List.forall_mem_cons.mpr ⟨fun habort => habort.elim, honly⟩

theorem stopped_of_aborted {db : DbId} {stmts : List Stmt} {heap : Heap} {r : TxReply}
    {d₁ d₂ : Data} (hr : Aborted (.transaction db stmts heap) r) :
    Stopped [⟨.transaction db stmts heap, r, d₁, d₂⟩] ((some db, stmts) :: gs) := by
  have hin : AbortedIn (some db, stmts) ⟨.transaction db stmts heap, r, d₁, d₂⟩ :=
    ⟨hr, db, heap, rfl, rfl⟩
  refine ⟨_, gs, rfl, Or.inr ⟨_, List.mem_singleton_self _, hin⟩, ?_⟩
  intro e he _
  rw [List.mem_singleton.mp he]
  exact hin

theorem commitGroups_progress :
    UowM.wp (Setting.alone Data.Step).traced (commitGroups gs)
      (fun r u' s => Adds tr (fun t => ∃ done rest h, Progress gs d u.heap t s.1 done rest h ∧
        match r with
        | .ok _ => Finished t rest ∧ u'.heap = h
        | .error _ => Stopped t rest) s)
      (fun _ s => Adds tr (fun t => ∃ done rest h,
        Progress gs d u.heap t s.1 done rest h ∧ Stopped t rest) s) u (d, tr) := by
  induction gs generalizing u d tr with
  | nil => exact Adds.nil ⟨[], [], u.heap, .nil, ⟨rfl, by simp [SomeAborted]⟩, rfl⟩
  | cons g gs ih =>
    obtain ⟨_ | db, stmts⟩ := g
    · refine Adds.nil ⟨[], _, u.heap, .nil, _, _, rfl, Or.inl ⟨rfl, ?_⟩, ?_⟩
      · simp [SomeAborted]
      · simp
    · refine wp_local rfl (wp_bind (Invalidation.wp_perform_alone ?_))
      intro r d₁ hstep
      rcases hstep with ⟨t₁, heap₁, hrun, rfl, rfl⟩ | ⟨heap₁, rfl, rfl⟩ | ⟨heap₁, rfl, rfl⟩
      · refine wp_local rfl (wp_mono ?_ ?_ ih)
        · intro r u' s hs
          refine Adds.append (hs.mono fun t ht => ?_)
          obtain ⟨done, rest, h, hprogress, hend⟩ := ht
          refine ⟨_, rest, h, hprogress.cons hrun, ?_⟩
          cases r with
          | ok _ =>
            exact ⟨⟨hend.1.1, fun habort => hend.1.2 (not_someAborted_cons.mp habort)⟩, hend.2⟩
          | error err => exact hend.cons
        · intro u' s hs
          refine Adds.append (hs.mono fun t ht => ?_)
          obtain ⟨done, rest, h, hprogress, hend⟩ := ht
          exact ⟨_, rest, h, hprogress.cons hrun, hend.cons⟩
      · exact Adds.one ⟨[], _, u.heap, ⟨rfl, by simp, rfl, .nil⟩, stopped_of_aborted trivial⟩
      · exact Adds.one ⟨[], _, u.heap, ⟨rfl, by simp, rfl, .nil⟩, stopped_of_aborted trivial⟩

def AllDone (gs : List (Option DbId × List Stmt)) (d : Data) (heap : Heap) (u' : UnitOfWork)
    (t : List (Event Op.Resp Data)) (d' : Data) : Prop :=
  Progress gs d heap t d' gs [] u'.heap ∧ ¬ SomeAborted t

def Halted (gs : List (Option DbId × List Stmt)) (d : Data) (heap : Heap)
    (t : List (Event Op.Resp Data)) (d' : Data) : Prop :=
  ∃ done rest h, Progress gs d heap t d' done rest h ∧ Stopped t rest

theorem runOps_progress :
    UowM.wp (Setting.alone Data.Step).traced runOps
      (fun r u' s => Adds tr (fun t => match r with
        | .ok _ => AllDone (groups u.dbOps) d u.heap u' t s.1
        | .error _ => Halted (groups u.dbOps) d u.heap t s.1) s)
      (fun _ s => Adds tr (fun t => Halted (groups u.dbOps) d u.heap t s.1) s) u (d, tr) := by
  refine wp_local rfl ?_
  split_ifs with hempty
  · rw [hempty]
    exact Adds.nil ⟨.nil, by simp [SomeAborted]⟩
  · rw [groupOps_eq]
    refine wp_bind (wp_mono ?_ (fun _ _ h => h) commitGroups_progress)
    intro r u' s hs
    cases r with
    | error err => exact hs
    | ok _ =>
      refine hs.mono fun t ht => ?_
      obtain ⟨done, rest, h, hprogress, ⟨rfl, hclean⟩, rfl⟩ := ht
      have hall : groups u.dbOps = done := hprogress.split.trans (List.append_nil done)
      rw [← hall] at hprogress
      exact ⟨hprogress, hclean⟩

theorem writeBack_done {o : Owner} {context : String} {heap : Heap} {d₁ : Data}
    {tr₁ : List (Event Op.Resp Data)} {u₁ : UnitOfWork}
    (hdone : Adds tr (fun t => AllDone gs d heap u₁ t d₁) (d₁, tr₁)) :
    UowM.wp (Setting.alone Data.Step).traced (writeBack o context)
      (fun _ u' s => Adds tr (fun t => AllDone gs d heap u' t s.1) s)
      (fun _ _ => False) u₁ (d₁, tr₁) := by
  refine wp_local rfl ?_
  split_ifs
  · refine wp_bind (Invalidation.wp_perform_alone ?_)
    intro written d₂ hstep
    have hdb : d₂.db = d₁.db := by
      rcases hstep with ⟨-, rfl⟩ | ⟨-, rfl⟩ <;> rfl
    have hgrown : Adds tr (fun t => AllDone gs d heap u₁ t d₂)
        (d₂, tr₁ ++ [⟨_, written, d₁, d₂⟩]) := by
      obtain ⟨t, ht, hprogress, hclean⟩ := hdone
      refine ⟨t ++ [⟨_, written, d₁, d₂⟩], ?_, ⟨hprogress.split, hprogress.databases, ?_, ?_⟩, ?_⟩
      · change tr₁ = tr ++ t at ht
        rw [ht, List.append_assoc]
      · rw [durable_append, hprogress.durable]
        exact List.append_nil _
      · rw [hdb]
        exact hprogress.executed
      · intro habort
        obtain ⟨e, he, habort⟩ := habort
        rcases List.mem_append.mp he with he | he
        · exact hclean ⟨e, he, habort⟩
        · rw [List.mem_singleton.mp he] at habort
          exact habort
    cases written with
    | true => exact hgrown
    | false => exact hgrown
  · exact hdone

theorem commit_progress :
    UowM.wp (Setting.alone Data.Step).traced commit
      (fun _ u' s => Adds tr (fun t => AllDone (groups u.dbOps) d u.heap u' t s.1 ∨
        Halted (groups u.dbOps) d u.heap t s.1) s)
      (fun _ s => Adds tr (fun t => Halted (groups u.dbOps) d u.heap t s.1) s) u (d, tr) := by
  refine wp_bind (wp_mono ?_ (fun _ _ h => h) runOps_progress)
  intro r u₁ s₁ h₁
  cases r with
  | error err => exact h₁.mono fun t ht => Or.inr ht
  | ok _ =>
    refine wp_bind (wp_mono ?_ (fun _ _ hfalse => hfalse.elim) (writeBack_done h₁))
    intro r u₂ s₂ h₂
    cases r with
    | error err => exact h₂.mono fun t ht => Or.inl ht
    | ok _ =>
      refine wp_mono ?_ (fun _ _ hfalse => hfalse.elim) (writeBack_done h₂)
      intro r u₃ s₃ h₃
      exact h₃.mono fun t ht => Or.inl ht

theorem before_of_fails {before after : List (Option DbId × List Stmt)}
    {g : Option DbId × List Stmt} {ops : List DbOp} (hsplit : groups ops = before ++ g :: after)
    (hfails : GroupFails t g) {heap : Heap}
    (hprogress : Progress (groups ops) d heap t d' done rest h)
    (hstop : Stopped t rest) : done = before := by
  obtain ⟨g', rest', rfl, hfails', honly⟩ := hstop
  have hdb : g.1 = g'.1 := by
    rcases hfails with ⟨hnone, hclean⟩ | ⟨e, he, habort, db, heap, hg, hop⟩
    · rcases hfails' with ⟨hnone', -⟩ | ⟨e, he, habort, -⟩
      · rw [hnone, hnone']
      · exact absurd ⟨e, he, habort⟩ hclean
    · obtain ⟨-, db', heap', hg', hop'⟩ := honly e he habort
      obtain ⟨rfl, -, -⟩ := Op.transaction.inj (hop.symm.trans hop')
      rw [hg, hg']
  have hboth : before ++ g :: after = done ++ g' :: rest' := hsplit.symm.trans hprogress.split
  have hkeys : (before.map Prod.fst ++ g.1 :: after.map Prod.fst).Nodup := by
    rw [← List.map_cons, ← List.map_append, ← hsplit, groups_dbs]
    exact nodup_eraseDups _
  obtain ⟨-, hrest, hdisjoint⟩ := List.nodup_append.mp hkeys
  have hsame := congrArg (List.map Prod.fst) hboth
  rw [List.map_append, List.map_append, List.map_cons, List.map_cons, ← hdb] at hsame
  have hbefore : g.1 ∉ before.map Prod.fst :=
    fun hmem => hdisjoint _ hmem _ List.mem_cons_self rfl
  obtain ⟨hfst, -⟩ := (List.append_cons_inj_of_notMem hbefore (List.nodup_cons.mp hrest).1).mp hsame
  have hlength : done.length = before.length := by
    rw [← List.length_map, ← hfst, List.length_map]
  exact (List.append_inj_left hboth hlength.symm).symm

theorem halted_split {before after : List (Option DbId × List Stmt)}
    {g : Option DbId × List Stmt} {ops : List DbOp} {heap : Heap}
    (hhalted : Halted (groups ops) d heap t d')
    (hsplit : groups ops = before ++ g :: after) (hfails : GroupFails t g) :
    durable t = (before.flatMap opsOf).map (fun op => (op.db, op.stmt)) ∧
      ∃ h, Steps ExecOp (before.flatMap opsOf) (d.db, heap) (d'.db, h) := by
  obtain ⟨done, rest, h, hprogress, hstop⟩ := hhalted
  have hdone := before_of_fails hsplit hfails hprogress hstop
  rw [← hdone]
  exact ⟨hprogress.durable, h, hprogress.executed⟩

theorem fails_of_halted {ops : List DbOp} {heap : Heap}
    (hhalted : Halted (groups ops) d heap t d') : ∃ g ∈ groups ops, GroupFails t g := by
  obtain ⟨done, rest, h, hprogress, g, rest', rfl, hfails, -⟩ := hhalted
  refine ⟨g, ?_, hfails⟩
  rw [hprogress.split]
  exact List.mem_append_right _ List.mem_cons_self

theorem not_fails_of_allDone {u' : UnitOfWork} {heap : Heap} (hdone : AllDone gs d heap u' t d') :
    ∀ g ∈ gs, ¬ GroupFails t g := by
  intro g hg hfails
  rcases hfails with ⟨hnone, -⟩ | ⟨e, he, habort, -⟩
  · exact hdone.1.databases g hg hnone
  · exact hdone.2 ⟨e, he, habort⟩

end

def InQueueOrder (u : UnitOfWork) (d d' : Data)
    (o : Outcome UnitOfWork (Except GoError Unit × UnitOfWork)) : Prop :=
  ∃ r u', o = .ret (r, u') ∧ Steps ExecOp u.dbOps (d.db, u.heap) (d'.db, u'.heap)

/-- The groups before a group that fails are durable, complete and in order, and nothing else
is. -/
def StopsAtFailure (u : UnitOfWork) (d d' : Data) (tr : List (Event Op.Resp Data)) : Prop :=
  ∀ before g after, groups u.dbOps = before ++ g :: after → GroupFails tr g →
    durable tr = (before.flatMap opsOf).map (fun op => (op.db, op.stmt)) ∧
      ∃ h, Steps ExecOp (before.flatMap opsOf) (d.db, u.heap) (d'.db, h)

/-- When no group fails, every operation is executed once, and as in the queue if the order of
conflicting operations is kept. -/
theorem commit_grouped {u : UnitOfWork} {d d' : Data} {tr : List (Event Op.Resp Data)}
    {o : Outcome UnitOfWork (Except GoError Unit × UnitOfWork)}
    (hrun : Runs Data.Step Eq (commit u) d tr o d') :
    ((∀ g ∈ groups u.dbOps, ¬ GroupFails tr g) →
      (durable tr).Perm (queued u) ∧ (KeepsOrder u.dbOps → InQueueOrder u d d' o)) ∧
    StopsAtFailure u d d' tr := by
  have hpost := Setting.traced_sound (S := Setting.alone Data.Step) hrun
    (@commit_progress d u [])
  cases o with
  | ret p =>
    obtain ⟨r, u'⟩ := p
    obtain ⟨t, ht, hend⟩ := hpost
    have htr : tr = t := ht
    subst htr
    rcases hend with hdone | hhalted
    · refine ⟨fun _ => ⟨?_, fun hkeeps => ⟨r, u', rfl, ?_⟩⟩, ?_⟩
      · rw [hdone.1.durable, flatMap_groups]
        exact (byKey_perm u.dbOps).map _
      · exact (steps_groups hkeeps).mp hdone.1.executed
      · intro before g after hsplit hfails
        have hg : g ∈ groups u.dbOps := by
          rw [hsplit]
          exact List.mem_append_right _ List.mem_cons_self
        exact absurd hfails (not_fails_of_allDone hdone g hg)
    · refine ⟨fun hnone => ?_, fun before g after hsplit hfails => ?_⟩
      · obtain ⟨g, hg, hfails⟩ := fails_of_halted hhalted
        exact absurd hfails (hnone g hg)
      · exact halted_split hhalted hsplit hfails
  | raise u' =>
    obtain ⟨t, ht, hhalted⟩ := hpost
    have htr : tr = t := ht
    subst htr
    refine ⟨fun hnone => ?_, fun before g after hsplit hfails => ?_⟩
    · obtain ⟨g, hg, hfails⟩ := fails_of_halted hhalted
      exact absurd hfails (hnone g hg)
    · exact halted_split hhalted hsplit hfails

theorem not_fails_of_clean {ops : List DbOp} {tr : List (Event Op.Resp Data)}
    (hdatabases : ∀ g ∈ groups ops, g.1 ≠ none) (hclean : ∀ e ∈ tr, ¬ Aborted e.op e.resp) :
    ∀ g ∈ groups ops, ¬ GroupFails tr g := by
  intro g hg hfails
  rcases hfails with ⟨hmissing, -⟩ | ⟨e, he, habort, -⟩
  · exact hdatabases g hg hmissing
  · exact hclean e he habort

/-! ## Two databases -/

def boughtAsset : Asset := ⟨0, 1, 10000, 5, 0, 0, 0⟩

def rewarded : UnitOfWork :=
  { UnitOfWork.new 1 Sample.catalog with
    store := fun
      | .account => some (.one 0)
      | .cards => some (.many [1])
      | .assets => some (.many [2])
      | _ => none
    dbOps := [⟨some 10, .update .cards 1⟩, ⟨some 1, .update .account 0⟩,
      ⟨some 10, .insert .assets 2⟩]
    heap := (((Heap.empty.alloc .account { Sample.account with updateTime := 9 }).1.alloc .cards
      ({ Sample.card with level := 2 } : Card)).1.alloc .assets boughtAsset).1 }

def rewardedRun (fails : ℕ → Bool) : List (Event Op.Resp Data) :=
  ((commit rewarded).run World.exec (fun n => { fails := fails n, key := fun _ => 7 }) 0
    Sample.world).1.map (Event.map World.data)

theorem commit_grouped_rewarded :
    (∃ o d', Runs Data.Step Eq (commit rewarded) Sample.world.data (rewardedRun fun _ => false) o
        d' ∧ (durable (rewardedRun fun _ => false)).Perm (queued rewarded) ∧
      InQueueOrder rewarded Sample.world.data d' o) ∧
    durable (rewardedRun fun n => n = 1) =
      [(some 10, .update .cards 1), (some 10, .insert .assets 2)] := by
  constructor
  · have hrun := Data.runs (fun _ => { key := fun _ => 7 }) (commit rewarded)
      Sample.world
    have hnone := @not_fails_of_clean rewarded.dbOps (rewardedRun fun _ => false) (by decide)
      (List.forall_mem_cons.mpr ⟨fun h => h, List.forall_mem_cons.mpr ⟨fun h => h,
        List.forall_mem_cons.mpr ⟨fun h => h, List.forall_mem_nil _⟩⟩⟩)
    obtain ⟨hperm, horder⟩ := (commit_grouped hrun).1 hnone
    exact ⟨_, _, hrun, hperm, horder (keepsOrder_of_oneDatabase (by decide))⟩
  · have hrun := Data.runs (fun n => { fails := n = 1, key := fun _ => 7 }) (commit rewarded)
      Sample.world
    have hsplit : groups rewarded.dbOps =
        [(some 10, [.update .cards 1, .insert .assets 2])] ++
          (some 1, [.update .account 0]) :: [] := by
      decide
    exact ((commit_grouped hrun).2 _ _ _ hsplit (Or.inr ⟨_, List.mem_cons_of_mem _
      List.mem_cons_self, trivial, 1, _, rfl, rfl⟩)).1

/-! ## A model in two databases -/

def otherAsset : Asset := ⟨7, 2, 10000, 1, 0, 0, 0⟩

def twoShards : World :=
  { Sample.emptyWorld with
    data :=
      { Sample.emptyWorld.data with
        db := fun db e =>
          match db, e with
          | 1, .account => [{ Sample.account with dbShardID := 20 }]
          | 20, .assets => [otherAsset]
          | _, _ => [] } }

def container : Container :=
  ⟨1, ((Shards.empty.registerShard 1 1 0).registerShard 10 10 1).registerShard 20 20 1⟩

/-- An asset is changed, created and changed while its user is moved from shard to shard. -/
def moving : UowM Unit := do
  let acc ← account container
  let asset ← Uow.new .assets boughtAsset
  update container .assets asset
  setModel .account acc fun m => { (m : Account) with dbShardID := 10 }
  create container .assets asset
  setModel .account acc fun m => { (m : Account) with dbShardID := 20 }
  update container .assets asset

def shared : UnitOfWork :=
  match moving { UnitOfWork.new 1 Sample.catalog with
    store := fun e => if e = .account then some (.one 0) else none
    heap := (Heap.empty.alloc .account { Sample.account with dbShardID := 20 }).1 } with
  | .ret (_, u) => u
  | _ => UnitOfWork.new 1 Sample.catalog

example : shared.dbOps = [⟨some 20, .update .assets 1⟩, ⟨some 10, .insert .assets 1⟩,
    ⟨some 20, .update .assets 1⟩] := rfl

theorem execOp_update {db : DbId} {e : EntityKind} {r : Ref} {s s' : (DbId → Tables) × Heap}
    (h : ExecOp ⟨some db, .update e r⟩ s s') :
    s' = (Function.update s.1 db ((s.1 db).update e (s.2.cell e r)), s.2) := by
  obtain ⟨D, heap⟩ := s'
  obtain ⟨db', t, hdb, hrun, hD⟩ := h
  cases hdb
  obtain ⟨m', ⟨-, rfl, rfl⟩, hheap⟩ := stmtRun_singleton.mp hrun
  dsimp only at hD hheap
  rw [hD, hheap]
  exact congrArg (Prod.mk _) (s.2.set_self e r)

theorem execOp_insert {db : DbId} {e : EntityKind} {r : Ref} {s s' : (DbId → Tables) × Heap}
    (h : ExecOp ⟨some db, .insert e r⟩ s s') :
    ∃ k, s' = (Function.update s.1 db ((s.1 db).insert e (Row.setPrimaryKey k (s.2.cell e r))),
      s.2.set e r (Row.setPrimaryKey k (s.2.cell e r))) := by
  obtain ⟨D, heap⟩ := s'
  obtain ⟨db', t, hdb, hrun, hD⟩ := h
  cases hdb
  obtain ⟨m', ⟨k, -, rfl, rfl⟩, hheap⟩ := stmtRun_singleton.mp hrun
  dsimp only at hD hheap
  exact ⟨k, by rw [hD, hheap]; rfl⟩

/-- The second `UPDATE` is moved ahead of the `INSERT` that sets its key. -/
theorem not_inQueueOrder :
    ¬ ∀ (u : UnitOfWork) (d d' : Data) (tr : List (Event Op.Resp Data))
      (o : Outcome UnitOfWork (Except GoError Unit × UnitOfWork)),
      Runs Data.Step Eq (commit u) d tr o d' → (∀ g ∈ groups u.dbOps, ¬ GroupFails tr g) →
      InQueueOrder u d d' o := by
  intro h
  have hrun := Data.runs (fun _ => { key := fun _ => 7 }) (commit shared) twoShards
  have hnone := @not_fails_of_clean shared.dbOps
    (((commit shared).run World.exec (fun _ => { key := fun _ => 7 }) 0 twoShards).1.map
      (Event.map World.data)) (by decide)
    (List.forall_mem_cons.mpr ⟨fun h => h, List.forall_mem_cons.mpr ⟨fun h => h,
      List.forall_mem_cons.mpr ⟨fun h => h, List.forall_mem_nil _⟩⟩⟩)
  obtain ⟨r, u', ho, hsteps⟩ := h shared _ _ _ _ hrun hnone
  cases ho
  obtain ⟨s₁, h₁, hsteps⟩ := steps_cons.mp hsteps
  obtain ⟨s₂, h₂, hsteps⟩ := steps_cons.mp hsteps
  have h₃ := steps_singleton.mp hsteps
  rw [execOp_update h₁] at h₂
  obtain ⟨k, hk⟩ := execOp_insert h₂
  rw [hk] at h₃
  have hend := execOp_update h₃
  have hkey := congrArg (fun s => Asset.idx (s.2.cell .assets 1)) hend
  change (7 : UInt64) = k at hkey
  subst hkey
  have hrows := congrArg (fun s => (s.1 20 .assets).map Asset.quantity) hend
  change [(1 : Int64)] = [5] at hrows
  exact absurd hrows (by decide)

end FutureWas.GroupedCommit
