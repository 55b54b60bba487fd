import FutureWas.GroupedCommit
import FutureWas.Sessions.Calls

/-!
# The commit of a session

A commit that succeeds has run the queued statements, so that the stored models are their
rows, has marked what it wrote, and has put the stored lists into the cache.
-/

set_option autoImplicit false

namespace FutureWas.Sessions

open Effect UowM Uow

section

variable {P : Party} {e : EntityKind} {whole : Prop} {T M : Ref → Prop} {X Y : List Stmt}
  {u u' : UnitOfWork} {d d' : Data} {tr tr' : List (Event Op.Resp Data)}

theorem inserts_own (X : List Stmt) : inserts e (own e X) = inserts e X := by
  induction X with
  | nil => rfl
  | cons s X ih =>
    by_cases hs : s.kind = e
    · rw [own_cons_self hs]
      cases s with
      | insert e' r =>
        have he : e' = e := hs
        rw [he, inserts_insert, inserts_insert, ih]
      | update e' r => rw [inserts_update, inserts_update, ih]
    · rw [own_cons_other hs, ih]
      cases s with
      | insert e' r =>
        have hne : e' ≠ e := hs
        simp [inserts, hne]
      | update e' r => rw [inserts_update]

theorem Lists.key_mem {mine : Row e → Bool} {hidden : List (Row e)} {rs : List Ref} {h : Heap}
    {table : List (Row e)} (hl : Lists e mine T hidden X rs h table) {r : Ref} (hr : r ∈ rs)
    (hnot : .insert e r ∉ X) : (h.cell e r).primaryKey ∈ table.map Row.primaryKey := by
  obtain ⟨held, row, hperm, hsel, hshows⟩ := hl.shows
  have hheld : r ∈ held := by
    refine (List.mem_append.mp (hperm.mem_iff.mp hr)).resolve_right fun hins => ?_
    exact hnot (mem_inserts.mp hins)
  rw [(hshows r hheld).1]
  have hrow := hsel.mem_iff.mp (List.mem_append_left _ (List.mem_map_of_mem hheld))
  exact List.mem_map_of_mem (List.mem_filter.mp hrow).1

namespace Core

theorem apart (h : Core P e whole T X u d tr) (hd : P.Apart d d') : Core P e whole T X u d' tr := by
  obtain ⟨hidden, hwhole, hlists⟩ := h.lists
  exact ⟨⟨hidden, hwhole, hlists.congr (le_refl _) (fun _ _ => rfl) (hd.keys e hlists.keys)
    (hd.rows e)⟩, h.marked, h.made⟩

theorem stable : ∀ d d', P.Apart d d' → Core P e whole T X u d tr → Core P e whole T X u d' tr :=
  fun _ _ hd h => h.apart hd

theorem event (h : Core P e whole T X u d tr) (hdb : d'.db = d.db) {ev : Event Op.Resp Data}
    (hev : ∀ db k, ¬ WroteBy e ev.op ev.resp ev.before ev.after db k) :
    Core P e whole T X u d' (tr ++ [ev]) := by
  obtain ⟨made, hmade, hdirty, hwrote⟩ := h.made
  refine ⟨?_, h.marked, made, hmade, hdirty, ?_⟩
  · unfold Party.table
    rw [hdb]
    exact h.lists
  · intro db k
    rw [wrote_append, wrote_singleton, hwrote]
    exact or_iff_left (hev db k)

theorem committed (hmine : ∀ k m, P.mine e (Row.setPrimaryKey k m) = P.mine e m)
    {stmts : List Stmt} {db : DbId} {t' : Tables} {h' : Heap}
    (h : Core P e whole T (own e stmts ++ Y) u d tr)
    (hrun : StmtRun stmts (d.db db) u.heap t' h') (hdb : own e stmts ≠ [] → db = P.home e) :
    Core P e whole T Y { u with heap := h' } (d.setDb db t')
      (tr ++ [⟨.transaction db stmts u.heap, .committed h', d, d.setDb db t'⟩]) := by
  obtain ⟨hidden, hwhole, hlists⟩ := h.lists
  obtain ⟨made, hmade, hdirty, hwrote⟩ := h.made
  obtain ⟨hnext, hcell⟩ := stmtRun_frame (e := e) hrun
  have hins : inserts e stmts = inserts e (own e stmts) := (inserts_own stmts).symm
  have hnodup : (inserts e stmts).Nodup := by
    obtain ⟨held, row, hperm, -, -⟩ := hlists.shows
    have hall := hlists.nodup_held hperm
    rw [inserts_append, ← hins] at hall
    exact hall.of_append_right.of_append_left
  have hlists' : Lists e (P.mine e) T hidden Y (refsOf e u) h' (P.table (d.setDb db t') e) := by
    unfold Party.table
    by_cases hhome : db = P.home e
    · subst hhome
      rw [Data.setDb_db_self]
      exact Lists.run hrun hmine hlists
    · have hnone : own e stmts = [] := by
        by_contra hne
        exact hhome (hdb hne)
      rw [Data.setDb_db_of_ne (Ne.symm hhome)]
      rw [hnone, List.nil_append] at hlists
      rw [hins, hnone] at hcell
      refine hlists.congr hnext.ge (fun r _ => hcell r (by simp)) hlists.keys rfl
  have hfirst := (List.pairwise_append.mp hlists.first).2.2
  have hlater : ∀ s ∈ own e stmts, .insert e s.ref ∉ Y := by
    intro s hs hins
    exact hfirst s hs _ hins rfl rfl
  have hsame : ∀ r ∈ made, h'.cell e r = u.heap.cell e r := by
    intro r hr
    refine hcell r fun hmem => (hmade r hr).2 ?_
    rw [hins] at hmem
    exact List.mem_append_left _ (mem_inserts.mp hmem)
  have hevent : ∀ db' k, WroteBy e (.transaction db stmts u.heap) (.committed h') d
      (d.setDb db t') db' k ↔
        db' = P.home e ∧ ∃ s ∈ own e stmts, (h'.cell e s.ref).primaryKey = k := by
    intro db' k
    obtain ⟨hkeys, hnew⟩ := stmtRun_keys hrun hnodup k
    constructor
    · rintro ⟨rfl, hmem, hcase⟩
      rw [Data.setDb_db_self] at hmem
      have hs : ∃ s ∈ own e stmts, (h'.cell e s.ref).primaryKey = k := by
        rcases hcase with hnot | ⟨r, hr, hk⟩
        · obtain ⟨r, hr, hk⟩ := (hkeys.mp hmem).resolve_left hnot
          exact ⟨.insert e r, mem_own.mpr ⟨mem_inserts.mp hr, rfl⟩, hk⟩
        · exact ⟨.update e r, mem_own.mpr ⟨hr, rfl⟩, hk⟩
      obtain ⟨s, hs, hk⟩ := hs
      exact ⟨hdb (List.ne_nil_of_mem hs), s, hs, hk⟩
    · rintro ⟨rfl, s, hs, hk⟩
      have hhome := hdb (List.ne_nil_of_mem hs)
      subst hhome
      have hmem : k ∈ (t' e).map Row.primaryKey := by
        have hrow := hlists'.key_mem (hlists.refs s (List.mem_append_left _ hs)).2 (hlater s hs)
        unfold Party.table at hrow
        rwa [Data.setDb_db_self, hk] at hrow
      refine ⟨rfl, by rwa [Data.setDb_db_self], ?_⟩
      obtain ⟨hstmt, hkind⟩ := mem_own.mp hs
      cases s with
      | insert e' r =>
        have he : e' = e := hkind
        rw [he] at hstmt
        refine Or.inl fun hold => hnew r (mem_inserts.mpr hstmt) ?_
        exact hk.symm ▸ hold
      | update e' r =>
        have he : e' = e := hkind
        rw [he] at hstmt
        exact Or.inr ⟨r, hstmt, hk⟩
  refine ⟨⟨hidden, hwhole, hlists'⟩, h.marked, made ++ (own e stmts).map Stmt.ref, ?_, ?_, ?_⟩
  · intro r hr
    rcases List.mem_append.mp hr with hr | hr
    · exact ⟨(hmade r hr).1, fun hmem => (hmade r hr).2 (List.mem_append_right _ hmem)⟩
    · obtain ⟨s, hs, rfl⟩ := List.mem_map.mp hr
      exact ⟨(hlists.refs s (List.mem_append_left _ hs)).2, hlater s hs⟩
  · intro hname r
    have hold := hdirty hname r
    change (e, r) ∈ u.dirty ↔ _
    rw [hold]
    simp only [List.mem_append, List.mem_map, or_and_right, exists_or, or_assoc]
  · intro db' k
    rw [wrote_append, hwrote, wrote_singleton, hevent, ← and_or_left]
    refine and_congr Iff.rfl ?_
    constructor
    · rintro (⟨r, hr, hk⟩ | ⟨s, hs, hk⟩)
      · refine ⟨r, List.mem_append_left _ hr, ?_⟩
        change (h'.cell e r).primaryKey = k
        rwa [hsame r hr]
      · exact ⟨s.ref, List.mem_append_right _ (List.mem_map_of_mem hs), hk⟩
    · rintro ⟨r, hr, hk⟩
      rcases List.mem_append.mp hr with hr | hr
      · change (h'.cell e r).primaryKey = k at hk
        rw [hsame r hr] at hk
        exact Or.inl ⟨r, hr, hk⟩
      · obtain ⟨s, hs, rfl⟩ := List.mem_map.mp hr
        exact Or.inr ⟨s, hs, hk⟩

end Core

theorem flatMap_single {K A : Type} [DecidableEq K] {k : K} {as : List A} {l : List K}
    (hl : l.Nodup) (has : k ∉ l → as = []) :
    l.flatMap (fun x => if x = k then as else []) = as := by
  induction l with
  | nil => exact (has (by simp)).symm
  | cons x l ih =>
    obtain ⟨hx, hl⟩ := List.nodup_cons.mp hl
    rw [List.flatMap_cons]
    by_cases hxk : x = k
    · subst hxk
      have hrest : l.flatMap (fun y => if y = x then as else []) = [] := by
        refine List.flatMap_eq_nil_iff.mpr fun y hy => if_neg ?_
        rintro rfl
        exact hx hy
      rw [if_pos rfl, hrest, List.append_nil]
    · rw [if_neg hxk, List.nil_append]
      refine ih hl fun hk => has ?_
      simpa [Ne.symm hxk] using hk

theorem own_groupOps {ops : List DbOp} {db : DbId}
    (h : ∀ op ∈ ops, op.stmt.kind = e → op.db = some db) :
    own e ((groupOps ops).flatMap Prod.snd) =
      (ops.filter fun op => op.stmt.kind = e).map DbOp.stmt := by
  have hgroup : ∀ key, own e ((ops.filter fun op => op.db == key).map DbOp.stmt) =
      if key = some db then (ops.filter fun op => op.stmt.kind = e).map DbOp.stmt else [] := by
    intro key
    unfold own
    rw [List.filter_map, List.filter_filter]
    split_ifs with hkey
    · refine congrArg (List.map _) (List.filter_congr fun op hop => ?_)
      by_cases hkind : op.stmt.kind = e
      · simp [Function.comp, hkind, hkey, h op hop hkind]
      · simp [Function.comp, hkind]
    · have hnone : (ops.filter fun op => ((fun s : Stmt => decide (s.kind = e)) ∘ DbOp.stmt) op &&
          op.db == key) = [] := by
        refine List.filter_eq_nil_iff.mpr fun op hop htrue => ?_
        simp only [Function.comp, Bool.and_eq_true, decide_eq_true_eq, beq_iff_eq] at htrue
        exact hkey (htrue.2.symm.trans (h op hop htrue.1))
      rw [hnone]
      rfl
  rw [GroupedCommit.groupOps_eq]
  unfold own GroupedCommit.groups
  rw [List.flatMap_map, List.filter_flatMap]
  have hmap : ∀ key, List.filter (fun s : Stmt => decide (s.kind = e))
      ((ops.filter fun op => op.db == key).map DbOp.stmt) = if key = some db then
        (ops.filter fun op => op.stmt.kind = e).map DbOp.stmt else [] := hgroup
  simp only [hmap]
  refine flatMap_single (nodup_eraseDups _) fun hnot => ?_
  rw [List.map_eq_nil_iff]
  refine List.filter_eq_nil_iff.mpr fun op hop htrue => hnot ?_
  rw [List.mem_eraseDups, ← h op hop (of_decide_eq_true htrue)]
  exact List.mem_map_of_mem hop

variable {α : Type}

theorem commitGroups_none {groups : List (Option DbId × List Stmt)} (h : ∃ g ∈ groups, g.1 = none) :
    UowM.wp P.others.traced (commitGroups groups) (fun r _ _ => r ≠ .ok ()) (fun _ _ => True) u
      (d, tr) := by
  induction groups generalizing u d tr with
  | nil => simp at h
  | cons g groups ih =>
    obtain ⟨_ | db, stmts⟩ := g
    · trivial
    · refine wp_local rfl (wp_ask (J := fun _ => True) (fun _ _ _ _ => trivial) trivial ?_)
      intro d₁ _ r d₂ _
      cases r with
      | committed h' =>
        refine wp_local rfl (ih ?_)
        obtain ⟨g, hg, hnone⟩ := h
        rcases List.mem_cons.mp hg with rfl | hg
        · cases hnone
        · exact ⟨g, hg, hnone⟩
      | failed h' => exact fun hok => by cases hok
      | panicked h' => trivial

structure Kept (u u' : UnitOfWork) : Prop where
  store : u'.store = u.store
  dirty : u'.dirty = u.dirty
  scope : ∀ o, u'.scopeID o = u.scopeID o

theorem Kept.refl : Kept u u := ⟨rfl, rfl, fun _ => rfl⟩

theorem commitGroups_wp (hmine : ∀ k m, P.mine e (Row.setPrimaryKey k m) = P.mine e m)
    {groups : List (Option DbId × List Stmt)}
    (hgroups : ∀ g ∈ groups, own e g.2 ≠ [] → g.1 = none ∨ g.1 = some (P.home e))
    (h : Core P e whole T (own e (groups.flatMap Prod.snd)) u d tr) :
    UowM.wp P.others.traced (commitGroups groups)
      (fun r u' s => r = .ok () → Core P e whole T [] u' s.1 s.2 ∧ Kept u u') (fun _ _ => True)
      u (d, tr) := by
  induction groups generalizing u d tr with
  | nil => exact fun _ => ⟨h, .refl⟩
  | cons g groups ih =>
    obtain ⟨_ | db, stmts⟩ := g
    · trivial
    · refine wp_local rfl (wp_ask Core.stable h ?_)
      intro d₁ h₁ r d₂ hs
      rcases hs with ⟨t', h', hrun, rfl, rfl⟩ | ⟨h', rfl, rfl⟩ | ⟨h', rfl, rfl⟩
      · have hdb : own e stmts ≠ [] → db = P.home e := by
          intro hne
          simpa using hgroups _ List.mem_cons_self hne
        rw [List.flatMap_cons, own_append] at h₁
        refine wp_local rfl (wp_mono ?_ (fun _ _ h => h)
          (ih (fun g hg => hgroups g (List.mem_cons_of_mem _ hg)) (h₁.committed hmine hrun hdb)))
        intro r u' s hpost hok
        obtain ⟨hcore, hkept⟩ := hpost hok
        exact ⟨hcore, hkept.store, hkept.dirty, hkept.scope⟩
      · exact fun hok => by cases hok
      · trivial

theorem runOps_wp (hmine : ∀ k m, P.mine e (Row.setPrimaryKey k m) = P.mine e m)
    (hrouted : ∀ op ∈ queued e u, op.db = none ∨ op.db = some (P.home e))
    (h : Core P e whole T ((queued e u).map DbOp.stmt) u d tr) :
    UowM.wp P.others.traced runOps
      (fun r u' s => r = .ok () → Core P e whole T [] u' s.1 s.2 ∧ Kept u u') (fun _ _ => True)
      u (d, tr) := by
  refine wp_local rfl ?_
  by_cases hops : u.dbOps = []
  · rw [if_pos hops]
    have hnone : queued e u = [] := by
      unfold queued
      rw [hops]
      rfl
    rw [hnone] at h
    exact fun _ => ⟨h, .refl⟩
  · rw [if_neg hops]
    by_cases hall : ∀ op ∈ u.dbOps, op.stmt.kind = e → op.db = some (P.home e)
    · have hown : own e ((groupOps u.dbOps).flatMap Prod.snd) = (queued e u).map DbOp.stmt :=
        own_groupOps hall
      rw [← hown] at h
      refine wp_bind (wp_mono ?_ (fun _ _ h => h) (commitGroups_wp hmine ?_ h))
      · intro r u' s hpost
        cases r with
        | error err => exact fun hok => by cases hok
        | ok _ =>
          obtain ⟨hcore, hkept⟩ := hpost rfl
          exact fun _ => ⟨⟨hcore.lists, hcore.marked, hcore.made⟩, hkept.store, hkept.dirty,
            hkept.scope⟩
      · intro g hg hne
        obtain ⟨s, hs⟩ := List.exists_mem_of_ne_nil _ hne
        obtain ⟨hmem, hkind⟩ := mem_own.mp hs
        exact Or.inr (hall _ (mem_groupOps hg hmem) hkind)
    · have hnone : ∃ g ∈ groupOps u.dbOps, g.1 = none := by
        simp only [not_forall] at hall
        obtain ⟨op, hop, hkind, hdb⟩ := hall
        have hmem : op ∈ queued e u := List.mem_filter.mpr ⟨hop, decide_eq_true hkind⟩
        exact (groupOps_dbs u.dbOps none).mpr ⟨op, hop, (hrouted op hmem).resolve_right hdb⟩
      refine wp_bind (wp_mono ?_ (fun _ _ h => h) (commitGroups_none hnone))
      intro r u' s hpost
      cases r with
      | error err => exact fun hok => by cases hok
      | ok _ => exact absurd rfl hpost

def Published (P : Party) (e : EntityKind) (u : UnitOfWork) (d : Data) : Prop :=
  ∀ s, u.store e = some s → P.ids e.owner ≠ 0 →
    d.cache e.owner (P.ids e.owner) e = some (u.value e s)

theorem Published.apart (h : Published P e u d) (hd : P.Apart d d') : Published P e u d' := by
  intro s hs hid
  rw [hd.cache]
  exact h s hs hid

theorem writeBack_wp {o : Owner} {context : String} {B : Prop} (hscope : ∀ o, u.scopeID o = P.ids o)
    (hB : B → Published P e u d) (h : Core P e whole T [] u d tr) :
    UowM.wp P.others.traced (writeBack o context)
      (fun r u' s => r = .ok () → u' = u ∧ Core P e whole T [] u s.1 s.2 ∧
        (B ∨ o = e.owner → Published P e u s.1)) (fun _ _ => True) u (d, tr) := by
  refine wp_local rfl ?_
  split_ifs with hholds
  · refine wp_ask (J := fun d => Core P e whole T [] u d tr ∧ (B → Published P e u d))
      (fun _ _ hd hJ => ⟨hJ.1.apart hd, fun hb => (hJ.2 hb).apart hd⟩) ⟨h, hB⟩ ?_
    intro d₁ hJ written d₂ hs
    cases written with
    | false => exact fun hok => by cases hok
    | true =>
      have hd₂ : d₂ = d₁.setCache o (u.scopeID o)
          ((d₁.cache o (u.scopeID o)).hset (u.snapshot o)) := by
        simpa [Data.Step] using hs
      have hdb : d₂.db = d₁.db := by rw [hd₂, Data.setCache_db]
      refine fun _ => ⟨rfl, hJ.1.event hdb fun _ _ hw => hw, ?_⟩
      rintro hcase s hs' hid
      by_cases ho : o = e.owner
      · subst ho
        have hsnap : u.snapshot e.owner e = some (u.value e s) := by
          unfold UnitOfWork.snapshot
          rw [if_pos rfl, hs']
          rfl
        rw [hd₂, ← hscope, Data.setCache_cache_self, Fields.hset, hsnap]
        rfl
      · rw [hd₂, Data.setCache_cache_of_ne (Or.inl (Ne.symm ho))]
        exact hJ.2 (hcase.resolve_right ho) s hs' hid
  · refine fun _ => ⟨rfl, h, ?_⟩
    rintro hcase s hs hid
    by_cases ho : o = e.owner
    · have hany : u.holds o = true := by
        unfold UnitOfWork.holds
        refine List.any_eq_true.mpr ⟨e, EntityKind.mem_all e, ?_⟩
        simp [ho, hs]
      rw [ho, hscope] at hholds
      rw [ho] at hany
      exact absurd ⟨hid, hany⟩ hholds
    · exact hB (hcase.resolve_right ho) s hs hid

theorem Inv.settle (h : Inv P e whole T M [] u d tr) :
    Inv P e whole (fun r => T r ∧ ∀ op ∈ queued e u, op.stmt.ref ≠ r) M [] u d tr := by
  obtain ⟨hidden, hwhole, hlists⟩ := h.core.lists
  refine ⟨h.scope, h.stored, h.cached, h.accounts, h.typed, h.routed, h.pointers, h.marks,
    ⟨hidden, hwhole, ?_⟩, h.core.marked, h.core.made⟩
  have hsettled := hlists.settle
  simpa only [List.append_nil, List.forall_mem_map] using hsettled

theorem commit_wp (hmine : ∀ k m, P.mine e (Row.setPrimaryKey k m) = P.mine e m)
    (h : Inv P e whole T M [] u d tr) :
    UowM.wp P.others.traced commit
      (fun r u' s => r = .ok () → Core P e whole T [] u' s.1 s.2 ∧ Kept u u' ∧
        Published P e u' s.1) (fun _ _ => True) u (d, tr) := by
  have hcore := h.core
  rw [List.append_nil] at hcore
  refine wp_bind (wp_mono ?_ (fun _ _ h => h) (runOps_wp hmine h.routed hcore))
  intro r u₁ s₁ hpost
  cases r with
  | error err => exact fun hok => by cases hok
  | ok _ =>
    obtain ⟨hcore₁, hkept⟩ := hpost rfl
    have hscope : ∀ o, u₁.scopeID o = P.ids o := fun o => (hkept.scope o).trans (h.scope o)
    refine wp_bind (wp_mono ?_ (fun _ _ h => h)
      (@writeBack_wp P e whole T u₁ s₁.1 s₁.2 .user "user cache set" False hscope
        (fun hf => hf.elim) hcore₁))
    intro r u₂ s₂ hpost₂
    cases r with
    | error err => exact fun hok => by cases hok
    | ok _ =>
      obtain ⟨rfl, hcore₂, hpublished⟩ := hpost₂ rfl
      refine wp_mono ?_ (fun _ _ h => h)
        (@writeBack_wp P e whole T u₂ s₂.1 s₂.2 .club "club cache set" (Owner.user = e.owner) hscope
          (fun hb => hpublished (Or.inr hb)) hcore₂)
      intro r u₃ s₃ hpost₃ hok
      obtain ⟨rfl, hcore₃, hpublished₃⟩ := hpost₃ hok
      refine ⟨hcore₃, hkept, hpublished₃ ?_⟩
      cases e.owner with
      | user => exact Or.inl rfl
      | club => exact Or.inr rfl

end

end FutureWas.Sessions
