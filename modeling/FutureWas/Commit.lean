import FutureWas.Model.Sample
import FutureWas.UowRules

/-!
# Commit

What a commit makes durable and what it reports. `groupOps` splits the queue by database in
the order of first use, so a queue on one database is one transaction. Its statements then
become durable together or not at all.

The cache is written after the transaction, and a failure there is reported like a rolled
back transaction: `not_retry_safe`. So success means that everything is durable and every
cache write succeeded, while a failure means that nothing is durable or that a cache write
failed after everything was: `commit_reports`.
-/

set_option autoImplicit false

namespace FutureWas.Commit

open Effect UowM Uow

/-! ## Grouping -/

theorem groupOps_same {db : Option DbId} {ops : List DbOp} (hne : ops ≠ [])
    (h : ∀ op ∈ ops, op.db = db) : groupOps ops = [(db, ops.map DbOp.stmt)] := by
  induction ops using List.reverseRecOn with
  | nil => exact absurd rfl hne
  | append_singleton ops op ih =>
    have hop : op.db = db := h op (by simp)
    rw [groupOps_concat]
    by_cases hops : ops = []
    · subst hops
      simp [groupOps, addToGroup, hop]
    · have hrest : ∀ o ∈ ops, o.db = db := fun o ho => h o (by simp [ho])
      simp [ih hops hrest, addToGroup, hop]

/-! ## What a run makes durable -/

variable {W : Type}

def committedBy : (op : Op) → op.Resp → List (Option DbId × Stmt)
  | .transaction db ops _, .committed _ => ops.map fun s => (some db, s)
  | _, _ => []

def durable (tr : List (Event Op.Resp W)) : List (Option DbId × Stmt) :=
  tr.flatMap fun e => committedBy e.op e.resp

/-- A transaction that the driver has unwound. -/
def Panicked (op : Op) (r : op.Resp) : Prop :=
  match op, r with
  | .transaction _ _ _, .panicked _ => True
  | _, _ => False

def Aborted (op : Op) (r : op.Resp) : Prop :=
  match op, r with
  | .transaction _ _ _, .committed _ => False
  | .transaction _ _ _, _ => True
  | _, _ => False

theorem Panicked.aborted {op : Op} {r : op.Resp} (h : Panicked op r) : Aborted op r := by
  cases op with
  | transaction db ops heap => cases r <;> trivial
  | _ => exact h.elim

def SomeAborted (tr : List (Event Op.Resp W)) : Prop := ∃ e ∈ tr, Aborted e.op e.resp

def failedWrite : (op : Op) → op.Resp → Bool
  | .cacheSetMulti _ _ _, written => !written
  | _, _ => false

def cacheWriteFailed (tr : List (Event Op.Resp W)) : Bool :=
  tr.any fun e => failedWrite e.op e.resp

def queued (u : UnitOfWork) : List (Option DbId × Stmt) := u.dbOps.map fun op => (op.db, op.stmt)

@[simp] theorem durable_nil : durable ([] : List (Event Op.Resp W)) = [] := rfl

@[simp] theorem durable_append (t₁ t₂ : List (Event Op.Resp W)) :
    durable (t₁ ++ t₂) = durable t₁ ++ durable t₂ :=
  List.flatMap_append

@[simp] theorem cacheWriteFailed_nil : cacheWriteFailed ([] : List (Event Op.Resp W)) = false := rfl

@[simp] theorem cacheWriteFailed_append (t₁ t₂ : List (Event Op.Resp W)) :
    cacheWriteFailed (t₁ ++ t₂) = (cacheWriteFailed t₁ || cacheWriteFailed t₂) :=
  List.any_append

/-- What the calls of a commit of `u` say together with its report. -/
structure Reports (u : UnitOfWork) (tr : List (Event Op.Resp W)) (success : Prop) : Prop where
  allOrNone : durable tr = queued u ∨ durable tr = []
  success_iff : success ↔ durable tr = queued u ∧ cacheWriteFailed tr = false

def Adds (tr : List (Event Op.Resp W)) (P : List (Event Op.Resp W) → Prop)
    (s : W × List (Event Op.Resp W)) : Prop :=
  ∃ t, s.2 = tr ++ t ∧ P t

theorem Adds.nil {tr : List (Event Op.Resp W)} {P : List (Event Op.Resp W) → Prop} {w : W}
    (h : P []) : Adds tr P (w, tr) :=
  ⟨[], by simp, h⟩

theorem Adds.one {tr : List (Event Op.Resp W)} {P : List (Event Op.Resp W) → Prop} {w : W}
    {e : Event Op.Resp W} (h : P [e]) : Adds tr P (w, tr ++ [e]) :=
  ⟨[e], rfl, h⟩

theorem Adds.append {tr t : List (Event Op.Resp W)} {P : List (Event Op.Resp W) → Prop}
    {s : W × List (Event Op.Resp W)} (h : Adds (tr ++ t) (fun t' => P (t ++ t')) s) :
    Adds tr P s := by
  obtain ⟨t', ht, hP⟩ := h
  exact ⟨t ++ t', by simpa using ht, hP⟩

theorem Adds.mono {tr : List (Event Op.Resp W)} {P P' : List (Event Op.Resp W) → Prop}
    {s : W × List (Event Op.Resp W)} (hP : ∀ t, P t → P' t) (h : Adds tr P s) :
    Adds tr P' s := by
  obtain ⟨t, ht, hp⟩ := h
  exact ⟨t, ht, hP t hp⟩

section

variable {step : (op : Op) → W → op.Resp → W → Prop} {α : Type} {u : UnitOfWork} {w : W}
  {tr : List (Event Op.Resp W)}

abbrev wpTraced (step : (op : Op) → W → op.Resp → W → Prop) (m : UowM α)
    (Q : Except GoError α → UnitOfWork → W × List (Event Op.Resp W) → Prop)
    (R : UnitOfWork → W × List (Event Op.Resp W) → Prop) (u : UnitOfWork)
    (s : W × List (Event Op.Resp W)) : Prop :=
  UowM.wp (Setting.crowded step).traced m Q R u s

theorem wp_perform_traced {op : Op}
    {Q : Except GoError op.Resp → UnitOfWork → W × List (Event Op.Resp W) → Prop}
    {R : UnitOfWork → W × List (Event Op.Resp W) → Prop}
    (h : ∀ r w₁ w₂, Q (.ok r) u (w₂, tr ++ [⟨op, r, w₁, w₂⟩])) :
    wpTraced step (perform op) Q R u (w, tr) := by
  rintro ⟨w₁, tr₁⟩ ⟨-, htr⟩
  refine ⟨trivial, ?_⟩
  rintro r ⟨w₂, tr₂⟩ ⟨-, htr₂⟩
  dsimp only at htr htr₂
  subst htr htr₂
  exact ⟨trivial, h r _ _⟩

theorem runOps_spec {db : Option DbId} (hone : ∀ op ∈ u.dbOps, op.db = db) :
    wpTraced step runOps
      (fun r _ => Adds tr fun t => cacheWriteFailed t = false ∧ match r with
        | .ok _ => durable t = queued u
        | .error _ => durable t = [] ∧ queued u ≠ [])
      (fun _ => Adds tr fun t => durable t = []) u (w, tr) := by
  refine wp_bind ?_
  change wpTraced step (if u.dbOps = [] then pure () else
    commitGroups (groupOps u.dbOps) >>= fun _ => modify fun u => { u with dbOps := [] }) _ _ u _
  split_ifs with hops
  · exact Adds.nil ⟨rfl, by simp [queued, hops]⟩
  · have hqueued : queued u = u.dbOps.map fun op => (db, op.stmt) :=
      List.map_congr_left fun op hop => by rw [hone op hop]
    rw [groupOps_same hops hone]
    refine wp_bind ?_
    cases db with
    | none => exact Adds.nil rfl
    | some db =>
      refine wp_bind (wp_bind ?_)
      refine wp_perform_traced fun r w₁ w₂ => ?_
      have hne : queued u ≠ [] := by simpa [queued] using hops
      cases r with
      | committed h =>
        refine Adds.one ⟨rfl, ?_⟩
        simp [durable, committedBy, hqueued]
      | failed h => exact Adds.one ⟨rfl, rfl, hne⟩
      | panicked h => exact Adds.one rfl

theorem writeBack_spec {o : Owner} {context : String} :
    wpTraced step (writeBack o context)
      (fun r _ => Adds tr fun t => durable t = [] ∧ (r = .ok () ↔ cacheWriteFailed t = false))
      (fun _ _ => False) u (w, tr) := by
  refine wp_bind ?_
  change wpTraced step (if u.scopeID o ≠ 0 ∧ u.holds o then _ else _) _ _ u _
  split_ifs
  · refine wp_bind (wp_perform_traced fun written w₁ w₂ => ?_)
    cases written with
    | true => exact Adds.one ⟨rfl, by simp [cacheWriteFailed, failedWrite]⟩
    | false => exact Adds.one ⟨rfl, by simp [cacheWriteFailed, failedWrite]⟩
  · exact Adds.nil ⟨rfl, by simp⟩

theorem commit_spec {db : Option DbId} (hone : ∀ op ∈ u.dbOps, op.db = db) :
    wpTraced step commit (fun r _ => Adds tr fun t => Reports u t (r = .ok ()))
      (fun _ => Adds tr fun t => durable t = []) u (w, tr) := by
  refine wp_bind (wp_mono ?_ (fun _ _ h => h) (runOps_spec hone))
  rintro (err | _) u₁ ⟨w₁, _⟩ ⟨t, rfl, hok, hdurable⟩
  · have hnot : ¬ ([] = queued u) := fun h => hdurable.2 h.symm
    exact ⟨t, rfl, Or.inr hdurable.1, by simp [hdurable.1, hnot]⟩
  · refine wp_bind (wp_mono ?_ (fun _ _ h => h.elim) writeBack_spec)
    rintro (err | _) u₂ ⟨w₂, _⟩ ⟨t', rfl, hnone, hwritten⟩
    · have hfailed : cacheWriteFailed t' = true := by simpa using hwritten
      refine Adds.append ⟨t', rfl, Or.inl (by simp [hdurable, hnone]), ?_⟩
      simp [hok, hfailed]
    · have hclean : cacheWriteFailed t' = false := hwritten.mp rfl
      refine wp_mono ?_ (fun _ _ h => h.elim) writeBack_spec
      rintro r u₃ ⟨w₃, _⟩ ⟨t'', rfl, hnone', hwritten'⟩
      refine Adds.append (Adds.append ⟨t'', rfl, Or.inl (by simp [hdurable, hnone, hnone']), ?_⟩)
      simp [hdurable, hnone, hnone', hok, hclean, hwritten']

theorem invalidate_spec {o : Owner} :
    wpTraced step (invalidate o)
      (fun r _ => Adds tr fun t => durable t = [] ∧ cacheWriteFailed t = false ∧ r = .ok ())
      (fun _ _ => False) u (w, tr) := by
  refine wp_bind ?_
  change wpTraced step (if u.scopeID o ≠ 0 then _ else _) _ _ u _
  split_ifs
  · refine wp_bind (wp_perform_traced fun deleted w₁ w₂ => ?_)
    exact Adds.one ⟨rfl, rfl, rfl⟩
  · exact Adds.nil ⟨rfl, rfl, rfl⟩

theorem commitOrRollback_spec {db : Option DbId} (hone : ∀ op ∈ u.dbOps, op.db = db) :
    wpTraced step commitOrRollback (fun r _ => Adds tr fun t => Reports u t (r = .ok ()))
      (fun _ => Adds tr fun t => durable t = []) u (w, tr) := by
  refine wp_bind (wp_attempt (wp_mono ?_ (fun _ _ h => h) (commit_spec hone)))
  rintro (err | _) u₁ ⟨w₁, _⟩ ⟨t, rfl, hreports⟩
  · refine wp_bind (wp_mono ?_ (fun _ _ h => h.elim) invalidate_spec)
    rintro _ u₂ ⟨w₂, _⟩ ⟨t₁, rfl, hnone₁, hclean₁, rfl⟩
    refine wp_bind (wp_mono ?_ (fun _ _ h => h.elim) invalidate_spec)
    rintro _ u₃ ⟨w₃, _⟩ ⟨t₂, rfl, hnone₂, hclean₂, rfl⟩
    refine Adds.append (Adds.append ⟨t₂, rfl, ?_, ?_⟩)
    · simpa [hnone₁, hnone₂] using hreports.allOrNone
    · simpa [hnone₁, hnone₂, hclean₁, hclean₂] using hreports.success_iff
  · exact ⟨t, rfl, hreports⟩

end

/-! ## The report of every run -/

/-- A run of a commit of `u` that unwinds has made nothing durable. -/
def ReportsRun (u : UnitOfWork) (tr : List (Event Op.Resp W)) :
    Outcome UnitOfWork (Except GoError Unit × UnitOfWork) → Prop
  | .ret (r, _) => Reports u tr (r = .ok ())
  | .raise _ => durable tr = []

/-- The response is a success when everything is durable, the caches are written and the
message can be marshalled. -/
def ReportsReply (s : Server) (result : Message) (u : UnitOfWork) (tr : List (Event Op.Resp W)) :
    Outcome UnitOfWork Reply → Prop
  | .ret reply => (durable tr = queued u ∨ durable tr = []) ∧ (reply.response.code = codeOK ↔
      durable tr = queued u ∧ cacheWriteFailed tr = false ∧ s.marshals result = true)
  | .raise _ => durable tr = []

section

variable {step : (op : Op) → W → op.Resp → W → Prop} {u : UnitOfWork} {w : W}
  {tr : List (Event Op.Resp W)}

theorem respond_spec {action : UInt32} {code : Int32} {body : ResponseBody}
    {sync : Option SyncData} {u' : UnitOfWork} :
    (Setting.crowded step).traced.wp ((sendGameResponse action code body sync).bind fun res =>
        .ret ⟨res, some u'⟩ : Call UnitOfWork Reply)
      (fun o s => ∃ res : GameResponse, res.code = code ∧ o = .ret ⟨res, some u'⟩ ∧
        Adds tr (fun t => durable t = [] ∧ cacheWriteFailed t = false) s) (w, tr) := by
  rintro ⟨w₁, tr₁⟩ ⟨-, htr⟩
  refine ⟨trivial, ?_⟩
  rintro r ⟨w₂, tr₂⟩ ⟨-, htr₂⟩
  dsimp only at htr htr₂
  subst htr htr₂
  exact ⟨trivial, _, rfl, rfl, Adds.one ⟨rfl, rfl⟩⟩

theorem finish_spec {db : Option DbId} (hone : ∀ op ∈ u.dbOps, op.db = db) {s : Server}
    {action : UInt32} {result : Message} :
    (Setting.crowded step).traced.wp (finish s action result u)
      (fun o => Adds tr fun t => ReportsReply s result u t o) (w, tr) := by
  refine Setting.wp_bind (Setting.wp_mono ?_ (commitOrRollback_spec hone))
  rintro (⟨err | _, u₁⟩ | u₁) ⟨w₁, _⟩ ⟨t, rfl, hreports⟩
  · refine Setting.wp_mono ?_ respond_spec
    rintro _ ⟨w₂, _⟩ ⟨res, hcode, rfl, t', rfl, hnone, hclean⟩
    refine Adds.append ⟨t', rfl, by simpa [hnone] using hreports.allOrNone, ?_⟩
    have hfail : durable t = queued u → cacheWriteFailed t = true := by
      simpa using hreports.success_iff
    simp only [hcode, durable_append, hnone, List.append_nil, cacheWriteFailed_append, hclean,
      Bool.or_false]
    refine iff_of_false (by decide) ?_
    rintro ⟨hall, hwritten, -⟩
    simp [hfail hall] at hwritten
  · obtain ⟨hall, hwritten⟩ : durable t = queued u ∧ cacheWriteFailed t = false := by
      simpa using hreports.success_iff
    dsimp only
    split
    · rename_i hmarshals
      refine Setting.wp_mono ?_ respond_spec
      rintro _ ⟨w₂, _⟩ ⟨res, hcode, rfl, t', rfl, hnone, hclean⟩
      refine Adds.append ⟨t', rfl, by simp [hnone, hall], ?_⟩
      simp [hcode, hnone, hall, hclean, hwritten, hmarshals]
    · rename_i hmarshals
      refine Setting.wp_mono ?_ respond_spec
      rintro _ ⟨w₂, _⟩ ⟨res, hcode, rfl, t', rfl, hnone, hclean⟩
      refine Adds.append ⟨t', rfl, by simp [hnone, hall], ?_⟩
      refine iff_of_false (by simp only [hcode]; decide) ?_
      simp [hmarshals]
  · exact ⟨t, rfl, hreports⟩

end

/-- A queue on one database commits as a whole or not at all; success is reported when it has
and every cache write has succeeded. -/
theorem commit_reports {u : UnitOfWork} {db : Option DbId} (hone : ∀ op ∈ u.dbOps, op.db = db)
    {w w' : World} {tr : List (Event Op.Resp World)} :
    (∀ o, Runs World.Step (fun _ _ => True) (commit u) w tr o w' → ReportsRun u tr o) ∧
      (∀ o, Runs World.Step (fun _ _ => True) (commitOrRollback u) w tr o w' →
        ReportsRun u tr o) ∧
      ∀ s action result o,
        Runs World.Step (fun _ _ => True) (finish s action result u) w tr o w' →
          ReportsReply s result u tr o := by
  have whole : ∀ {P : List (Event Op.Resp World) → Prop}, Adds [] P (w', [] ++ tr) → P tr := by
    rintro P ⟨t, ht, hP⟩
    have ht : tr = t := by simpa using ht
    rwa [ht]
  have sound : ∀ {α : Type} {p : Call UnitOfWork α} {o}
      {Q : Outcome UnitOfWork α → World × List (Event Op.Resp World) → Prop},
      Runs World.Step (fun _ _ => True) p w tr o w' →
      (Setting.crowded World.Step).traced.wp p Q (w, []) → Q o (w', [] ++ tr) :=
    fun hrun h => Setting.traced_sound (S := Setting.crowded World.Step) hrun h
  refine ⟨?_, ?_, ?_⟩
  · rintro (⟨r, u'⟩ | u') hrun
    · exact whole (sound hrun (commit_spec hone))
    · exact whole (sound hrun (commit_spec hone))
  · rintro (⟨r, u'⟩ | u') hrun
    · exact whole (sound hrun (commitOrRollback_spec hone))
    · exact whole (sound hrun (commitOrRollback_spec hone))
  · intro s action result o hrun
    exact whole (sound hrun (finish_spec hone))

/-! ## A card upgrade -/

def upgrade : UnitOfWork :=
  { UnitOfWork.new 1 Sample.catalog with
    store := fun e => if e = .cards then some (.many [0]) else none
    dbOps := [⟨some 10, .update .cards 0⟩]
    heap := (Heap.empty.alloc .cards ({ Sample.card with level := 2 } : Card)).1 }

theorem commit_reports_upgrade :
    ReportsRun upgrade ((commit upgrade).run World.exec (fun _ => {}) 0 Sample.world).1
      ((commit upgrade).run World.exec (fun _ => {}) 0 Sample.world).2.1 := by
  have hone : ∀ op ∈ upgrade.dbOps, op.db = some 10 := by decide
  have hrun := World.runs (fun _ => {}) (commit upgrade) Sample.world
  exact (commit_reports hone).1 _ (Runs.mono (fun _ _ _ _ h => h) (fun _ _ _ => trivial) hrun)

/-- The cache write fails after the transaction: the client sees an error, and a retry would
upgrade the card a second time. -/
theorem not_retry_safe :
    ∃ tr reply w', Runs World.Step (fun _ _ => True)
        (finish Sample.servers actionUpgradeCardLevel (.upgradeCardLevel (toCardData Sample.card))
          upgrade) Sample.world tr (.ret reply) w' ∧
      reply.response.code = codeInternalError ∧ durable tr = queued upgrade ∧
      queued upgrade ≠ [] := by
  have hrun := World.runs (fun n => { fails := n == 1 })
    (finish Sample.servers actionUpgradeCardLevel (.upgradeCardLevel (toCardData Sample.card))
      upgrade) Sample.world
  exact ⟨_, _, _, Runs.mono (fun _ _ _ _ h => h) (fun _ _ _ => trivial) hrun, rfl, rfl, by decide⟩

end FutureWas.Commit
