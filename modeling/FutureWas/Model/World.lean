import FutureWas.Effect.Program
import FutureWas.Model.Errcode
import FutureWas.Model.Rows

/-!
# The services behind the server

What a request can ask of MySQL and Redis (`Op`), the answers (`Op.Resp`), and the state of
these services. `World.exec` answers one call, given the environment's `Choice` for it:
whether the command fails, the auto-increment keys, the random values and the clock.

`Data` is the part made of rows and cached fields. `Data.Step` lists the answers a call can
get and their effect on that part, over all choices; locks, sessions, tokens and the clock
may answer anything there. `World.exec_data` shows it covers `World.exec`.

A transaction and a Lua script are one call each. A failed command leaves no effect. A
`SELECT` answers in table order, and the database stores and returns bound values unchanged.
A primary key and a UNIQUE index refuse a second row, and the statement fails.
-/

set_option autoImplicit false

namespace FutureWas

open Effect

abbrev DbId := ℕ

/-! ## Tables -/

abbrev Tables : Type := (e : EntityKind) → List (Row e)

namespace Tables

/-- `SELECT * FROM t WHERE user_id = ?` (`club_id` for the club kinds). -/
def select (t : Tables) (e : EntityKind) (id : UInt64) : List (Row e) :=
  (t e).filter fun m => m.ownerID = id

/-- `SELECT user_id FROM TB_ACCOUNT WHERE channel_uid = ? AND is_active > 0`, first row. -/
def findUserID (t : Tables) (channelUID : UInt64) : Option UInt64 :=
  ((t .account).find? fun a => a.channelUID = channelUID ∧ 0 < a.isActive).map Account.userID

def insert (t : Tables) (e : EntityKind) (m : Row e) : Tables :=
  Function.update t e (t e ++ [m])

/-- `UPDATE t SET` every column but the key `WHERE` the key is that of `m`. -/
def update (t : Tables) (e : EntityKind) (m : Row e) : Tables :=
  Function.update t e ((t e).map fun row => if row.primaryKey = m.primaryKey then m else row)

def Fresh (t : Tables) (e : EntityKind) (k : UInt64) : Prop :=
  k ≠ 0 ∧ ∀ m ∈ t e, m.primaryKey ≠ k

instance (t : Tables) (e : EntityKind) (k : UInt64) : Decidable (t.Fresh e k) :=
  inferInstanceAs (Decidable (_ ∧ _))

/-- No other row stands under the UNIQUE index where `m` would. -/
def Admits (t : Tables) (e : EntityKind) (m : Row e) : Prop :=
  ∀ row ∈ t e, row.primaryKey ≠ m.primaryKey → m.uniqueIndex.isSome →
    row.uniqueIndex ≠ m.uniqueIndex

instance (t : Tables) (e : EntityKind) (m : Row e) : Decidable (t.Admits e m) :=
  inferInstanceAs (Decidable (∀ row ∈ t e, _ → _ → _))

def Inserts (t : Tables) (e : EntityKind) (m : Row e) (k : UInt64) : Prop :=
  t.Fresh e k ∧ t.Admits e (m.setPrimaryKey k)

instance (t : Tables) (e : EntityKind) (m : Row e) (k : UInt64) : Decidable (t.Inserts e m k) :=
  inferInstanceAs (Decidable (_ ∧ _))

/-- MySQL accepts an `UPDATE` of the row with the key of `m`; there may be no such row. -/
def Updates (t : Tables) (e : EntityKind) (m : Row e) : Prop :=
  (∀ row ∈ t e, row.primaryKey ≠ m.primaryKey) ∨ t.Admits e m

instance (t : Tables) (e : EntityKind) (m : Row e) : Decidable (t.Updates e m) :=
  inferInstanceAs (Decidable (_ ∨ _))

end Tables

/-! ## Queued statements -/

/-- The closures queued by `Create` and `Update`: they read the model when they run. -/
inductive Stmt
  | insert (e : EntityKind) (r : Ref)
  | update (e : EntityKind) (r : Ref)
  deriving DecidableEq

def Stmt.kind : Stmt → EntityKind
  | .insert e _ => e
  | .update e _ => e

def Stmt.ref : Stmt → Ref
  | .insert _ r => r
  | .update _ r => r

/-- `StmtRun ops t h t' h'`: the statements run in order on the tables of one database and
the models of the request; an `INSERT` writes its key back into the model. -/
inductive StmtRun : List Stmt → Tables → Heap → Tables → Heap → Prop
  | nil {t h} : StmtRun [] t h t h
  | insert {e r ops t h t' h'} (k : UInt64) : t.Inserts e (h.cell e r) k →
      StmtRun ops (t.insert e ((h.cell e r).setPrimaryKey k))
        (h.set e r ((h.cell e r).setPrimaryKey k)) t' h' →
      StmtRun (.insert e r :: ops) t h t' h'
  | update {e r ops t h t' h'} : t.Updates e (h.cell e r) →
      StmtRun ops (t.update e (h.cell e r)) h t' h' →
      StmtRun (.update e r :: ops) t h t' h'

inductive Fate
  | ok
  | fails
  | panics
  deriving DecidableEq

structure Choice where
  fails : Bool := false
  commitFails : Bool := false
  stmt : ℕ → Fate := fun _ => .ok
  key : ℕ → UInt64 := fun _ => 0
  now : Time := 0
  token : String := ""
  roll : ℕ := 0
  cancelled : Bool := false

/-- Runs the statements from number `i` on; on failure the tables are those reached. -/
def runStmts (c : Choice) : ℕ → List Stmt → Tables → Heap → Fate × Tables × Heap
  | _, [], t, h => (.ok, t, h)
  | i, s :: ops, t, h =>
    match c.stmt i with
    | .fails => (.fails, t, h)
    | .panics => (.panics, t, h)
    | .ok =>
      match s with
      | .insert e r =>
        if t.Inserts e (h.cell e r) (c.key i) then
          let m := (h.cell e r).setPrimaryKey (c.key i)
          runStmts c (i + 1) ops (t.insert e m) (h.set e r m)
        else (.fails, t, h)
      | .update e r =>
        if t.Updates e (h.cell e r) then runStmts c (i + 1) ops (t.update e (h.cell e r)) h
        else (.fails, t, h)

theorem stmtRun_of_runStmts {c : Choice} {i : ℕ} {ops : List Stmt} {t t' : Tables} {h h' : Heap}
    (hrun : runStmts c i ops t h = (.ok, t', h')) : StmtRun ops t h t' h' := by
  induction ops generalizing i t h with
  | nil =>
    cases hrun
    exact .nil
  | cons s ops ih =>
    simp only [runStmts] at hrun
    split at hrun
    · cases hrun
    · cases hrun
    · cases s with
      | insert e r =>
        dsimp only at hrun
        split at hrun
        · rename_i hinserts
          exact .insert _ hinserts (ih hrun)
        · cases hrun
      | update e r =>
        dsimp only at hrun
        split at hrun
        · rename_i hupdates
          exact .update hupdates (ih hrun)
        · cases hrun

/-! ## Cached fields -/

inductive Cached (e : EntityKind) : Type
  | one (m : Row e)
  | many (ms : List (Row e))

/-- A Redis hash; its fields are named by kinds. -/
abbrev Fields : Type := (e : EntityKind) → Option (Cached e)

namespace Fields

def none : Fields := fun _ => .none

def single (e : EntityKind) (v : Cached e) : Fields := Function.update none e (some v)

/-- `HSET` of every field present in `new`. -/
def hset (old new : Fields) : Fields := fun e => (new e).or (old e)

end Fields

structure Data where
  db : DbId → Tables
  cache : Owner → UInt64 → Fields

namespace Data

def setDb (d : Data) (db : DbId) (t : Tables) : Data :=
  { d with db := Function.update d.db db t }

def setCache (d : Data) (o : Owner) (id : UInt64) (fs : Fields) : Data :=
  { d with cache := Function.update d.cache o (Function.update (d.cache o) id fs) }

end Data

/-! ## Calls -/

/-- `lock:user:{id}` and `lock:club:{id}`. -/
inductive LockKey
  | user (id : UInt64)
  | club (id : UInt64)
  deriving DecidableEq

inductive Op
  | findUserID (db : DbId) (channelUID : UInt64)
  | select (db : DbId) (e : EntityKind) (id : UInt64)
  | create (db : DbId) (e : EntityKind) (m : Row e)
  | transaction (db : DbId) (ops : List Stmt) (heap : Heap)
  | cacheGet (e : EntityKind) (id : UInt64)
  | cacheSet (e : EntityKind) (id : UInt64) (v : Cached e)
  | cacheSetMulti (o : Owner) (id : UInt64) (fs : Fields)
  | cacheDeleteAll (o : Owner) (id : UInt64)
  | sessionSet (id : UInt64) (token : String)
  | sessionVerify (id : UInt64) (token : String)
  | lockAcquire (key : LockKey) (token : String)
  | lockWait
  | lockRelease (key : LockKey) (token : String)
  | newToken
  /-- `clock.Now`, which carries the admin offset; `timeNow` is `time.Now`. -/
  | now
  | timeNow
  | intN (n : ℕ)
  /-- Marks in the run that `dispatch` hands the unit of work of `userID` to a handler. -/
  | enter (action : UInt32) (userID : UInt64)

/-- The heap carries the keys the `INSERT`s have written into their models. -/
inductive TxReply
  | committed (heap : Heap)
  | failed (heap : Heap)
  | panicked (heap : Heap)

inductive LockReply
  | acquired
  | held
  | failed
  deriving DecidableEq

/-- `none` and `false` report that the command failed. -/
abbrev Op.Resp : Op → Type
  | .findUserID _ _ => Option (Option UInt64)
  | .select _ e _ => Option (List (Row e))
  | .create _ _ _ => Option UInt64
  | .transaction _ _ _ => TxReply
  | .cacheGet e _ => Option (Option (Cached e))
  | .cacheSet _ _ _ => Bool
  | .cacheSetMulti _ _ _ => Bool
  | .cacheDeleteAll _ _ => Bool
  | .sessionSet _ _ => Bool
  | .sessionVerify _ _ => Option Bool
  | .lockAcquire _ _ => LockReply
  | .lockWait => Bool
  | .lockRelease _ _ => Bool
  | .newToken => Option String
  | .now => Time
  | .timeNow => Time
  | .intN _ => ℕ
  | .enter _ _ => Unit

/-- Programs of the server; unwinding carries the state it leaves behind. -/
abbrev Call (ε α : Type) : Type := Prog Op.Resp ε α

structure World where
  data : Data
  session : UInt64 → Option String
  lock : LockKey → Option String
  issued : List String

namespace World

def setData (w : World) (d : Data) : World := { w with data := d }

def exec (c : Choice) : (op : Op) → World → op.Resp × World
  | .findUserID db ch, w =>
    (if c.fails then none else some ((w.data.db db).findUserID ch), w)
  | .select db e id, w => (if c.fails then none else some ((w.data.db db).select e id), w)
  | .create db e m, w =>
    if c.fails = false ∧ (w.data.db db).Inserts e m (c.key 0) then
      (some (c.key 0),
        w.setData (w.data.setDb db ((w.data.db db).insert e (m.setPrimaryKey (c.key 0)))))
    else (none, w)
  | .transaction db ops h, w =>
    if c.fails then (.failed h, w)
    else match runStmts c 0 ops (w.data.db db) h with
      | (.ok, t, h') =>
        if c.commitFails then (.failed h', w)
        else (.committed h', w.setData (w.data.setDb db t))
      | (.fails, _, h') => (.failed h', w)
      | (.panics, _, h') => (.panicked h', w)
  | .cacheGet e id, w => (if c.fails then none else some (w.data.cache e.owner id e), w)
  | .cacheSet e id v, w =>
    if c.fails then (false, w)
    else (true, w.setData (w.data.setCache e.owner id
      ((w.data.cache e.owner id).hset (Fields.single e v))))
  | .cacheSetMulti o id fs, w =>
    if c.fails then (false, w)
    else (true, w.setData (w.data.setCache o id ((w.data.cache o id).hset fs)))
  | .cacheDeleteAll o id, w =>
    if c.fails then (false, w) else (true, w.setData (w.data.setCache o id Fields.none))
  | .sessionSet id token, w =>
    if c.fails then (false, w)
    else (true, { w with session := Function.update w.session id (some token) })
  | .sessionVerify id token, w =>
    (if c.fails then none else some (decide (w.session id = some token)), w)
  | .lockAcquire key token, w =>
    if c.fails then (.failed, w)
    else if w.lock key = none then
      (.acquired, { w with lock := Function.update w.lock key (some token) })
    else (.held, w)
  | .lockWait, w => (c.cancelled, w)
  | .lockRelease key token, w =>
    if c.fails then (false, w)
    else if w.lock key = some token then
      (true, { w with lock := Function.update w.lock key none })
    else (true, w)
  | .newToken, w =>
    -- `rand.Read` never repeats a token it has handed out
    if c.fails = false ∧ c.token ≠ "" ∧ c.token ∉ w.issued then
      (some c.token, { w with issued := c.token :: w.issued })
    else (none, w)
  | .now, w => (c.now, w)
  | .timeNow, w => (c.now, w)
  | .intN n, w => (c.roll % n, w)
  | .enter _ _, w => ((), w)

def Step (op : Op) (w : World) (r : op.Resp) (w' : World) : Prop := ∃ c, exec c op w = (r, w')

/-- Keys that Redis may drop between calls: the caches and the user lock by their TTL, a
session by its TTL or by `UserSession.Delete`. -/
inductive Expires : World → World → Prop
  | cache {w} (o : Owner) (id : UInt64) :
      Expires w (w.setData (w.data.setCache o id Fields.none))
  | session {w} (id : UInt64) :
      Expires w { w with session := Function.update w.session id none }
  | lock {w} (key : LockKey) : Expires w { w with lock := Function.update w.lock key none }

theorem Expires.issued {w w' : World} (h : Expires w w') : w'.issued = w.issued := by
  cases h <;> rfl

end World

/-! ## The answers of rows and cached fields -/

namespace Data

def Step : (op : Op) → Data → op.Resp → Data → Prop
  | .findUserID db ch, d, r, d' => d' = d ∧ (r = none ∨ r = some ((d.db db).findUserID ch))
  | .select db e id, d, r, d' => d' = d ∧ (r = none ∨ r = some ((d.db db).select e id))
  | .create db e m, d, r, d' =>
    (r = none ∧ d' = d) ∨ ∃ k, (d.db db).Inserts e m k ∧ r = some k ∧
      d' = d.setDb db ((d.db db).insert e (m.setPrimaryKey k))
  | .transaction db ops h, d, r, d' =>
    (∃ t' h', StmtRun ops (d.db db) h t' h' ∧ r = .committed h' ∧ d' = d.setDb db t') ∨
      (∃ h', r = .failed h' ∧ d' = d) ∨ ∃ h', r = .panicked h' ∧ d' = d
  | .cacheGet e id, d, r, d' => d' = d ∧ (r = none ∨ r = some (d.cache e.owner id e))
  | .cacheSet e id v, d, r, d' => (r = false ∧ d' = d) ∨
      (r = true ∧ d' = d.setCache e.owner id ((d.cache e.owner id).hset (Fields.single e v)))
  | .cacheSetMulti o id fs, d, r, d' => (r = false ∧ d' = d) ∨
      (r = true ∧ d' = d.setCache o id ((d.cache o id).hset fs))
  | .cacheDeleteAll o id, d, r, d' => (r = false ∧ d' = d) ∨
      (r = true ∧ d' = d.setCache o id Fields.none)
  | _, d, _, d' => d' = d

end Data

theorem World.exec_data (c : Choice) (op : Op) (w : World) :
    Data.Step op w.data (exec c op w).1 (exec c op w).2.data := by
  cases op with
  | findUserID db ch => cases hf : c.fails <;> simp [exec, Data.Step, hf]
  | select db e id => cases hf : c.fails <;> simp [exec, Data.Step, hf]
  | create db e m =>
    simp only [exec, Data.Step]
    split_ifs with hinserts
    · exact Or.inr ⟨_, hinserts.2, rfl, rfl⟩
    · exact Or.inl ⟨rfl, rfl⟩
  | transaction db ops h =>
    by_cases hf : c.fails = true
    · exact Or.inr (Or.inl ⟨h, by simp [exec, hf], by simp [exec, hf]⟩)
    · rcases hrun : runStmts c 0 ops (w.data.db db) h with ⟨fate, t, h'⟩
      cases fate with
      | fails => exact Or.inr (Or.inl ⟨h', by simp [exec, hf, hrun], by simp [exec, hf, hrun]⟩)
      | panics => exact Or.inr (Or.inr ⟨h', by simp [exec, hf, hrun], by simp [exec, hf, hrun]⟩)
      | ok =>
        by_cases hc : c.commitFails = true
        · exact Or.inr (Or.inl
            ⟨h', by simp [exec, hf, hrun, hc], by simp [exec, hf, hrun, hc]⟩)
        · exact Or.inl ⟨t, h', stmtRun_of_runStmts hrun, by simp [exec, hf, hrun, hc],
            by simp [exec, hf, hrun, hc, setData]⟩
  | cacheGet e id => cases hf : c.fails <;> simp [exec, Data.Step, hf]
  | cacheSet e id v => cases hf : c.fails <;> simp [exec, Data.Step, setData, hf]
  | cacheSetMulti o id fs => cases hf : c.fails <;> simp [exec, Data.Step, setData, hf]
  | cacheDeleteAll o id => cases hf : c.fails <;> simp [exec, Data.Step, setData, hf]
  | sessionSet id token => cases hf : c.fails <;> simp [exec, Data.Step, hf]
  | sessionVerify id token => simp [exec, Data.Step]
  | lockAcquire key token => simp only [exec, Data.Step]; split_ifs <;> rfl
  | lockWait => simp [exec, Data.Step]
  | lockRelease key token => simp only [exec, Data.Step]; split_ifs <;> rfl
  | newToken => simp only [exec, Data.Step]; split_ifs <;> rfl
  | now => simp [exec, Data.Step]
  | timeNow => simp [exec, Data.Step]
  | intN n => simp [exec, Data.Step]
  | enter action userID => simp [exec, Data.Step]

theorem World.runs {ε α : Type} (cs : ℕ → Choice) (p : Call ε α) (w : World) :
    Runs World.Step Eq p w (p.run World.exec cs 0 w).1 (p.run World.exec cs 0 w).2.1
      (p.run World.exec cs 0 w).2.2 :=
  runs_run cs 0 p w

/-! ## The answers of sessions, locks and tokens -/

def Op.Control : Op → Prop
  | .sessionSet _ _ | .lockAcquire _ _ | .lockRelease _ _ | .newToken => True
  | _ => False

namespace World.Step

variable {w w' : World}

theorem frame {op : Op} {r : op.Resp} (h : World.Step op w r w') (hop : ¬ op.Control) :
    w'.session = w.session ∧ w'.lock = w.lock ∧ w'.issued = w.issued := by
  obtain ⟨c, hc⟩ := h
  cases op with
  | sessionSet | lockAcquire | lockRelease | newToken => exact absurd trivial hop
  | _ =>
    simp only [World.exec] at hc
    repeat' split at hc
    all_goals cases hc; exact ⟨rfl, rfl, rfl⟩

theorem newToken {r : Op.newToken.Resp} (h : World.Step .newToken w r w') :
    (r = none ∧ w' = w) ∨
      ∃ t, t ≠ "" ∧ t ∉ w.issued ∧ r = some t ∧ w' = { w with issued := t :: w.issued } := by
  obtain ⟨c, hc⟩ := h
  simp only [World.exec] at hc
  split_ifs at hc with hfresh
  · cases hc
    exact Or.inr ⟨_, hfresh.2.1, hfresh.2.2, rfl, rfl⟩
  · cases hc
    exact Or.inl ⟨rfl, rfl⟩

theorem lockAcquire {key : LockKey} {t : String} {r : (Op.lockAcquire key t).Resp}
    (h : World.Step (.lockAcquire key t) w r w') :
    (r ≠ .acquired ∧ w' = w) ∨ (r = .acquired ∧ w.lock key = none ∧
      w' = { w with lock := Function.update w.lock key (some t) }) := by
  obtain ⟨c, hc⟩ := h
  simp only [World.exec] at hc
  split_ifs at hc with hfails hfree
  · cases hc
    exact Or.inl ⟨by simp, rfl⟩
  · cases hc
    exact Or.inr ⟨rfl, hfree, rfl⟩
  · cases hc
    exact Or.inl ⟨by simp, rfl⟩

theorem lockRelease {key : LockKey} {t : String} {r : (Op.lockRelease key t).Resp}
    (h : World.Step (.lockRelease key t) w r w') :
    w' = w ∨ (w.lock key = some t ∧
      w' = { w with lock := Function.update w.lock key none }) := by
  obtain ⟨c, hc⟩ := h
  simp only [World.exec] at hc
  split_ifs at hc with hfails hheld
  · cases hc
    exact Or.inl rfl
  · cases hc
    exact Or.inr ⟨hheld, rfl⟩
  · cases hc
    exact Or.inl rfl

theorem sessionSet {id : UInt64} {t : String} {r : (Op.sessionSet id t).Resp}
    (h : World.Step (.sessionSet id t) w r w') :
    (r = false ∧ w' = w) ∨
      (r = true ∧ w' = { w with session := Function.update w.session id (some t) }) := by
  obtain ⟨c, hc⟩ := h
  simp only [World.exec] at hc
  split_ifs at hc
  · cases hc
    exact Or.inl ⟨rfl, rfl⟩
  · cases hc
    exact Or.inr ⟨rfl, rfl⟩

theorem sessionVerify {id : UInt64} {t : String} {r : (Op.sessionVerify id t).Resp}
    (h : World.Step (.sessionVerify id t) w r w') :
    w' = w ∧ (r = some true → w.session id = some t) := by
  obtain ⟨c, hc⟩ := h
  simp only [World.exec] at hc
  cases hc
  refine ⟨rfl, ?_⟩
  split_ifs
  · simp
  · simp

end World.Step

theorem World.Step.data {op : Op} {w w' : World} {r : op.Resp} (h : World.Step op w r w') :
    Data.Step op w.data r w'.data := by
  obtain ⟨c, hc⟩ := h
  have hd := World.exec_data c op w
  rwa [hc] at hd

theorem Data.runs {ε α : Type} (cs : ℕ → Choice) (p : Call ε α) (w : World) :
    Runs Data.Step Eq p w.data ((p.run World.exec cs 0 w).1.map (Event.map World.data))
      (p.run World.exec cs 0 w).2.1 (p.run World.exec cs 0 w).2.2.data :=
  (World.runs cs p w).project (fun _ _ _ _ h => h.data) fun _ _ h => congrArg World.data h

end FutureWas
