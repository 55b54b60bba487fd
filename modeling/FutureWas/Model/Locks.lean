import FutureWas.Effect.Interleaving
import FutureWas.Model.Uow

/-!
# Locks in Redis

`internal/cache/user_lock.go` and `internal/cache/club_lock.go`, one level below the lock calls
of `World`: both locks live in one key space, under keys made from a prefix and an id, and both
are released by one script. A call of `Acquire` or `Release` is a program over the commands
Redis gets.

A command reaches Redis once, if it does; its reply may be lost. The library's own retries are
left out.
-/

set_option autoImplicit false

namespace FutureWas.Locks

open Effect

/-! ## Redis -/

/-- The reply of `SET key token NX PX ttl`; `nil` says that the key is held. -/
inductive SetReply
  | ok
  | nil
  | err
  deriving DecidableEq

/-- `newToken` reads random bytes, `retryDelay` waits for the delay or for the end of the
context. -/
inductive RedisOp
  | newToken
  | setArgs (key token : String)
  | retryDelay
  | releaseScript (key token : String)

/-- `retryDelay` answers whether the context has ended, `releaseScript` whether it has a reply. -/
abbrev RedisOp.Resp : RedisOp → Type
  | .newToken => Option String
  | .setArgs _ _ => SetReply
  | .retryDelay => Bool
  | .releaseScript _ _ => Bool

structure Redis where
  value : String → Option String
  issued : List String

namespace Redis

def set (s : Redis) (key token : String) : Redis :=
  { s with value := Function.update s.value key (some token) }

def del (s : Redis) (key : String) : Redis :=
  { s with value := Function.update s.value key none }

/-- The Lua script: `DEL` if `GET` answers the token. -/
def release (s : Redis) (key token : String) : Redis :=
  if s.value key = some token then s.del key else s

def Step : (op : RedisOp) → Redis → op.Resp → Redis → Prop
  | .newToken, s, r, s' =>
    (r = none ∧ s' = s) ∨ ∃ t, t ∉ s.issued ∧ r = some t ∧ s' = { s with issued := t :: s.issued }
  | .setArgs key token, s, .ok, s' => s.value key = none ∧ s' = s.set key token
  | .setArgs key _, s, .nil, s' => s.value key ≠ none ∧ s' = s
  | .setArgs key token, s, .err, s' => s' = s ∨ (s.value key = none ∧ s' = s.set key token)
  | .retryDelay, s, _, s' => s' = s
  | .releaseScript key token, s, r, s' => s' = s.release key token ∨ (r = false ∧ s' = s)

def Expires (s s' : Redis) : Prop := ∃ key, s' = s.del key

end Redis

/-! ## Acquire and Release -/

def contextCanceled : GoError := .external "context canceled"

section

variable {ε : Type}

def acquireLoop (key token : String) (errTimeout : GoError) :
    ℕ → Prog RedisOp.Resp ε (Except GoError String)
  | 0 => .ret (.error errTimeout)
  | retries + 1 => .call (.setArgs key token) fun
    | .ok => .ret (.ok token)
    | .err => .ret (.error driverError)
    | .nil => .call .retryDelay fun done =>
      if done then .ret (.error contextCanceled) else acquireLoop key token errTimeout retries

def acquireKey (key : String) (errTimeout : GoError) (maxRetries : ℕ) :
    Prog RedisOp.Resp ε (Except GoError String) :=
  .call .newToken fun
    | none => .ret (.error driverError)
    | some token => acquireLoop key token errTimeout maxRetries

def releaseKey (key token : String) : Prog RedisOp.Resp ε (Except GoError Unit) :=
  .call (.releaseScript key token) fun replied =>
    .ret (if replied then .ok () else .error driverError)

def userLockKeyPrefix : String := "lock:user:"
def userLockMaxRetries : ℕ := 60
def errLockAcquireTimeout : GoError := .external "userlock: acquire timeout"

def userLockKey (userID : UInt64) : String := userLockKeyPrefix ++ userID.toNat.repr

namespace UserLock

def acquire (userID : UInt64) : Prog RedisOp.Resp ε (Except GoError String) :=
  acquireKey (userLockKey userID) errLockAcquireTimeout userLockMaxRetries

def release (userID : UInt64) (token : String) : Prog RedisOp.Resp ε (Except GoError Unit) :=
  releaseKey (userLockKey userID) token

end UserLock

def clubLockKeyPrefix : String := "lock:club:"
def clubLockMaxRetries : ℕ := 60
def errClubLockAcquireTimeout : GoError := .external "clublock: acquire timeout"

def clubLockKey (clubID : UInt64) : String := clubLockKeyPrefix ++ clubID.toNat.repr

namespace ClubLock

def acquire (clubID : UInt64) : Prog RedisOp.Resp ε (Except GoError String) :=
  acquireKey (clubLockKey clubID) errClubLockAcquireTimeout clubLockMaxRetries

def release (clubID : UInt64) (token : String) : Prog RedisOp.Resp ε (Except GoError Unit) :=
  releaseKey (clubLockKey clubID) token

end ClubLock
end

/-! ## Clients -/

inductive LockCall
  | acquire (key : LockKey)
  | release (key : LockKey) (token : String)
  deriving DecidableEq

def LockCall.key : LockCall → LockKey
  | .acquire key => key
  | .release key _ => key

inductive Answer
  | acquired (r : Except GoError String)
  | released (r : Except GoError Unit)

def LockCall.program : LockCall → Prog RedisOp.Resp Empty Answer
  | .acquire (.user id) => (UserLock.acquire id).bind fun r => .ret (.acquired r)
  | .acquire (.club id) => (ClubLock.acquire id).bind fun r => .ret (.acquired r)
  | .release (.user id) token => (UserLock.release id token).bind fun r => .ret (.released r)
  | .release (.club id) token => (ClubLock.release id token).bind fun r => .ret (.released r)

/-- Any family of calls, before the first command. What a client does after one call is another
call of the family. -/
def clients {ι : Type} (calls : ι → LockCall) (s : Redis) :
    Config ι RedisOp.Resp Empty Answer Redis :=
  ⟨s, fun i => (calls i).program⟩

def lockKey : LockKey → String
  | .user id => userLockKey id
  | .club id => clubLockKey id

def Redis.lock (s : Redis) (key : LockKey) : Option String := s.value (lockKey key)

end FutureWas.Locks
