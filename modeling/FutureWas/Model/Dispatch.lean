import FutureWas.Effect.Interleaving
import FutureWas.Model.Service

/-!
# Dispatch

`internal/handler/dispatch.go`, with the action registry, `UserSession.VerifyAndRefresh` and
`UserLock`. `dispatch` is the whole of a request: envelope checks, authentication, the user
lock, the handler, the commit and the response.

The design store a request reads is an argument, since a reload may replace it between two
requests. `marshals` tells whether `proto.Marshal` accepts a response. `Reply` adds the unit
of work to the response, for statements about the user a request ends with.
-/

set_option autoImplicit false

namespace FutureWas

open Effect

/-! ## Actions -/

def actionLogin : UInt32 := 1001
def actionGetCards : UInt32 := 2001
def actionUpgradeCardLevel : UInt32 := 2002
def actionGetItems : UInt32 := 3001
def actionGetAssets : UInt32 := 4001
def actionGetShopList : UInt32 := 5001

structure ActionDef where
  handler : Body → UowM Message
  noAuth : Bool

def actionRegistry (c : Container) (action : UInt32) : Option ActionDef :=
  if action = actionLogin then some ⟨login c, true⟩
  else if action = actionGetCards then some ⟨getCards c, false⟩
  else if action = actionUpgradeCardLevel then some ⟨upgradeCardLevel c, false⟩
  else if action = actionGetItems then some ⟨getItems c, false⟩
  else if action = actionGetAssets then some ⟨getAssets c, false⟩
  else if action = actionGetShopList then some ⟨getShopList, false⟩
  else none

structure Server where
  container : Container
  actionRegistry : UInt32 → Option ActionDef
  marshals : Message → Bool

def server (c : Container) (marshals : Message → Bool) : Server :=
  ⟨c, actionRegistry c, marshals⟩

/-! ## Envelopes -/

structure GameRequest where
  action : UInt32
  userId : UInt64
  clientVersion : String
  sessionToken : String
  body : Body

/-- The bytes of a request: unreadable, not an envelope, or an envelope. -/
inductive Raw
  | unreadable
  | malformed
  | envelope (req : GameRequest)

inductive ResponseBody
  | message (m : Message)
  | error (code : Int32) (message : String)
  deriving DecidableEq

structure SyncData where
  items : List ItemData
  assets : List AssetData
  deriving DecidableEq

structure GameResponse where
  action : UInt32
  code : Int32
  timestamp : Int64
  body : ResponseBody
  sync : Option SyncData
  deriving DecidableEq

structure Reply where
  response : GameResponse
  uow : Option UnitOfWork

/-- `BuildSyncData(u.Dirty())` with the builders of the asset and item setups. -/
def buildSyncData (u : UnitOfWork) : Option SyncData :=
  if u.dirty = [] then none
  else some
    { items := (u.dirty.filter fun d => d.1 = .items).map fun d =>
        toItemData (u.heap.cell .items d.2)
      assets := (u.dirty.filter fun d => d.1 = .assets).map fun d =>
        toAssetData (u.heap.cell .assets d.2) }

section

variable {ε : Type}

def sendGameResponse (action : UInt32) (code : Int32) (body : ResponseBody)
    (sync : Option SyncData) : Call ε GameResponse :=
  .call .timeNow fun t => .ret ⟨action, code, unix t, body, sync⟩

def sendGameError (action : UInt32) (code : Int32) (message : String) : Call ε GameResponse :=
  sendGameResponse action code (.error code message) none

/-! ## Session and lock -/

/-- `none` when the Redis command fails. -/
def verifyAndRefresh (userID : UInt64) (token : String) : Call ε (Option Bool) :=
  if token = "" then .ret (some false)
  else .call (.sessionVerify userID token) .ret

def userLockMaxRetries : ℕ := 60

def acquireLoop (key : LockKey) (token : String) : ℕ → Call ε (Option String)
  | 0 => .ret none
  | retries + 1 => .call (.lockAcquire key token) fun
    | .acquired => .ret (some token)
    | .failed => .ret none
    | .held => .call .lockWait fun cancelled =>
      if cancelled then .ret none else acquireLoop key token retries

def acquireUserLock (userID : UInt64) : Call ε (Option String) :=
  .call .newToken fun
    | none => .ret none
    | some token => acquireLoop (.user userID) token userLockMaxRetries

def releaseUserLock (userID : UInt64) (token : String) : Call ε Unit :=
  .call (.lockRelease (.user userID) token) fun _ => .ret ()

/-- The session check of a request; the answer is a refusal. -/
def authenticate (def_ : ActionDef) (req : GameRequest) : Call ε (Option (Int32 × String)) :=
  if def_.noAuth then .ret none
  else if req.userId = 0 ∨ req.sessionToken = "" then
    .ret (some (codeUnauthorized, "missing session"))
  else (verifyAndRefresh req.userId req.sessionToken).bind fun
    | none => .ret (some (codeInternalError, "session check failed"))
    | some false => .ret (some (codeUnauthorized, "invalid or expired session"))
    | some true => .ret none

end

/-! ## Requests -/

def refuse (action : UInt32) (code : Int32) (message : String) : Call UnitOfWork Reply :=
  (sendGameError action code message).bind fun res => .ret ⟨res, none⟩

/-- After the handler has succeeded: the commit and the response. -/
def finish (s : Server) (action : UInt32) (result : Message) (u : UnitOfWork) :
    Call UnitOfWork Reply :=
  (Uow.commitOrRollback u).bind fun (committed, u) =>
    match committed with
    | .error _ =>
      (sendGameError action codeInternalError "commit failed").bind fun res => .ret ⟨res, some u⟩
    | .ok () =>
      if s.marshals result then
        (sendGameResponse action codeOK (.message result) (buildSyncData u)).bind fun res =>
          .ret ⟨res, some u⟩
      else
        (sendGameError action codeInternalError "marshal error").bind fun res =>
          .ret ⟨res, some u⟩

def serve (s : Server) (catalog : Catalog) (def_ : ActionDef) (req : GameRequest) :
    Call UnitOfWork Reply :=
  .call (.enter req.action req.userId) fun _ =>
    (def_.handler req.body (.new req.userId catalog)).bind fun (result, u) =>
      match result with
      | .error err =>
        let (code, message) := err.asApp.getD (codeInternalError, "handler error")
        (sendGameError req.action code message).bind fun res => .ret ⟨res, some u⟩
      | .ok result => finish s req.action result u

/-- The user lock is held for the time of `serve`, however it ends. -/
def underUserLock (req : GameRequest) (p : Call UnitOfWork Reply) : Call UnitOfWork Reply :=
  if req.userId = 0 then p
  else (acquireUserLock req.userId).bind fun
    | none => refuse req.action codeBusy "busy, retry later"
    | some token => p.ensure (releaseUserLock req.userId token)

def dispatch (s : Server) (designStore : DesignStore) : Raw → Call UnitOfWork Reply
  | .unreadable => refuse 0 codeBadRequest "failed to read body"
  | .malformed => refuse 0 codeBadRequest "invalid envelope"
  | .envelope req =>
    match s.actionRegistry req.action with
    | none => refuse req.action codeBadRequest "unknown action"
    | some def_ =>
      match designStore.getByClientVersion req.clientVersion with
      | none => refuse req.action codeUnsupportedDesignVersion "unsupported client_version"
      | some catalog => (authenticate def_ req).bind fun
        | some (code, message) => refuse req.action code message
        | none => underUserLock req (serve s catalog def_ req)

/-! ## Servers -/

structure Incoming where
  designStore : DesignStore
  raw : Raw

def Incoming.program (s : Server) (r : Incoming) : Call UnitOfWork Reply :=
  dispatch s r.designStore r.raw

def arrived {ι : Type} (s : Server) (requests : ι → Incoming) (w : World) :
    Config ι Op.Resp UnitOfWork Reply World :=
  ⟨w, fun i => (requests i).program s⟩

def Raw.userId : Raw → UInt64
  | .envelope req => req.userId
  | _ => 0

end FutureWas
