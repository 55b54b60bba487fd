/-!
# Error codes and Go errors

`internal/errcode`, the error sentinels the unit of work returns, and errors wrapped with
`%w`. Errors of a driver or a client library carry only their text.
-/

set_option autoImplicit false

namespace FutureWas

abbrev codeOK : Int32 := 200
abbrev codeBadRequest : Int32 := 400
abbrev codeUnauthorized : Int32 := 401
abbrev codeBusy : Int32 := 429
abbrev codeInternalError : Int32 := 500
abbrev codeCardNotFound : Int32 := 2001
abbrev codeAssetNotFound : Int32 := 3001
abbrev codeAssetInsufficient : Int32 := 3002
abbrev codeItemNotFound : Int32 := 3101
abbrev codeItemInsufficient : Int32 := 3102
abbrev codeUnsupportedDesignVersion : Int32 := 4001
abbrev codeNotFoundDesign : Int32 := 4002

inductive GoError
  | app (code : Int32) (message : String)
  | noUserID
  | noClubID
  | noShardAvailable
  | external (message : String)
  | wrap (context : String) (err : GoError)
  deriving DecidableEq

namespace GoError

def text : GoError → String
  | .app _ message => message
  | .noUserID => "uow: userID is not set"
  | .noClubID => "uow: clubID is not set"
  | .noShardAvailable => "database: no shard available for user assignment"
  | .external message => message
  | .wrap context err => context ++ ": " ++ err.text

/-- `errors.As(err, &ae)` for an `*errcode.Error`. -/
def asApp : GoError → Option (Int32 × String)
  | .app code message => some (code, message)
  | .wrap _ err => err.asApp
  | _ => none

def badRequest (message : String) : GoError := .app codeBadRequest message

end GoError
end FutureWas
