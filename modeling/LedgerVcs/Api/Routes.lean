import LedgerVcs.Api.Deps
import LedgerVcs.Service.Refs

set_option autoImplicit false

namespace LedgerVcs

open Prog (ofExcept)

/-! ## The names a request spells -/

def is_digit (c : Char) : Bool := '0' ≤ c ∧ c ≤ '9'

def is_lower (c : Char) : Bool := 'a' ≤ c ∧ c ≤ 'z'

def is_upper (c : Char) : Bool := 'A' ≤ c ∧ c ≤ 'Z'

/-- A character of the first kind, and at most so many of the second. -/
def spelled (first rest : Char → Bool) (most : Nat) : List Char → Bool
  | [] => false
  | c :: cs => first c && cs.all rest && cs.length ≤ most

/-- What comes before `$`, which also matches before a last line feed. -/
def before_end (text : List Char) : List Char := if text.getLast? = some '\n' then text.dropLast else text

namespace EnvName

def first_char (c : Char) : Bool := is_lower c || is_digit c

def later_char (c : Char) : Bool := first_char c || c == '.' || c == '_' || c == '-'

/-- `_ENV_NAME_RE.match` -/
def valid (value : String) : Bool :=
  let (org, rest) := value.toList.span fun c => c ≠ '/'
  spelled first_char later_char 63 org && rest.head? == some '/' &&
    spelled first_char later_char 127 (before_end rest.tail)

/-- `EnvName(value)` -/
def parse (value : String) : Except PyError EnvName :=
  if valid value then .ok ⟨value⟩ else .error (.valueError "not a valid environment name")

end EnvName

namespace RefName

def first_char (c : Char) : Bool := is_lower c || is_upper c || is_digit c

def later_char (c : Char) : Bool := first_char c || c == '.' || c == '_' || c == '/' || c == '-'

/-- Two equal characters in a row. -/
def doubled (c : Char) (text : List Char) : Bool := (text.zip text.tail).any fun pair => pair.1 == c && pair.2 == c

def valid (value : String) : Bool :=
  let text := value.toList
  ["refs/heads/", "refs/tags/"].any (fun start =>
      start.toList.isPrefixOf text && spelled first_char later_char 255 (before_end (text.drop start.length))) &&
    !doubled '/' text && !(text.getLast? == some '/') && !doubled '.' text

/-- `RefName(value)` -/
def parse (value : String) : Except PyError RefName :=
  if valid value then .ok ⟨value⟩ else .error (.valueError "not a valid ref name")

end RefName

/-! ## The routes -/

structure CreateEnvRequest where
  name : String
  owner : String
  labels : List (String × String)
deriving DecidableEq

structure UpdateEnvRequest where
  name : Option String
  state : Option EnvState
  labels : Option (List (String × String))
deriving DecidableEq

structure ForkEnvRequest where
  name : String
  from_ref : String
  owner : String
deriving DecidableEq

structure EnvResponse where
  env_id : EnvId
  name : EnvName
  state : EnvState
  default_ref : RefName
  labels : List (String × String)
  forked_from_env : Option EnvId
  forked_from_commit : Option ObjectName
deriving DecidableEq

/-- The operation set alone, because there is nothing to match a selector to. -/
def require_global (capability : Capability) (operation : Operation) : Act Unit :=
  ofExcept (ensure (capability.scope.operations &&& operation ≠ 0)
    (.forbidden "this token does not permit that operation"))

/-- `path` is the organisation and the environment, as the request's path has them. -/
def require_env (capability : Capability) (path : String) (operation : Operation) : Act Authorized := do
  let name ← ofExcept (EnvName.parse path)
  authorize_env capability name operation

namespace Routes

/-- `drawn` is the id `EnvId.new` returns. -/
def create_env (drawn : EnvId) (capability : Capability) (body : CreateEnvRequest) (idempotency_key : Option String) :
    Act EnvResponse := do
  require_global capability .CREATE
  let name ← ofExcept (EnvName.parse body.name)
  ofExcept (ensure (capability.scope.could_name name)
    (.forbidden "this token does not permit creating an environment with that name"))
  let record ← LedgerVcs.create_env drawn name body.owner DEFAULT_REF body.labels idempotency_key
  return { record with forked_from_env := none, forked_from_commit := none }

/-- The rename of `update_env`, where the request asks for one. -/
def rename (auth : Authorized) (record : Environment) (name : String) : Act Environment := do
  if name = record.name.value then return record
  else
    let new_name ← ofExcept (EnvName.parse name)
    ofExcept (ensure (auth.capability.scope.could_name new_name)
      (.forbidden "this token does not permit renaming into that namespace"))
    rename_env auth.env_id new_name

def update_env (capability : Capability) (path : String) (body : UpdateEnvRequest) : Act EnvResponse := do
  let auth ← require_env capability path .ADMIN
  let record ← get_env auth.env_id
  let renamed ← (match body.name with
    | some name => rename auth record name
    | none => return record : Act Environment)
  let labelled ← (match body.labels with
    | some labels => set_env_labels auth.env_id labels
    | none => return renamed : Act Environment)
  let updated ← (match body.state with
    | some state => set_env_state auth.env_id state
    | none => return labelled : Act Environment)
  return { updated with }

/-- `principal` is the text of the capability's principal, and the drawn ids those the service draws. -/
def fork_env (drawn : EnvId) (drawn_session : SessionId) (principal : String) (capability : Capability) (path : String)
    (body : ForkEnvRequest) (idempotency_key : Option String) : Act EnvResponse := do
  let auth ← require_env capability path .FORK
  let name ← ofExcept (EnvName.parse body.name)
  let from_ref ← ofExcept (RefName.parse body.from_ref)
  let result ← Fork.run
    { source := auth.env_id, name, from_ref := some from_ref, owner := body.owner, principal, idempotency_key,
      drawn_env := drawn, drawn_session }
  return { result.environment with
    labels := [], forked_from_env := some auth.env_id, forked_from_commit := some result.source_commit }

end Routes

end LedgerVcs
