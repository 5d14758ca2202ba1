import LedgerVcs.Auth.Tokens
import LedgerVcs.Meta.Repository

set_option autoImplicit false

namespace LedgerVcs

open Text (PyStr lit)

/-- `record.labels.get` -/
def Environment.label (record : Environment) (key : PyStr) : Option PyStr :=
  (record.labels.find? fun pair => lit pair.1 = key).map fun pair => lit pair.2

/-- Worded identically wherever it comes from. -/
def refused : PyError := .forbidden "this token does not permit that operation on that environment"

namespace PolicyEngine

def authorize (capability : Capability) (operation : Operation) (env : EnvId) : Act Unit := do
  let record ← get_env env
  if capability.scope.permits operation env record.name record.label then return ()
  else .fail refused

end PolicyEngine

end LedgerVcs
