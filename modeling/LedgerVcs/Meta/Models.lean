import LedgerVcs.Ids
import Std.Data.ExtTreeMap

set_option autoImplicit false

namespace LedgerVcs

/-! ## Mutable-side identifiers -/

structure EnvId where
  value : String
deriving DecidableEq, Repr

structure EnvName where
  value : String
deriving DecidableEq, Repr

structure RefName where
  value : String
deriving DecidableEq, Repr

structure SessionId where
  value : String
deriving DecidableEq, Repr

def RefName.is_tag (name : RefName) : Bool := "refs/tags/".toList.isPrefixOf name.value.toList

theorem compareOn_eq {α β : Type} [Ord β] [Std.LawfulEqOrd β] {key : α → β}
    (injective : ∀ left right, key left = key right → left = right) {left right : α}
    (same : compareOn key left right = .eq) : left = right :=
  injective left right (Std.LawfulEqOrd.eq_of_compare same)

theorem compareOn_self {α β : Type} [Ord β] [Std.ReflOrd β] {key : α → β} {a : α} :
    compareOn key a a = .eq :=
  @Std.ReflCmp.compare_self _ (compare (α := β)) _ _

instance : Ord EnvId := ⟨compareOn EnvId.value⟩
instance : Std.TransOrd EnvId := inferInstanceAs (Std.TransCmp (compareOn EnvId.value))
instance : Std.LawfulEqOrd EnvId where
  compare_self := compareOn_self
  eq_of_compare := compareOn_eq fun ⟨_⟩ ⟨_⟩ same => congrArg EnvId.mk same

instance : Ord EnvName := ⟨compareOn EnvName.value⟩
instance : Std.TransOrd EnvName := inferInstanceAs (Std.TransCmp (compareOn EnvName.value))
instance : Std.LawfulEqOrd EnvName where
  compare_self := compareOn_self
  eq_of_compare := compareOn_eq fun ⟨_⟩ ⟨_⟩ same => congrArg EnvName.mk same

instance : Ord RefName := ⟨compareOn RefName.value⟩
instance : Std.TransOrd RefName := inferInstanceAs (Std.TransCmp (compareOn RefName.value))
instance : Std.LawfulEqOrd RefName where
  compare_self := compareOn_self
  eq_of_compare := compareOn_eq fun ⟨_⟩ ⟨_⟩ same => congrArg RefName.mk same

instance : Ord SessionId := ⟨compareOn SessionId.value⟩
instance : Std.TransOrd SessionId := inferInstanceAs (Std.TransCmp (compareOn SessionId.value))
instance : Std.LawfulEqOrd SessionId where
  compare_self := compareOn_self
  eq_of_compare := compareOn_eq fun ⟨_⟩ ⟨_⟩ same => congrArg SessionId.mk same

instance : Ord ChangeId := ⟨compareOn ChangeId.value⟩
instance : Std.TransOrd ChangeId := inferInstanceAs (Std.TransCmp (compareOn ChangeId.value))
instance : Std.LawfulEqOrd ChangeId where
  compare_self := compareOn_self
  eq_of_compare := compareOn_eq fun ⟨_⟩ ⟨_⟩ same => congrArg ChangeId.mk same

/-! ## Records -/

inductive EnvState
  | active | ready | archived
deriving DecidableEq, Repr

inductive RefLifecycle
  | permanent | ephemeral
deriving DecidableEq, Repr

inductive OpKind
  | create_env | rename_env | archive_env | fork_env | create_ref | update_ref | delete_ref | put_note | undo
deriving DecidableEq, Repr

structure Environment where
  env_id : EnvId
  name : EnvName
  default_ref : RefName
  state : EnvState
  owner : String
  labels : List (String × String)
  forked_from_env : Option EnvId
  forked_from_commit : Option ObjectName
  created_at_us : Int
deriving DecidableEq

structure Ref where
  name : RefName
  target : ObjectName
  generation : Int
  lifecycle : RefLifecycle
  expires_at_us : Option Int
  updated_by : String
  updated_at_us : Int
deriving DecidableEq

structure ChangeRecord where
  change_id : ChangeId
  commits : List ObjectName
deriving DecidableEq

structure OpLogEntry where
  sequence : Nat
  kind : OpKind
  ref : Option RefName
  before : Option ObjectName
  after : Option ObjectName
  principal : String
  at_us : Int
deriving DecidableEq

structure WriteSession where
  session_id : SessionId
  principal : String
  expires_at_us : Int
  created_at_us : Int
deriving DecidableEq

/-- What an idempotency fingerprint covers. The fingerprint is a hash of the request's canonical encoding,
taken to be injective, so the record keeps the request. -/
inductive Request
  | ref_mutation (op : OpKind) (ref : RefName) (target : ObjectName) (expected_generation : Option Int)
  | delete_ref (ref : RefName) (expected_generation : Int)
  | commit (ref : RefName) (tree : ObjectName)
deriving DecidableEq

inductive Outcome
  | moved (target : ObjectName) (generation : Int)
  | deleted (ref : RefName)
deriving DecidableEq

structure IdempotencyRecord where
  key : String
  fingerprint : Request
  outcome : Outcome
  op_sequence : Nat
  expires_at_us : Int
  created_at_us : Int
deriving DecidableEq

end LedgerVcs
