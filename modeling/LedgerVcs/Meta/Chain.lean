import LedgerVcs.Meta.Generations

set_option autoImplicit false

namespace LedgerVcs

open Prog (Actor Contract Pool Traced)

/-! ## The log's `before` values -/

section Trace

variable {ι : Type}

/-- The client reads the ref. -/
def OwnRead (env : EnvId) (client : ι) (name : RefName) (event : Prog.Event ι Cmd Cmd.Response) : Prop :=
  event.party = client ∧ event.command = .meta_get env (.ref name)

/-- The event is a transaction that went through and created a ref under the name. -/
def Creates (env : EnvId) (name : RefName) : Prog.Event ι Cmd Cmd.Response → Prop
  | ⟨_, .transact_write pk writes, .ok ()⟩ =>
      pk = env ∧ ∃ ref generation expires_at_us, .put (.ref name) ref (some .absent) generation expires_at_us ∈ writes
  | _ => False

/-- What the client was told when it last read the ref. -/
def Told (env : EnvId) (client : ι) (name : RefName) (response : Option (Item Ref)) :
    List (Prog.Event ι Cmd Cmd.Response) → Prop
  | [] => False
  | event :: earlier =>
      event = ⟨client, .meta_get env (.ref name), response⟩ ∨
        ¬ OwnRead env client name event ∧ Told env client name response earlier

/-- The client last read the ref as the item, and nobody has created a ref under the name since. -/
def Holding (env : EnvId) (client : ι) (name : RefName) (item : Item Ref) : List (Prog.Event ι Cmd Cmd.Response) → Prop
  | [] => False
  | event :: earlier =>
      event = ⟨client, .meta_get env (.ref name), some item⟩ ∨
        ¬ OwnRead env client name event ∧ ¬ Creates env name event ∧ Holding env client name item earlier

variable {env : EnvId} {client : ι} {name : RefName} {trace : List (Prog.Event ι Cmd Cmd.Response)}

end Trace

/-! ## One step -/

section Step

variable {ι : Type} {corpus : Corpus} {env : EnvId} {client : ι} {journal : Journal ι}

/-- The generation a write expects of a ref. -/
def expects : WriteOp → Option (RefName × Int)
  | .put (.ref name) _ (some (.generation_is expected)) _ _ => some (name, expected)
  | .delete (.ref name) (some (.generation_is expected)) => some (name, expected)
  | _ => none

/-- A commit that finds a ref at the generation it expects is one whose client has read the ref at that
generation or a later one, with no ref created under the name since it last read it. -/
def Timely (env : EnvId) (client : ι) : Cmd → Journal ι → Prop
  | .transact_write pk writes, journal =>
      pk = env → ∀ write ∈ writes, ∀ name expected, expects write = some (name, expected) →
        ∀ current : Item Ref, (journal.state.partition env).refs[name]? = some current →
          current.body.generation = expected →
            ∃ item, Holding env client name item journal.trace ∧ expected ≤ item.body.generation
  | _, _ => True

end Step

/-! ## Each call -/

section Calls

variable {ι : Type} {corpus : Corpus} {env : EnvId} {client : ι} {journal : Journal ι}

/-- Each client takes its steps as it likes, as long as each commit is timely. -/
def timely (corpus : Corpus) (env : EnvId) (client : ι) : Actor Cmd Cmd.Response (Journal ι) :=
  ⟨Traced.exec (exec corpus) client, Timely env client⟩

/-- Commands of the commit path, which reads no ref. -/
def CommitCmd (env : EnvId) (moves : Move → Prop) : Cmd → Prop
  | .now_us => True
  | .meta_get pk key => pk = env ∧ ∀ name, key ≠ .ref name
  | .transact_write pk writes => pk = env ∧ ∃ move, Carries move writes ∧ moves move
  | _ => False

theorem CommitCmd.ref {moves : Move → Prop} (command : Cmd) (fits : CommitCmd env moves command) :
    RefCmd env moves command := by
  cases command with
  | meta_get pk key => exact fits.1
  | _ => exact fits

end Calls

end LedgerVcs
