import LedgerVcs.Meta.Log

set_option autoImplicit false

namespace LedgerVcs

open Prog (Actor Contract Pool Traced)

section Journal

variable {ι : Type}

/-- The state, and every step that clients have taken. -/
abbrev Journal (ι : Type) := Traced ι Cmd Cmd.Response World

def transacts : Cmd → Bool
  | .transact_write _ _ => true
  | _ => false

/-- A party that takes its steps as it likes. -/
def at_will (corpus : Corpus) (party : ι) : Actor Cmd Cmd.Response (Journal ι) :=
  ⟨Traced.exec (exec corpus) party, fun _ _ => True⟩

/-! ## Generations given out -/

def granted_by : WriteOp → Option (RefName × Int)
  | .put (.ref name) _ _ (some generation) _ => some (name, generation)
  | _ => none

/-- The generations that a step gives to refs of the environment. -/
def grants (env : EnvId) : Prog.Event ι Cmd Cmd.Response → List (RefName × Int)
  | ⟨_, .transact_write pk writes, .ok ()⟩ => if pk = env then writes.filterMap granted_by else []
  | _ => []

def granted (env : EnvId) (journal : Journal ι) : List (RefName × Int) := journal.trace.flatMap (grants env)

/-- Some client has read the ref as the item. -/
def HasRead (env : EnvId) (journal : Journal ι) (name : RefName) (item : Item Ref) : Prop :=
  ∃ client, (⟨client, .meta_get env (.ref name), some item⟩ : Prog.Event ι Cmd Cmd.Response) ∈ journal.trace

/-- A ref is created under a name only once, and an update reads the ref at a generation no lower than the
one it expects. -/
def Orderly (env : EnvId) (call : RefCall) : Cmd → Journal ι → Prop
  | .transact_write pk writes, journal =>
      pk = env → ∀ name ref generation expires_at_us,
        .put (.ref name) ref (some .absent) generation expires_at_us ∈ writes →
          (journal.state.partition env).refs[name]? = none → ∀ given, (name, given) ∉ granted env journal
  | .meta_get pk (.ref name), journal =>
      pk = env → ∀ expected target principal change_id key request kind,
        call = .update name expected target principal change_id key request kind →
          ∀ item : Item Ref, (journal.state.partition env).refs[name]? = some item →
            expected ≤ item.body.generation
  | _, _ => True

/-- A ref's generation is the latest given to its name. -/
structure Latest (env : EnvId) (journal : Journal ι) (name : RefName) (item : Item Ref) : Prop where
  carried : item.generation = some item.body.generation
  given : (name, item.body.generation) ∈ granted env journal
  highest : ∀ generation, (name, generation) ∈ granted env journal → generation ≤ item.body.generation

/-- No pair is given twice, and a ref that still has the generation it was read at is as it was read. -/
structure Unrepeated (env : EnvId) (journal : Journal ι) : Prop where
  once : (granted env journal).Nodup
  latest : ∀ name item, (journal.state.partition env).refs[name]? = some item → Latest env journal name item
  seen : ∀ name item, HasRead env journal name item → (name, item.body.generation) ∈ granted env journal
  same : ∀ name item current, HasRead env journal name item →
    (journal.state.partition env).refs[name]? = some current →
      current.body.generation = item.body.generation → current = item

end Journal

/-! ## One step -/

section Step

variable {ι : Type} {corpus : Corpus} {env : EnvId} {call : RefCall} {client : ι} {journal : Journal ι}

/-- A move that gives no pair a second time, if it goes through. -/
inductive Admits (env : EnvId) (journal : Journal ι) (move : Move) : Prop
  | creates {ref : Ref} (condition : move.condition = .absent) (placed : move.placed = some ref)
      (first : ref.generation = 1)
  | drops (placed : move.placed = none)
  | advances {ref : Ref} {expected read : Int} (condition : move.condition = .generation_is expected)
      (placed : move.placed = some ref) (next : ref.generation = read + 1) (bound : expected ≤ read)
      (given : (move.name, read) ∈ granted env journal)

end Step

/-! ## Each call -/

section Calls

variable {ι : Type} {corpus : Corpus} {env : EnvId} {calls : ι → RefCall} {client : ι}
  {journal : Journal ι}

/-- Each client takes its steps as it likes, as long as each is orderly. -/
def orderly (corpus : Corpus) (env : EnvId) (calls : ι → RefCall) (client : ι) : Actor Cmd Cmd.Response (Journal ι) :=
  ⟨Traced.exec (exec corpus) client, Orderly env (calls client)⟩

/-- Everyone keeps the pairs apart and takes none back. -/
def distinct (env : EnvId) : Contract (Journal ι) where
  rely before after :=
    (Unrepeated env before → Unrepeated env after) ∧ granted env before ⊆ granted env after
  guarantee before after :=
    (Unrepeated env before → Unrepeated env after) ∧ granted env before ⊆ granted env after
  rely_refl _ := ⟨id, fun _ given => given⟩
  rely_trans early late := ⟨late.1 ∘ early.1, List.Subset.trans early.2 late.2⟩

end Calls

def twoTargets : ObjectName × ObjectName :=
  (⟨List.replicate 32 1, ones_sized⟩, ⟨List.replicate 32 2, rfl⟩)

end LedgerVcs
