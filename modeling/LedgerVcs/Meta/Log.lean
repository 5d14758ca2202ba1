import LedgerVcs.Meta.Transactions

set_option autoImplicit false

namespace LedgerVcs

open Prog (Actor Pool)

/-! ## Clients of an environment's refs -/

inductive RefCall
  | create (name : RefName) (target : ObjectName) (principal : String) (lifecycle : RefLifecycle)
      (ttl_us : Option Int) (change_id : Option ChangeId) (key : Option String) (request : Option Request)
  | update (name : RefName) (expected : Int) (target : ObjectName) (principal : String)
      (change_id : Option ChangeId) (key : Option String) (request : Option Request) (kind : OpKind)
  | delete (name : RefName) (expected : Int) (principal : String) (key : Option String)
  | undo (sequence : Nat) (principal : String) (key : Option String)

def RefCall.code (env : EnvId) : RefCall → Act Unit
  | .create name target principal lifecycle ttl_us change_id key request => do
      let _ ← create_ref env name target principal lifecycle ttl_us change_id key request
      return ()
  | .update name expected target principal change_id key request kind => do
      let _ ← update_ref env name expected target principal change_id key request kind
      return ()
  | .delete name expected principal key => do
      let _ ← delete_ref env name expected principal key
      return ()
  | .undo sequence principal key => do
      let _ ← LedgerVcs.undo env sequence principal key
      return ()

/-- The moves a call can make. -/
def RefCall.Moves (answers : (command : Cmd) → command.Response → Prop) (tally : Nat → Nat → Prop) (env : EnvId) :
    RefCall → Move → Prop
  | .create name target _ _ _ _ _ _ => Puts tally name target .absent 1 none
  | .update name expected target _ _ _ _ _ => fun move =>
      ∃ item, answers (.meta_get env (.ref name)) (some item) ∧
        Puts tally name target (.generation_is expected) (item.body.generation + 1) (some item.body.target) move
  | .delete name expected _ _ => fun move =>
      ∃ item, answers (.meta_get env (.ref name)) (some item) ∧
        Drops tally name (.generation_is expected) (some item.body.target) move
  | .undo sequence _ _ => Undoes answers tally env sequence

/-- The key the call carries. -/
def RefCall.key : RefCall → Option String
  | .create _ _ _ _ _ _ key _ | .update _ _ _ _ _ key _ _ | .delete _ _ _ key | .undo _ _ key => key

theorem code_keyed {env : EnvId} {answers : (command : Cmd) → command.Response → Prop} {tally : Nat → Nat → Prop}
    (counted : ∀ item, answers (.meta_get env .seq) (some item) → tally item.body item.version) (call : RefCall) :
    (call.code env).Yields (KeyedCmd env call.key (call.Moves answers tally env)) answers fun _ => True := by
  cases call with
  | create name target principal lifecycle ttl_us change_id key request =>
    refine .bind ((create_ref_keyed name target _ _ _ _ _ _ counted).mono (fun _ fits => fits) fun _ _ => ?_)
    trivial
  | update name expected target principal change_id key request kind =>
    refine .bind ((update_ref_keyed name expected target _ _ _ _ _ counted).mono (fun _ fits => fits)
      fun _ _ => ?_)
    trivial
  | delete name expected principal key =>
    refine .bind ((delete_ref_keyed name expected _ _ counted).mono (fun _ fits => fits) fun _ _ => ?_)
    trivial
  | undo sequence principal key =>
    refine .bind ((undo_keyed sequence _ _ counted).mono (fun _ fits => fits) fun _ _ => ?_)
    trivial

theorem code_yields {env : EnvId} {answers : (command : Cmd) → command.Response → Prop} {tally : Nat → Nat → Prop}
    (counted : ∀ item, answers (.meta_get env .seq) (some item) → tally item.body item.version) (call : RefCall) :
    (call.code env).Yields (RefCmd env (call.Moves answers tally env)) answers fun _ => True :=
  (code_keyed counted call).mono KeyedCmd.ref fun _ met => met

theorem moves_tally {env : EnvId} {answers : (command : Cmd) → command.Response → Prop} {tally : Nat → Nat → Prop}
    {call : RefCall} {move : Move} (fits : call.Moves answers tally env move) :
    tally move.sequence move.version := by
  cases call with
  | create => exact fits.2.2.1
  | update => obtain ⟨_, _, puts⟩ := fits; exact puts.2.2.1
  | delete => obtain ⟨_, _, drops⟩ := fits; exact drops.2.2.1
  | undo =>
    obtain ⟨_, _, _, _, kinds⟩ := fits
    rcases kinds with ⟨_, _, _, _, drops⟩ | ⟨_, _, _, puts⟩ | ⟨_, _, _, _, _, _, puts⟩
    next => exact drops.2.2.1
    next => exact puts.2.2.1
    next => exact puts.2.2.1

/-! ## The log and the refs -/

def replay_entry (refs : RefName → Option ObjectName) (entry : OpLogEntry) : RefName → Option ObjectName :=
  match entry.ref with
  | some name => Function.update refs name entry.after
  | none => refs

/-- The refs that a log leaves, and where they point. -/
def replay_log (entries : List OpLogEntry) : RefName → Option ObjectName := entries.foldl replay_entry fun _ => none

/-- The entries with the sequence numbers from 1 to `count`. -/
def Partition.entries (partition : Partition) (count : Nat) : List OpLogEntry :=
  (List.range count).filterMap fun number => (partition.ops[number + 1]?).map Item.body

structure Faithful (partition : Partition) (count : Nat) : Prop where
  counter : partition.seq.map Item.body = some (count + 1)
  dense : ∀ number, partition.ops[number]?.isSome ↔ 1 ≤ number ∧ number ≤ count
  numbered : ∀ number (item : Item OpLogEntry), partition.ops[number]? = some item → item.body.sequence = number
  replayed : ∀ name, replay_log (partition.entries count) name =
    (partition.refs[name]?).map fun item : Item Ref => item.body.target

/-- An environment that has just been created. -/
structure Fresh (partition : Partition) : Prop where
  seq : partition.seq = some ⟨1, 1, none, none⟩
  refs : partition.refs = ∅
  ops : partition.ops = ∅

/-- Faithful, and the counter's version counts along with it. -/
def Counts (partition : Partition) : Prop :=
  ∃ count, Faithful partition count ∧ partition.seq.map Item.version = some (count + 1)

theorem fresh_counts {partition : Partition} (fresh : Fresh partition) : Counts partition := by
  refine ⟨0, ⟨?_, fun number => ?_, fun number item found => ?_, fun name => ?_⟩, ?_⟩
  next => rw [fresh.seq]; rfl
  next =>
    rw [fresh.ops, Std.ExtTreeMap.getElem?_empty]
    simp
    omega
  next => simp [fresh.ops] at found
  next => simp [fresh.refs, Partition.entries, replay_log]
  next => rw [fresh.seq]; rfl

theorem entries_succ {partition after : Partition} {count : Nat} {item : Item OpLogEntry}
    (ops : after.ops = partition.ops.insert (count + 1) item) :
    after.entries (count + 1) = partition.entries count ++ [item.body] := by
  rw [Partition.entries, List.range_succ, List.filterMap_append, ops]
  congr 1
  next =>
    refine List.filterMap_congr fun number member => ?_
    have below := List.mem_range.mp member
    have other : ¬ byText OP_SEQ_DIGITS (count + 1) (number + 1) = .eq := by
      rw [Std.LawfulEqCmp.compare_eq_iff_eq]
      omega
    rw [Std.ExtTreeMap.getElem?_insert, if_neg other]
  next => simp

/-- The one change a client makes keeps the log faithful. -/
theorem move_counts {partition after : Partition} {move : Move} {writes : List WriteOp} (counts : Counts partition)
    (carries : Carries move writes) (tallied : move.sequence = move.version)
    (applied : partition.transact_write writes = .ok after) : Counts after := by
  obtain ⟨count, faithful, version⟩ := counts
  obtain ⟨-, current, -, refs, seq, ops, -⟩ := transact_move carries applied
  have now : move.sequence = count + 1 := by
    rw [tallied]
    exact Option.some.inj (current.symm.trans version)
  rw [now] at ops
  refine ⟨count + 1, ⟨?_, fun number => ?_, fun number item found => ?_, fun name => ?_⟩, ?_⟩
  next => rw [seq, ← now]; rfl
  next =>
    rw [ops, Std.ExtTreeMap.getElem?_insert]
    by_cases same : byText OP_SEQ_DIGITS (count + 1) number = .eq
    next =>
      rw [if_pos same, ← Std.LawfulEqCmp.eq_of_compare same]
      simp
    next =>
      have other : count + 1 ≠ number := fun equal => same (Std.LawfulEqCmp.compare_eq_iff_eq.mpr equal)
      rw [if_neg same, faithful.dense]
      omega
  next =>
    rw [ops, Std.ExtTreeMap.getElem?_insert] at found
    by_cases same : byText OP_SEQ_DIGITS (count + 1) number = .eq
    next =>
      rw [if_pos same, Option.some.injEq] at found
      rw [← found, ← Std.LawfulEqCmp.eq_of_compare same, ← now]
      exact carries.1
    next =>
      rw [if_neg same] at found
      exact faithful.numbered number item found
  next =>
    have before := faithful.replayed
    rw [entries_succ ops, replay_log, List.foldl_append, refs]
    simp only [List.foldl_cons, List.foldl_nil, replay_entry, carries.2.1]
    by_cases same : name = move.name
    next =>
      subst same
      rw [Function.update_self, carries.2.2.1, Move.refs]
      cases move.placed <;> simp
    next =>
      rw [Function.update_of_ne same]
      refine (before name).trans ?_
      rw [Move.refs]
      cases move.placed <;> simp [Std.ExtTreeMap.getElem?_insert, Std.ExtTreeMap.getElem?_erase, Ne.symm same]
  next => rw [seq, ← now, tallied, Option.map_some]

/-! ## Every interleaving -/

/-- What a read of the counter tells a client. -/
def Counted (env : EnvId) : (command : Cmd) → command.Response → Prop
  | .meta_get pk .seq, item => pk = env → ∀ found, item = some found → found.body = found.version
  | _, _ => True

section Clients

variable {ι : Type} (corpus : Corpus) (env : EnvId) (calls : ι → RefCall)

/-- Each client takes its steps as it likes. -/
def clients (_ : ι) : Actor Cmd Cmd.Response World := ⟨exec corpus, fun _ _ => True⟩

/-- Any number of clients, each at the first step of its call. -/
def serve (world : World) : Pool ι Cmd Cmd.Response PyError (fun _ => Unit) World :=
  ⟨world, fun client => (calls client).code env⟩

variable {corpus env calls} {world : World}

theorem exec_counted (counts : Counts (world.partition env)) (command : Cmd) :
    Counted env command (exec corpus command world).1 := by
  cases command with
  | meta_get pk key =>
    cases key with
    | seq =>
      rintro rfl found same
      obtain ⟨count, faithful, version⟩ := counts
      have body := faithful.counter
      rw [show (world.partition pk).seq = some found from same] at version body
      exact Option.some.inj (body.trans version.symm)
    | _ => trivial
  | _ => trivial

end Clients

/-- A new environment and nothing else. -/
def newEnv : World :=
  (World.empty 0).with_partition ⟨"env"⟩ { Partition.empty with seq := some ⟨1, 1, none, none⟩ }

theorem newEnv_fresh : Fresh (newEnv.partition ⟨"env"⟩) := by
  rw [newEnv, partition_with_self]
  exact ⟨rfl, rfl, rfl⟩

def firstTarget : ObjectName := ⟨List.replicate DIGEST_BYTES 0, zeros_sized⟩

/-- One client creates a ref while the other is about to delete it. -/
def createAndDelete (target : ObjectName) : Bool → RefCall
  | true => .create DEFAULT_REF target "a" .permanent none none none none
  | false => .delete DEFAULT_REF 1 "b" none

end LedgerVcs
