import LedgerVcs.Meta.Log
import LedgerVcs.Meta.Stream

set_option autoImplicit false

/-! A move of a ref is announced once, under its own operation sequence. -/

namespace LedgerVcs

open Prog (ofExcept)

def StreamEvent.op_sequence : StreamEvent → Nat
  | .ref_updated _ _ _ _ op_sequence => op_sequence
  | .ref_deleted _ _ op_sequence => op_sequence

def Announced (writes : List WriteOp) : Prop :=
  ∃ sequence version event, .put .seq (sequence + 1) (some (.version_is version)) none none ∈ writes ∧
    emitted writes = [event] ∧ event.op_sequence = sequence

def Announcing : Cmd → Prop
  | .now_us => True
  | .meta_get _ _ => True
  | .transact_write _ writes => Announced writes
  | _ => False

section Repository

variable {env : EnvId} {answers : (command : Cmd) → command.Response → Prop}

theorem announcing_reads : CommitReads env Announcing := ⟨trivial, trivial, fun _ => trivial⟩

theorem recording_announced {key : Option String} {writes recording : List WriteOp} (announced : Announced writes)
    (recorded : Recording key recording) : Announcing (.transact_write env (writes ++ recording)) := by
  obtain ⟨sequence, version, event, counts, once, same⟩ := announced
  have silent : emitted recording = [] := by
    cases key with
    | none => rw [show recording = [] from recorded]; rfl
    | some key => obtain ⟨record, expires_at_us, rfl⟩ := recorded; rfl
  refine ⟨sequence, version, event, List.mem_append_left _ counts, ?_, same⟩
  rw [emitted, List.filterMap_append, ← emitted, ← emitted, once, silent]
  rfl

theorem commit_announces {built : List WriteOp → Prop} {build : Nat → Nat → Act (List WriteOp)} {key : Option String}
    (request : Request) (outcome : Outcome) (announces : ∀ writes, built writes → Announced writes)
    (builds : ∀ sequence version, (build sequence version).Yields Announcing answers built) :
    (commit_with_counter env build key request outcome).Yields Announcing answers fun _ => True :=
  @commit_with_counter_yields env answers (fun _ _ => True) _ _ _ _ request outcome announcing_reads
    (fun _ _ => trivial) (fun sequence version _ => builds sequence version)
    fun writes _ made recorded => recording_announced (announces writes made) recorded

theorem change_announces {change : ChangeId} (commit : ObjectName) :
    (change_write env change commit).Yields Announcing answers fun write => emitted [write] = [] :=
  .bind (.ask trivial fun _ _ => rfl)

theorem build_announces (mutation : Mutation) (ref : Ref) (now : Int) (sequence version : Nat) :
    (mutation.build env ref now sequence version).Yields Announcing answers Announced := by
  delta Mutation.build
  extract_lets moved settle
  have rest (changed : List WriteOp) (silent : emitted changed = []) :
      (settle changed).Yields Announcing answers Announced := by
    let event : StreamEvent :=
      .ref_updated mutation.name mutation.before mutation.target mutation.generation sequence
    refine ⟨sequence, version, event, ?_, ?_, rfl⟩
    next => simp [moved, counter_writes]
    next =>
      have quiet : emitted moved = [] := rfl
      rw [emitted, List.filterMap_append, List.filterMap_append, ← emitted, ← emitted, quiet, silent]
      rfl
  clear_value settle
  cases mutation.change_id with
  | none => exact rest [] rfl
  | some change => exact .bind ((change_announces mutation.target).mono (fun _ fits => fits) fun write => rest [write])

theorem describe_announces (name : RefName) :
    (describe_conflict env name).Yields Announcing answers fun _ => True :=
  .bind (.bind (.ask trivial fun _ _ => trivial))

theorem get_ref_announces (name : RefName) : (get_ref env name).Yields Announcing answers fun _ => True := by
  refine .bind (.ask trivial fun item _ => ?_)
  cases item <;> trivial

theorem mutate_ref_announces (mutation : Mutation) :
    (mutate_ref env mutation).Yields Announcing answers fun _ => True := by
  refine .bind (.ask trivial fun now _ => .bind (.ofExcept fun _ _ => ?_))
  refine .bind (@Prog.Yields.mono _ _ _ _ _ _ (fun _ => True) _ _ _ ?_ (fun _ fits => fits) ?_)
  next =>
    refine .handling (commit_announces _ _ (fun _ made => made) fun sequence version => build_announces ..) fun error => ?_
    cases error with
    | conflict => exact .bind ((describe_announces mutation.name).mono (fun _ fits => fits) fun _ _ => trivial)
    | _ => trivial
  next =>
    rintro ⟨sequence, replayed⟩ -
    cases replayed with
    | true => exact .bind ((get_ref_announces mutation.name).mono (fun _ fits => fits) fun _ _ => trivial)
    | false => trivial

theorem update_ref_announces (name : RefName) (expected : Int) (target : ObjectName) (principal : String)
    (change_id : Option ChangeId) (key : Option String) (request : Option Request) (kind : OpKind) :
    (update_ref env name expected target principal change_id key request kind).Yields Announcing answers
      fun _ => True := by
  refine .bind (.bind (.ask trivial fun item _ => ?_))
  cases item with
  | none => trivial
  | some item => exact .bind (.ofExcept fun _ _ => mutate_ref_announces _)

theorem delete_ref_announces (name : RefName) (expected : Int) (principal : String) (key : Option String) :
    (delete_ref env name expected principal key).Yields Announcing answers fun _ => True := by
  refine .bind (.bind (.ask trivial fun item _ => ?_))
  cases item with
  | none => trivial
  | some item =>
    refine .bind ((commit_announces _ _ (fun _ made => made) fun sequence version => ?_).mono (fun _ fits => fits)
      fun _ _ => trivial)
    refine .bind (.ask trivial fun at_us _ => ?_)
    exact ⟨sequence, version, .ref_deleted name item.body.target sequence, by simp [counter_writes], rfl, rfl⟩

theorem undo_announces (sequence : Nat) (principal : String) (key : Option String) :
    (undo env sequence principal key).Yields Announcing answers fun _ => True := by
  refine .bind (.bind (.ask trivial fun item _ => ?_))
  cases item with
  | none => trivial
  | some item =>
    simp only [Prog.Yields, pure]
    cases item.body.ref with
    | none => trivial
    | some name =>
      refine .bind (.bind (.ask trivial fun seen _ => ?_))
      cases item.body.before with
      | none =>
        cases seen with
        | none => trivial
        | some seen => exact .bind ((delete_ref_announces name _ principal key).mono (fun _ fits => fits) fun _ _ => trivial)
      | some target =>
        cases seen with
        | none => exact mutate_ref_announces _
        | some seen => exact update_ref_announces name _ target principal _ key _ _

theorem call_announces (call : RefCall) : (call.code env).Yields Announcing answers fun _ => True := by
  cases call with
  | create => exact .bind ((mutate_ref_announces _).mono (fun _ fits => fits) fun _ _ => trivial)
  | update => exact .bind ((update_ref_announces ..).mono (fun _ fits => fits) fun _ _ => trivial)
  | delete => exact .bind ((delete_ref_announces ..).mono (fun _ fits => fits) fun _ _ => trivial)
  | undo => exact .bind ((undo_announces ..).mono (fun _ fits => fits) fun _ _ => trivial)

end Repository

/-- The one event of a move has the move's sequence. -/
theorem carries_announced {move : Move} {writes : List WriteOp} (carries : Carries move writes)
    (announced : Announced writes) : ∃ event, emitted writes = [event] ∧ event.op_sequence = move.sequence := by
  obtain ⟨sequence, version, event, counts, once, same⟩ := announced
  refine ⟨event, once, same.trans ?_⟩
  obtain ⟨-, -, -, accessories, fit, rfl⟩ := carries
  -- The counter is put by no other write of the move.
  rcases List.mem_append.mp counts with first | later
  next =>
    rcases List.mem_cons.mp first with moved | counter
    next => rw [Move.write] at moved; split at moved <;> cases moved
    next =>
      have written := List.mem_singleton.mp counter
      injection written with _ body
      exact Nat.succ.inj body
  next =>
    rcases List.mem_cons.mp later with logged | accessory
    next => cases logged
    next => exact (fit _ accessory).elim

end LedgerVcs
