import LedgerVcs.Fs.Blob
import LedgerVcs.Fs.Closure
import LedgerVcs.Fs.Tree

set_option autoImplicit false

/-! What a tree's closure covers of what its readers fetch. -/

namespace LedgerVcs

open Wire (Bytes)
open Objects (get_tree_ok get_blob_ok get_chunk_ok)

/-! ## The walk over a store -/

namespace Objects

variable {blake3 : Blake3} (store : Objects blake3)

/-- What the names of the store stand for. -/
def corpus : Corpus where
  content name := (store.get_object name).toOption
  name_of _ := .error (.assertionError "not in play")
  length _ := 0
  occupied _ := 0
  named impossible := by cases impossible

/-- Reads are answered by the store. -/
def exec : (command : Cmd) → World → command.Response × World
  | .backend_read name, world => (store.get_object name, world)
  | command, world => LedgerVcs.exec .none command world

def tree_closure (root : ObjectName) : Except PyError (List ObjectName) :=
  (Prog.run store.exec (LedgerVcs.tree_closure root) (.empty 0)).1

/-- The store, with no answer for the name but the error. -/
def failing (name : ObjectName) (error : PyError) : Objects blake3 where
  get_object other := if other = name then .error error else store.get_object other
  verified := by
    intro other object read
    by_cases same : other = name
    next => rw [if_pos same] at read; cases read
    next =>
      rw [if_neg same] at read
      exact store.verified read

/-- The reader asks the store for the name: what comes out of it depends on how that fails. -/
def Asks {α : Type} (read : Objects blake3 → α) (name : ObjectName) : Prop :=
  ∃ error, read (store.failing name error) ≠ read store

/-! ## What is under a root -/

def entry_role (entry : TreeEntry) : Role := if entry.kind = .tree then .tree else .blob

/-- The directories under a root, and the files. -/
inductive Under (root : ObjectName) : ObjectName → Role → Prop
  | root : Under root root .tree
  | listed {dir : ObjectName} {entry : TreeEntry} {depth : Nat} {after : Option Bytes} (above : Under root dir .tree)
      (yields : entry ∈ (iter_entries store depth dir after).yielded) : Under root entry.target (entry_role entry)

/-- The bytes of a range of a file. -/
def read_file (name : ObjectName) (depth : Nat) (offset : Int) (length : Option Int) : Except PyError (Gen PyError Bytes) := do
  let reader ← BlobReader.init store name
  reader.stream store depth offset length

end Objects

/-! ## No node is taken for a chunk -/

/-- Nothing that is skipped was recorded as a chunk and refers to something. -/
def Harmless (corpus : Corpus) (recorded skipped : List (ObjectName × Role)) : Prop :=
  ∀ item ∈ skipped, (item.1, Role.chunk) ∈ recorded → references corpus item = []

def Recorded (recorded : List (ObjectName × Role)) (item : ObjectName × Role) : Bool :=
  item.1 ∈ (recorded.map Prod.fst).toFinset

/-- Nothing that the walk skips from here on had to be walked: `recorded` has the role each name was recorded in. -/
def Unshadowed (corpus : Corpus) : (visits : Nat) → (stack recorded : List (ObjectName × Role)) → Prop
  | 0, stack, recorded => Harmless corpus recorded (stack.takeWhile (Recorded recorded))
  | visits + 1, stack, recorded =>
    Harmless corpus recorded (stack.takeWhile (Recorded recorded)) ∧
      match stack.dropWhile (Recorded recorded) with
      | [] => True
      | item :: rest => Unshadowed corpus visits ((references corpus item).reverse ++ rest) (recorded ++ [item])

instance (corpus : Corpus) (recorded skipped : List (ObjectName × Role)) : Decidable (Harmless corpus recorded skipped) :=
  inferInstanceAs (Decidable (∀ item ∈ skipped, (item.1, Role.chunk) ∈ recorded → references corpus item = []))

def decideUnshadowed (corpus : Corpus) :
    (visits : Nat) → (stack recorded : List (ObjectName × Role)) → Decidable (Unshadowed corpus visits stack recorded)
  | 0, stack, recorded => inferInstanceAs (Decidable (Harmless corpus recorded (stack.takeWhile (Recorded recorded))))
  | visits + 1, stack, recorded =>
    @instDecidableAnd _ _ inferInstance
      (match stack.dropWhile (Recorded recorded) with
      | [] => isTrue trivial
      | _ :: _ => decideUnshadowed corpus visits _ _)

instance (corpus : Corpus) (visits : Nat) (stack recorded : List (ObjectName × Role)) :
    Decidable (Unshadowed corpus visits stack recorded) :=
  decideUnshadowed corpus visits stack recorded

section Walk

variable {corpus : Corpus}

/-- What is read under the name is what its role says. -/
def Kinded (corpus : Corpus) : ObjectName × Role → Prop
  | (name, .tree) => ∃ node, corpus.content name = some (.tree node)
  | (name, .blob) => ∃ node, corpus.content name = some (.blob node)
  | (_, .chunk) => True

/-- In a role other than the one that it was read in, a name refers to nothing, unless it was taken for a chunk. -/
theorem other_role {name : ObjectName} {role role' : Role} (kinded : Kinded corpus (name, role)) (different : role ≠ role')
    (node : role ≠ .chunk) : references corpus (name, role') = [] := by
  cases role with
  | chunk => exact absurd rfl node
  | tree =>
    obtain ⟨found, content⟩ := kinded
    cases role' with
    | tree => exact absurd rfl different
    | blob | chunk => simp [references, content]
  | blob =>
    obtain ⟨found, content⟩ := kinded
    cases role' with
    | blob => exact absurd rfl different
    | tree | chunk => simp [references, content]

/-- Where a walk is: what it has recorded, and what it has popped and leads from. -/
structure Walked (corpus : Corpus) (popped : ObjectName × Role → Prop) (stack recorded : List (ObjectName × Role)) :
    Prop where
  kinded : ∀ item ∈ recorded, Kinded corpus item
  visited : ∀ item ∈ recorded, popped item
  seen : ∀ item, popped item → item.1 ∈ recorded.map Prod.fst
  followed : ∀ item, popped item → ∀ below ∈ references corpus item, popped below ∨ below ∈ stack

theorem Walked.skip {popped : ObjectName × Role → Prop} {skipped left recorded : List (ObjectName × Role)}
    (walked : Walked corpus popped (skipped ++ left) recorded) (harmless : Harmless corpus recorded skipped)
    (known : ∀ item ∈ skipped, item.1 ∈ recorded.map Prod.fst) :
    Walked corpus (fun item => popped item ∨ item ∈ skipped) left recorded := by
  have sorted {below : ObjectName × Role} (waits : popped below ∨ below ∈ skipped ++ left) :
      (popped below ∨ below ∈ skipped) ∨ below ∈ left := by
    rcases waits with early | late
    next => exact .inl (.inl early)
    next => exact (List.mem_append.mp late).imp_left .inr
  refine ⟨walked.kinded, fun item member => .inl (walked.visited item member), fun item done => ?_,
    fun item done below refers => ?_⟩
  next =>
    rcases done with early | member
    next => exact walked.seen item early
    next => exact known item member
  next =>
    rcases done with early | member
    next => exact sorted (walked.followed item early below refers)
    next =>
      obtain ⟨⟨name, role⟩, recorded', same⟩ := List.mem_map.mp (known item member)
      obtain ⟨name', role'⟩ := item
      obtain rfl : name = name' := same
      by_cases again : role = role'
      next =>
        subst again
        exact sorted (walked.followed _ (walked.visited _ recorded') below refers)
      next =>
        -- Taken for a chunk before, or read in the other role.
        have nothing : references corpus (name, role') = [] := by
          by_cases chunk : role = .chunk
          next => exact harmless _ member (chunk ▸ recorded')
          next => exact other_role (walked.kinded _ recorded') again chunk
        rw [nothing] at refers
        cases refers

theorem Walked.visit {popped : ObjectName × Role → Prop} {rest recorded : List (ObjectName × Role)}
    {item : ObjectName × Role} (walked : Walked corpus popped (item :: rest) recorded) (kinded : Kinded corpus item) :
    Walked corpus (fun other => popped other ∨ other = item) ((references corpus item).reverse ++ rest)
      (recorded ++ [item]) := by
  refine ⟨fun other member => ?_, fun other member => ?_, fun other done => ?_, fun other done below refers => ?_⟩
  next =>
    rcases List.mem_append.mp member with early | now
    next => exact walked.kinded other early
    next => exact List.mem_singleton.mp now ▸ kinded
  next =>
    rcases List.mem_append.mp member with early | now
    next => exact .inl (walked.visited other early)
    next => exact .inr (List.mem_singleton.mp now)
  next =>
    rw [List.map_append]
    rcases done with early | rfl
    next => exact List.mem_append_left _ (walked.seen other early)
    next => exact List.mem_append_right _ (List.mem_singleton_self _)
  next =>
    rcases done with early | rfl
    next =>
      rcases walked.followed other early below refers with before | waits
      next => exact .inl (.inl before)
      next =>
        rcases List.mem_cons.mp waits with rfl | later
        next => exact .inl (.inr rfl)
        next => exact .inr (List.mem_append_right _ later)
    next => exact .inr (List.mem_append_left _ (List.mem_reverse.mpr refers))

/-- Up to the next name that has not been recorded. -/
theorem passed {popped : ObjectName × Role → Prop} {stack recorded : List (ObjectName × Role)} {root : ObjectName × Role}
    (walked : Walked corpus popped stack recorded)
    (harmless : Harmless corpus recorded (stack.takeWhile (Recorded recorded))) (starts : popped root ∨ root ∈ stack) :
    ∃ popped', Walked corpus popped' (stack.dropWhile (Recorded recorded)) recorded ∧
      (popped' root ∨ root ∈ stack.dropWhile (Recorded recorded)) := by
  have split := List.takeWhile_append_dropWhile (p := Recorded recorded) (l := stack)
  refine ⟨_, Walked.skip (by rw [split]; exact walked) harmless fun item member => ?_, ?_⟩
  next =>
    have known := List.all_eq_true.mp List.all_takeWhile item member
    simpa only [Recorded, decide_eq_true_eq, List.mem_toFinset] using known
  next =>
    rw [← split] at starts
    rcases starts with early | waits
    next => exact .inl (.inl early)
    next => exact (List.mem_append.mp waits).imp_left .inr

theorem Walked.ends {popped : ObjectName × Role → Prop} {recorded : List (ObjectName × Role)}
    {root item : ObjectName × Role} (walked : Walked corpus popped [] recorded) (starts : popped root)
    (below : Relation.ReflTransGen (Refers corpus) root item) : item.1 ∈ recorded.map Prod.fst := by
  refine walked.seen item ?_
  induction below with
  | refl => exact starts
  | tail _ refers ih =>
    rcases walked.followed _ ih _ refers with early | impossible
    next => exact early
    next => cases impossible

end Walk

/-! ## What the readers ask for -/

section Readers

variable {blake3 : Blake3} {store : Objects blake3} {root name : ObjectName} {error : PyError}

end Readers

/-! ## The closure -/

section Cover

variable {blake3 : Blake3} {store : Objects blake3} {root : ObjectName}

end Cover

end LedgerVcs
