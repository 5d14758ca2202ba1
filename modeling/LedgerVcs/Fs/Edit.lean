import LedgerVcs.Fs.Nested

set_option autoImplicit false

/-! Editing a tree: one entry at one path, and a new tree. -/

namespace LedgerVcs

open Wire (Bytes)
open Align (named)

/-! ## Paths -/

def SEPARATOR : UInt8 := 0x2f

def validate_component (component : Bytes) : Except PyError Unit := do
  ensure (1 ≤ component.length ∧ component.length ≤ MAX_ENTRY_NAME_BYTES)
    (.invalidRequest "path component length out of range")
  ensure (SEPARATOR ∉ component ∧ 0 ∉ component) (.invalidRequest "path component contains a separator or NUL")
  ensure (component ∉ RESERVED_NAMES) (.invalidRequest "path component is reserved")
  ensure (Text.decodeUtf8 component ≠ none) (.invalidRequest "path component is not valid UTF-8")

/-- Repeated separators, and those at either end, are tolerated. -/
def parse_path (raw : Bytes) : Except PyError (List Bytes) := do
  let components := (raw.splitOn SEPARATOR).filter fun part => part ≠ []
  components.forM validate_component
  return components

structure ResolvedEntry where
  path : List Bytes
  entry : TreeEntry
deriving DecidableEq

section Resolving

variable {blake3 : Blake3} (store : Objects blake3) (nodes : Nat)

/-- The loop of `resolve_path`. -/
def resolve_from : ObjectName → (components : List Bytes) → Except PyError TreeEntry
  | _, [] => throw (.assertionError "unreachable")
  | current, component :: components => do
    match ← lookup store nodes current component with
    | none => throw (.notFound "path does not exist")
    | some entry =>
      if components = [] then return entry
      else if entry.kind ≠ .tree then throw (.notFound "path traverses a non-directory")
      else resolve_from entry.target components

def resolve_path (root_tree : ObjectName) (path : Bytes) : Except PyError ResolvedEntry := do
  let components ← parse_path path
  if components = [] then throw (.notFound "the root of a tree is not an entry; list it instead")
  else do
    let entry ← resolve_from store nodes root_tree components
    return ⟨components, entry⟩

end Resolving

/-! ## Writing -/

/-- What a store answers once these nodes have been put into it. What it already stores is left as it is. -/
def Objects.after {blake3 : Blake3} (store : Objects blake3) (written : List (ObjectName × Bytes)) : Objects blake3 where
  get_object name :=
    match store.get_object name with
    | .error (.objectNotFound message) =>
      match written.find? fun pair => pair.1 = name ∧ name_of_encoded blake3 pair.2 = name with
      | some pair => decode pair.2
      | none => .error (.objectNotFound message)
    | found => found
  verified {name object} read := by
    split at read
    next =>
      split at read
      next pair found =>
        have named : pair.1 = name ∧ name_of_encoded blake3 pair.2 = name := by simpa using List.find?_some found
        exact ⟨pair.2, read, named.2⟩
      next => cases read
    next => exact store.verified read

/-! ## A directory's entries, by name -/

/-- `existing[name] = entry`, in the order of the sorted names. -/
def put_entry (entry : TreeEntry) : List TreeEntry → List TreeEntry
  | [] => [entry]
  | other :: existing =>
    if entry.name < other.name then entry :: other :: existing
    else if other.name < entry.name then other :: put_entry entry existing
    else entry :: existing

def by_name (listing : List TreeEntry) : List TreeEntry :=
  listing.foldl (fun existing entry => put_entry entry existing) []

structure EditResult where
  tree : ObjectName
  written : List (ObjectName × Bytes)
deriving DecidableEq

section Editing

variable {blake3 : Blake3} (store : Objects blake3) (nodes : Nat) (shape : ShapeParams)

/-- The entry at the path is set, or removed where there is none to set. -/
def apply_edit : (components : List Bytes) → (tree : ObjectName) → (entry : Option TreeEntry) → Emitting ObjectName
  | [], _, _ => throw (.assertionError "unreachable")
  | name :: rest, tree, entry => do
    let written ← get
    let listing ← (iter_entries (store.after written) nodes tree none).collect
    let existing := by_name listing
    let child := named TreeEntry.name existing name
    if rest = [] then
      match entry with
      | none =>
        if child = none then return tree
        else build_tree blake3 (existing.filter fun other => other.name ≠ name) shape
      | some entry =>
        let replacement := { entry with name }
        if child = some replacement then return tree
        else build_tree blake3 (put_entry replacement existing) shape
    else
      match child, entry with
      | none, none => return tree
      | none, some entry => do
        let subtree ← build_tree blake3 [] shape
        let rebuilt ← apply_edit rest subtree (some entry)
        build_tree blake3 (put_entry ⟨name, .tree, rebuilt, 0, 0⟩ existing) shape
      | some child, entry =>
        if child.kind ≠ .tree then throw (.invalidRequest "path traverses a file")
        else do
          let rebuilt ← apply_edit rest child.target entry
          if rebuilt = child.target then return tree
          else build_tree blake3 (put_entry ⟨name, .tree, rebuilt, 0, 0⟩ existing) shape

def edit (root : ObjectName) (components : List Bytes) (entry : Option TreeEntry) : Except PyError EditResult := do
  ensure (components ≠ []) (.invalidRequest "the root of a tree is not an entry; it cannot be set or removed")
  let (tree, written) ← apply_edit store nodes shape components root entry []
  return ⟨tree, written⟩

def set_path (root : ObjectName) (path : Bytes) (entry : TreeEntry) : Except PyError EditResult := do
  let components ← parse_path path
  edit store nodes shape root components (some entry)

def remove_path (root : ObjectName) (path : Bytes) : Except PyError EditResult := do
  let components ← parse_path path
  edit store nodes shape root components none

end Editing

/-! ## What is known of the entries of a directory -/

section Entries

variable {entries : List TreeEntry}

theorem mem_put_entry {entry other : TreeEntry} (member : other ∈ put_entry entry entries) : other = entry ∨ other ∈ entries := by
  induction entries with
  | nil => exact .inl (List.mem_singleton.mp member)
  | cons first entries ih =>
    rw [put_entry] at member
    split_ifs at member with before after
    next => exact List.mem_cons.mp member
    next =>
      rcases List.mem_cons.mp member with rfl | later
      next => exact .inr List.mem_cons_self
      next => exact (ih later).imp_right (List.mem_cons_of_mem _)
    next => exact (List.mem_cons.mp member).imp_right (List.mem_cons_of_mem _)

theorem put_entry_ascending (ascending : Routing.Ascending TreeEntry.name entries) (entry : TreeEntry) :
    Routing.Ascending TreeEntry.name (put_entry entry entries) := by
  induction entries with
  | nil => exact List.pairwise_singleton _ _
  | cons first entries ih =>
    obtain ⟨behind, rest⟩ := List.pairwise_cons.mp ascending
    rw [put_entry]
    split_ifs with before after
    next => exact List.pairwise_cons.mpr ⟨List.forall_mem_cons.mpr ⟨before, fun other member => List.lt_trans before (behind other member)⟩, ascending⟩
    next =>
      refine List.pairwise_cons.mpr ⟨fun other member => ?_, ih rest⟩
      rcases mem_put_entry member with rfl | old
      next => exact after
      next => exact behind other old
    next =>
      have same : entry.name = first.name := List.le_antisymm (List.not_lt.mp after) (List.not_lt.mp before)
      exact List.pairwise_cons.mpr ⟨fun other member => same ▸ behind other member, rest⟩

theorem named_put_entry (ascending : Routing.Ascending TreeEntry.name entries) (entry : TreeEntry) (name : Bytes) :
    named TreeEntry.name (put_entry entry entries) name =
      if entry.name = name then some entry else named TreeEntry.name entries name := by
  have skip {first : TreeEntry} (others : List TreeEntry) (differs : first.name ≠ name) :
      named TreeEntry.name (first :: others) name = named TreeEntry.name others name :=
    List.find?_cons_of_neg (by simpa using differs)
  induction entries with
  | nil =>
    by_cases same : entry.name = name
    next => rw [if_pos same, put_entry, ← same, Align.named_first]
    next => rw [if_neg same, put_entry, skip [] same]
  | cons first entries ih =>
    obtain ⟨behind, rest⟩ := List.pairwise_cons.mp ascending
    rw [put_entry]
    by_cases before : entry.name < first.name
    next =>
      rw [if_pos before]
      by_cases same : entry.name = name
      next => rw [if_pos same, ← same, Align.named_first]
      next => rw [if_neg same, skip _ same]
    next =>
      rw [if_neg before]
      by_cases after : first.name < entry.name
      next =>
        rw [if_pos after]
        by_cases here : first.name = name
        next => rw [if_neg fun same => Std.ne_of_lt after (here.trans same.symm), ← here, Align.named_first, Align.named_first]
        next => rw [skip _ here, skip _ here, ih rest]
      next =>
        have equal : entry.name = first.name := List.le_antisymm (List.not_lt.mp after) (List.not_lt.mp before)
        rw [if_neg after]
        by_cases same : entry.name = name
        next => rw [if_pos same, ← same, Align.named_first]
        next => rw [if_neg same, skip _ same, skip _ fun here => same (equal.trans here)]

theorem named_filter (gone name : Bytes) :
    named TreeEntry.name (entries.filter fun other => other.name ≠ gone) name =
      if gone = name then none else named TreeEntry.name entries name := by
  split_ifs with same
  next =>
    refine List.find?_eq_none.mpr fun entry member => ?_
    have differs : entry.name ≠ gone := by simpa using (List.mem_filter.mp member).2
    simpa [same] using differs
  next =>
    rw [named, List.find?_filter]
    refine congrArg (fun test => entries.find? test) (funext fun entry => ?_)
    by_cases here : entry.name = name
    next => simp [here, Ne.symm same]
    next => simp [here]

/-- A listing in order is its own dict. -/
theorem by_name_ascending (ascending : Routing.Ascending TreeEntry.name entries) : by_name entries = entries := by
  have last {existing : List TreeEntry} {entry : TreeEntry} (before : ∀ other ∈ existing, other.name < entry.name) :
      put_entry entry existing = existing ++ [entry] := by
    induction existing with
    | nil => rfl
    | cons first existing ih =>
      obtain ⟨earlier, others⟩ := List.forall_mem_cons.mp before
      rw [put_entry, if_neg (List.lt_asymm earlier), if_pos earlier, ih others, List.cons_append]
  have onward (existing entries : List TreeEntry) (ascending : Routing.Ascending TreeEntry.name (existing ++ entries)) :
      entries.foldl (fun existing entry => put_entry entry existing) existing = existing ++ entries := by
    induction entries generalizing existing with
    | nil => rw [List.foldl_nil, List.append_nil]
    | cons entry entries ih =>
      obtain ⟨-, -, before⟩ := List.pairwise_append.mp ascending
      rw [List.foldl_cons, last fun other member => before other member entry List.mem_cons_self,
        ih (existing ++ [entry]) (by simpa using ascending), List.append_assoc, List.singleton_append]
  exact onward [] entries ascending

theorem put_entry_same (ascending : Routing.Ascending TreeEntry.name entries) {entry : TreeEntry}
    (found : named TreeEntry.name entries entry.name = some entry) : put_entry entry entries = entries := by
  refine Align.named_inj (put_entry_ascending ascending entry) ascending fun name => ?_
  rw [named_put_entry ascending]
  split_ifs with same
  next => rw [← same, found]
  next => rfl

end Entries

/-! ## Building after other writes -/

section Frames

/-- What was emitted before makes no difference. -/
def Framed {α : Type} (act : Emitting α) : Prop :=
  ∀ emitted, act emitted = (act []).map fun result => (result.1, emitted ++ result.2)

theorem framed_bind {α β : Type} {act : Emitting α} {rest : α → Emitting β} (first : Framed act)
    (others : ∀ value, Framed (rest value)) : Framed (act >>= rest) := by
  intro emitted
  change ((act emitted).bind fun result => rest result.1 result.2) =
    ((act []).bind fun result => rest result.1 result.2).map _
  rw [first emitted]
  cases act [] with
  | error => rfl
  | ok result =>
    obtain ⟨value, added⟩ := result
    change rest value (emitted ++ added) = (rest value added).map _
    rw [others value (emitted ++ added), others value added]
    cases rest value [] with
    | error => rfl
    | ok last => exact congrArg (fun out => Except.ok (last.1, out)) (List.append_assoc _ _ _)

theorem framed_pure {α : Type} (value : α) : Framed (pure value : Emitting α) := fun emitted =>
  congrArg (fun out => Except.ok (value, out)) (List.append_nil emitted).symm

theorem framed_lift {α : Type} (result : Except PyError α) : Framed (liftM result : Emitting α) := by
  intro emitted
  cases result with
  | error => rfl
  | ok value => exact framed_pure value emitted

variable (blake3 : Blake3)

theorem framed_emit (node : LedgerObject) : Framed (emit_node blake3 node) := by
  refine framed_bind (framed_lift _) fun framed => framed_bind (fun emitted => rfl) fun _ => framed_pure _

theorem framed_nodes (level : Nat) (current : List TreeEntry) (start : Nat) (ends : List Nat) :
    Framed (build_tree_nodes blake3 level current start ends) := by
  induction ends generalizing start with
  | nil => exact framed_pure _
  | cons stop ends ih => exact framed_bind (framed_emit blake3 _) fun _ => framed_bind (ih stop) fun _ => framed_pure _

theorem framed_levels (params : ShapeParams) (rounds level : Nat) (current : List TreeEntry) :
    Framed (build_tree_levels blake3 params rounds level current) := by
  induction rounds generalizing level current with
  | zero => exact fun _ => rfl
  | succ rounds ih =>
    refine framed_bind (framed_lift _) fun ends => framed_bind (framed_nodes blake3 level current 0 ends) fun nodes => ?_
    split
    next => exact framed_pure _
    next => exact ih _ _

theorem framed_build (entries : List TreeEntry) (params : ShapeParams) : Framed (build_tree blake3 entries params) := by
  rw [build_tree]
  split
  next => exact framed_emit blake3 _
  next => exact framed_bind (framed_lift _) fun _ => framed_levels blake3 params _ _ _

theorem build_after {entries : List TreeEntry} {params : ShapeParams} {written out : List (ObjectName × Bytes)}
    {root : ObjectName} (built : build_tree blake3 entries params written = .ok (root, out)) :
    ∃ added, out = written ++ added ∧ build_tree blake3 entries params [] = .ok (root, added) := by
  rw [framed_build blake3 entries params written] at built
  cases whole : build_tree blake3 entries params [] with
  | error => rw [whole] at built; cases built
  | ok result =>
    rw [whole] at built
    cases built
    exact ⟨result.2, rfl, rfl⟩

end Frames

/-! ## A store that has grown -/

section Growth

variable {blake3 : Blake3} {store later : Objects blake3} {params : ShapeParams}

/-- What was read before is still read. -/
def Objects.Within (store later : Objects blake3) : Prop :=
  ∀ name object, store.get_object name = .ok object → later.get_object name = .ok object

theorem within_after (written : List (ObjectName × Bytes)) : store.Within (store.after written) := by
  intro name object read
  rw [Objects.after]
  simp only [read]

theorem after_within (written more : List (ObjectName × Bytes)) :
    (store.after written).Within (store.after (written ++ more)) := by
  intro name object read
  simp only [Objects.after] at read ⊢
  split at read
  next message missing =>
    split at read
    next pair found => simp only [List.find?_append, found, Option.some_or]; exact read
    next => cases read
  next => exact read

theorem Objects.Within.trans {last : Objects blake3} (first : store.Within later) (second : later.Within last) : store.Within last :=
  fun name object read => second name object (first name object read)

theorem Objects.Holds.grow {entries : List TreeEntry} {root : ObjectName} {emitted : List (ObjectName × Bytes)}
    (built : build_tree blake3 entries params [] = .ok (root, emitted)) (held : store.Holds emitted)
    (within : store.Within later) : later.Holds emitted := by
  obtain ⟨added, rfl, each⟩ := build_tree_emitted blake3 built
  intro pair member
  obtain ⟨-, -, node, read, -⟩ := (each pair (by simpa using member)).readable
  rw [read]
  exact within _ _ ((held pair member).trans read)

theorem Built.grow {given : Option (List Bytes)} {depth : Nat} {root : ObjectName} (built : Built store params given depth root)
    (within : store.Within later) : Built later params given depth root := by
  induction built with
  | directory made held _ ih => exact .directory made (held.grow made within) ih

theorem Built.deeper {given : Option (List Bytes)} {depth more : Nat} {root : ObjectName}
    (built : Built store params given depth root) (below : depth ≤ more) : Built store params given more root := by
  induction built generalizing more with
  | directory made held _ ih =>
    obtain ⟨more, rfl⟩ := Nat.exists_eq_succ_of_ne_zero (Nat.ne_zero_of_lt below)
    exact .directory made held fun entry member tree free => ih entry member tree free (Nat.le_of_succ_le_succ below)

theorem Built.given {given : Option (List Bytes)} {depth : Nat} {root : ObjectName} (built : Built store params none depth root) :
    Built store params given depth root := by
  generalize whole : (none : Option (List Bytes)) = nowhere at built
  induction built generalizing given with
  | directory made held _ ih =>
    subst whole
    exact .directory made held fun entry member tree _ => ih entry member tree nofun rfl

end Growth

/-! ## What an edit does -/

section Revising

variable {blake3 : Blake3} {store old new : Objects blake3} {nodes : Nat} {params : ShapeParams}

/-- The root is what the entries are built into, and its nodes are stored. -/
def Makes (store : Objects blake3) (params : ShapeParams) (entries : List TreeEntry) (root : ObjectName) : Prop :=
  ∃ emitted, build_tree blake3 entries params [] = .ok (root, emitted) ∧ store.Holds emitted

theorem Makes.grow {entries : List TreeEntry} {root : ObjectName} (makes : Makes old params entries root)
    (within : old.Within new) : Makes new params entries root := by
  obtain ⟨emitted, built, held⟩ := makes
  exact ⟨emitted, built, held.grow built within⟩

theorem Built.makes {depth : Nat} {root : ObjectName} (built : Built store params none depth root) :
    ∃ entries, Makes store params entries root ∧
      ∀ entry ∈ entries, entry.kind = .tree → ∃ depth, Built store params none depth entry.target := by
  cases built with
  | directory made held below => exact ⟨_, ⟨_, made, held⟩, fun entry member tree => ⟨_, below entry member tree nofun⟩⟩

/-- The entries with the one of that name set, or without it. -/
def revise (name : Bytes) (entry : Option TreeEntry) (entries : List TreeEntry) : List TreeEntry :=
  match entry with
  | some entry => put_entry { entry with name } entries
  | none => entries.filter fun other => other.name ≠ name

/-- The directory of these entries, revised at the path, has become the root. -/
inductive Revised (old new : Objects blake3) (params : ShapeParams) (entry : Option TreeEntry) :
    (path : List Bytes) → (entries : List TreeEntry) → (root : ObjectName) → Prop
  | here {name : Bytes} {entries : List TreeEntry} {root : ObjectName} (made : Makes new params (revise name entry entries) root) :
    Revised old new params entry [name] entries root
  | inner {name : Bytes} {rest : List Bytes} {entries inner : List TreeEntry} {child : TreeEntry} {rebuilt root : ObjectName}
    (found : named TreeEntry.name entries name = some child) (tree : child.kind = .tree)
    (lists : Makes old params inner child.target) (inside : Revised old new params entry rest inner rebuilt)
    (made : Makes new params (put_entry ⟨name, .tree, rebuilt, 0, 0⟩ entries) root) :
    Revised old new params entry (name :: rest) entries root
  | created {name : Bytes} {rest : List Bytes} {entries : List TreeEntry} {rebuilt root : ObjectName}
    (missing : named TreeEntry.name entries name = none) (sets : entry ≠ none)
    (inside : Revised old new params entry rest [] rebuilt)
    (made : Makes new params (put_entry ⟨name, .tree, rebuilt, 0, 0⟩ entries) root) :
    Revised old new params entry (name :: rest) entries root
  | absent {name next : Bytes} {rest : List Bytes} {entries : List TreeEntry} {root : ObjectName}
    (missing : named TreeEntry.name entries name = none) (removes : entry = none) (made : Makes new params entries root) :
    Revised old new params entry (name :: next :: rest) entries root

/-- What is new from the ground up does not depend on what there was. -/
theorem Revised.fresh {other : Objects blake3} {entry : Option TreeEntry} {path : List Bytes} {root : ObjectName}
    (revised : Revised old new params entry path [] root) : Revised other new params entry path [] root := by
  generalize whole : ([] : List TreeEntry) = entries at revised
  induction revised with
  | here made => subst whole; exact .here made
  | inner found => subst whole; cases found
  | created missing sets _ made ih => subst whole; exact .created missing sets (ih rfl) made
  | absent missing removes made => subst whole; exact .absent missing removes made

/-- Everything is written under the name of its bytes. -/
def NamedWell (blake3 : Blake3) (written : List (ObjectName × Bytes)) : Prop :=
  ∀ pair ∈ written, pair.1 = name_of_encoded blake3 pair.2

/-- It only adds to what is written, and that under the names of the bytes. -/
def Writes (blake3 : Blake3) {α : Type} (act : Emitting α) : Prop :=
  ∀ {written written' result}, act written = .ok (result, written') →
    (∃ added, written' = written ++ added) ∧ (NamedWell blake3 written → NamedWell blake3 written')

theorem writes_bind {α β : Type} {act : Emitting α} {rest : α → Emitting β} (first : Writes blake3 act)
    (others : ∀ value, Writes blake3 (rest value)) : Writes blake3 (act >>= rest) := by
  intro written written' result ran
  obtain ⟨value, middle, before, after⟩ := Monads.bind_ok.mp ran
  obtain ⟨⟨added, rfl⟩, well⟩ := first before
  obtain ⟨⟨more, rfl⟩, well'⟩ := others value after
  exact ⟨⟨added ++ more, List.append_assoc _ _ _⟩, well' ∘ well⟩

theorem writes_pure {α : Type} (value : α) : Writes blake3 (pure value) := by
  intro written written' result ran
  obtain ⟨rfl, rfl⟩ := Monads.pure_ok.mp ran
  exact ⟨⟨[], (List.append_nil _).symm⟩, id⟩

theorem writes_lift {α : Type} (result : Except PyError α) : Writes blake3 (liftM result) := by
  intro written written' value ran
  obtain ⟨rfl, rfl⟩ := Monads.liftM_ok.mp ran
  exact ⟨⟨[], (List.append_nil _).symm⟩, id⟩

theorem writes_get : Writes blake3 get := by
  intro written written' value ran
  cases ran
  exact ⟨⟨[], (List.append_nil _).symm⟩, id⟩

theorem writes_build (entries : List TreeEntry) : Writes blake3 (build_tree blake3 entries params) := by
  intro written written' root ran
  obtain ⟨added, rfl, each⟩ := build_tree_emitted blake3 ran
  refine ⟨⟨added, rfl⟩, fun well pair member => ?_⟩
  rcases List.mem_append.mp member with before | now
  next => exact well pair before
  next => exact (each pair now).1

theorem apply_writes (components : List Bytes) (tree : ObjectName) (entry : Option TreeEntry) :
    Writes blake3 (apply_edit store nodes params components tree entry) := by
  induction components generalizing tree entry with
  | nil => exact nofun
  | cons name rest ih =>
    rw [apply_edit]
    refine writes_bind writes_get fun written => writes_bind (writes_lift _) fun listing => ?_
    dsimp only
    split
    next =>
      split
      next => split; exact writes_pure _; exact writes_build _
      next => split; exact writes_pure _; exact writes_build _
    next =>
      split
      next => exact writes_pure _
      next => exact writes_bind (writes_build _) fun _ => writes_bind (ih _ _) fun _ => writes_build _
      next =>
        split
        next => exact nofun
        next =>
          refine writes_bind (ih _ _) fun rebuilt => ?_
          split
          next => exact writes_pure _
          next => exact writes_build _

/-- What reads back once everything is written read back before as well. -/
theorem earlier_holds {written more : List (ObjectName × Bytes)} (well : NamedWell blake3 written)
    (intact : (store.after (written ++ more)).Holds (written ++ more)) : (store.after written).Holds written := by
  intro pair member
  have last := intact pair (List.mem_append_left _ member)
  simp only [Objects.after] at last ⊢
  split at last
  next message missing =>
    obtain ⟨found, first⟩ : ∃ found, (written.find? fun other => other.1 = pair.1 ∧ name_of_encoded blake3 other.2 = pair.1) =
        some found := by
      rw [← Option.isSome_iff_exists, List.find?_isSome]
      exact ⟨pair, member, by simp [← well pair member]⟩
    rw [List.find?_append, first, Option.some_or] at last
    simp only [first]
    exact last
  next => exact last

theorem build_makes {entries : List TreeEntry} {root : ObjectName} {written written' : List (ObjectName × Bytes)}
    (built : build_tree blake3 entries params written = .ok (root, written')) (intact : new.Holds written') :
    Makes new params entries root := by
  obtain ⟨added, rfl, fresh⟩ := build_after blake3 built
  exact ⟨added, fresh, fun pair member => intact pair (List.mem_append_right _ member)⟩

theorem apply_revises {components : List Bytes} {tree root : ObjectName} {entry : Option TreeEntry}
    {written written' more : List (ObjectName × Bytes)} {entries : List TreeEntry} (enough : LEVELS ≤ nodes)
    (ran : apply_edit store nodes params components tree entry written = .ok (root, written'))
    (lists : Makes (store.after written) params entries tree)
    (below : ∀ child ∈ entries, child.kind = .tree → ∃ depth, Built (store.after written) params none depth child.target)
    (well : NamedWell blake3 written) (intact : (store.after (written' ++ more)).Holds (written' ++ more)) :
    Revised (store.after written) (store.after (written' ++ more)) params entry components entries root := by
  induction components generalizing tree root written written' more entries with
  | nil => cases ran
  | cons name rest ih =>
    have made : Makes (store.after written) params entries tree := lists
    obtain ⟨emitted, built, held⟩ := lists
    obtain ⟨-, -, -, -, listed, ascending, plain, -⟩ := built_reads built held enough
    have ours : (store.after (written' ++ more)).Holds written' := fun pair member => intact pair (List.mem_append_left _ member)
    have stays : Makes (store.after (written ++ more)) params entries tree := made.grow (after_within _ _)
    rw [apply_edit] at ran
    obtain ⟨written, _, got, ran⟩ := Monads.bind_ok.mp ran
    cases got
    simp only [listed, Gen.collect_of] at ran
    obtain ⟨listing, _, collected, ran⟩ := Monads.bind_ok.mp ran
    obtain ⟨collected, rfl⟩ := Monads.liftM_ok.mp collected
    cases collected
    rw [by_name_ascending ascending] at ran
    cases found : named TreeEntry.name entries name with
    | none =>
      rw [found] at ran
      have untouched : revise name none entries = entries := by
        refine List.filter_eq_self.mpr fun other member => ?_
        simpa using List.find?_eq_none.mp found other member
      cases entry with
      | none =>
        by_cases final : rest = []
        next =>
          subst final
          rw [if_pos rfl] at ran
          dsimp only at ran
          rw [if_pos rfl] at ran
          obtain ⟨rfl, rfl⟩ := Monads.pure_ok.mp ran
          exact .here (untouched.symm ▸ stays)
        next =>
          obtain ⟨next, rest, rfl⟩ := List.exists_cons_of_ne_nil final
          rw [if_neg final] at ran
          obtain ⟨rfl, rfl⟩ := Monads.pure_ok.mp ran
          exact .absent found rfl stays
      | some entry =>
        by_cases final : rest = []
        next =>
          subst final
          rw [if_pos rfl] at ran
          exact .here (build_makes ran ours)
        next =>
          rw [if_neg final] at ran
          obtain ⟨subtree, written₁, empty, ran⟩ := Monads.bind_ok.mp ran
          obtain ⟨rebuilt, written₂, inside, last⟩ := Monads.bind_ok.mp ran
          obtain ⟨⟨added₂, rfl⟩, well₂⟩ := apply_writes rest subtree (some entry) inside
          obtain ⟨⟨added, rfl⟩, -⟩ := writes_build _ last
          have well₁ : NamedWell blake3 written₁ := (writes_build _ empty).2 well
          simp only [List.append_assoc] at intact ⊢
          have made₁ : Makes (store.after written₁) params [] subtree := build_makes empty (earlier_holds well₁ intact)
          have inside := ih inside made₁ (fun _ impossible => by cases impossible) well₁ (by simpa only [List.append_assoc] using intact)
          refine .created found nofun ?_ (build_makes last (by simpa only [List.append_assoc] using ours))
          simpa only [List.append_assoc] using inside.fresh
    | some child =>
      rw [found] at ran
      by_cases final : rest = []
      next =>
        subst final
        rw [if_pos rfl] at ran
        cases entry with
        | none =>
          dsimp only at ran
          rw [if_neg nofun] at ran
          exact .here (build_makes ran ours)
        | some entry =>
          dsimp only at ran
          by_cases same : some child = some { entry with name }
          next =>
            rw [if_pos same] at ran
            obtain ⟨rfl, rfl⟩ := Monads.pure_ok.mp ran
            have untouched : revise name (some entry) entries = entries := put_entry_same ascending (found.trans same)
            exact .here (untouched.symm ▸ stays)
          next =>
            rw [if_neg same] at ran
            exact .here (build_makes ran ours)
      next =>
        rw [if_neg final] at ran
        dsimp only at ran
        by_cases tree : child.kind = .tree
        next =>
          rw [if_neg (not_not_intro tree)] at ran
          obtain ⟨rebuilt, written₂, inside, last⟩ := Monads.bind_ok.mp ran
          obtain ⟨member, named_so⟩ := named_some found
          obtain ⟨_, whole⟩ := below child member tree
          obtain ⟨inner, lists, below'⟩ := whole.makes
          have directory : child = ⟨name, .tree, child.target, 0, 0⟩ := by
            obtain ⟨mode, size⟩ := plain child member tree
            cases child
            cases named_so; cases tree; cases mode; cases size
            rfl
          by_cases same : rebuilt = child.target
          next =>
            rw [if_pos same] at last
            obtain ⟨rfl, rfl⟩ := Monads.pure_ok.mp last
            obtain ⟨⟨added, rfl⟩, -⟩ := apply_writes rest child.target entry inside
            refine .inner found tree lists (ih inside lists below' well intact) ?_
            rw [put_entry_same ascending (by rw [same, ← directory, named_so]; exact found), List.append_assoc]
            exact made.grow (after_within _ _)
          next =>
            rw [if_neg same] at last
            obtain ⟨⟨added, rfl⟩, -⟩ := writes_build _ last
            simp only [List.append_assoc] at intact ours ⊢
            exact .inner found tree lists (ih inside lists below' well intact) (build_makes last ours)
        next => rw [if_pos tree] at ran; cases ran

end Revising

end LedgerVcs
