import LedgerVcs.Fs.Edit
import LedgerVcs.Fs.EmptyDiff

set_option autoImplicit false

/-! What a revised tree has at every path, and that it is what a fresh build gives. -/

namespace LedgerVcs

open Wire (Bytes)
open Align (named)

variable {blake3 : Blake3} {store old new : Objects blake3} {params : ShapeParams} {entry : Option TreeEntry} {nodes : Nat}

/-! ## Resolving, by the entries of a directory -/

def resolve_in (store : Objects blake3) (nodes : Nat) (entries : List TreeEntry) : (components : List Bytes) → Except PyError TreeEntry
  | [] => throw (.assertionError "unreachable")
  | component :: components =>
    match named TreeEntry.name entries component with
    | none => throw (.notFound "path does not exist")
    | some entry =>
      if components = [] then return entry
      else if entry.kind ≠ .tree then throw (.notFound "path traverses a non-directory")
      else resolve_from store nodes entry.target components

theorem Makes.resolves {entries : List TreeEntry} {root : ObjectName} (makes : Makes store params entries root)
    (enough : LEVELS ≤ nodes) (path : List Bytes) : resolve_from store nodes root path = resolve_in store nodes entries path := by
  obtain ⟨emitted, built, held⟩ := makes
  obtain ⟨-, -, -, -, -, -, -, looks⟩ := built_reads built held enough
  cases path with
  | nil => rfl
  | cons component path =>
    rw [resolve_from, looks, resolve_in]
    cases named TreeEntry.name entries component <;> rfl

theorem Makes.lists {entries : List TreeEntry} {root : ObjectName} (makes : Makes store params entries root) :
    iter_entries store LEVELS root none = .of entries ∧ Routing.Ascending TreeEntry.name entries := by
  obtain ⟨emitted, built, held⟩ := makes
  obtain ⟨-, -, -, -, lists, ascending, -⟩ := built_reads built held (le_refl _)
  exact ⟨lists, ascending⟩

theorem Makes.unique {entries others : List TreeEntry} {root : ObjectName} (makes : Makes store params entries root)
    (again : Makes store params others root) : entries = others :=
  Gen.of_inj.mp (makes.lists.1.symm.trans again.lists.1)

/-- The directories among the entries are built altogether. -/
def Rooted (store : Objects blake3) (params : ShapeParams) (entries : List TreeEntry) : Prop :=
  ∀ entry ∈ entries, entry.kind = .tree → ∃ depth, Built store params none depth entry.target

theorem Built.rooted {depth : Nat} {root : ObjectName} (built : Built store params none depth root) :
    ∃ entries, Makes store params entries root ∧ Rooted store params entries :=
  built.makes

theorem Built.resolves_later {depth : Nat} {root : ObjectName} (built : Built old params none depth root)
    (within : old.Within new) (enough : LEVELS ≤ nodes) (path : List Bytes) :
    resolve_from new nodes root path = resolve_from old nodes root path := by
  generalize whole : (none : Option (List Bytes)) = nowhere at built
  induction built generalizing path with
  | @directory given depth root entries emitted made held below ih =>
    subst whole
    have makes : Makes old params entries root := ⟨emitted, made, held⟩
    rw [makes.resolves enough, (makes.grow within).resolves enough]
    cases path with
    | nil => rfl
    | cons component path =>
      rw [resolve_in, resolve_in]
      cases found : named TreeEntry.name entries component with
      | none => rfl
      | some entry =>
        dsimp only
        split_ifs with last tree
        next => rfl
        next => rfl
        next => exact ih entry (named_some found).1 (not_not.mp tree) nofun path rfl

theorem Built.content_later {depth : Nat} {root : ObjectName} (built : Built old params none depth root)
    (within : old.Within new) (path : List Bytes) : content_at new none root path = content_at old none root path := by
  generalize whole : (none : Option (List Bytes)) = nowhere at built
  induction built generalizing path with
  | @directory given depth root entries emitted made held below ih =>
    subst whole
    have makes : Makes old params entries root := ⟨emitted, made, held⟩
    rw [content_at_entries makes.lists.1, content_at_entries (makes.grow within).lists.1]
    cases path with
    | nil => rfl
    | cons component path =>
      rw [content_in, content_in]
      refine Option.bind_congr fun entry found => ?_
      obtain ⟨member, rfl⟩ := named_some found
      split_ifs with last tree
      next => rfl
      next => exact ih entry member tree.1 (Option.some_ne_none _).symm path rfl
      next => rfl

/-! ## What a revised directory resolves -/

theorem Revised.nonempty {path : List Bytes} {entries : List TreeEntry} {root : ObjectName}
    (revised : Revised old new params entry path entries root) : path ≠ [] := by
  cases revised <;> exact List.cons_ne_nil _ _

theorem named_revise {entries : List TreeEntry} (ascending : Routing.Ascending TreeEntry.name entries) (name other : Bytes) :
    named TreeEntry.name (revise name entry entries) other =
      if name = other then entry.map (fun entry => { entry with name }) else named TreeEntry.name entries other := by
  cases entry with
  | none => exact named_filter name other
  | some entry => exact named_put_entry ascending { entry with name } other

theorem resolve_in_later {entries others : List TreeEntry} {component : Bytes} (rooted : Rooted old params entries)
    (within : old.Within new) (enough : LEVELS ≤ nodes)
    (same : named TreeEntry.name others component = named TreeEntry.name entries component) (path : List Bytes) :
    resolve_in new nodes others (component :: path) = resolve_in old nodes entries (component :: path) := by
  rw [resolve_in, resolve_in, same]
  cases found : named TreeEntry.name entries component with
  | none => rfl
  | some entry =>
    dsimp only
    split_ifs with last tree
    next => rfl
    next => rfl
    next =>
      obtain ⟨_, built⟩ := rooted entry (named_some found).1 (not_not.mp tree)
      exact built.resolves_later within enough path

theorem resolve_in_below {entries : List TreeEntry} {name : Bytes} {child : TreeEntry} {path : List Bytes}
    (found : named TreeEntry.name entries name = some child) (tree : child.kind = .tree) (further : path ≠ []) :
    resolve_in store nodes entries (name :: path) = resolve_from store nodes child.target path := by
  rw [resolve_in, found]
  dsimp only
  rw [if_neg further, if_neg (not_not_intro tree)]

theorem resolve_in_missing {entries : List TreeEntry} {name : Bytes} (missing : named TreeEntry.name entries name = none)
    (path : List Bytes) : resolve_in store nodes entries (name :: path) = .error (.notFound "path does not exist") := by
  rw [resolve_in, missing]
  rfl

theorem resolve_in_last {entries : List TreeEntry} {name : Bytes} {child : TreeEntry}
    (found : named TreeEntry.name entries name = some child) : resolve_in store nodes entries [name] = .ok child := by
  rw [resolve_in, found]
  rfl

/-- The entry for a directory on the way. -/
theorem named_way {entries : List TreeEntry} (ascending : Routing.Ascending TreeEntry.name entries) (name : Bytes) (target : ObjectName) :
    named TreeEntry.name (put_entry ⟨name, .tree, target, 0, 0⟩ entries) name = some ⟨name, .tree, target, 0, 0⟩ := by
  rw [named_put_entry ascending, if_pos rfl]

theorem last_further {name last : Bytes} {rest : List Bytes} (further : rest ≠ []) (ends : (name :: rest).getLast? = some last) :
    rest.getLast? = some last := by
  obtain ⟨next, rest, rfl⟩ := List.exists_cons_of_ne_nil further
  rwa [List.getLast?_cons_cons] at ends

theorem Revised.resolves {path : List Bytes} {entries : List TreeEntry} {root : ObjectName} {last : Bytes}
    (revised : Revised old new params entry path entries root) (ascending : Routing.Ascending TreeEntry.name entries)
    (enough : LEVELS ≤ nodes) (ends : path.getLast? = some last) :
    resolve_from new nodes root path =
      (entry.map fun entry => { entry with name := last }).elim (.error (.notFound "path does not exist")) .ok := by
  induction revised with
  | @here name entries root made =>
    obtain rfl : name = last := by simpa using ends
    rw [made.resolves enough]
    have found := @named_revise entry entries ascending name name
    rw [if_pos rfl] at found
    cases entry with
    | none => exact resolve_in_missing found []
    | some entry => exact resolve_in_last found
  | inner found tree lists inside made ih =>
    rw [made.resolves enough, resolve_in_below (named_way ascending _ _) rfl inside.nonempty]
    exact ih lists.lists.2 (last_further inside.nonempty ends)
  | created missing sets inside made ih =>
    rw [made.resolves enough, resolve_in_below (named_way ascending _ _) rfl inside.nonempty]
    exact ih List.Pairwise.nil (last_further inside.nonempty ends)
  | absent missing removes made =>
    subst removes
    rw [made.resolves enough, resolve_in_missing missing]
    rfl

theorem Revised.elsewhere {path other : List Bytes} {entries : List TreeEntry} {root : ObjectName}
    (revised : Revised old new params entry path entries root) (ascending : Routing.Ascending TreeEntry.name entries)
    (rooted : Rooted old params entries) (within : old.Within new) (enough : LEVELS ≤ nodes) (above : ¬ other <+: path)
    (below : ¬ path <+: other) : resolve_from new nodes root other = resolve_in old nodes entries other := by
  induction revised generalizing other with
  | @here name entries root made =>
    cases other with
    | nil => exact absurd List.nil_prefix above
    | cons first other =>
      have differs : name ≠ first := by rintro rfl; exact below (List.prefix_append [name] other)
      rw [made.resolves enough]
      exact resolve_in_later rooted within enough (by rw [named_revise ascending, if_neg differs]) other
  | @inner name rest entries inner child rebuilt root found tree lists inside made ih =>
    cases other with
    | nil => exact absurd List.nil_prefix above
    | cons first other =>
      rw [made.resolves enough]
      by_cases same : name = first
      next =>
        subst same
        rw [List.cons_prefix_cons] at above below
        have further : other ≠ [] := by rintro rfl; exact above ⟨rfl, List.nil_prefix⟩
        rw [resolve_in_below (named_way ascending _ _) rfl further, resolve_in_below found tree further, lists.resolves enough]
        obtain ⟨_, built⟩ := rooted child (named_some found).1 tree
        obtain ⟨inner', lists', rooted'⟩ := built.rooted
        exact ih lists.lists.2 (lists.unique lists' ▸ rooted') (fun higher => above ⟨rfl, higher⟩) fun under => below ⟨rfl, under⟩
      next => exact resolve_in_later rooted within enough (by rw [named_put_entry ascending, if_neg same]) other
  | @created name rest entries rebuilt root missing sets inside made ih =>
    cases other with
    | nil => exact absurd List.nil_prefix above
    | cons first other =>
      rw [made.resolves enough]
      by_cases same : name = first
      next =>
        subst same
        rw [List.cons_prefix_cons] at above below
        have further : other ≠ [] := by rintro rfl; exact above ⟨rfl, List.nil_prefix⟩
        rw [resolve_in_below (named_way ascending _ _) rfl further, resolve_in_missing missing,
          ih List.Pairwise.nil (fun _ impossible => by cases impossible) (fun higher => above ⟨rfl, higher⟩) fun under => below ⟨rfl, under⟩]
        obtain ⟨next, other, rfl⟩ := List.exists_cons_of_ne_nil further
        exact resolve_in_missing rfl other
      next => exact resolve_in_later rooted within enough (by rw [named_put_entry ascending, if_neg same]) other
  | absent missing removes made =>
    cases other with
    | nil => exact absurd List.nil_prefix above
    | cons first other =>
      rw [made.resolves enough]
      exact resolve_in_later rooted within enough rfl other

/-- On the way there are directories: where there were, and wherever something is set. -/
theorem Revised.way {path other : List Bytes} {entries : List TreeEntry} {root : ObjectName}
    (revised : Revised old new params entry path entries root) (ascending : Routing.Ascending TreeEntry.name entries)
    (enough : LEVELS ≤ nodes) (above : other <+: path) (proper : other ≠ path) (nonempty : other ≠ [])
    (there : entry ≠ none ∨ ∃ found, resolve_in old nodes entries other = .ok found) :
    ∃ directory, resolve_from new nodes root other = .ok directory ∧ directory.kind = .tree := by
  obtain ⟨first, other, rfl⟩ := List.exists_cons_of_ne_nil nonempty
  induction revised generalizing first other with
  | @here name entries root made =>
    obtain ⟨rfl, rest⟩ := List.cons_prefix_cons.mp above
    exact absurd (congrArg (first :: ·) (List.prefix_nil.mp rest)) proper
  | @inner name rest entries inner child rebuilt root found tree lists inside made ih =>
    obtain ⟨rfl, higher⟩ := List.cons_prefix_cons.mp above
    rw [made.resolves enough]
    cases other with
    | nil => exact ⟨_, resolve_in_last (named_way ascending _ _), rfl⟩
    | cons next other =>
      rw [resolve_in_below (named_way ascending _ _) rfl (List.cons_ne_nil _ _)]
      rw [resolve_in_below found tree (List.cons_ne_nil _ _), lists.resolves enough] at there
      exact ih lists.lists.2 next other higher (fun same => proper (congrArg (first :: ·) same)) (List.cons_ne_nil _ _) there
  | @created name rest entries rebuilt root missing sets inside made ih =>
    obtain ⟨rfl, higher⟩ := List.cons_prefix_cons.mp above
    rw [made.resolves enough]
    cases other with
    | nil => exact ⟨_, resolve_in_last (named_way ascending _ _), rfl⟩
    | cons next other =>
      rw [resolve_in_below (named_way ascending _ _) rfl (List.cons_ne_nil _ _)]
      exact ih List.Pairwise.nil next other higher (fun same => proper (congrArg (first :: ·) same)) (List.cons_ne_nil _ _) (.inl sets)
  | absent missing removes made =>
    obtain ⟨rfl, -⟩ := List.cons_prefix_cons.mp above
    obtain ⟨found, resolved⟩ := there.resolve_left (not_not_intro removes)
    rw [resolve_in_missing missing] at resolved
    cases resolved

/-! ## The directory map of a revised directory -/

theorem Makes.built {entries : List TreeEntry} {root : ObjectName} {given : Option (List Bytes)}
    (makes : Makes store params entries root)
    (inside : ∀ entry ∈ entries, entry.kind = .tree → given ≠ some [entry.name] →
      ∃ depth, Built store params (beneath entry.name given) depth entry.target) : ∃ depth, Built store params given depth root := by
  have together : ∃ depth, ∀ entry ∈ entries, entry.kind = .tree → given ≠ some [entry.name] →
      Built store params (beneath entry.name given) depth entry.target := by
    clear makes
    induction entries with
    | nil => exact ⟨0, fun _ impossible => by cases impossible⟩
    | cons first entries ih =>
      obtain ⟨here, others⟩ := List.forall_mem_cons.mp inside
      obtain ⟨depth, rest⟩ := ih others
      by_cases tree : first.kind = .tree ∧ given ≠ some [first.name]
      next =>
        obtain ⟨deep, built⟩ := here tree.1 tree.2
        refine ⟨max deep depth, List.forall_mem_cons.mpr ⟨fun _ _ => built.deeper (le_max_left _ _), ?_⟩⟩
        exact fun entry member tree free => (rest entry member tree free).deeper (le_max_right _ _)
      next => exact ⟨depth, List.forall_mem_cons.mpr ⟨fun kind free => absurd ⟨kind, free⟩ tree, rest⟩⟩
  obtain ⟨depth, below⟩ := together
  obtain ⟨emitted, made, held⟩ := makes
  exact ⟨depth + 1, .directory made held below⟩

/-- A revised directory is built, but for a directory set in it as it is. -/
theorem Revised.built {path : List Bytes} {entries : List TreeEntry} {root : ObjectName} {given : Option (List Bytes)}
    (revised : Revised old new params entry path entries root) (rooted : Rooted old params entries) (within : old.Within new)
    (set : given = some path ∨ given = none ∧ ∀ set, entry = some set → set.kind = .tree → ∃ depth, Built new params none depth set.target) :
    ∃ depth, Built new params given depth root := by
  have grown {entries : List TreeEntry} (rooted : Rooted old params entries) (other : TreeEntry) (member : other ∈ entries)
      (tree : other.kind = .tree) (given : Option (List Bytes)) : ∃ depth, Built new params given depth other.target := by
    obtain ⟨depth, built⟩ := rooted other member tree
    exact ⟨depth, (built.grow within).given⟩
  have onward {given : Option (List Bytes)} {name : Bytes} {rest : List Bytes} {built : Prop}
      (set : given = some (name :: rest) ∨ given = none ∧ built) :
      beneath name given = some rest ∨ beneath name given = none ∧ built := by
    rcases set with rfl | ⟨rfl, whole⟩
    next => exact .inl (if_pos rfl)
    next => exact .inr ⟨rfl, whole⟩
  induction revised generalizing given with
  | @here name entries root made =>
    refine made.built fun other member tree free => ?_
    cases entry with
    | none => exact grown rooted other (List.mem_of_mem_filter member) tree _
    | some entry =>
      rcases mem_put_entry member with rfl | old
      next =>
        rcases set with rfl | ⟨rfl, whole⟩
        next => exact absurd rfl free
        next => exact whole entry rfl tree
      next => exact grown rooted other old tree _
  | @inner name rest entries inner child rebuilt root found tree lists inside made ih =>
    refine made.built fun other member kind free => ?_
    rcases mem_put_entry member with rfl | old
    next =>
      obtain ⟨_, built⟩ := rooted child (named_some found).1 tree
      obtain ⟨inner', lists', rooted'⟩ := built.rooted
      exact ih (lists.unique lists' ▸ rooted') (onward set)
    next => exact grown rooted other old kind _
  | created missing sets inside made ih =>
    refine made.built fun other member kind free => ?_
    rcases mem_put_entry member with rfl | old
    next => exact ih (fun _ impossible => by cases impossible) (onward set)
    next => exact grown rooted other old kind _
  | absent missing removes made => exact made.built fun other member tree _ => grown rooted other member tree _

/-- What is there once the entry is, at the path from it. -/
def placed (store : Objects blake3) (given : Option (List Bytes)) (entry : TreeEntry) (rest : List Bytes) : Option Content :=
  if entry.kind = .tree ∧ given = none then
    if rest = [] then some .directory else content_at store none entry.target rest
  else if rest = [] then some (.entry entry) else none

/-- The map, with the path set or removed. What is set has directories on the way to it. -/
def edited_map (store : Objects blake3) (given : Option (List Bytes)) (path : List Bytes) (entry : Option TreeEntry)
    (map : List Bytes → Option Content) (other : List Bytes) : Option Content :=
  if path <+: other then entry.bind fun entry => placed store given entry (other.drop path.length)
  else if entry ≠ none ∧ other ≠ [] ∧ other <+: path then some .directory
  else map other

theorem content_in_later {entries others : List TreeEntry} {component : Bytes} {given : Option (List Bytes)}
    (rooted : Rooted old params entries) (within : old.Within new)
    (same : named TreeEntry.name others component = named TreeEntry.name entries component)
    (free : given ≠ some [component]) (plain : beneath component given = none) (path : List Bytes) :
    content_in new given others (component :: path) = content_in old none entries (component :: path) := by
  rw [content_in, content_in, same]
  refine Option.bind_congr fun entry found => ?_
  obtain ⟨member, rfl⟩ := named_some found
  by_cases last : path = []
  next =>
    rw [if_pos last, if_pos last, Content.of, Content.of]
    simp only [free, ne_eq, not_false_eq_true, reduceCtorEq, and_true]
  next =>
    rw [if_neg last, if_neg last]
    simp only [free, ne_eq, not_false_eq_true, reduceCtorEq, and_true]
    split_ifs with tree
    next =>
      obtain ⟨_, built⟩ := rooted entry member tree
      rw [plain, built.content_later within]
      rfl
    next => rfl

theorem content_in_nil (given : Option (List Bytes)) (entries : List TreeEntry) : content_in store given entries [] = none := rfl

theorem content_in_missing {entries : List TreeEntry} {name : Bytes} (given : Option (List Bytes))
    (missing : named TreeEntry.name entries name = none) (path : List Bytes) : content_in store given entries (name :: path) = none := by
  rw [content_in, missing]
  rfl

theorem content_in_below {entries : List TreeEntry} {name : Bytes} {child : TreeEntry} {given : Option (List Bytes)} {path : List Bytes}
    (found : named TreeEntry.name entries name = some child) (tree : child.kind = .tree) (free : given ≠ some [name]) :
    content_in store given entries (name :: path) =
      if path = [] then some .directory else content_at store (beneath name given) child.target path := by
  have whole : child.kind = .tree ∧ given ≠ some [child.name] := ⟨tree, by rwa [(named_some found).2]⟩
  have through : child.kind = .tree ∧ given ≠ some [name] := ⟨tree, free⟩
  rw [content_in, found, Option.bind_some, Content.of, if_pos whole, if_pos through]

theorem edited_map_cons {given : Option (List Bytes)} {name : Bytes} {rest other : List Bytes} {map inner : List Bytes → Option Content}
    (set : given = some (name :: rest) ∨ given = none) (further : other ≠ []) (same : map (name :: other) = inner other) :
    edited_map store given (name :: rest) entry map (name :: other) = edited_map store (beneath name given) rest entry inner other := by
  have alike : placed store given = placed store (beneath name given) := by
    rcases set with rfl | rfl
    next =>
      funext entry other
      simp only [placed, beneath, if_true, reduceCtorEq, and_false]
    next => rfl
  simp only [edited_map, List.cons_prefix_cons, true_and, List.length_cons, List.drop_succ_cons, alike, same, ne_eq,
    List.cons_ne_nil, not_false_eq_true, further]

/-- Off the path it makes no difference what is taken at its end. -/
theorem off_path {given : Option (List Bytes)} {name first : Bytes} {rest : List Bytes}
    (set : given = some (name :: rest) ∨ given = none) (differs : name ≠ first) : given ≠ some [first] ∧ beneath first given = none := by
  rcases set with rfl | rfl
  next => exact ⟨fun same => differs (List.cons.inj (Option.some.inj same)).1, if_neg differs⟩
  next => exact ⟨nofun, rfl⟩

/-- On the path, it is the end of what is left of it. -/
theorem on_path {given : Option (List Bytes)} {name : Bytes} {rest : List Bytes} (further : rest ≠ [])
    (set : given = some (name :: rest) ∨ given = none) :
    given ≠ some [name] ∧ (beneath name given = some rest ∨ beneath name given = none) := by
  rcases set with rfl | rfl
  next => exact ⟨fun same => further (List.cons.inj (Option.some.inj same)).2, .inl (if_pos rfl)⟩
  next => exact ⟨nofun, .inr rfl⟩

theorem edited_map_away {given : Option (List Bytes)} {name first : Bytes} {rest other : List Bytes}
    {map : List Bytes → Option Content} (differs : name ≠ first) :
    edited_map store given (name :: rest) entry map (first :: other) = map (first :: other) := by
  have away : ¬ name :: rest <+: first :: other := fun under => differs (List.cons_prefix_cons.mp under).1
  have away' : ¬ first :: other <+: name :: rest := fun higher => differs (List.cons_prefix_cons.mp higher).1.symm
  rw [edited_map, if_neg away, if_neg fun way => away' way.2.2]

theorem edited_map_nil {given : Option (List Bytes)} {path : List Bytes} {map : List Bytes → Option Content} (nonempty : path ≠ []) :
    edited_map store given path entry map [] = map [] := by
  rw [edited_map, if_neg (mt List.prefix_nil.mp nonempty), if_neg fun way => way.2.1 rfl]

theorem Revised.content {path other : List Bytes} {entries : List TreeEntry} {root : ObjectName} {given : Option (List Bytes)}
    {last : Bytes} (revised : Revised old new params entry path entries root) (ascending : Routing.Ascending TreeEntry.name entries)
    (rooted : Rooted old params entries) (within : old.Within new) (ends : path.getLast? = some last)
    (set : given = some path ∨ given = none) :
    content_at new given root other =
      edited_map new given path (entry.map fun entry => { entry with name := last }) (content_in old none entries) other := by
  induction revised generalizing given other with
  | @here name entries root made =>
    rw [content_at_entries made.lists.1]
    obtain rfl : name = last := by simpa using ends
    cases other with
    | nil => rw [edited_map_nil (List.cons_ne_nil _ _)]; rfl
    | cons first other =>
      have found := @named_revise entry entries ascending name first
      by_cases same : name = first
      next =>
        subst same
        rw [if_pos rfl] at found
        have on : [name] <+: name :: other := List.prefix_append [name] other
        rw [content_in, found, edited_map, if_pos on]
        refine Option.bind_congr fun placing sets => ?_
        obtain ⟨entry, -, rfl⟩ := Option.map_eq_some_iff.mp sets
        rw [List.length_singleton, List.drop_succ_cons, List.drop_zero, placed, Content.of]
        rcases set with rfl | rfl
        next => simp
        next => by_cases tree : entry.kind = .tree <;> simp [tree, beneath]
      next =>
        rw [if_neg same] at found
        rw [edited_map_away same]
        exact content_in_later rooted within found (off_path set same).1 (off_path set same).2 other
  | @inner name rest entries inner child rebuilt root found tree lists inside made ih =>
    rw [content_at_entries made.lists.1]
    cases other with
    | nil => rw [edited_map_nil (List.cons_ne_nil _ _)]; rfl
    | cons first other =>
      by_cases same : name = first
      next =>
        subst same
        obtain ⟨free, onward⟩ := on_path inside.nonempty set
        rw [content_in_below (named_way ascending _ _) rfl free]
        have before := @content_in_below _ old entries name child none other found tree (Option.some_ne_none _).symm
        by_cases final : other = []
        next =>
          subst final
          rw [if_pos rfl] at before ⊢
          rw [edited_map, if_neg fun under => inside.nonempty (List.prefix_nil.mp (List.cons_prefix_cons.mp under).2), before, ite_self]
        next =>
          rw [if_neg final] at before ⊢
          obtain ⟨_, built⟩ := rooted child (named_some found).1 tree
          obtain ⟨inner', lists', rooted'⟩ := built.rooted
          rw [ih lists.lists.2 (lists.unique lists' ▸ rooted') (last_further inside.nonempty ends) onward]
          refine (edited_map_cons set final ?_).symm
          rw [before, ← content_at_entries lists.lists.1]
          rfl
      next =>
        rw [edited_map_away same]
        exact content_in_later rooted within (by rw [named_put_entry ascending, if_neg same]) (off_path set same).1 (off_path set same).2 other
  | @created name rest entries rebuilt root missing sets inside made ih =>
    rw [content_at_entries made.lists.1]
    cases other with
    | nil => rw [edited_map_nil (List.cons_ne_nil _ _)]; rfl
    | cons first other =>
      by_cases same : name = first
      next =>
        subst same
        obtain ⟨free, onward⟩ := on_path inside.nonempty set
        rw [content_in_below (named_way ascending _ _) rfl free]
        by_cases final : other = []
        next =>
          subst final
          have way : (entry.map fun entry => { entry with name := last }) ≠ none ∧ [name] ≠ [] ∧ [name] <+: name :: rest :=
            ⟨mt Option.map_eq_none_iff.mp sets, List.cons_ne_nil _ _, List.prefix_append [name] rest⟩
          rw [if_pos rfl, edited_map, if_neg fun under => inside.nonempty (List.prefix_nil.mp (List.cons_prefix_cons.mp under).2), if_pos way]
        next =>
          rw [if_neg final, ih List.Pairwise.nil (fun _ impossible => by cases impossible) (last_further inside.nonempty ends) onward]
          refine (edited_map_cons set final ?_).symm
          obtain ⟨next, other, rfl⟩ := List.exists_cons_of_ne_nil final
          rw [content_in_missing none missing, content_in_missing none rfl]
      next =>
        rw [edited_map_away same]
        exact content_in_later rooted within (by rw [named_put_entry ascending, if_neg same]) (off_path set same).1 (off_path set same).2 other
  | @absent name next rest entries root missing removes made =>
    rw [content_at_entries made.lists.1]
    subst removes
    cases other with
    | nil => rw [edited_map_nil (List.cons_ne_nil _ _)]; rfl
    | cons first other =>
      by_cases same : name = first
      next =>
        subst same
        have nothing : edited_map new given (name :: next :: rest) none (content_in old none entries) (name :: other) = none := by
          simp [edited_map, content_in_missing none missing]
        rw [content_in_missing given missing]
        exact nothing.symm
      next =>
        rw [edited_map_away same]
        exact content_in_later rooted within rfl (off_path set same).1 (off_path set same).2 other

/-! ## Edits -/

theorem after_nil : store.after [] = store := by
  obtain ⟨get_object, verified⟩ := store
  have same : (Objects.after ⟨get_object, verified⟩ []).get_object = get_object := by
    funext name
    simp only [Objects.after, List.find?_nil]
    split
    next message missing => exact missing.symm
    next => rfl
  generalize Objects.after ⟨get_object, verified⟩ [] = again at same
  obtain ⟨_, _⟩ := again
  cases same
  rfl

theorem edit_revises {depth : Nat} {root : ObjectName} {components : List Bytes} {result : EditResult} (enough : LEVELS ≤ nodes)
    (whole : Built store params none depth root) (edited : edit store nodes params root components entry = .ok result)
    (intact : (store.after result.written).Holds result.written) :
    ∃ entries, Makes store params entries root ∧ Rooted store params entries ∧
      Revised store (store.after result.written) params entry components entries result.tree := by
  obtain ⟨_, -, edited⟩ := Monads.except_bind_ok.mp edited
  obtain ⟨⟨tree, written⟩, ran, done⟩ := Monads.except_bind_ok.mp edited
  cases done
  obtain ⟨entries, makes, rooted⟩ := whole.rooted
  have empty : store.after [] = store := after_nil
  have revised := @apply_revises _ store nodes params components root tree entry [] written [] entries enough ran
    (empty.symm ▸ makes) (empty.symm ▸ rooted) (fun _ impossible => by cases impossible) (by simpa using intact)
  rw [empty, List.append_nil] at revised
  exact ⟨entries, makes, rooted, revised⟩

theorem resolve_path_parsed {root : ObjectName} {path : Bytes} {components : List Bytes} (parsed : parse_path path = .ok components) :
    resolve_path store nodes root path =
      if components = [] then .error (.notFound "the root of a tree is not an entry; list it instead")
      else (resolve_from store nodes root components).map fun entry => ⟨components, entry⟩ := by
  rw [resolve_path, parsed]
  change (if components = [] then _ else _) = _
  split_ifs
  next => rfl
  next => cases resolve_from store nodes root components <;> rfl

/-- The path is set, and nothing else is. -/
structure SetAt (store later : Objects blake3) (nodes : Nat) (root tree : ObjectName) (path : Bytes) (components : List Bytes)
    (entry : TreeEntry) : Prop where
  resolves : resolve_path later nodes tree path = .ok ⟨components, entry⟩
  elsewhere : ∀ other others, parse_path other = .ok others → ¬ others <+: components → ¬ components <+: others →
    resolve_path later nodes tree other = resolve_path store nodes root other
  parents : ∀ other others, parse_path other = .ok others → others ≠ [] → others <+: components → others ≠ components →
    ∃ directory, resolve_path later nodes tree other = .ok ⟨others, directory⟩ ∧ directory.kind = .tree

/-- The path is absent, and nothing else has become so. -/
structure RemovedAt (store later : Objects blake3) (nodes : Nat) (root tree : ObjectName) (path : Bytes)
    (components : List Bytes) : Prop where
  absent : resolve_path later nodes tree path = .error (.notFound "path does not exist")
  others : ∀ other others found, parse_path other = .ok others → ¬ components <+: others →
    resolve_path store nodes root other = .ok found →
      ∃ still, resolve_path later nodes tree other = .ok still ∧ (¬ others <+: components → still = found)

/-- The tree has the map, and the name that any build of the map gives. -/
structure BuiltAfresh (store : Objects blake3) (params : ShapeParams) (given : Option (List Bytes)) (tree : ObjectName)
    (map : List Bytes → Option Content) : Prop where
  built : ∃ depth, Built store params given depth tree
  content : ∀ path, content_at store given tree path = map path
  name : ∀ (scratch : Objects blake3) depth other, Built scratch params given depth other →
    (∀ path, content_at scratch given other path = map path) → tree = other

/-- One edit. An entry set for a directory is for one that is itself built. -/
inductive Edited (nodes : Nat) (params : ShapeParams) : Objects blake3 × ObjectName → Objects blake3 × ObjectName → Prop
  | set {store : Objects blake3} {root : ObjectName} {path : Bytes} {entry : TreeEntry} {result : EditResult}
    (edit : set_path store nodes params root path entry = .ok result) (intact : (store.after result.written).Holds result.written)
    (whole : entry.kind = .tree → ∃ depth, Built (store.after result.written) params none depth entry.target) :
    Edited nodes params (store, root) (store.after result.written, result.tree)
  | remove {store : Objects blake3} {root : ObjectName} {path : Bytes} {result : EditResult}
    (edit : remove_path store nodes params root path = .ok result) (intact : (store.after result.written).Holds result.written) :
    Edited nodes params (store, root) (store.after result.written, result.tree)

section Exactly

variable {depth : Nat} {root tree : ObjectName} {components : List Bytes} {last : Bytes} {given : Option (List Bytes)} {path : Bytes}
  {entries : List TreeEntry}

theorem Revised.afresh (revised : Revised store new params entry components entries tree) (makes : Makes store params entries root)
    (rooted : Rooted store params entries) (within : store.Within new) (ends : components.getLast? = some last)
    (taken : given = some components ∨
      given = none ∧ ∀ set, entry = some set → set.kind = .tree → ∃ depth, Built new params none depth set.target) :
    BuiltAfresh new params given tree (edited_map new given components (entry.map fun entry => { entry with name := last })
      (content_at store none root)) := by
  have content (path : List Bytes) : content_at new given tree path = edited_map new given components
      (entry.map fun entry => { entry with name := last }) (content_at store none root) path := by
    have lists : content_at store none root = content_in store none entries := funext (content_at_entries makes.lists.1)
    rw [lists]
    exact revised.content makes.lists.2 rooted within ends (taken.imp_right And.left)
  obtain ⟨depth, built⟩ := revised.built rooted within taken
  refine ⟨⟨depth, built⟩, content, fun scratch depth' other afresh same => one_map_one_name built afresh fun path => ?_⟩
  rw [content, same]

theorem Revised.set_at {entry : TreeEntry} (revised : Revised store new params (some entry) components entries tree)
    (makes : Makes store params entries root) (rooted : Rooted store params entries) (within : store.Within new)
    (enough : LEVELS ≤ nodes) (parsed : parse_path path = .ok components) (ends : components.getLast? = some last) :
    SetAt store new nodes root tree path components { entry with name := last } where
  resolves := by
    rw [resolve_path_parsed parsed, if_neg revised.nonempty, revised.resolves makes.lists.2 enough ends]
    rfl
  elsewhere other others parsed' above below := by
    rw [resolve_path_parsed parsed', resolve_path_parsed parsed',
      revised.elsewhere makes.lists.2 rooted within enough above below, makes.resolves enough]
  parents other others parsed' nonempty above proper := by
    obtain ⟨directory, resolved, kind⟩ := revised.way makes.lists.2 enough above proper nonempty (.inl (Option.some_ne_none entry))
    refine ⟨directory, ?_, kind⟩
    rw [resolve_path_parsed parsed', if_neg nonempty, resolved]
    rfl

theorem Revised.removed_at (revised : Revised store new params none components entries tree)
    (makes : Makes store params entries root) (rooted : Rooted store params entries) (within : store.Within new)
    (enough : LEVELS ≤ nodes) (parsed : parse_path path = .ok components) (ends : components.getLast? = some last) :
    RemovedAt store new nodes root tree path components where
  absent := by
    rw [resolve_path_parsed parsed, if_neg revised.nonempty, revised.resolves makes.lists.2 enough ends]
    rfl
  others other others found parsed' below resolved := by
    rw [resolve_path_parsed parsed'] at resolved
    rw [resolve_path_parsed parsed']
    by_cases nonempty : others = []
    next => rw [if_pos nonempty] at resolved; cases resolved
    next =>
      rw [if_neg nonempty] at resolved ⊢
      by_cases above : others <+: components
      next =>
        have proper : others ≠ components := by rintro rfl; exact below List.prefix_rfl
        rw [makes.resolves enough] at resolved
        obtain ⟨there, read, -⟩ : ∃ there, resolve_in store nodes entries others = .ok there ∧ ResolvedEntry.mk others there = found := by
          cases read : resolve_in store nodes entries others with
          | error error => rw [read] at resolved; cases resolved
          | ok there => rw [read] at resolved; exact ⟨there, rfl, Except.ok.inj resolved⟩
        obtain ⟨directory, still, -⟩ := revised.way makes.lists.2 enough above proper nonempty (.inr ⟨there, read⟩)
        rw [still]
        exact ⟨_, rfl, fun away => absurd above away⟩
      next =>
        rw [revised.elsewhere makes.lists.2 rooted within enough above below, ← makes.resolves enough]
        exact ⟨found, resolved, fun _ => rfl⟩

end Exactly

theorem Edited.built {before after : Objects blake3 × ObjectName} (edited : Edited nodes params before after)
    (enough : LEVELS ≤ nodes) (whole : ∃ depth, Built before.1 params none depth before.2) :
    ∃ depth, Built after.1 params none depth after.2 := by
  obtain ⟨depth, whole⟩ := whole
  cases edited with
  | set edit intact built =>
    obtain ⟨components, -, edit⟩ := Monads.except_bind_ok.mp edit
    obtain ⟨entries, makes, rooted, revised⟩ := edit_revises enough whole edit intact
    refine revised.built rooted (within_after _) (.inr ⟨rfl, fun set same => ?_⟩)
    rw [← Option.some.inj same]
    exact built
  | remove edit intact =>
    obtain ⟨components, -, edit⟩ := Monads.except_bind_ok.mp edit
    obtain ⟨entries, makes, rooted, revised⟩ := edit_revises enough whole edit intact
    exact revised.built rooted (within_after _) (.inr ⟨rfl, nofun⟩)

/-- Edits are exact, and leave no trace of the order they came in. -/
theorem edits_exact (store : Objects blake3) (nodes : Nat) (params : ShapeParams) (depth : Nat) (root : ObjectName)
    (enough : LEVELS ≤ nodes) (whole : Built store params none depth root) :
    (∀ path entry result, set_path store nodes params root path entry = .ok result →
      (store.after result.written).Holds result.written →
        ∃ components last, parse_path path = .ok components ∧ components.getLast? = some last ∧
          SetAt store (store.after result.written) nodes root result.tree path components { entry with name := last } ∧
          ∀ given, (given = some components ∨ given = none ∧
              (entry.kind = .tree → ∃ depth, Built (store.after result.written) params none depth entry.target)) →
            BuiltAfresh (store.after result.written) params given result.tree
              (edited_map (store.after result.written) given components (some { entry with name := last }) (content_at store none root))) ∧
    (∀ path result, remove_path store nodes params root path = .ok result → (store.after result.written).Holds result.written →
      ∃ components, parse_path path = .ok components ∧
        RemovedAt store (store.after result.written) nodes root result.tree path components ∧
        BuiltAfresh (store.after result.written) params none result.tree
          (edited_map (store.after result.written) none components none (content_at store none root))) ∧
    ∀ (store' : Objects blake3) (depth' : Nat) (root' : ObjectName) (first second : Objects blake3 × ObjectName),
      Built store' params none depth' root' →
      Relation.ReflTransGen (Edited nodes params) (store, root) first →
      Relation.ReflTransGen (Edited nodes params) (store', root') second →
      (∀ path, content_at first.1 none first.2 path = content_at second.1 none second.2 path) → first.2 = second.2 := by
  have last {components : List Bytes} {entry : Option TreeEntry} {result : EditResult}
      (edited : edit store nodes params root components entry = .ok result) : ∃ last, components.getLast? = some last := by
    obtain ⟨_, nonempty, -⟩ := Monads.except_bind_ok.mp edited
    exact ⟨_, List.getLast?_eq_some_getLast (ensure_ok.mp nonempty)⟩
  refine ⟨fun path entry result edited intact => ?_, fun path result edited intact => ?_, ?_⟩
  next =>
    obtain ⟨components, parsed, edited⟩ := Monads.except_bind_ok.mp edited
    obtain ⟨entries, makes, rooted, revised⟩ := edit_revises enough whole edited intact
    obtain ⟨last, ends⟩ := last edited
    refine ⟨components, last, parsed, ends, revised.set_at makes rooted (within_after _) enough parsed ends, fun given taken => ?_⟩
    refine revised.afresh makes rooted (within_after _) ends (taken.imp_right fun ⟨nowhere, built⟩ => ⟨nowhere, fun set same => ?_⟩)
    rw [← Option.some.inj same]
    exact built
  next =>
    obtain ⟨components, parsed, edited⟩ := Monads.except_bind_ok.mp edited
    obtain ⟨entries, makes, rooted, revised⟩ := edit_revises enough whole edited intact
    obtain ⟨last, ends⟩ := last edited
    exact ⟨components, parsed, revised.removed_at makes rooted (within_after _) enough parsed ends,
      revised.afresh makes rooted (within_after _) ends (.inr ⟨rfl, nofun⟩)⟩
  next =>
    intro store' depth' root' first second whole' one other same
    have kept {before after : Objects blake3 × ObjectName} (edits : Relation.ReflTransGen (Edited nodes params) before after)
        (whole : ∃ depth, Built before.1 params none depth before.2) : ∃ depth, Built after.1 params none depth after.2 := by
      induction edits with
      | refl => exact whole
      | tail _ edit ih => exact edit.built enough ih
    obtain ⟨_, built⟩ := kept one ⟨depth, whole⟩
    obtain ⟨_, built'⟩ := kept other ⟨depth', whole'⟩
    exact one_map_one_name built built' same

set_option maxRecDepth 4000 in
/-- An empty directory set in an empty one, and removed again. -/
theorem edits_exact_directory :
    let written : List (ObjectName × Bytes) := [(onlyDName, Layout.object onlyD)]
    let emptied : List (ObjectName × Bytes) := [(emptyDirectoryName, Layout.object emptyDirectory)]
    SetAt emptyDirectories (emptyDirectories.after written) LEVELS emptyDirectoryName onlyDName [0x64] [[0x64]]
        (directoryEntry [0x64] emptyDirectoryName) ∧
      RemovedAt emptyDirectories (emptyDirectories.after emptied) LEVELS onlyDName emptyDirectoryName [0x64] [[0x64]] ∧
      Edited LEVELS PRODUCTION_SHAPE (emptyDirectories, onlyDName) (emptyDirectories.after emptied, emptyDirectoryName) := by
  intro written emptied
  have setting : set_path emptyDirectories LEVELS PRODUCTION_SHAPE emptyDirectoryName [0x64]
      (directoryEntry [] emptyDirectoryName) = .ok ⟨onlyDName, written⟩ := by decide
  have removing : remove_path emptyDirectories LEVELS PRODUCTION_SHAPE onlyDName [0x64] = .ok ⟨emptyDirectoryName, emptied⟩ := by
    decide
  have kept : (emptyDirectories.after written).Holds written := by
    unfold Objects.Holds
    decide
  have kept' : (emptyDirectories.after emptied).Holds emptied := by
    unfold Objects.Holds
    decide
  obtain ⟨sets, -, -⟩ := edits_exact emptyDirectories LEVELS PRODUCTION_SHAPE 1 emptyDirectoryName (le_refl _) emptyDirectory_built
  obtain ⟨-, removes, -⟩ := edits_exact emptyDirectories LEVELS PRODUCTION_SHAPE 2 onlyDName (le_refl _) onlyD_built
  obtain ⟨components, last, parsed, ends, set, -⟩ := sets [0x64] _ _ setting kept
  obtain ⟨components', parsed', removed, -⟩ := removes [0x64] _ removing kept'
  have path : parse_path [0x64] = .ok [[0x64]] := by decide
  rw [path] at parsed parsed'
  cases parsed
  cases parsed'
  cases ends
  exact ⟨set, removed, .remove removing kept'⟩

end LedgerVcs
