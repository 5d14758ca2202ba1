import LedgerVcs.Meta.Log
import LedgerVcs.Migrate.Importer
import LedgerVcs.Runtime.Checkout

set_option autoImplicit false

/-! What an import leaves of a git tree. -/

namespace LedgerVcs

open Wire (Bytes)
open Text (PyStr lit)

/-- What every name stands for, stored or not. -/
def Corpus.objects (corpus : Corpus) {blake3 : Blake3} (spelled : corpus.Spelled blake3) : Objects blake3 where
  get_object name :=
    match corpus.content name with
    | some object => .ok object
    | .none => .error (.objectNotFound "object is not present in the store")
  verified {name object} read := by
    cases content : corpus.content name with
    | none => rw [content] at read; cases read
    | some other =>
      rw [content] at read
      exact spelled.reads (content.trans (congrArg some (Except.ok.inj read)))

theorem Corpus.objects_ok {corpus : Corpus} {blake3 : Blake3} {spelled : corpus.Spelled blake3} {name : ObjectName} {object : LedgerObject} :
    (corpus.objects spelled).get_object name = .ok object ↔ corpus.content name = some object := by
  simp only [Corpus.objects]
  cases corpus.content name <;> simp

/-! ## What can be converted -/

namespace Git

variable (git : Git)

/-- Neither a submodule nor an LFS pointer. -/
def Supported (entry : GitEntry) : Prop :=
  entry.mode ≠ .submodule ∧ (entry.mode ≠ .directory → ∀ content, git.object entry.id = some (.blob content) → ¬ LFS_MAGIC <+: content)

/-- So is everything in the tree, down to a depth. -/
def Whole : (depth : Nat) → Bytes → Prop
  | 0, _ => True
  | depth + 1, id => ∀ entries, git.object id = some (.tree entries) →
      ∀ entry ∈ entries, git.Supported entry ∧ (entry.mode = .directory → Whole depth entry.id)

def Complete (id : Bytes) : Prop := ∀ depth, git.Whole depth id

section Trees

variable {blake3 : Blake3} (store : Objects blake3)

open Classical in
/-- The Ledger tree has just the entries of the git tree that the predicate takes, and so down to a depth. -/
def Converted (taken : GitEntry → Prop) : (depth : Nat) → (id : Bytes) → ObjectName → Prop
  | 0, _, _ => True
  | depth + 1, id, name => ∃ entries tree converted, git.object id = some (.tree entries) ∧ store.Directory name tree ∧
      Routing.Ascending TreeEntry.name tree.items ∧ tree.items.Perm converted ∧
      List.Forall₂ (fun (entry : GitEntry) (made : TreeEntry) => made.name = c_quote entry.name ∧
        (entry.mode = .directory → made.kind = .tree ∧ Converted taken depth entry.id made.target))
        (entries.filter fun entry => taken entry) converted

/-- No entry is left out, at any depth. -/
def Faithful (id : Bytes) (name : ObjectName) : Prop := ∀ depth, git.Converted store (fun _ => True) depth id name

variable {git store}

theorem directory_unique {name : ObjectName} {tree other : Rose Int Bytes TreeEntry} (first : store.Directory name tree)
    (second : store.Directory name other) : tree.items = other.items := by
  have lists : iter_entries store (max tree.height other.height + 1) name none = .of tree.items := (first.iter_entries (by omega)).1
  have lists' : iter_entries store (max tree.height other.height + 1) name none = .of other.items := (second.iter_entries (by omega)).1
  exact Gen.of_inj.mp (lists.symm.trans lists')

theorem related {α β : Type} {R : α → β → Prop} {left : List α} {right : List β} (all : List.Forall₂ R left right) {first : α}
    (member : first ∈ left) : ∃ second ∈ right, R first second := by
  induction all with
  | nil => cases member
  | @cons own other left right here rest ih =>
    rcases List.mem_cons.mp member with rfl | later
    next => exact ⟨other, List.mem_cons_self, here⟩
    next =>
      obtain ⟨second, there, holds⟩ := ih later
      exact ⟨second, List.mem_cons_of_mem _ there, holds⟩

theorem ascending_inj {entries : List TreeEntry} (ascending : Routing.Ascending TreeEntry.name entries) {left right : TreeEntry}
    (member : left ∈ entries) (member' : right ∈ entries) (same : left.name = right.name) : left = right := by
  have found := ascending.find member
  rw [same, ascending.find member'] at found
  exact (Option.some.inj found).symm

open Classical in
theorem filter_taken {entries : List GitEntry} {taken : GitEntry → Prop} (all : ∀ entry ∈ entries, taken entry) :
    (entries.filter fun entry => taken entry) = entries :=
  List.filter_eq_self.mpr fun entry member => decide_eq_true (all entry member)

open Classical in
/-- A conversion of what can be converted leaves nothing out only where all can be. -/
theorem whole_of_faithful {depth : Nat} {id : Bytes} {name : ObjectName} (faithful : git.Converted store (fun _ => True) depth id name)
    (converted : git.Converted store git.Supported depth id name) : git.Whole depth id := by
  induction depth generalizing id name with
  | zero => trivial
  | succ depth ih =>
    obtain ⟨entries, tree, all, object, directory, ascending, same, each⟩ := faithful
    obtain ⟨entries', tree', some, object', directory', -, same', each'⟩ := converted
    cases object.symm.trans object'
    rw [directory_unique directory' directory] at same'
    rw [@filter_taken entries (fun _ => True) fun _ _ => trivial] at each
    have lengths : (entries.filter fun entry => git.Supported entry).length = entries.length := by
      rw [each'.length_eq, each.length_eq, ← same.length_eq, same'.length_eq]
    have supported := List.length_filter_eq_length_iff.mp lengths
    intro others is_tree
    cases object.symm.trans is_tree
    intro entry member
    have here : git.Supported entry := of_decide_eq_true (supported entry member)
    refine ⟨here, fun directory => ?_⟩
    obtain ⟨made, there, named, below⟩ := related each member
    obtain ⟨made', there', named', below'⟩ := related each' (List.mem_filter.mpr ⟨member, decide_eq_true here⟩)
    cases ascending_inj ascending (same.mem_iff.mpr there) (same'.mem_iff.mpr there') (named.trans named'.symm)
    exact ih (below directory).2 (below' directory).2

variable (git store)

/-- The row's object is what the git object has been converted to. -/
def RowSound (key : Bytes) (row : DigestRow) : Prop :=
  match git.object key with
  | some (.tree _) => ∀ depth, git.Converted store git.Supported depth key row.name
  | some (.blob content) => ¬ LFS_MAGIC <+: content
  | some (.commit header) => ∃ commit, store.get_object row.name = .ok (.commit commit) ∧
      ∀ root, header.tree = Text.hex root → ∀ depth, git.Converted store git.Supported depth root commit.tree
  | none => True

def Sound (index : DigestIndex) : Prop := ∀ key row, index[key]? = some row → git.RowSound store key row

/-- The tree, if it is one, can be converted whole. -/
def CompleteTree (key : Bytes) : Prop := ∀ entries, git.object key = some (.tree entries) → git.Complete key

/-- Of the trees within, only those have rows that can be converted whole. -/
structure Holds (within known : Bytes → Prop) (state : ImportState) : Prop where
  sound : git.Sound store state.digests
  clean : ∀ key row, within key → state.digests[key]? = some row → git.CompleteTree key
  present : ∀ key, known key → ∃ row, state.digests[key]? = some row

variable {git store} in
theorem Holds.less {within known fewer : Bytes → Prop} {state : ImportState} (holds : git.Holds store within known state)
    (less : ∀ key, fewer key → known key) : git.Holds store within fewer state :=
  ⟨holds.sound, holds.clean, fun key there => holds.present key (less key there)⟩

end Trees

end Git

/-! ## One import keeps it so -/

section Imports

open Failing (Triple triple_bind triple_mono triple_pure triple_except triple_throw triple_step triple_fact triple_foldlM)

variable {git : Git} {importer : GitImporter} {repository : GitRepository}
variable (spelled : importer.ingester.corpus.Spelled importer.ingester.blake3)
variable {within known : Bytes → Prop}

/-- Also when it has failed. -/
def IndexSound (spelled : importer.ingester.corpus.Spelled importer.ingester.blake3) (git : Git) (state : ImportState) : Prop :=
  git.Sound (importer.ingester.corpus.objects spelled) state.digests

abbrev Keeps (spelled : importer.ingester.corpus.Spelled importer.ingester.blake3) (git : Git) (within known : Bytes → Prop)
    (state : ImportState) : Prop := git.Holds (importer.ingester.corpus.objects spelled) within known state

theorem ledger_keeps {α : Type} (act : Act α) : Triple (Keeps spelled git within known) (importer.ledger act)
    (fun value state => Keeps spelled git within known state ∧ ∃ before after, runs importer.ingester.corpus act before = (.ok value, after))
    (IndexSound spelled git) := by
  intro state holds
  rw [GitImporter.ledger, Importing.ledger, Failing.exec_ofStep]
  cases ran : runs importer.ingester.corpus act state.world with
  | mk outcome after =>
    cases outcome with
    | error error => exact holds.sound
    | ok value => exact ⟨⟨holds.sound, holds.clean, holds.present⟩, state.world, after, ran⟩

theorem lookup_hex (index : DigestIndex) (key : Bytes) : index.lookup (Text.hex key) = index[key]? := by
  rw [DigestIndex.lookup, Text.fromhex_hex, Option.bind_some]

theorem confirmed_keeps (key : Bytes) : Triple (Keeps spelled git within known) (importer.confirmed (Text.hex key))
    (fun hit state => Keeps spelled git within known state ∧ ∀ row, hit = some row →
      git.RowSound (importer.ingester.corpus.objects spelled) key row ∧ (within key → git.CompleteTree key))
    (IndexSound spelled git) := by
  have looked : Triple (Keeps spelled git within known) (GitImporter.lookup (Text.hex key))
      (fun hit state => Keeps spelled git within known state ∧ ∀ row, hit = some row →
        git.RowSound (importer.ingester.corpus.objects spelled) key row ∧ (within key → git.CompleteTree key))
      (IndexSound spelled git) := by
    refine triple_step fun state holds => ⟨holds, fun row found => ?_⟩
    rw [lookup_hex] at found
    exact ⟨holds.sound key row found, fun inside => holds.clean key row inside found⟩
  rw [GitImporter.confirmed]
  refine triple_bind looked fun hit => ?_
  cases hit with
  | none => exact triple_pure fun state met => ⟨met.1, fun row impossible => by cases impossible⟩
  | some hit =>
    have stored (sound : git.RowSound (importer.ingester.corpus.objects spelled) key hit ∧ (within key → git.CompleteTree key)) :
        Triple (Keeps spelled git within known)
          (do let absent ← importer.ledger (missing [hit.name]); return if absent = ∅ then some hit else none)
          (fun hit state => Keeps spelled git within known state ∧ ∀ row, hit = some row →
            git.RowSound (importer.ingester.corpus.objects spelled) key row ∧ (within key → git.CompleteTree key))
          (IndexSound spelled git) := by
      refine triple_bind (ledger_keeps spelled (missing [hit.name])) fun absent => triple_pure fun later still => ⟨still.1, fun row same => ?_⟩
      split at same
      next => exact Option.some.inj same ▸ sound
      next => cases same
    exact fun state met => stored (met.2 hit rfl) state met.1

theorem remember_keeps {key : Bytes} {name : ObjectName} {size : Nat}
    (sound : git.RowSound (importer.ingester.corpus.objects spelled) key ⟨name, size⟩) (clean : within key → git.CompleteTree key) :
    Triple (Keeps spelled git within known) (GitImporter.remember (Text.hex key) name size)
      (fun _ => Keeps spelled git within fun other => known other ∨ other = key) (IndexSound spelled git) := by
  intro state holds
  rw [GitImporter.remember, Importing.digests, Failing.exec_ofStep]
  simp only [DigestIndex.record, Text.fromhex_hex]
  have rows (other : Bytes) : (state.digests.insert key ⟨name, size⟩)[other]? = if key = other then some ⟨name, size⟩ else state.digests[other]? := by
    rw [Std.ExtTreeMap.getElem?_insert]
    simp only [Std.LawfulEqOrd.compare_eq_iff_eq]
  refine ⟨fun other row found => ?_, fun other row inside found => ?_, fun other there => ?_⟩
  all_goals dsimp only at *
  next =>
    rw [rows] at found
    split at found
    next same => exact same ▸ Option.some.inj found ▸ sound
    next => exact holds.sound other row found
  next =>
    rw [rows] at found
    split at found
    next same => exact same ▸ clean (same ▸ inside)
    next => exact holds.clean other row inside found
  next =>
    rw [rows]
    split
    next => exact ⟨_, rfl⟩
    next different => exact holds.present other (there.resolve_right fun same => different same.symm)

/-! ### Entries -/

/-- Converts a tree as far as it can be, and whole if it is one of those within. -/
def ConvertsTree (spelled : importer.ingester.corpus.Spelled importer.ingester.blake3) (git : Git) (within : Bytes → Prop)
    (convert_tree : PyStr → PyStr → ImportReport → Importing (ObjectName × ImportReport)) : Prop :=
  ∀ known key start report, (∃ entries, git.object key = some (.tree entries)) →
    Triple (Keeps spelled git within known) (convert_tree (Text.hex key) start report)
      (fun result state => Keeps spelled git within known state ∧
        (∀ depth, git.Converted (importer.ingester.corpus.objects spelled) git.Supported depth key result.1) ∧
        (within key → git.Complete key))
      (IndexSound spelled git)

/-- What an entry can be converted to. -/
def EntryMade (spelled : importer.ingester.corpus.Spelled importer.ingester.blake3) (git : Git) (entry : GitEntry) (made : TreeEntry) : Prop :=
  made.name = c_quote entry.name ∧ (entry.mode = .directory → made.kind = .tree ∧
    ∀ depth, git.Converted (importer.ingester.corpus.objects spelled) git.Supported depth entry.id made.target)

/-- What comes of one entry. -/
structure EntryOutcome (spelled : importer.ingester.corpus.Spelled importer.ingester.blake3) (git : Git) (inside : Prop) (entry : GitEntry)
    (made : Option TreeEntry) : Prop where
  kept : made.isSome ↔ git.Supported entry
  made : ∀ result, made = some result → EntryMade spelled git entry result
  whole : inside → git.Supported entry ∧ (entry.mode = .directory → git.Complete entry.id)

theorem mode_submodule {entry : GitEntry} : (listed_item entry).mode = MODE_SUBMODULE ↔ entry.mode = .submodule := by
  obtain ⟨mode, _, _, _, _⟩ := entry
  change mode.octal = _ ↔ mode = _
  cases mode <;> decide

theorem mode_directory {entry : GitEntry} : (listed_item entry).mode = MODE_DIRECTORY ↔ entry.mode = .directory := by
  obtain ⟨mode, _, _, _, _⟩ := entry
  change mode.octal = _ ↔ mode = _
  cases mode <;> decide

theorem encode_listed (entry : GitEntry) : encode_name (listed_item entry).name = .ok (c_quote entry.name) := by
  rw [encode_name, listed_name]

theorem blob_entry_name (item : TreeItem) (encoded : Bytes) (name : ObjectName) (size : Nat) : (blob_entry item encoded name size).name = encoded := by
  rw [blob_entry]
  split <;> rfl

/-- An entry for a file or a symlink, of known content or new. -/
theorem file_outcome {inside : Prop} {entry : GitEntry} (file : entry.mode ≠ .submodule ∧ entry.mode ≠ .directory)
    (plain : ∀ content, git.object entry.id = some (.blob content) → ¬ LFS_MAGIC <+: content) (name : ObjectName) (size : Nat) :
    EntryOutcome spelled git inside entry (some (blob_entry (listed_item entry) (c_quote entry.name) name size)) := by
  have supported : git.Supported entry := ⟨file.1, fun _ => plain⟩
  refine ⟨iff_of_true rfl supported, fun result same => ?_, fun _ => ⟨supported, fun directory => absurd directory file.2⟩⟩
  cases same
  exact ⟨blob_entry_name _ _ _ _, fun directory => absurd directory file.2⟩

theorem refused_outcome {inside : Prop} (strict : inside → importer.skip_unsupported = false) {entry : GitEntry} (unsupported : ¬ git.Supported entry)
    {report refused : ImportReport} {path : PyStr} {reason : Unsupported} {detail : PyStr}
    (taken : importer.refuse report path reason detail = .ok refused) : EntryOutcome spelled git inside entry none := by
  refine ⟨iff_of_false (by decide) unsupported, fun result same => (by cases same), fun within => ?_⟩
  rw [GitImporter.refuse, strict within] at taken
  cases taken

theorem read_blob_ok {sha : PyStr} {content : Bytes} {id : Bytes} (is_sha : sha = Text.hex id) (read : repository.read_blob git sha = .ok content) :
    git.object id = some (.blob content) := by
  simp only [GitRepository.read_blob, Monads.except_bind_ok] at read
  obtain ⟨object, found, same⟩ := read
  rw [GitRepository.read_object, is_sha, Text.fromhex_hex, Option.bind_some] at found
  cases stored : (if repository.holds id then git.object id else none) with
  | none => rw [stored] at found; cases found
  | some other =>
    rw [stored] at found
    cases found
    cases object <;> cases same
    split_ifs at stored
    exact stored

theorem entry_keeps {convert_tree : PyStr → PyStr → ImportReport → Importing (ObjectName × ImportReport)}
    (converts : ConvertsTree spelled git within convert_tree) (strict : ∀ key, within key → importer.skip_unsupported = false)
    (closed : ∀ id entries, within id → git.object id = some (.tree entries) → ∀ entry ∈ entries, entry.mode = .directory → within entry.id)
    {id : Bytes} {entries : List GitEntry} (object : git.object id = some (.tree entries)) {entry : GitEntry} (member : entry ∈ entries)
    (path : PyStr) (report : ImportReport) :
    Triple (Keeps spelled git within known) (importer.convert_entry git repository convert_tree (listed_item entry) path report)
      (fun result state => Keeps spelled git within known state ∧ EntryOutcome spelled git (within id) entry result.1) (IndexSound spelled git) := by
  have sound : ∀ state, Keeps spelled git within known state → IndexSound spelled git state := fun _ holds => holds.sound
  rw [GitImporter.convert_entry]
  by_cases submodule : entry.mode = .submodule
  next =>
    rw [if_pos (mode_submodule.mpr submodule)]
    refine triple_bind (triple_except sound) fun refused => ?_
    exact triple_pure fun state met => ⟨met.1, refused_outcome spelled (strict id) (fun supported => supported.1 submodule) met.2⟩
  next =>
  rw [if_neg fun same => submodule (mode_submodule.mp same)]
  by_cases directory : entry.mode = .directory
  next =>
    rw [if_pos (mode_directory.mpr directory)]
    refine triple_bind (converts known entry.id (path ++ lit "/") report (git.below id entries object entry member directory)) fun result => ?_
    obtain ⟨subtree, report⟩ := result
    refine triple_bind (triple_except fun state met => met.1.sound) fun encoded => ?_
    refine triple_pure fun state met => ?_
    obtain ⟨⟨holds, converted, complete⟩, taken⟩ := met
    rw [encode_listed] at taken
    cases taken
    have supported : git.Supported entry := ⟨submodule, fun other => absurd directory other⟩
    refine ⟨holds, iff_of_true rfl supported, fun result same => ?_, fun inside =>
      ⟨supported, fun _ => complete (closed id entries inside object entry member directory)⟩⟩
    cases same
    exact ⟨rfl, fun _ => ⟨rfl, converted⟩⟩
  next =>
    rw [if_neg fun same => directory (mode_directory.mp same)]
    refine triple_bind (confirmed_keeps spelled entry.id) fun hit => ?_
    cases hit with
    | some known =>
      refine triple_bind (triple_except fun state met => met.1.sound) fun encoded => ?_
      refine triple_pure fun state met => ?_
      obtain ⟨⟨holds, row⟩, taken⟩ := met
      rw [encode_listed] at taken
      cases taken
      refine ⟨holds, file_outcome spelled ⟨submodule, directory⟩ (fun content stored => ?_) known.name known.size⟩
      have sound := (row known rfl).1
      rwa [Git.RowSound, stored] at sound
    | none =>
      refine triple_fact fun _ => triple_bind (triple_except sound) fun content => ?_
      by_cases pointer : LFS_MAGIC <+: content
      next =>
        rw [if_pos pointer]
        refine triple_bind (triple_except fun state met => met.1.sound) fun refused => ?_
        refine triple_pure fun state met => ?_
        obtain ⟨⟨holds, read⟩, taken⟩ := met
        have stored := read_blob_ok rfl read
        exact ⟨holds, refused_outcome spelled (strict id) (fun supported => supported.2 directory content stored pointer) taken⟩
      next =>
        rw [if_neg pointer]
        refine triple_fact fun read => triple_bind (ledger_keeps spelled (importer.ingester.ingest_bytes content)) fun ingested => ?_
        obtain ⟨name, converted⟩ := ingested
        have stored := read_blob_ok rfl read
        have sound : git.RowSound (importer.ingester.corpus.objects spelled) entry.id ⟨name, content.length⟩ := by
          rw [Git.RowSound, stored]
          exact pointer
        have blob : git.CompleteTree entry.id := fun entries tree => by rw [stored] at tree; cases tree
        refine triple_fact fun _ => triple_bind (remember_keeps spelled sound fun _ => blob) fun _ => ?_
        refine triple_bind (triple_except fun state met => met.sound) fun encoded => ?_
        refine triple_pure fun state met => ?_
        obtain ⟨holds, taken⟩ := met
        rw [encode_listed] at taken
        cases taken
        refine ⟨holds.less fun key there => .inl there, file_outcome spelled ⟨submodule, directory⟩ (fun other same => ?_) name content.length⟩
        cases stored.symm.trans same
        exact pointer

open Classical in
theorem items_keep {convert_tree : PyStr → PyStr → ImportReport → Importing (ObjectName × ImportReport)}
    (converts : ConvertsTree spelled git within convert_tree) (strict : ∀ key, within key → importer.skip_unsupported = false)
    (closed : ∀ id entries, within id → git.object id = some (.tree entries) → ∀ entry ∈ entries, entry.mode = .directory → within entry.id)
    {id : Bytes} {entries : List GitEntry} (object : git.object id = some (.tree entries)) (start : PyStr) (report : ImportReport) :
    Triple (Keeps spelled git within known) (importer.convert_items git repository convert_tree (entries.map listed_item) start report)
      (fun result state => Keeps spelled git within known state ∧
        (List.Forall₂ (EntryMade spelled git) (entries.filter fun entry => git.Supported entry) result.1 ∧
          (within id → ∀ entry ∈ entries, git.Supported entry ∧ (entry.mode = .directory → git.Complete entry.id))))
      (IndexSound spelled git) := by
  let invariant (done : List GitEntry) (so_far : List TreeEntry × ImportReport) (state : ImportState) : Prop :=
    Keeps spelled git within known state ∧
      (List.Forall₂ (EntryMade spelled git) (done.filter fun entry => git.Supported entry) so_far.1 ∧
        (within id → ∀ entry ∈ done, git.Supported entry ∧ (entry.mode = .directory → git.Complete entry.id)))
  rw [GitImporter.convert_items, List.foldlM_map]
  refine triple_mono (@triple_foldlM _ _ _ _ _ _ invariant entries ([], report) (fun done entry so_far member => ?_) [])
    (fun state holds => ⟨holds, .nil, fun _ _ none => absurd none List.not_mem_nil⟩) (fun value state met => met) (fun state sound => sound)
  refine triple_fact fun gathered => triple_bind (entry_keeps spelled converts strict closed object member _ so_far.2) fun result => ?_
  obtain ⟨converted, report⟩ := result
  refine triple_fact fun outcome => triple_pure fun state holds => ⟨holds, ?_, fun inside other there => ?_⟩
  next =>
    rw [List.filter_append]
    refine List.rel_append gathered.1 ?_
    cases converted with
    | none =>
      have unsupported : ¬ git.Supported entry := fun supported => by cases outcome.kept.mpr supported
      rw [List.filter_cons_of_neg (by simpa using unsupported)]
      exact .nil
    | some made =>
      have supported : git.Supported entry := outcome.kept.mp rfl
      rw [List.filter_cons_of_pos (by simpa using supported)]
      exact .cons (outcome.made made rfl) .nil
  next =>
    rcases List.mem_append.mp there with before | last
    next => exact gathered.2 inside other before
    next => exact List.mem_singleton.mp last ▸ outcome.whole inside

/-! ### Trees -/

theorem listed_entries {key : Bytes} {entries : List GitEntry} (object : git.object key = some (.tree entries)) {items : List TreeItem}
    (lists : repository.list_tree git (Text.hex key) = .ok items) : items = entries.map listed_item := by
  rw [GitRepository.list_tree] at lists
  by_cases empty : Text.hex key = GIT_EMPTY_TREE
  next =>
    have none := git.empty key (by rw [← empty, Text.fromhex_hex])
    cases object.symm.trans none
    rw [list_tree, if_pos empty] at lists
    exact (Except.ok.inj lists).symm
  next =>
    have run : repository.run_ls_tree git (Text.hex key) = .ok (ls_tree entries) ∨
        ∃ error, repository.run_ls_tree git (Text.hex key) = .error error := by
      rw [GitRepository.run_ls_tree, GitRepository.read_object, Text.fromhex_hex, Option.bind_some]
      split_ifs
      next => rw [object]; exact .inl rfl
      next => exact .inr ⟨_, rfl⟩
    rcases run with run | ⟨error, run⟩
    next =>
      rw [run, list_tree_listed fun same => absurd same empty] at lists
      exact (Except.ok.inj lists).symm
    next =>
      rw [run, list_tree, if_neg empty] at lists
      cases lists

/-- What a tree that has been built lists. -/
theorem built_converted {entries : List TreeEntry} {name : ObjectName} {stats : IngestStats} {before after : World}
    (built : runs importer.ingester.corpus (Storing.build_tree importer.ingester.corpus IngestStats.record importer.ingester.blake3 entries
      importer.ingester.shape_params .none) before = (.ok (name, stats), after)) :
    ∃ tree, (importer.ingester.corpus.objects spelled).Directory name tree ∧ Routing.Ascending TreeEntry.name tree.items ∧ tree.items = entries := by
  have returned : Storing.Returns importer.ingester.corpus (Storing.build_tree importer.ingester.corpus IngestStats.record
    importer.ingester.blake3 entries importer.ingester.shape_params) (IngestStats.none, before) name (stats, after) := built
  obtain ⟨added, -, emits, -, -, -, stocks⟩ := Storing.build_tree_emits spelled _ _ _ _ _ returned
  have held : (importer.ingester.corpus.objects spelled).Holds added := by
    intro pair member
    obtain ⟨-, object, decoded, content⟩ := stocks pair member
    rw [decoded, Corpus.objects_ok]
    exact content
  obtain ⟨tree, directory, -, items, -, ascending, -⟩ := built_reads (emits []) held (le_refl _)
  exact ⟨tree, directory, items ▸ ascending, items⟩

theorem tree_keeps (strict : ∀ key, within key → importer.skip_unsupported = false)
    (closed : ∀ id entries, within id → git.object id = some (.tree entries) → ∀ entry ∈ entries, entry.mode = .directory → within entry.id)
    (limit : Nat) : ConvertsTree spelled git within (importer.convert_tree git repository limit) := by
  induction limit with
  | zero => exact fun _ _ _ _ _ => triple_throw fun _ holds => holds.sound
  | succ limit ih =>
    rintro known key start report ⟨entries, object⟩
    rw [GitImporter.convert_tree, GitImporter.recalled, bind_assoc]
    refine triple_bind (confirmed_keeps spelled key) fun hit => ?_
    rw [pure_bind]
    cases hit with
    | some known =>
      refine triple_pure fun state met => ?_
      obtain ⟨sound, complete⟩ := met.2 known rfl
      rw [Git.RowSound, object] at sound
      exact ⟨met.1, sound, fun inside => complete inside entries object⟩
    | none =>
      refine triple_fact fun _ => triple_bind (triple_except fun state holds => holds.sound) fun items => ?_
      refine triple_fact fun lists => ?_
      obtain rfl := listed_entries object lists
      refine triple_bind (items_keep spelled ih strict closed object start report) fun result => ?_
      obtain ⟨made, report⟩ := result
      refine triple_fact fun gathered => triple_bind (ledger_keeps spelled _) fun result => ?_
      obtain ⟨name, stats⟩ := result
      refine triple_fact fun ⟨before, after, ran⟩ => ?_
      obtain ⟨tree, directory, ascending, items⟩ := built_converted spelled ran
      have converted : ∀ depth, git.Converted (importer.ingester.corpus.objects spelled) git.Supported depth key name := by
        rintro (_ | depth)
        next => trivial
        next =>
          refine ⟨entries, tree, made, object, directory, ascending, items ▸ List.mergeSort_perm _ _, ?_⟩
          exact gathered.1.imp fun entry made ⟨named, below⟩ => ⟨named, fun is_directory => ⟨(below is_directory).1, (below is_directory).2 depth⟩⟩
      have complete (inside : within key) : git.CompleteTree key := by
        rintro others _ (_ | depth)
        next => trivial
        next =>
          intro inner same entry member
          cases object.symm.trans same
          obtain ⟨supported, below⟩ := gathered.2 inside entry member
          exact ⟨supported, fun is_directory => below is_directory depth⟩
      have sound : git.RowSound (importer.ingester.corpus.objects spelled) key ⟨name, 0⟩ := by
        rw [Git.RowSound, object]
        exact converted
      refine triple_bind (remember_keeps spelled sound complete) fun _ => triple_pure fun state holds => ?_
      exact ⟨holds.less fun key there => .inl there, converted, fun inside => complete inside entries object⟩

/-! ### Commits -/

theorem hex_inj {left right : Bytes} (same : Text.hex left = Text.hex right) : left = right :=
  Option.some.inj (by rw [← Text.fromhex_hex, same, Text.fromhex_hex])

/-- The commit of a git object, and its tree. -/
def CommitOf (git : Git) (sha : PyStr) (id : Bytes) (header : CommitHeader) (root : Bytes) : Prop :=
  sha = Text.hex id ∧ git.object id = some (.commit header) ∧ header.tree = Text.hex root

theorem read_commit_ok {id : Bytes} {header : CommitHeader} (read : repository.read_commit git (Text.hex id) = .ok header) :
    ∃ root, CommitOf git (Text.hex id) id header root ∧ ∃ entries, git.object root = some (.tree entries) := by
  simp only [GitRepository.read_commit, Monads.except_bind_ok] at read
  obtain ⟨object, found, same⟩ := read
  rw [GitRepository.read_object, Text.fromhex_hex, Option.bind_some] at found
  cases stored : (if repository.holds id then git.object id else none) with
  | none => rw [stored] at found; cases found
  | some other =>
    rw [stored] at found
    cases found
    cases object <;> cases same
    split_ifs at stored
    obtain ⟨root, entries, tree, object⟩ := git.root id header stored
    exact ⟨root, ⟨rfl, stored, tree⟩, entries, object⟩

theorem change_id_canonical (id : Bytes) : ∀ point ∈ (GitImporter.change_id (Text.hex id)).value, Text.isLowerHex point := by
  intro point member
  rcases List.mem_append.mp member with start | padding
  next => exact Text.hex_lower id point (List.mem_of_mem_take start)
  next =>
    rw [(List.mem_replicate.mp padding).2]
    decide

theorem commit_keeps (strict : ∀ key, within key → importer.skip_unsupported = false)
    (closed : ∀ id entries, within id → git.object id = some (.tree entries) → ∀ entry ∈ entries, entry.mode = .directory → within entry.id)
    (limit : Nat) (id : Bytes) (translated : List (PyStr × ObjectName)) (report : ImportReport) :
    Triple (Keeps spelled git within known) (importer.convert_commit git repository limit (Text.hex id) translated report)
      (fun _ state => Keeps spelled git within (fun key => known key ∨ key = id) state ∧
        ∃ header root, CommitOf git (Text.hex id) id header root ∧ (within root → git.Complete root))
      (IndexSound spelled git) := by
  rw [GitImporter.convert_commit]
  refine triple_bind (triple_except fun state holds => holds.sound) fun header => ?_
  refine triple_fact fun read => ?_
  obtain ⟨root, commit, entries, object⟩ := read_commit_ok read
  rw [commit.2.2]
  refine triple_bind (tree_keeps spelled strict closed limit known root [] report ⟨entries, object⟩) fun result => ?_
  obtain ⟨tree, report⟩ := result
  refine triple_fact fun ⟨converted, complete⟩ => triple_bind (ledger_keeps spelled _) fun outcome => ?_
  refine triple_fact fun ⟨before, after, ran⟩ => ?_
  have named := (put_object_ran ran).1
  obtain ⟨framed, encoded, -⟩ := spelled.names named
  have content := (importer.ingester.corpus.named named).trans (read_back_canonical encoded (change_id_canonical id))
  have sound : git.RowSound (importer.ingester.corpus.objects spelled) id ⟨outcome.name, header.message.length⟩ := by
    rw [Git.RowSound, commit.2.1]
    refine ⟨_, Corpus.objects_ok.mpr content, fun other same => ?_⟩
    cases hex_inj (commit.2.2.symm.trans same)
    exact converted
  have whole : git.CompleteTree id := fun others same => by rw [commit.2.1] at same; cases same
  refine triple_bind (remember_keeps spelled sound fun _ => whole) fun _ => triple_pure fun state holds => ?_
  exact ⟨holds, header, root, commit, complete⟩

theorem commits_keep (strict : ∀ key, within key → importer.skip_unsupported = false)
    (closed : ∀ id entries, within id → git.object id = some (.tree entries) → ∀ entry ∈ entries, entry.mode = .directory → within entry.id)
    (limit : Nat) {shas : List PyStr} (ids : ∀ sha ∈ shas, ∃ id, sha = Text.hex id) (start : List (PyStr × ObjectName) × ImportReport) :
    Triple (Keeps spelled git within fun _ => False)
      (shas.foldlM (fun (so_far : List (PyStr × ObjectName) × ImportReport) sha =>
        importer.convert_commit git repository limit sha so_far.1 so_far.2) start)
      (fun _ state => Keeps spelled git within (fun key => Text.hex key ∈ shas) state ∧
        ∀ sha ∈ shas, ∃ id header root, CommitOf git sha id header root ∧ (within root → git.Complete root))
      (IndexSound spelled git) := by
  let invariant (done : List PyStr) (_ : List (PyStr × ObjectName) × ImportReport) (state : ImportState) : Prop :=
    Keeps spelled git within (fun key => Text.hex key ∈ done) state ∧
      ∀ sha ∈ done, ∃ id header root, CommitOf git sha id header root ∧ (within root → git.Complete root)
  refine triple_mono (@triple_foldlM _ _ _ _ _ _ invariant shas start (fun done sha so_far member => ?_) [])
    (fun state holds => ⟨holds.less fun key none => absurd none List.not_mem_nil, fun _ none => absurd none List.not_mem_nil⟩)
    (fun value state met => met) (fun state sound => sound)
  obtain ⟨id, rfl⟩ := ids sha member
  refine triple_fact fun gathered => triple_mono (commit_keeps spelled strict closed limit id so_far.1 so_far.2) (fun state holds => holds) ?_
    (fun state sound => sound)
  rintro value state ⟨holds, header, root, commit, complete⟩
  refine ⟨holds.less fun key there => ?_, fun sha there => ?_⟩
  next => exact (List.mem_append.mp there).imp_right fun last => hex_inj (List.mem_singleton.mp last)
  next =>
    rcases List.mem_append.mp there with before | last
    next => exact gathered sha before
    next => exact ⟨id, header, root, List.mem_singleton.mp last ▸ commit, complete⟩

/-! ### Whole imports -/

theorem import_keeps (strict : ∀ key, within key → importer.skip_unsupported = false)
    (closed : ∀ id entries, within id → git.object id = some (.tree entries) → ∀ entry ∈ entries, entry.mode = .directory → within entry.id)
    (recursion : Nat) (env : EnvId) (ref : RefName) (source_ref : PyStr) (limit : Option Int) (author : String) :
    Triple (Keeps spelled git within fun _ => False)
      (importer.import_repository git repository recursion env ref source_ref limit author)
      (fun _ state => ∃ shas, repository.rev_list source_ref limit = .ok shas ∧
        Keeps spelled git within (fun key => Text.hex key ∈ shas) state ∧
          ∀ sha ∈ shas, ∃ id header root, CommitOf git sha id header root ∧ (within root → git.Complete root))
      (IndexSound spelled git) := by
  rw [GitImporter.import_repository]
  refine triple_bind (triple_except fun state holds => holds.sound) fun shas => ?_
  refine triple_fact fun listed => ?_
  split
  next => exact triple_throw fun state holds => holds.sound
  next last _ =>
    refine triple_bind (commits_keep spelled strict closed recursion (repository.ids _ _ _ listed) _) fun result => ?_
    obtain ⟨translated, report⟩ := result
    refine triple_fact fun commits => ?_
    dsimp only
    cases List.lookup last translated with
    | none => exact triple_throw fun state holds => holds.sound
    | some head =>
      refine triple_bind (triple_except fun state holds => holds.sound) fun _ => ?_
      refine triple_fact fun _ => triple_bind (ledger_keeps spelled _) fun _ => triple_pure fun state met => ?_
      exact ⟨shas, listed, met.1, commits⟩

end Imports

/-! ## Histories -/

/-- What imports leave of the index: of any repositories, in either mode, over any state of the store, whether they fail or not. Rows
may be forgotten in between. -/
inductive ImportHistory (git : Git) (corpus : Corpus) (blake3 : Blake3) : DigestIndex → Prop
  | start : ImportHistory git corpus blake3 ∅
  | imported {digests : DigestIndex} (history : ImportHistory git corpus blake3 digests) (importer : GitImporter)
      (same_corpus : importer.ingester.corpus = corpus) (same_blake3 : importer.ingester.blake3 = blake3) (repository : GitRepository)
      (recursion : Nat) (env : EnvId) (ref : RefName) (source_ref : PyStr) (limit : Option Int) (author : String) (world : World) :
      ImportHistory git corpus blake3
        ((importer.import_repository git repository recursion env ref source_ref limit author).exec ⟨world, digests⟩).2.digests
  | forget {digests : DigestIndex} (history : ImportHistory git corpus blake3 digests) (names : List ObjectName) :
      ImportHistory git corpus blake3 (digests.forget names)

section Histories

variable {git : Git} {corpus : Corpus} {blake3 : Blake3}

theorem exec_keeps {α : Type} {pre : ImportState → Prop} {act : Importing α} {post : α → ImportState → Prop} {failed : ImportState → Prop}
    (triple : Failing.Triple pre act post failed) {state : ImportState} (holds : pre state) :
    (∃ value, (act.exec state).1 = .ok value ∧ post value (act.exec state).2) ∨ failed (act.exec state).2 := by
  have here := triple state holds
  cases ran : act.exec state with
  | mk outcome after =>
    rw [ran] at here
    cases outcome with
    | error error => exact .inr here
    | ok value => exact .inl ⟨value, rfl, here⟩

theorem ImportHistory.sound {digests : DigestIndex} (history : ImportHistory git corpus blake3 digests) (spelled : corpus.Spelled blake3) :
    git.Sound (corpus.objects spelled) digests := by
  induction history with
  | start =>
    intro key row found
    simp at found
  | @imported digests history importer same_corpus same_blake3 repository recursion env ref source_ref limit author world ih =>
    subst same_corpus same_blake3
    have holds : Keeps spelled git (fun _ => False) (fun _ => False) ⟨world, digests⟩ :=
      ⟨ih, fun _ _ none => none.elim, fun _ none => none.elim⟩
    have triple := @import_keeps git importer repository spelled (fun _ => False) (fun _ none => none.elim) (fun _ _ none => none.elim)
      recursion env ref source_ref limit author
    rcases exec_keeps triple holds with ⟨_, -, _, -, after, -⟩ | sound
    next => exact after.sound
    next => exact sound
  | @forget digests history names ih =>
    intro key row found
    refine ih key row ?_
    rw [DigestIndex.forget, Std.ExtTreeMap.getElem?_filter'] at found
    exact (Option.filter_eq_some_iff.mp found).1

/-- The index leads to a commit for it, whose tree leaves nothing out. -/
def Git.Imported (git : Git) (store : Objects blake3) (digests : DigestIndex) (sha : PyStr) : Prop :=
  ∃ id header root row commit, CommitOf git sha id header root ∧ digests[id]? = some row ∧
    store.get_object row.name = .ok (.commit commit) ∧ git.Faithful store root commit.tree

/-- A tree of one of the commits, at any depth. -/
inductive Git.Under (git : Git) (shas : List PyStr) : Bytes → Prop
  | root {sha : PyStr} {id : Bytes} {header : CommitHeader} {root : Bytes} (listed : sha ∈ shas) (commit : CommitOf git sha id header root) :
      Under git shas root
  | entry {id : Bytes} {entries : List GitEntry} {entry : GitEntry} (above : Under git shas id)
      (object : git.object id = some (.tree entries)) (member : entry ∈ entries) (directory : entry.mode = .directory) : Under git shas entry.id

theorem CommitOf.same {sha : PyStr} {id id' : Bytes} {header header' : CommitHeader} {root root' : Bytes}
    (first : CommitOf git sha id header root) (second : CommitOf git sha id' header' root') : id = id' ∧ header = header' ∧ root = root' := by
  obtain ⟨rfl, object, tree⟩ := first
  obtain ⟨same, object', tree'⟩ := second
  cases hex_inj same
  cases object.symm.trans object'
  exact ⟨rfl, rfl, hex_inj (tree.symm.trans tree')⟩

theorem Git.Under.complete {shas : List PyStr}
    (roots : ∀ sha ∈ shas, ∃ id header root, CommitOf git sha id header root ∧ git.Complete root) {id : Bytes}
    (under : git.Under shas id) : git.Complete id := by
  induction under with
  | root listed commit =>
    obtain ⟨_, _, _, commit', complete⟩ := roots _ listed
    obtain ⟨-, -, rfl⟩ := commit.same commit'
    exact complete
  | entry above object member directory ih => exact fun depth => (ih (depth + 1) _ object _ member).2 directory

/-- Nothing is missing from a tree that the index is right about. -/
theorem Git.Imported.complete {store : Objects blake3} {digests : DigestIndex} {sha : PyStr} (imported : git.Imported store digests sha)
    (sound : git.Sound store digests) : ∃ id header root, CommitOf git sha id header root ∧ git.Complete root := by
  obtain ⟨id, header, root, row, commit, of, found, stored, whole⟩ := imported
  have here := sound id row found
  rw [Git.RowSound, of.2.1] at here
  obtain ⟨made, stored', some⟩ := here
  cases stored.symm.trans stored'
  exact ⟨id, header, root, of, fun depth => Git.whole_of_faithful (whole depth) (some root of.2.2 depth)⟩

end Histories

/-! ## A strict import after a lossy one -/

end LedgerVcs
