import LedgerVcs.Oci.Ingest

set_option autoImplicit false

/-! Adding images to versions. -/

namespace LedgerVcs

open Align (named)
open Text (PyStr lit)
open Wire (Bytes)

namespace Oci

/-! ## The service -/

section Service

variable (images : ImageIngester) (spelled : images.ingester.corpus.Spelled images.ingester.blake3) (depth : Nat)

/-- The store, as it is now. -/
def store : Importing (Objects images.ingester.blake3) := Failing.ofStep fun state => (.ok (state.world.objects spelled), state)

/-- `_apply`, for an entry to set, on the store itself. -/
def apply_edit : (components : List Bytes) → (tree : ObjectName) → (entry : TreeEntry) → (written : List PutOutcome) →
    Importing (ObjectName × List PutOutcome)
  | [], _, _, _ => throw (.assertionError "unreachable")
  | name :: rest, tree, entry, written => do
    let store ← store images spelled
    let listing ← liftExcept (iter_entries store depth tree none).collect
    let existing := by_name listing
    if rest = [] then
      -- the path names the entry
      let replacement := { entry with name }
      -- exactly this already
      if named TreeEntry.name existing name = some replacement then return (tree, written)
      else build_tree images.ingester (put_entry replacement existing) written
    else
      match named TreeEntry.name existing name with
      | none => do
        -- a directory is made on the way
        let (subtree, written) ← build_tree images.ingester [] written
        let (rebuilt, written) ← apply_edit rest subtree entry written
        build_tree images.ingester (put_entry ⟨name, .tree, rebuilt, 0, 0⟩ existing) written
      | some child =>
        if child.kind ≠ .tree then throw (.invalidRequest "path traverses a file")
        else do
          let (rebuilt, written) ← apply_edit rest child.target entry written
          if rebuilt = child.target then return (tree, written)
          else build_tree images.ingester (put_entry ⟨name, .tree, rebuilt, 0, 0⟩ existing) written

/-- `set_path` -/
def set_entry (root : ObjectName) (path : PyStr) (entry : TreeEntry) : Importing (ObjectName × List PutOutcome) := do
  let raw ← liftExcept (encode_name path)
  let components ← liftExcept (parse_path raw)
  liftExcept (ensure (components ≠ []) (.invalidRequest "the root of a tree is not an entry; it cannot be set or removed"))
  apply_edit images spelled depth components root entry []

/-- `_root_tree`, for the tree of the current commit -/
def root_tree : (current : Option ObjectName) → Importing ObjectName
  | some tree => return tree
  | none => do
    let (tree, _) ← build_tree images.ingester [] []
    return tree

/-- `build`, in `ImageService.add`, up to where the image is stored, and its rows are recorded -/
def ingest_image (files : Files) (image : PyStr) (wanted : Platform) (from_image : Option PyStr) (current : Option ObjectName) :
    Importing (ObjectName × IngestedImage) := do
  let root ← root_tree images current
  let source ← liftExcept (open_image_source images.python files images.sha256)
  let ingested ← images.ingest source image wanted from_image
  -- only now, so a row never has a name that was not written
  Importing.digests fun index => ingested.digest_entries.foldlM (fun index row => index.record row.1 row.2) index
  return (root, ingested)

/-- `build` -/
def add_image (files : Files) (image : PyStr) (wanted : Platform) (from_image : Option PyStr) (current : Option ObjectName) :
    Importing (ObjectName × IngestStats × IngestedImage) := do
  let (root, ingested) ← ingest_image images files image wanted from_image current
  let store ← store images spelled
  let existing ← liftExcept (read_layout images.python store depth root)
  let (entry, layout_stats, written) ← build_images_entry images.ingester (existing.index.with_image image ingested.descriptor)
    (existing.blob_entries ++ ingested.blob_entries)
  let (tree, edited) ← set_entry images spelled depth root IMAGES_DIR entry
  return (tree, (ingested.stats.add layout_stats).add (.counting (written ++ edited)), ingested)

end Service

/-! ## Names of blobs -/

section Names

variable {listing : List TreeEntry}

theorem by_name_onward (existing : List TreeEntry) (ascending : Routing.Ascending TreeEntry.name existing) (listing : List TreeEntry) :
    (∀ entry ∈ listing.foldl (fun existing entry => put_entry entry existing) existing, entry ∈ existing ∨ entry ∈ listing) ∧
      ∀ name, (∃ entry, named TreeEntry.name existing name = some entry) ∨ (∃ entry ∈ listing, entry.name = name) →
        ∃ entry, named TreeEntry.name (listing.foldl (fun existing entry => put_entry entry existing) existing) name = some entry := by
  induction listing generalizing existing with
  | nil =>
    refine ⟨fun entry member => .inl member, fun name found => ?_⟩
    rcases found with there | ⟨entry, impossible, -⟩
    next => exact there
    next => cases impossible
  | cons first listing ih =>
    obtain ⟨members, finds⟩ := ih (put_entry first existing) (put_entry_ascending ascending first)
    refine ⟨fun entry member => ?_, fun name found => finds name ?_⟩
    next =>
      rcases members entry member with there | later
      next => exact (mem_put_entry there).elim (fun same => .inr (same ▸ List.mem_cons_self)) .inl
      next => exact .inr (List.mem_cons_of_mem _ later)
    next =>
      rw [named_put_entry ascending]
      -- an entry that is put takes the name of one that was there
      rcases found with ⟨entry, there⟩ | ⟨entry, member, same⟩
      next =>
        left
        split_ifs
        next => exact ⟨first, rfl⟩
        next => exact ⟨entry, there⟩
      next =>
        rcases List.mem_cons.mp member with rfl | later
        next => exact .inl ⟨entry, if_pos same⟩
        next => exact .inr ⟨entry, later, same⟩

theorem mem_by_name {entry : TreeEntry} (member : entry ∈ by_name listing) : entry ∈ listing :=
  ((by_name_onward [] .nil listing).1 entry member).resolve_left List.not_mem_nil

/-- Of the entries of one name, there is one left. -/
theorem named_by_name {entry : TreeEntry} (member : entry ∈ listing) :
    ∃ left, named TreeEntry.name (by_name listing) entry.name = some left :=
  (by_name_onward [] .nil listing).2 entry.name (.inr ⟨entry, member, rfl⟩)

end Names

/-- No two files of different contents have one digest. -/
def Unconfused {blake3 : Blake3} (sha256 : Sha256) (store : Objects blake3) : Prop :=
  ∀ name content other content', Filed store name content → Filed store other content' → sha256.digest content = sha256.digest content' →
    content = content'

section Listed

variable {blake3 : Blake3} {sha256 : Sha256} {store later : Objects blake3} {listing blobs : List TreeEntry} {digest : Digest}
  {content : Bytes}

theorem Unconfused.within (unconfused : Unconfused sha256 later) (within : store.Within later) : Unconfused sha256 store :=
  fun name content other content' filed filed' same => unconfused name content other content' (filed.within within) (filed'.within within) same

/-- Under the digest, the entries have a file of the content. -/
def Listed (sha256 : Sha256) (store : Objects blake3) (blobs : List TreeEntry) (digest : Digest) (content : Bytes) : Prop :=
  ∃ entry, named TreeEntry.name blobs (ascii digest.encoded) = some entry ∧ FileOf sha256 store digest content entry

theorem Listed.within (listed : Listed sha256 store blobs digest content) (within : store.Within later) :
    Listed sha256 later blobs digest content := by
  obtain ⟨entry, found, file⟩ := listed
  exact ⟨entry, found, file.within within⟩

/-- The name of an entry tells the digest. -/
theorem same_digest {other : Digest} (valid : Digest.Valid digest) (valid' : Digest.Valid other)
    (same : ascii digest.encoded = ascii other.encoded) : digest = other := by
  have read := decode_ascii fun point member => ((valid_plain valid).1 point member).1
  rw [same, decode_ascii fun point member => ((valid_plain valid').1 point member).1] at read
  have algorithm : digest.algorithm = other.algorithm := valid.1.trans valid'.1.symm
  have encoded : other.encoded = digest.encoded := Option.some.inj read
  cases digest
  cases other
  exact congrArg₂ Digest.mk algorithm encoded.symm

/-- Whichever entry is left under the digest has the content. -/
theorem listed_by_name (unconfused : Unconfused sha256 store)
    (honest : ∀ entry ∈ listing, ∃ digest content, FileOf sha256 store digest content entry)
    {entry : TreeEntry} (member : entry ∈ listing) (file : FileOf sha256 store digest content entry) :
    Listed sha256 store (by_name listing) digest content := by
  obtain ⟨left, found⟩ := named_by_name member
  obtain ⟨there, name⟩ := named_some found
  obtain ⟨other, content', file'⟩ := honest left (mem_by_name there)
  obtain ⟨valid, spells, target, rfl, filed⟩ := file
  obtain ⟨valid', spells', target', rfl, filed'⟩ := file'
  obtain rfl := same_digest valid' valid name
  obtain rfl := unconfused _ _ _ _ filed filed' (Option.some.inj (spells.symm.trans spells'))
  exact ⟨_, found, valid, spells, target', rfl, filed'⟩

end Listed

/-! ## What an edit of the images leaves -/

section Editing

variable {images : ImageIngester} {spelled : images.ingester.corpus.Spelled images.ingester.blake3} {state after : ImportState}
  {depth : Nat}

theorem adding_store : Adding (store images spelled) := fun _ => Failing.triple_step fun _ extends_ => extends_

theorem adding_edit (components : List Bytes) (tree : ObjectName) (entry : TreeEntry) (written : List PutOutcome) :
    Adding (apply_edit images spelled depth components tree entry written) := by
  induction components generalizing tree written with
  | nil => exact fun _ => Failing.triple_throw fun _ extends_ => extends_
  | cons name rest ih =>
    rw [apply_edit]
    refine adding_store.bind fun _ => (adding_except _).bind fun listing => ?_
    split
    next =>
      dsimp only
      split
      next => exact adding_pure _
      next => exact adding_build _ _
    next =>
      dsimp only
      split
      next => exact (adding_build _ _).bind fun _ => (ih _ _).bind fun _ => adding_build _ _
      next =>
        split
        next => exact fun _ => Failing.triple_throw fun _ extends_ => extends_
        next =>
          refine (ih _ _).bind fun rebuilt => ?_
          split
          next => exact adding_pure _
          next => exact adding_build _ _

theorem adding_set (root : ObjectName) (path : PyStr) (entry : TreeEntry) : Adding (set_entry images spelled depth root path entry) :=
  (adding_except _).bind fun _ => (adding_except _).bind fun _ => (adding_except _).bind fun _ => adding_edit _ _ _ _

theorem adding_root (current : Option ObjectName) : Adding (root_tree images current) := by
  cases current with
  | some tree => exact adding_pure tree
  | none => exact (adding_build _ _).bind fun _ => adding_pure _

theorem images_parsed : encode_name IMAGES_DIR = .ok (ascii IMAGES_DIR) ∧ parse_path (ascii IMAGES_DIR) = .ok [ascii IMAGES_DIR] :=
  @path_parsed [IMAGES_DIR] (by simp) (by
    simp only [List.forall_mem_cons]
    exact ⟨images_component, fun _ impossible => by cases impossible⟩)

theorem Rooting.unique {root : ObjectName} {first second : Option TreeEntry} {blake3 : Blake3} {objects : Objects blake3}
    {params : ShapeParams}
    (rooting : Rooting objects params root first) (again : Rooting objects params root second) : first = second := by
  obtain ⟨entries, makes, found⟩ := rooting.entries
  obtain ⟨others, makes', found'⟩ := again.entries
  rw [← found, ← found', makes.unique makes']

/-- The root has few enough levels for any depth that is deep enough. -/
theorem set_entry_ran {root : ObjectName} {entries : List TreeEntry} (deep : LEVELS ≤ depth)
    (makes : Makes (state.world.objects spelled) images.ingester.shape_params entries root) (entry : TreeEntry) :
    (set_entry images spelled depth root IMAGES_DIR entry).exec state =
      (if named TreeEntry.name entries (ascii IMAGES_DIR) = some { entry with name := ascii IMAGES_DIR } then pure (root, [])
        else build_tree images.ingester (put_entry { entry with name := ascii IMAGES_DIR } entries) []).exec state := by
  obtain ⟨emitted, built, held⟩ := makes
  obtain ⟨-, -, -, -, lists, ascending, -, -⟩ := built_reads built held deep
  -- the path has one component, so no other directory is read
  have edits : (apply_edit images spelled depth [ascii IMAGES_DIR] root entry []).exec state =
      (if named TreeEntry.name entries (ascii IMAGES_DIR) = some { entry with name := ascii IMAGES_DIR } then pure (root, [])
        else build_tree images.ingester (put_entry { entry with name := ascii IMAGES_DIR } entries) []).exec state := by
    rw [apply_edit, Failing.exec_bind, store, Failing.exec_ofStep]
    dsimp only
    rw [lists, Gen.collect_of, Failing.exec_bind, Failing.exec_liftExcept]
    dsimp only
    rw [by_name_ascending ascending, if_pos rfl]
  rw [set_entry, images_parsed.1, Failing.exec_bind, Failing.exec_liftExcept]
  dsimp only
  rw [images_parsed.2, Failing.exec_bind, Failing.exec_liftExcept]
  exact edits

/-- The new root has the entry. -/
theorem set_images {root tree target : ObjectName} {old : Option TreeEntry} {written : List PutOutcome} (deep : LEVELS ≤ depth)
    (rooting : Rooting (state.world.objects spelled) images.ingester.shape_params root old)
    (ran : (set_entry images spelled depth root IMAGES_DIR (tree_entry IMAGES_DIR target)).exec state = (.ok (tree, written), after)) :
    Rooting (after.world.objects spelled) images.ingester.shape_params tree (some (tree_entry IMAGES_DIR target)) := by
  obtain ⟨entries, makes, -⟩ := rooting.entries
  obtain ⟨emitted, built, held⟩ := id makes
  obtain ⟨-, -, -, -, -, ascending, -, -⟩ := built_reads built held deep
  rw [set_entry_ran deep makes] at ran
  split at ran
  next same =>
    cases ran
    exact ⟨entries, makes, same⟩
  next =>
    refine ⟨_, tree_made spelled ran, ?_⟩
    rw [named_put_entry ascending]
    exact if_pos rfl

end Editing

/-! ## What adding an image keeps -/

section Keeping

variable {images : ImageIngester} (spelled : images.ingester.corpus.Spelled images.ingester.blake3) {start state after : ImportState}

/-- What was read is still read, and the rows of the digest index are right. -/
structure Fine (start state : ImportState) : Prop where
  within : (start.world.objects spelled).Within (state.world.objects spelled)
  indexed : Indexed spelled state

theorem Fine.extends_ (fine : Fine spelled start state) (extends_ : Extends state after) : Fine spelled start after :=
  ⟨fine.within.trans (extends_.within spelled), fine.indexed.extends_ spelled extends_⟩

theorem Fine.refl (indexed : Indexed spelled state) : Fine spelled state state := ⟨fun _ _ read => read, indexed⟩

theorem adding_fine {α : Type} {act : Importing α} (adding : Adding act) :
    Failing.Triple (Fine spelled start) act (fun _ => Fine spelled start) (Fine spelled start) := by
  intro state fine
  rcases ran : act.exec state with ⟨error | value, later⟩ <;> exact fine.extends_ spelled (adding.ran ran)

theorem rows_recorded {rows : List (PyStr × DigestRow)} {index recorded : DigestIndex}
    (records : rows.foldlM (fun index row => index.record row.1 row.2) index = .ok recorded) :
    ∀ key row, recorded[key]? = some row → index[key]? = some row ∨ ∃ entry ∈ rows, Text.fromhex entry.1 = some key ∧ entry.2 = row := by
  induction rows generalizing index with
  | nil =>
    cases records
    exact fun key row found => .inl found
  | cons entry rows ih =>
    rw [List.foldlM_cons] at records
    obtain ⟨middle, first, rest⟩ := Monads.except_bind_ok.mp records
    intro key row found
    rcases ih rest key row found with there | ⟨other, member, spells, same⟩
    next =>
      rw [DigestIndex.record] at first
      split at first
      next own spells =>
        obtain rfl := Except.ok.inj first
        rw [Std.ExtTreeMap.getElem?_insert] at there
        split at there
        next same =>
          obtain rfl := Std.LawfulEqOrd.compare_eq_iff_eq.mp same
          exact .inr ⟨entry, List.mem_cons_self, spells, Option.some.inj there⟩
        next => exact .inl there
      next => cases first
    next => exact .inr ⟨other, List.mem_cons_of_mem _ member, spells, same⟩

theorem record_fine {ingested : IngestedImage} :
    Failing.Triple (fun state => Fine spelled start state ∧ Ingested spelled state ingested)
      (Importing.digests fun index => ingested.digest_entries.foldlM (fun index row => index.record row.1 row.2) index)
      (fun _ state => Fine spelled start state ∧ Ingested spelled state ingested) (Fine spelled start) := by
  intro state met
  rw [Importing.digests, Failing.exec_ofStep]
  cases records : ingested.digest_entries.foldlM (fun index row => index.record row.1 row.2) state.digests with
  | error error => exact met.1
  | ok recorded =>
    obtain ⟨fine, tidy, digest, size, honest, manifest, pullable, rows⟩ := met
    refine ⟨⟨fine.within, fun key row found => ?_⟩, tidy, digest, size, honest, manifest, pullable, rows⟩
    rcases rows_recorded records key row found with there | ⟨entry, member, spells, rfl⟩
    next => exact fine.indexed key row there
    next =>
      obtain ⟨own, spells', held⟩ := rows entry member
      cases spells.symm.trans spells'
      exact held

theorem ingest_fine {files : Files} {source : ImageSource} (opened : open_image_source images.python files images.sha256 = .ok source)
    (image : PyStr) (wanted : Platform) (from_image : Option PyStr) :
    Failing.Triple (Fine spelled start) (images.ingest source image wanted from_image)
      (fun ingested state => Fine spelled start state ∧ Ingested spelled state ingested) (Fine spelled start) := by
  intro state fine
  rcases ran : (images.ingest source image wanted from_image).exec state with ⟨error | ingested, later⟩
  next => exact fine.extends_ spelled ((adding_ingest _ _ _ _).ran ran)
  next =>
    exact ⟨fine.extends_ spelled ((adding_ingest _ _ _ _).ran ran),
      image_ingested spelled fine.indexed (fun _ selects _ given => selected_parses opened selects given) ran⟩

theorem ingested_fine (files : Files) (image : PyStr) (wanted : Platform) (from_image : Option PyStr) (current : Option ObjectName) :
    Failing.Triple (Fine spelled start) (ingest_image images files image wanted from_image current)
      (fun made state => Fine spelled start state ∧ Ingested spelled state made.2) (Fine spelled start) := by
  refine Failing.triple_bind (adding_fine spelled (adding_root current)) fun root => ?_
  refine Failing.triple_bind (Failing.triple_except fun _ fine => fine) fun source => Failing.triple_fact fun opened => ?_
  refine Failing.triple_bind (ingest_fine spelled opened image wanted from_image) fun ingested => ?_
  exact Failing.triple_bind (record_fine spelled) fun _ => Failing.triple_pure fun _ met => met

/-- Whether an image is added or not. -/
theorem add_fine (depth : Nat) (files : Files) (image : PyStr) (wanted : Platform) (from_image : Option PyStr)
    (current : Option ObjectName) :
    Failing.Triple (Fine spelled start) (add_image images spelled depth files image wanted from_image current)
      (fun _ => Fine spelled start) (Fine spelled start) := by
  refine Failing.triple_bind (Failing.triple_mono (ingested_fine spelled files image wanted from_image current) (fun _ met => met)
    (fun _ _ met => met.1) fun _ met => met) fun made => ?_
  refine adding_fine spelled (adding_store.bind fun objects => (adding_except _).bind fun existing => ?_)
  exact (adding_images_entry _ _).bind fun made => (adding_set _ _ _).bind fun edited => adding_pure _

/-- The same of one run, whatever it came to. -/
theorem add_ran {depth : Nat} {files : Files} {image : PyStr} {wanted : Platform} {from_image : Option PyStr}
    {current : Option ObjectName} {outcome : Except PyError (ObjectName × IngestStats × IngestedImage)} (indexed : Indexed spelled state)
    (ran : (add_image images spelled depth files image wanted from_image current).exec state = (outcome, after)) :
    Fine spelled state after := by
  have met := add_fine spelled depth files image wanted from_image current state (Fine.refl spelled indexed)
  rw [ran] at met
  cases outcome <;> exact met

section Added

variable {depth : Nat} {files : Files} {image : PyStr} {wanted : Platform} {from_image : Option PyStr} {current : Option ObjectName}
  {root tree : ObjectName} {stats : IngestStats} {ingested : IngestedImage}

/-- The root is what it was, or that of an empty tree. -/
theorem root_made (ran : (ingest_image images files image wanted from_image current).exec state = (.ok (root, ingested), after)) :
    current = some root ∨ current = none ∧ Makes (after.world.objects spelled) images.ingester.shape_params [] root := by
  obtain ⟨made, state₁, roots, rest₁⟩ := Failing.exec_bind_ok.mp ran
  obtain ⟨source, state₂, opens, rest₂⟩ := Failing.exec_bind_ok.mp rest₁
  obtain ⟨-, rfl⟩ := except_ran.mp opens
  obtain ⟨stored, state₃, ingests, rest₃⟩ := Failing.exec_bind_ok.mp rest₂
  obtain ⟨_, state₄, records, rest₄⟩ := Failing.exec_bind_ok.mp rest₃
  cases rest₄
  cases current with
  | some current =>
    cases roots
    exact .inl rfl
  | none =>
    obtain ⟨⟨empty, outcomes⟩, state₀, built, returned⟩ := Failing.exec_bind_ok.mp roots
    cases returned
    have later := (adding_ingest source image wanted from_image).ran ingests
    have same : after.world = state₃.world := by
      rw [Importing.digests, Failing.exec_ofStep] at records
      split at records
      next => rw [← (Prod.mk.inj records).2]
      next => cases records
    refine .inr ⟨rfl, ?_⟩
    rw [same]
    exact (tree_made spelled built).grow (later.within spelled)

/-- What adding an image went through. -/
theorem image_added (ran : (add_image images spelled depth files image wanted from_image current).exec state = (.ok (tree, stats, ingested), after)) :
    ∃ root middle, (ingest_image images files image wanted from_image current).exec state = (.ok (root, ingested), middle) ∧
      ∃ existing entry layout_stats written later edited,
        read_layout images.python (middle.world.objects spelled) depth root = .ok existing ∧
        (build_images_entry images.ingester (existing.index.with_image image ingested.descriptor)
          (existing.blob_entries ++ ingested.blob_entries)).exec middle = (.ok (entry, layout_stats, written), later) ∧
        (set_entry images spelled depth root IMAGES_DIR entry).exec later = (.ok (tree, edited), after) := by
  obtain ⟨⟨root, made⟩, middle, ingests, rest₁⟩ := Failing.exec_bind_ok.mp ran
  obtain ⟨objects, state₂, stores, rest₂⟩ := Failing.exec_bind_ok.mp rest₁
  cases stores
  obtain ⟨existing, state₃, reads, rest₃⟩ := Failing.exec_bind_ok.mp rest₂
  obtain ⟨read, rfl⟩ := except_ran.mp reads
  obtain ⟨⟨entry, layout_stats, written⟩, later, builds, rest₄⟩ := Failing.exec_bind_ok.mp rest₃
  obtain ⟨⟨rebuilt, edited⟩, last, sets, rest₅⟩ := Failing.exec_bind_ok.mp rest₄
  cases rest₅
  exact ⟨root, _, ingests, existing, entry, layout_stats, written, later, edited, read, builds, sets⟩

/-- What adding an image comes to does not depend on the depth, once it is enough for the layout there was. -/
theorem added_deeper {middle : ImportState} {existing : ImageLayout} {entries : List TreeEntry} {enough depth deeper : Nat}
    (ingests : (ingest_image images files image wanted from_image current).exec state = (.ok (root, ingested), middle))
    (makes : Makes (middle.world.objects spelled) images.ingester.shape_params entries root)
    (reads : ∀ depth, enough ≤ depth → read_layout images.python (middle.world.objects spelled) depth root = .ok existing)
    (levels : LEVELS ≤ enough) (deep : enough ≤ depth) (more : enough ≤ deeper) :
    (add_image images spelled depth files image wanted from_image current).exec state =
      (add_image images spelled deeper files image wanted from_image current).exec state := by
  -- the first part has no depth
  have rest (depth : Nat) (deep : enough ≤ depth) : (add_image images spelled depth files image wanted from_image current).exec state =
      (do
        let (entry, layout_stats, written) ← build_images_entry images.ingester (existing.index.with_image image ingested.descriptor)
          (existing.blob_entries ++ ingested.blob_entries)
        let (tree, edited) ← set_entry images spelled depth root IMAGES_DIR entry
        return (tree, (ingested.stats.add layout_stats).add (.counting (written ++ edited)), ingested) :
          Importing (ObjectName × IngestStats × IngestedImage)).exec middle := by
    rw [add_image, Failing.exec_bind, ingests]
    dsimp only
    rw [Failing.exec_bind, store, Failing.exec_ofStep]
    dsimp only
    rw [reads depth deep, Failing.exec_bind, Failing.exec_liftExcept]
  rw [rest depth deep, rest deeper more, Failing.exec_bind, Failing.exec_bind]
  rcases built : (build_images_entry images.ingester (existing.index.with_image image ingested.descriptor)
    (existing.blob_entries ++ ingested.blob_entries)).exec middle with ⟨error | ⟨entry, layout_stats, written⟩, later⟩
  next => rfl
  next =>
    have there := makes.grow (((adding_images_entry _ _).ran built).within spelled)
    dsimp only
    rw [Failing.exec_bind, Failing.exec_bind, set_entry_ran (le_trans levels deep) there, set_entry_ran (le_trans levels more) there]

/-- Where there was no version, any depth that is enough for a tree is. -/
theorem added_anew {depth deeper : Nat} (deep : LEVELS ≤ depth) (more : LEVELS ≤ deeper)
    (ran : (add_image images spelled depth files image wanted from_image none).exec state = (.ok (tree, stats, ingested), after)) :
    (add_image images spelled deeper files image wanted from_image none).exec state = (.ok (tree, stats, ingested), after) := by
  obtain ⟨root, middle, ingests, -⟩ := image_added spelled ran
  rcases root_made spelled ingests with impossible | ⟨-, makes⟩
  next => cases impossible
  next =>
    have reads (depth : Nat) (deep : LEVELS ≤ depth) :
        read_layout images.python (middle.world.objects spelled) depth root = .ok ⟨.empty, []⟩ := by
      obtain ⟨reads, lists⟩ := @empty_read _ _ _ _ images.python ⟨[], makes, rfl⟩ depth deep
      simp only [read_layout, reads, lists, bind, Except.bind]
      rfl
    rw [added_deeper spelled ingests makes reads le_rfl more deep]
    exact ran

end Added

end Keeping

end Oci

end LedgerVcs
