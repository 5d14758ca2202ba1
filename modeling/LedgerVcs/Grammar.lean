import LedgerVcs.Build.World
import LedgerVcs.Lib.Glob
import LedgerVcs.Ulid

set_option autoImplicit false

/-! The sort keys of an environment's records, and the queries for their first part. -/

namespace LedgerVcs

open Text (PyStr CodePoint lit)

def HASH : CodePoint := 0x23

inductive ItemKind
  | env
  | ref
  | change
  | note
  | op
  | seq
  | session
  | session_page
  | idempotency
  | build_queue
  | build_lease
deriving DecidableEq

def ItemKind.str : ItemKind → PyStr
  | env => lit "env"
  | ref => lit "ref"
  | change => lit "chg"
  | note => lit "note"
  | op => lit "op"
  | seq => lit "seq"
  | session => lit "ws"
  | session_page => lit "wsp"
  | idempotency => lit "idem"
  | build_queue => lit "bq"
  | build_lease => lit "blease"

/-! ## Key builders -/

namespace Keys

def env_sk : PyStr := ItemKind.env.str

def ref_sk (name : RefName) : PyStr := ItemKind.ref.str ++ HASH :: lit name.value

def ref_prefix : PyStr := ItemKind.ref.str ++ [HASH]

def change_sk (change : ChangeId) : PyStr := ItemKind.change.str ++ HASH :: change.value

def note_sk (commit : ObjectName) (name_space : PyStr) : Except PyError PyStr := do
  ensure (HASH ∉ name_space ∧ name_space ≠ []) (.valueError "invalid note namespace")
  return ItemKind.note.str ++ HASH :: (commit.hex ++ HASH :: name_space)

def note_prefix : Option ObjectName → PyStr
  | none => ItemKind.note.str ++ [HASH]
  | some commit => ItemKind.note.str ++ HASH :: (commit.hex ++ [HASH])

def op_sk (sequence : Int) : Except PyError PyStr := do
  ensure (0 ≤ sequence) (.valueError s!"operation sequence must be non-negative: {sequence}")
  return ItemKind.op.str ++ HASH :: decimal (padded OP_SEQ_DIGITS sequence.toNat)

def seq_sk : PyStr := ItemKind.seq.str

def session_sk (session : SessionId) : PyStr := ItemKind.session.str ++ HASH :: lit session.value

def session_page_sk (session : SessionId) (page : Int) : Except PyError PyStr := do
  ensure (0 ≤ page) (.valueError s!"page must be non-negative: {page}")
  return ItemKind.session_page.str ++ HASH :: (lit session.value ++ HASH :: decimal (padded PAGE_DIGITS page.toNat))

def session_page_prefix (session : SessionId) : PyStr := ItemKind.session_page.str ++ HASH :: (lit session.value ++ [HASH])

def build_queue_sk (op_sequence : Int) : Except PyError PyStr := do
  ensure (0 ≤ op_sequence) (.valueError s!"operation sequence must be non-negative: {op_sequence}")
  return ItemKind.build_queue.str ++ HASH :: decimal (padded OP_SEQ_DIGITS op_sequence.toNat)

def build_queue_prefix : PyStr := ItemKind.build_queue.str ++ [HASH]

def build_lease_sk : PyStr := ItemKind.build_lease.str

def idem_sk (key : PyStr) : Except PyError PyStr := do
  ensure (¬ (key = [] ∨ HASH ∈ key)) (.valueError "invalid idempotency key")
  return ItemKind.idempotency.str ++ HASH :: key

end Keys

open Keys hiding idem_sk

/-- What a key is built from. -/
inductive Record
  | env
  | ref (name : RefName)
  | change (id : ChangeId)
  | note (commit : ObjectName) (name_space : PyStr)
  | op (sequence : Int)
  | seq
  | session (id : SessionId)
  | session_page (id : SessionId) (page : Int)
  | idempotency (key : PyStr)
  | build_queue (op_sequence : Int)
  | build_lease
deriving DecidableEq

namespace Record

def kind : Record → ItemKind
  | env => .env
  | ref _ => .ref
  | change _ => .change
  | note .. => .note
  | op _ => .op
  | seq => .seq
  | session _ => .session
  | session_page .. => .session_page
  | idempotency _ => .idempotency
  | build_queue _ => .build_queue
  | build_lease => .build_lease

def sk : Record → Except PyError PyStr
  | env => .ok env_sk
  | ref name => .ok (ref_sk name)
  | change id => .ok (change_sk id)
  | note commit name_space => note_sk commit name_space
  | op sequence => op_sk sequence
  | seq => .ok seq_sk
  | session id => .ok (session_sk id)
  | session_page id page => session_page_sk id page
  | idempotency key => Keys.idem_sk key
  | build_queue op_sequence => build_queue_sk op_sequence
  | build_lease => .ok build_lease_sk

/-- What the builder checks. -/
def Valid : Record → Prop
  | note _ name_space => HASH ∉ name_space ∧ name_space ≠ []
  | op number | session_page _ number | build_queue number => 0 ≤ number
  | idempotency key => ¬ (key = [] ∨ HASH ∈ key)
  | _ => True

/-- What follows the kind. -/
def body : Record → Option PyStr
  | env | seq | build_lease => none
  | ref name => some (lit name.value)
  | change id => some id.value
  | note commit name_space => some (commit.hex ++ HASH :: name_space)
  | op sequence => some (decimal (padded OP_SEQ_DIGITS sequence.toNat))
  | session id => some (lit id.value)
  | session_page id page => some (lit id.value ++ HASH :: decimal (padded PAGE_DIGITS page.toNat))
  | idempotency key => some key
  | build_queue op_sequence => some (decimal (padded OP_SEQ_DIGITS op_sequence.toNat))

def text (record : Record) : PyStr := record.kind.str ++ record.body.elim [] (HASH :: ·)

theorem sk_ok {record : Record} {key : PyStr} : record.sk = .ok key ↔ record.Valid ∧ key = record.text := by
  have plain (text : PyStr) : (.ok text : Except PyError PyStr) = .ok key ↔ True ∧ key = text := by
    rw [Except.ok.injEq, true_and, eq_comm]
  have checked (check : Prop) [Decidable check] (error : PyError) (text : PyStr) :
      (do ensure check error; return text : Except PyError PyStr) = .ok key ↔ check ∧ key = text := by
    simp only [Monads.except_bind_ok, ensure_ok, pure, Except.pure, Except.ok.injEq, eq_comm (a := key), exists_const]
  cases record with
  | env | seq | build_lease => exact (plain _).trans (by rw [text, body, Option.elim, List.append_nil]; rfl)
  | ref | change | session => exact plain _
  | note | op | session_page | idempotency | build_queue => exact checked _ _ _

/-! ## Kinds -/

theorem kind_clear (kind : ItemKind) : HASH ∉ kind.str := by
  cases kind <;> decide

theorem str_injective {left right : ItemKind} (same : left.str = right.str) : left = right := by
  have kinds : ∀ kind, kind ∈ ([.env, .ref, .change, .note, .op, .seq, .session, .session_page, .idempotency,
    .build_queue, .build_lease] : List ItemKind) := by
    intro kind
    cases kind <;> decide
  exact List.inj_on_of_nodup_map (f := ItemKind.str) (by decide) (kinds left) (kinds right) same

theorem partition_absent {separator : CodePoint} {text : PyStr} (clear : separator ∉ text) : Text.partition separator text = (text, []) := by
  have kept : ∀ point ∈ text, decide (point ≠ separator) = true := fun point member =>
    decide_eq_true fun same => clear (same ▸ member)
  rw [Text.partition, List.takeWhile_eq_self_iff.mpr kept, List.dropWhile_eq_nil_iff.mpr kept, List.tail_nil]

theorem partition_text (record : Record) : Text.partition HASH record.text = (record.kind.str, record.body.getD []) := by
  rw [text]
  cases record.body with
  | none =>
    change Text.partition HASH (record.kind.str ++ []) = (record.kind.str, [])
    rw [List.append_nil, partition_absent (kind_clear record.kind)]
  | some body => exact Text.partition_append body (kind_clear _)

/-- A key begins with a kind, a `#` and a text just where it is of that kind and so continues. -/
theorem begins_iff {record : Record} {kind : ItemKind} {start : PyStr} :
    kind.str ++ HASH :: start <+: record.text ↔ record.kind = kind ∧ ∃ body, record.body = some body ∧ start <+: body := by
  constructor
  next =>
    rintro ⟨rest, same⟩
    rw [List.append_assoc, List.cons_append] at same
    have parts := partition_text record
    rw [← same, Text.partition_append _ (kind_clear kind), Prod.mk.injEq] at parts
    obtain ⟨kinds, bodies⟩ := parts
    refine ⟨(str_injective kinds).symm, ?_⟩
    cases found : record.body with
    | none =>
      rw [text, found, Option.elim, List.append_nil] at same
      exact absurd (same ▸ List.mem_append_right _ List.mem_cons_self) (kind_clear record.kind)
    | some body =>
      rw [found, Option.getD_some] at bodies
      exact ⟨body, rfl, rest, bodies⟩
  next =>
    rintro ⟨rfl, body, found, rest, rfl⟩
    exact ⟨rest, by rw [text, found, Option.elim, List.append_assoc, List.cons_append]⟩

theorem lit_injective {left right : String} (same : lit left = lit right) : left = right := by
  have chars : Function.Injective Text.ofChar := fun char char' points =>
    Option.some.inj (by rw [← Text.toChar_ofChar, points, Text.toChar_ofChar])
  exact String.toList_inj.mp (List.map_injective_iff.mpr chars same)

theorem padded_small {width number digit : Nat} (member : digit ∈ padded width number) : digit < 10 := by
  rcases List.mem_append.mp member with zero | own
  next =>
    rw [(List.mem_replicate.mp zero).2]
    decide
  next => exact Nat.digits_lt_base (by decide) (List.mem_reverse.mp own)

theorem decimal_clear (width number : Nat) : HASH ∉ decimal (padded width number) := by
  intro member
  obtain ⟨digit, there, same⟩ := List.mem_map.mp member
  have small := padded_small there
  have values : (48 + digit) % 0x110000 = 35 := congrArg Fin.val same
  omega

theorem decimal_injective {width left right : Nat} (same : decimal (padded width left) = decimal (padded width right)) : left = right := by
  have read (number : Nat) : (decimal (padded width number)).map (fun point => point.val - 48) = padded width number := by
    rw [decimal, List.map_map]
    refine (List.map_congr_left fun digit member => ?_).trans (List.map_id _)
    have small := padded_small member
    change (48 + digit) % 0x110000 - 48 = digit
    omega
  exact padded_injective (by rw [← read left, same, read right])

/-- What is cut at its last `#` is cut in one way. -/
theorem last_cut {left right tail tail' : PyStr} (clear : HASH ∉ tail) (clear' : HASH ∉ tail')
    (same : left ++ HASH :: tail = right ++ HASH :: tail') : left = right ∧ tail = tail' := by
  have reversed := congrArg (fun text => Text.partition HASH text.reverse) same
  simp only [List.reverse_append, List.reverse_cons, List.append_assoc, List.singleton_append] at reversed
  rw [Text.partition_append _ (by rwa [List.mem_reverse]), Text.partition_append _ (by rwa [List.mem_reverse]), Prod.mk.injEq] at reversed
  exact ⟨List.reverse_injective reversed.2, List.reverse_injective reversed.1⟩

theorem hex_cut {commit commit' : ObjectName} {tail tail' : PyStr} (same : commit.hex ++ tail = commit'.hex ++ tail') :
    commit = commit' ∧ tail = tail' := by
  obtain ⟨digits, rest⟩ := List.append_inj same (by rw [ObjectName.length_hex, ObjectName.length_hex])
  have digests := congrArg Text.fromhex digits
  rw [ObjectName.hex, ObjectName.hex, Text.fromhex_hex, Text.fromhex_hex] at digests
  exact ⟨ObjectName.ext (Option.some.inj digests), rest⟩

theorem number_injective {width : Nat} {left right : Int} (counted : 0 ≤ left) (counted' : 0 ≤ right)
    (same : decimal (padded width left.toNat) = decimal (padded width right.toNat)) : left = right := by
  have numbers := decimal_injective same
  omega

theorem body_injective {left right : Record} (valid : left.Valid) (valid' : right.Valid) (kinds : left.kind = right.kind)
    (bodies : left.body = right.body) : left = right := by
  cases left with
  | env => cases right <;> cases kinds; rfl
  | seq => cases right <;> cases kinds; rfl
  | build_lease => cases right <;> cases kinds; rfl
  | ref name =>
    cases right <;> cases kinds
    next other => exact congrArg Record.ref (congrArg RefName.mk (lit_injective (Option.some.inj bodies)))
  | change id =>
    cases right <;> cases kinds
    next other => exact congrArg Record.change (congrArg ChangeId.mk (Option.some.inj bodies))
  | note commit name_space =>
    cases right <;> cases kinds
    next =>
      obtain ⟨rfl, rest⟩ := hex_cut (Option.some.inj bodies)
      rw [(List.cons.inj rest).2]
  | op sequence =>
    cases right <;> cases kinds
    next => exact congrArg Record.op (number_injective valid valid' (Option.some.inj bodies))
  | session id =>
    cases right <;> cases kinds
    next => exact congrArg Record.session (congrArg SessionId.mk (lit_injective (Option.some.inj bodies)))
  | session_page id page =>
    cases right <;> cases kinds
    next =>
      obtain ⟨ids, pages⟩ := last_cut (decimal_clear _ _) (decimal_clear _ _) (Option.some.inj bodies)
      exact congrArg₂ Record.session_page (congrArg SessionId.mk (lit_injective ids)) (number_injective valid valid' pages)
  | idempotency key =>
    cases right <;> cases kinds
    next => exact congrArg Record.idempotency (Option.some.inj bodies)
  | build_queue op_sequence =>
    cases right <;> cases kinds
    next => exact congrArg Record.build_queue (number_injective valid valid' (Option.some.inj bodies))

theorem text_injective {left right : Record} (valid : left.Valid) (valid' : right.Valid) (same : left.text = right.text) : left = right := by
  have parts := partition_text left
  rw [same, partition_text right, Prod.mk.injEq] at parts
  have kinds := str_injective parts.1
  refine body_injective valid valid' kinds.symm ?_
  rw [text, text, ← kinds, List.append_cancel_left_eq] at same
  cases bodies : left.body <;> cases bodies' : right.body <;> simp_all

end Record

/-! ## Queries -/

/-- `sk GLOB _glob_escape( sk_prefix) || '*'`, as `query` asks it of each key of a partition. -/
def queried ( sk_prefix key : PyStr) : Bool := Text.glob (Text.glob_escape sk_prefix ++ lit "*") key

/-- As `SessionId.new` makes them, and other texts without `#` and NUL. -/
def SessionId.WellFormed (session : SessionId) : Prop := HASH ∉ lit session.value ∧ 0 ∉ lit session.value

theorem ulid_well_formed {state : UlidState} (epoch : 0 ≤ state.last_ms) {session : SessionId}
    (minted : lit session.value = lit "ws_" ++ state.text) : session.WellFormed := by
  obtain ⟨number, value, -⟩ := UlidState.value_weight epoch
  have letters : ∀ digit : Fin 32, ulid_letter digit ≠ HASH ∧ ulid_letter digit ≠ 0 := by decide
  have members : ∀ point ∈ state.text, point ≠ HASH ∧ point ≠ 0 := by
    intro point member
    rw [UlidState.text, value, chars_digits] at member
    obtain ⟨digit, there, rfl⟩ := List.mem_map.mp member
    exact letters ⟨digit, Radix.digits_small (by decide) there⟩
  rw [SessionId.WellFormed, minted, List.mem_append, List.mem_append, not_or, not_or]
  exact ⟨⟨by decide, fun member => (members _ member).1 rfl⟩, by decide, fun member => (members _ member).2 rfl⟩

namespace Record

/-- The session it belongs to, if there is one, is well formed. -/
def WellFormed : Record → Prop
  | session id | session_page id _ => id.WellFormed
  | _ => True

theorem kind_text (kind : ItemKind) : (0 : CodePoint) ∉ kind.str := by
  cases kind <;> decide

theorem queried_iff {record : Record} {key : PyStr} (built : record.sk = .ok key) (kind : ItemKind) {start : PyStr} (clear : 0 ∉ start) :
    queried (kind.str ++ HASH :: start) key = true ↔ record.kind = kind ∧ ∃ body, record.body = some body ∧ start <+: body := by
  have whole : (0 : CodePoint) ∉ kind.str ++ HASH :: start := by
    simp only [List.mem_append, List.mem_cons, not_or]
    exact ⟨kind_text kind, by decide, clear⟩
  rw [queried, Text.glob_begins whole, (sk_ok.mp built).2, begins_iff]

/-- The kinds with more than one key. -/
def Numerous (kind : ItemKind) : Prop := kind ≠ .env ∧ kind ≠ .seq ∧ kind ≠ .build_lease

theorem queried_kind {record : Record} {key : PyStr} (built : record.sk = .ok key) {kind : ItemKind} (numerous : Numerous kind) :
    queried (kind.str ++ [HASH]) key = true ↔ record.kind = kind := by
  rw [queried_iff built kind List.not_mem_nil]
  refine and_iff_left_of_imp ?_
  rintro rfl
  obtain ⟨not_env, not_seq, not_lease⟩ := numerous
  cases record with
  | env => exact absurd rfl not_env
  | seq => exact absurd rfl not_seq
  | build_lease => exact absurd rfl not_lease
  | _ => exact ⟨_, rfl, List.nil_prefix⟩

theorem hex_text (commit : ObjectName) : (0 : CodePoint) ∉ commit.hex := by
  intro member
  exact absurd (Text.hex_lower _ _ member) (by decide)

theorem queried_note {record : Record} {key : PyStr} (built : record.sk = .ok key) (commit : ObjectName) :
    queried ( note_prefix (some commit)) key = true ↔ ∃ name_space, record = .note commit name_space := by
  have clear : (0 : CodePoint) ∉ commit.hex ++ [HASH] := by
    rw [List.mem_append, not_or]
    exact ⟨hex_text commit, by decide⟩
  rw [ note_prefix, queried_iff built .note clear]
  constructor
  next =>
    rintro ⟨kinds, body, bodies, rest, rfl⟩
    cases record <;> cases kinds
    next own name_space =>
      have same : own.hex ++ HASH :: name_space = commit.hex ++ HASH :: rest := by
        rw [Option.some.inj bodies, List.append_assoc, List.singleton_append]
      obtain ⟨rfl, -⟩ := hex_cut same
      exact ⟨name_space, rfl⟩
  next =>
    rintro ⟨name_space, rfl⟩
    exact ⟨rfl, _, rfl, name_space, by rw [List.append_assoc, List.singleton_append]⟩

theorem queried_pages {record : Record} {key : PyStr} (formed : record.WellFormed) (built : record.sk = .ok key) {session : SessionId}
    (well : session.WellFormed) : queried ( session_page_prefix session) key = true ↔ ∃ page, record = .session_page session page := by
  have clear : (0 : CodePoint) ∉ lit session.value ++ [HASH] := by
    rw [List.mem_append, not_or]
    exact ⟨well.2, by decide⟩
  rw [ session_page_prefix, queried_iff built .session_page clear]
  constructor
  next =>
    rintro ⟨kinds, body, bodies, rest, rfl⟩
    cases record <;> cases kinds
    next own page =>
      have same : lit own.value ++ HASH :: decimal (padded PAGE_DIGITS page.toNat) = lit session.value ++ HASH :: rest := by
        rw [Option.some.inj bodies, List.append_assoc, List.singleton_append]
      have parts := congrArg (Text.partition HASH) same
      rw [Text.partition_append _ formed.1, Text.partition_append _ well.1, Prod.mk.injEq] at parts
      exact ⟨page, congrArg (Record.session_page · page) (congrArg SessionId.mk (lit_injective parts.1))⟩
  next =>
    rintro ⟨page, rfl⟩
    exact ⟨rfl, _, rfl, _, by rw [List.append_assoc, List.singleton_append]⟩

theorem queried_changes {record : Record} {key : PyStr} (built : record.sk = .ok key) {change : ChangeId} (clear : 0 ∉ change.value) :
    queried (change_sk change) key = true ↔ ∃ id, record = .change id ∧ change.value <+: id.value := by
  rw [change_sk, queried_iff built .change clear]
  constructor
  next =>
    rintro ⟨kinds, body, bodies, start⟩
    cases record <;> cases kinds
    next id =>
      cases bodies
      exact ⟨id, rfl, start⟩
  next =>
    rintro ⟨id, rfl, start⟩
    exact ⟨rfl, _, rfl, start⟩

end Record

/-! ## Order -/

/-- `ORDER BY sk` compares texts by their UTF-8 bytes. -/
def Collates (left right : PyStr) : Prop :=
  ∃ bytes bytes', Text.encodeUtf8 left = some bytes ∧ Text.encodeUtf8 right = some bytes' ∧ bytes < bytes'

theorem padded_zero (width : Nat) : padded (width + 1) 0 = padded width 0 ++ [0] := by
  simp only [padded, Nat.digits_zero, List.length_nil, Nat.sub_zero, List.reverse_nil, List.append_nil]
  exact List.replicate_succ'

theorem padded_digits {width number : Nat} (small : number < 10 ^ width) : padded width number = Radix.digits 10 width number := by
  induction width generalizing number with
  | zero =>
    obtain rfl : number = 0 := by
      rw [Nat.pow_zero] at small
      omega
    rfl
  | succ width ih =>
    have quotient : number / 10 < 10 ^ width := by
      rw [Nat.pow_succ] at small
      omega
    rw [Radix.digits, ← ih quotient]
    rcases Nat.eq_zero_or_pos number with rfl | positive
    next => exact padded_zero width
    next =>
      rw [padded, Nat.digits_def' (by decide) positive, List.length_cons, List.reverse_cons, Nat.add_sub_add_right, ← List.append_assoc]
      rfl

def digit_byte (digit : Nat) : UInt8 := UInt8.ofNat (48 + digit)

theorem encode_numbered (start : List Char) {digits : List Nat} (small : ∀ digit ∈ digits, digit < 10) :
    Text.encodeUtf8 (start.map Text.ofChar ++ decimal digits) = some (start.flatMap String.utf8EncodeChar ++ digits.map digit_byte) := by
  have each : ∀ digit : Fin 10, Fin.ofNat 0x110000 (48 + digit.val) = Text.ofChar (Char.ofNat (48 + digit.val)) ∧
      String.utf8EncodeChar (Char.ofNat (48 + digit.val)) = [digit_byte digit.val] := by decide
  refine Text.encodeUtf8_eq_some.mpr ⟨start ++ digits.map fun digit => Char.ofNat (48 + digit), ?_, ?_⟩
  next =>
    rw [List.map_append, List.map_map, decimal]
    exact congrArg _ (List.map_congr_left fun digit member => (each ⟨digit, small digit member⟩).1)
  next =>
    rw [List.flatMap_append, List.flatMap_map]
    have bytes : ∀ digit ∈ digits, String.utf8EncodeChar (Char.ofNat (48 + digit)) = [digit_byte digit] :=
      fun digit member => (each ⟨digit, small digit member⟩).2
    rw [List.flatMap_congr bytes, ← List.map_eq_flatMap]

theorem collates_numbered (start : List Char) {width left right : Nat} (less : left < right) (small : right < 10 ^ width) :
    Collates (start.map Text.ofChar ++ decimal (padded width left)) (start.map Text.ofChar ++ decimal (padded width right)) := by
  have small_bytes : ∀ low high, low < high → high < 10 → digit_byte low < digit_byte high := by
    have every : ∀ high : Fin 10, ∀ low : Fin high.val, digit_byte low < digit_byte high := by decide
    exact fun low high less small => every ⟨high, small⟩ ⟨low, less⟩
  refine ⟨_, _, encode_numbered start fun _ => Record.padded_small, encode_numbered start fun _ => Record.padded_small, ?_⟩
  rw [padded_digits small, padded_digits (less.trans small)]
  exact List.Lex.append_left _
    (Radix.map_lt small_bytes (fun _ => Radix.digits_small (by decide)) (Radix.digits_lt less small)) _

theorem op_sorts {left right : Nat} (less : left < right) (small : right < 10 ^ OP_SEQ_DIGITS) :
    ∃ key key', op_sk left = .ok key ∧ op_sk right = .ok key' ∧ Collates key key' :=
  ⟨_, _, rfl, rfl, collates_numbered "op#".toList less small⟩

theorem build_queue_sorts {left right : Nat} (less : left < right) (small : right < 10 ^ OP_SEQ_DIGITS) :
    ∃ key key', build_queue_sk left = .ok key ∧ build_queue_sk right = .ok key' ∧ Collates key key' :=
  ⟨_, _, rfl, rfl, collates_numbered "bq#".toList less small⟩

theorem session_page_sorts (session : SessionId) {left right : Nat} (less : left < right) (small : right < 10 ^ PAGE_DIGITS) :
    ∃ key key', session_page_sk session left = .ok key ∧ session_page_sk session right = .ok key' ∧ Collates key key' := by
  have start (number : Nat) : ItemKind.session_page.str ++ HASH :: (lit session.value ++ HASH :: decimal (padded PAGE_DIGITS number)) =
      ("wsp#".toList ++ session.value.toList ++ ['#']).map Text.ofChar ++ decimal (padded PAGE_DIGITS number) := by
    rw [List.map_append, List.map_append, List.append_assoc, List.append_assoc]
    rfl
  refine ⟨_, _, rfl, rfl, ?_⟩
  change Collates (_ ++ HASH :: (_ ++ HASH :: decimal (padded PAGE_DIGITS left))) (_ ++ HASH :: (_ ++ HASH :: decimal (padded PAGE_DIGITS right)))
  rw [start left, start right]
  exact collates_numbered _ less small

/-! ## The keys of the stores -/

def SortKey.record : SortKey → Record
  | .env => .env
  | .ref name => .ref name
  | .change id => .change id
  | .op sequence => .op sequence
  | .seq => .seq
  | .session id => .session id
  | .session_page page => .session_page page.session page.page
  | .idem key => .idempotency (lit key)

theorem sort_key_text (key : SortKey) : key.record.text = key.render := by
  cases key with
  | session_page page =>
    rw [SortKey.render, List.append_assoc, List.append_assoc]
    rfl
  | _ => rfl

def BoardKey.record : BoardKey → Record
  | .build_queue op_sequence => .build_queue op_sequence
  | .build_lease => .build_lease
  | .note commit => .note commit (lit "sync")

theorem board_key_text (key : BoardKey) : key.record.text = key.render := by
  cases key with
  | note commit =>
    rw [BoardKey.render, List.append_assoc]
    rfl
  | _ => rfl

/-- What the build pipeline keeps in a partition has keys of its own. -/
theorem boards_apart (key : SortKey) (board : BoardKey) : key.render ≠ board.render := by
  rw [← sort_key_text, ← board_key_text]
  intro same
  have parts := Record.partition_text key.record
  rw [same, Record.partition_text, Prod.mk.injEq] at parts
  have kinds : board.record.kind = key.record.kind := Record.str_injective parts.1
  cases key <;> cases board <;> cases kinds

/-- No two records have one key, a query finds the keys it is for, and numbered keys sort by number. -/
theorem key_grammar :
    (∀ (left right : Record) (key : PyStr), left.sk = .ok key → right.sk = .ok key → left = right) ∧
      (∀ (left right : Record) (key key' : PyStr), left.kind ≠ right.kind → left.sk = .ok key → right.sk = .ok key' → key ≠ key') ∧
      (∀ (record : Record) (key : PyStr), record.WellFormed → record.sk = .ok key →
        (queried ref_prefix key = true ↔ record.kind = .ref) ∧
        (queried ( note_prefix none) key = true ↔ record.kind = .note) ∧
        (∀ commit, queried ( note_prefix (some commit)) key = true ↔ ∃ name_space, record = .note commit name_space) ∧
        (∀ session : SessionId, session.WellFormed →
          (queried ( session_page_prefix session) key = true ↔ ∃ page, record = .session_page session page)) ∧
        (queried build_queue_prefix key = true ↔ record.kind = .build_queue) ∧
        (queried (lit "op#") key = true ↔ record.kind = .op) ∧
        (queried (lit "ws#") key = true ↔ record.kind = .session) ∧
        (∀ change : ChangeId, 0 ∉ change.value →
          (queried (change_sk change) key = true ↔ ∃ id, record = .change id ∧ change.value <+: id.value))) ∧
      (∀ left right : Nat, left < right → right < 10 ^ OP_SEQ_DIGITS →
        (∃ key key', op_sk left = .ok key ∧ op_sk right = .ok key' ∧ Collates key key') ∧
        ∃ key key', build_queue_sk left = .ok key ∧ build_queue_sk right = .ok key' ∧ Collates key key') ∧
      ∀ (session : SessionId) (left right : Nat), left < right → right < 10 ^ PAGE_DIGITS →
        ∃ key key', session_page_sk session left = .ok key ∧ session_page_sk session right = .ok key' ∧ Collates key key' := by
  have one (left right : Record) (key : PyStr) (built : left.sk = .ok key) (built' : right.sk = .ok key) : left = right := by
    obtain ⟨valid, rfl⟩ := Record.sk_ok.mp built
    obtain ⟨valid', same⟩ := Record.sk_ok.mp built'
    exact Record.text_injective valid valid' same
  refine ⟨one, fun left right key key' kinds built built' same => ?_, fun record key formed built => ⟨?_, ?_, ?_, ?_, ?_, ?_, ?_, ?_⟩,
    fun left right less small => ⟨op_sorts less small, build_queue_sorts less small⟩,
    fun session left right less small => session_page_sorts session less small⟩
  next => exact kinds (congrArg Record.kind (one left right key built (same ▸ built')))
  next => exact Record.queried_kind built ⟨by decide, by decide, by decide⟩
  next => exact Record.queried_kind built ⟨by decide, by decide, by decide⟩
  next => exact fun commit => Record.queried_note built commit
  next => exact fun session well => Record.queried_pages formed built well
  next => exact Record.queried_kind built ⟨by decide, by decide, by decide⟩
  next => exact @Record.queried_kind _ _ built .op ⟨by decide, by decide, by decide⟩
  next => exact @Record.queried_kind _ _ built .session ⟨by decide, by decide, by decide⟩
  next => exact fun change clear => Record.queried_changes built clear

theorem key_grammar_main :
    queried ref_prefix (ref_sk ⟨"refs/heads/main"⟩) = true ∧
      ∃ key key', op_sk (9 : Nat) = .ok key ∧ op_sk (10 : Nat) = .ok key' ∧ Collates key key' :=
  ⟨(key_grammar.2.2.1 (.ref ⟨"refs/heads/main"⟩) _ trivial rfl).1.mpr rfl,
    (key_grammar.2.2.2.1 9 10 (by decide) (by decide)).1⟩

end LedgerVcs
