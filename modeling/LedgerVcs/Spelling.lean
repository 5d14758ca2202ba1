import LedgerVcs.Auth.Tokens
import LedgerVcs.Lib.Pattern

set_option autoImplicit false

/-! The texts that identifiers are read from. -/

namespace LedgerVcs

open Text (PyStr CodePoint Pattern lit)

/-! ## Patterns -/

def isLowerAlnum (point : CodePoint) : Bool :=
  (0x61 ≤ point.val ∧ point.val ≤ 0x7a) ∨ (0x30 ≤ point.val ∧ point.val ≤ 0x39)

def isAlnum (point : CodePoint) : Bool := isLowerAlnum point ∨ (0x41 ≤ point.val ∧ point.val ≤ 0x5a)

/-- `^b3:([0-9a-f]{64})$` -/
def NAME_RE : Pattern := [.text [lit "b3:"], .run Text.isLowerHex (DIGEST_BYTES * 2) (DIGEST_BYTES * 2)]

/-- `^[a-z0-9][a-z0-9._-]{0,63}/[a-z0-9][a-z0-9._-]{0,127}$` -/
def ENV_NAME_RE : Pattern :=
  let dotted (point : CodePoint) : Bool := isLowerAlnum point ∨ point ∈ lit "._-"
  [.run isLowerAlnum 1 1, .run dotted 0 63, .text [lit "/"], .run isLowerAlnum 1 1, .run dotted 0 127]

/-- `^refs/(heads|tags)/[A-Za-z0-9]`, and at most 255 letters, digits, dots, underscores, slashes and hyphens -/
def REF_NAME_RE : Pattern :=
  let pathlike (point : CodePoint) : Bool := isAlnum point ∨ point ∈ lit "._/-"
  [.text [lit "refs/"], .text [lit "heads", lit "tags"], .text [lit "/"], .run isAlnum 1 1, .run pathlike 0 255]

/-- `^[a-f0-9]{64}$` -/
def ENCODED : Pattern := [.run Text.isLowerHex 64 64]

/-! ## Constructors -/

/-- A value of the type, of what the checks have let through. -/
def of_text {α : Type} (make : String → α) (value : PyStr) (error : PyError) : Except PyError α :=
  match value.mapM Text.toChar? with
  | some chars => .ok (make (.ofList chars))
  | none => .error error

/-- `EnvName(value)` -/
def EnvName.new (value : PyStr) : Except PyError EnvName := do
  let error : PyError := .valueError "not a valid environment name"
  ensure (ENV_NAME_RE.matchLine value) error
  of_text EnvName.mk value error

/-- `RefName(value)` -/
def RefName.new (value : PyStr) : Except PyError RefName := do
  let error : PyError := .valueError "not a valid ref name"
  ensure (REF_NAME_RE.matchLine value) error
  ensure (¬ (lit "//" <:+: value ∨ lit "/" <:+ value ∨ lit ".." <:+: value)) error
  of_text RefName.mk value error

def SHA256 : PyStr := lit "sha256"

/-- How the images' registry names content. -/
structure Digest where
  algorithm : PyStr
  encoded : PyStr
deriving DecidableEq

namespace Digest

/-- `Digest(algorithm, encoded)` -/
def new (algorithm encoded : PyStr) : Except PyError Digest := do
  ensure (algorithm = SHA256) (.invalidRequest "unsupported digest algorithm; Ledger's registry serves sha256 only")
  ensure (ENCODED.matchLine encoded) (.invalidRequest "a sha256 digest must be 64 lowercase hex characters")
  return ⟨algorithm, encoded⟩

def parse (text : PyStr) : Except PyError Digest := do
  ensure (0x3a ∈ text) (.invalidRequest "a digest must be written <algorithm>:<hex>")
  let (algorithm, encoded) := Text.partition 0x3a text
  new algorithm encoded

/-- `str(digest)` -/
def str (digest : Digest) : PyStr := digest.algorithm ++ 0x3a :: digest.encoded

end Digest

/-! ## Grammars -/

/-- `b3:<64 hex chars>` -/
def IsObjectName : PyStr → Prop := NAME_RE.Matches

/-- `org/environment` -/
def IsEnvName : PyStr → Prop := ENV_NAME_RE.Matches

def IsRefName (text : PyStr) : Prop :=
  REF_NAME_RE.Matches text ∧ ¬ lit "//" <:+: text ∧ ¬ lit "/" <:+ text ∧ ¬ lit ".." <:+: text

/-- A ref name, but that it may end in a slash. -/
def IsRefPath (text : PyStr) : Prop := REF_NAME_RE.Matches text ∧ ¬ lit "//" <:+: text ∧ ¬ lit ".." <:+: text

/-- `sha256:<64 hex>` -/
def IsDigest (text : PyStr) : Prop := ∃ encoded, text = SHA256 ++ 0x3a :: encoded ∧ ENCODED.Matches encoded

/-- One of the grammar's texts, and a line feed. -/
def FedLine (grammar : PyStr → Prop) (text : PyStr) : Prop := ∃ line, text = line ++ [0x0a] ∧ grammar line

/-- The text is taken exactly when it is of the grammar, and is what the value is rendered as. -/
def OneSpelling {α : Type} (parse : PyStr → Except PyError α) (render : α → PyStr) (grammar : PyStr → Prop) (text : PyStr) : Prop :=
  ((∃ value, parse text = .ok value) ↔ grammar text) ∧ ∀ value, parse text = .ok value → render value = text

theorem one_spelling_iff {α : Type} {parse : PyStr → Except PyError α} {render : α → PyStr} {grammar fed : PyStr → Prop} {text : PyStr}
    (accepts : (∃ value, parse text = .ok value) ↔ grammar text ∨ FedLine fed text)
    (plain : ¬ FedLine fed text → ∀ value, parse text = .ok value → render value = text)
    (unfed : FedLine fed text → ¬ grammar text) : OneSpelling parse render grammar text ↔ ¬ FedLine fed text := by
  constructor
  next =>
    intro spelled line
    exact unfed line (spelled.1.mp (accepts.mpr (.inr line)))
  next =>
    intro line
    refine ⟨accepts.trans ?_, plain line⟩
    simp [line]

/-! ## Characters -/

/-- ASCII, and no line feed. -/
def OnLine (point : CodePoint) : Prop := point.val < 0x80 ∧ point ≠ 0x0a

instance (point : CodePoint) : Decidable (OnLine point) := inferInstanceAs (Decidable (_ ∧ _))

theorem hex_onLine {point : CodePoint} (lower : Text.isLowerHex point = true) : OnLine point := by
  refine ⟨?_, by rintro rfl; exact absurd lower (by decide)⟩
  simp only [Text.isLowerHex, Bool.decide_or, Bool.or_eq_true, decide_eq_true_eq] at lower
  omega

theorem lowerAlnum_onLine {point : CodePoint} (alnum : isLowerAlnum point = true) : OnLine point := by
  refine ⟨?_, by rintro rfl; exact absurd alnum (by decide)⟩
  simp only [isLowerAlnum, Bool.decide_or, Bool.or_eq_true, decide_eq_true_eq] at alnum
  omega

theorem alnum_onLine {point : CodePoint} (alnum : isAlnum point = true) : OnLine point := by
  refine ⟨?_, by rintro rfl; exact absurd alnum (by decide)⟩
  simp only [isAlnum, isLowerAlnum, Bool.decide_or, Bool.or_eq_true, decide_eq_true_eq] at alnum
  omega

theorem literal_onLine {literals : List PyStr} (all : (literals.all fun literal => literal.all fun point => decide (OnLine point)) = true) :
    ∀ first, (Text.Piece.text literals).Matches first → ∀ point ∈ first, OnLine point := fun first member point inside =>
  of_decide_eq_true (List.all_eq_true.mp (List.all_eq_true.mp all first member) point inside)

theorem run_onLine {has : CodePoint → Bool} {low high : Nat} (all : ∀ point, has point = true → OnLine point) :
    ∀ first, (Text.Piece.run has low high).Matches first → ∀ point ∈ first, OnLine point := fun _ fits point member =>
  all point (fits.2.2 point member)

theorem name_onLine {text : PyStr} (fits : NAME_RE.Matches text) : ∀ point ∈ text, OnLine point := by
  refine Text.Pattern.matches_forall ?_ fits
  simp only [NAME_RE, List.forall_mem_cons]
  exact ⟨literal_onLine (by decide), run_onLine fun _ => hex_onLine, fun _ impossible => by cases impossible⟩

theorem dotted_onLine {others : PyStr} (plain : (others.all fun point => decide (OnLine point)) = true) {alnum : CodePoint → Bool}
    (letters : ∀ point, alnum point = true → OnLine point) (point : CodePoint)
    (has : decide (alnum point = true ∨ point ∈ others) = true) : OnLine point := by
  rcases of_decide_eq_true has with letter | other
  next => exact letters point letter
  next => exact of_decide_eq_true (List.all_eq_true.mp plain point other)

theorem env_onLine {text : PyStr} (fits : ENV_NAME_RE.Matches text) : ∀ point ∈ text, OnLine point := by
  refine Text.Pattern.matches_forall ?_ fits
  have dotted := @dotted_onLine (lit "._-") (by decide) isLowerAlnum fun _ => lowerAlnum_onLine
  simp only [ENV_NAME_RE, List.forall_mem_cons]
  exact ⟨run_onLine fun _ => lowerAlnum_onLine, run_onLine dotted, literal_onLine (by decide), run_onLine fun _ => lowerAlnum_onLine,
    run_onLine dotted, fun _ impossible => by cases impossible⟩

theorem ref_onLine {text : PyStr} (fits : REF_NAME_RE.Matches text) : ∀ point ∈ text, OnLine point := by
  refine Text.Pattern.matches_forall ?_ fits
  have pathlike := @dotted_onLine (lit "._/-") (by decide) isAlnum fun _ => alnum_onLine
  simp only [REF_NAME_RE, List.forall_mem_cons]
  exact ⟨literal_onLine (by decide), literal_onLine (by decide), literal_onLine (by decide), run_onLine fun _ => alnum_onLine,
    run_onLine pathlike, fun _ impossible => by cases impossible⟩

theorem encoded_onLine {text : PyStr} (fits : ENCODED.Matches text) : ∀ point ∈ text, OnLine point := by
  refine Text.Pattern.matches_forall ?_ fits
  simp only [ENCODED, List.forall_mem_cons]
  exact ⟨run_onLine fun _ => hex_onLine, fun _ impossible => by cases impossible⟩

/-- A text that ends with a line feed is none without. -/
theorem fed_off {fed : PyStr → Prop} {text : PyStr} (line : FedLine fed text) (plain : ∀ point ∈ text, OnLine point) : False := by
  obtain ⟨line, rfl, -⟩ := line
  exact (plain 0x0a (List.mem_append_right _ (List.mem_singleton_self _))).2 rfl

/-! ## Object names -/

theorem isObjectName_iff {text : PyStr} :
    IsObjectName text ↔ text.take 3 = lit "b3:" ∧ (text.drop 3).length = DIGEST_BYTES * 2 ∧ (text.drop 3).all Text.isLowerHex := by
  rw [List.all_eq_true]
  constructor
  next =>
    rintro ⟨tag, rest, rfl, tagged, digits, last, rfl, ⟨low, high, lower⟩, none⟩
    rw [List.mem_singleton.mp tagged, show last = [] from none, List.append_nil]
    exact ⟨rfl, by rw [show (lit "b3:" ++ digits).drop 3 = digits from rfl]; omega, lower⟩
  next =>
    rintro ⟨tag, length, lower⟩
    refine ⟨lit "b3:", text.drop 3, ?_, List.mem_singleton_self _, text.drop 3, [], (List.append_nil _).symm, ⟨length.ge, length.le, lower⟩, rfl⟩
    rw [← tag, List.take_append_drop]

theorem isObjectName_str {text : PyStr} : IsObjectName text ↔ ∃ name : ObjectName, text = name.str := by
  rw [isObjectName_iff]
  constructor
  next =>
    rintro ⟨tag, length, lower⟩
    obtain ⟨name, same⟩ := ObjectName.exists_hex length (List.all_eq_true.mp lower)
    refine ⟨name, ?_⟩
    rw [ObjectName.str, ← ObjectName.hex, same, ← tag, List.take_append_drop]
  next =>
    rintro ⟨name, rfl⟩
    exact ⟨rfl, ObjectName.length_hex name, List.all_eq_true.mpr (Text.hex_lower name.digest)⟩

theorem parse_str_fed (name : ObjectName) : ObjectName.parse (name.str ++ [0x0a]) = .ok name := by
  have plain : (lit "b3:" ++ name.hex).getLast? ≠ some 0x0a := fun feed =>
    (name_onLine (isObjectName_str.mpr ⟨name, rfl⟩) 0x0a (List.mem_of_getLast? feed)).2 rfl
  have parsed := ObjectName.parse_hex name
  rw [ObjectName.parse, if_neg plain] at parsed
  have line : (if (name.str ++ [0x0a]).getLast? = some 0x0a then (name.str ++ [0x0a]).dropLast else name.str ++ [0x0a]) =
      lit "b3:" ++ name.hex := by
    rw [if_pos List.getLast?_concat, List.dropLast_concat]
    rfl
  rw [ObjectName.parse, line]
  exact parsed

theorem parse_object_name {text : PyStr} {name : ObjectName} :
    ObjectName.parse text = .ok name ↔ text = name.str ∨ text = name.str ++ [0x0a] := by
  constructor
  next =>
    intro parsed
    obtain ⟨line, whole, same⟩ : ∃ line, (text = line ∨ text = line ++ [0x0a]) ∧
        (if text.getLast? = some 0x0a then text.dropLast else text) = line := by
      refine ⟨_, ?_, rfl⟩
      split
      next feed =>
        obtain ⟨line, rfl⟩ := List.getLast?_eq_some_iff.mp feed
        exact .inr (by rw [List.dropLast_concat])
      next => exact .inl rfl
    rw [ObjectName.parse, same] at parsed
    split at parsed
    next fits =>
      obtain ⟨other, written⟩ := isObjectName_str.mp (isObjectName_iff.mpr fits)
      have digits : line.drop 3 = Text.hex other.digest := by rw [written]; rfl
      rw [digits, Text.fromhex_hex] at parsed
      rw [ObjectName.ext (ObjectName.new_ok.mp parsed)] at written
      rwa [← written]
    next => cases parsed
  next =>
    rintro (rfl | rfl)
    next => exact ObjectName.parse_hex name
    next => exact parse_str_fed name

theorem object_name_spelling (text : PyStr) :
    OneSpelling ObjectName.parse ObjectName.str IsObjectName text ↔ ¬ FedLine IsObjectName text := by
  refine one_spelling_iff ?_ (fun line value parsed => ?_) fun line named => fed_off line (name_onLine named)
  next =>
    simp only [parse_object_name, FedLine, isObjectName_str]
    constructor
    next =>
      rintro ⟨name, plain | fed⟩
      next => exact .inl ⟨name, plain⟩
      next => exact .inr ⟨name.str, fed, name, rfl⟩
    next =>
      rintro (⟨name, plain⟩ | ⟨_, fed, name, rfl⟩)
      next => exact ⟨name, .inl plain⟩
      next => exact ⟨name, .inr fed⟩
  next =>
    rcases parse_object_name.mp parsed with plain | fed
    next => exact plain.symm
    next => exact absurd ⟨value.str, fed, isObjectName_str.mpr ⟨value, rfl⟩⟩ line

/-! ## Names of environments and refs -/

theorem of_text_ok {α : Type} {make : String → α} {value : PyStr} {error : PyError} {made : α} :
    of_text make value error = .ok made ↔ ∃ written : String, lit written = value ∧ make written = made := by
  rw [of_text]
  cases read : value.mapM Text.toChar? with
  | none =>
    constructor
    next => intro impossible; cases impossible
    next =>
      rintro ⟨written, rfl, -⟩
      rw [lit, Text.mapM_toChar.mpr rfl] at read
      cases read
  | some chars =>
    have same := Text.mapM_toChar.mp read
    dsimp only
    rw [Except.ok.injEq]
    constructor
    next =>
      rintro rfl
      exact ⟨.ofList chars, by rw [lit, String.toList_ofList, same], rfl⟩
    next =>
      rintro ⟨written, rfl, rfl⟩
      rw [lit, Text.mapM_toChar.mpr rfl] at read
      rw [← Option.some.inj read, String.ofList_toList]

theorem ascii_written {value : PyStr} (ascii : ∀ point ∈ value, point.val < 0x80) : ∃ written : String, lit written = value := by
  have chars (point : CodePoint) (small : point.val < 0x80) : ∃ char, Text.ofChar char = point := by
    have valid : point.val.isValidChar := .inl (by omega)
    refine ⟨Char.ofNatAux point.val valid, ?_⟩
    exact (Text.toChar_eq_some.mp (dif_pos valid)).symm
  induction value with
  | nil => exact ⟨"", rfl⟩
  | cons point value ih =>
    obtain ⟨here, others⟩ := List.forall_mem_cons.mp ascii
    obtain ⟨char, rfl⟩ := chars point here
    obtain ⟨written, rfl⟩ := ih others
    exact ⟨.ofList (char :: written.toList), by rw [lit, String.toList_ofList]; rfl⟩

/-- A constructor that keeps what it has checked. -/
theorem checked_spelling {α : Type} {make : String → α} {render : α → PyStr} (renders : ∀ written, render (make written) = lit written)
    {construct : PyStr → Except PyError α} {error : PyError} {passes grammar fed : PyStr → Prop}
    (constructs : ∀ text made, construct text = .ok made ↔ passes text ∧ of_text make text error = .ok made)
    (accepts : ∀ text, passes text ↔ grammar text ∨ FedLine fed text) (onLine : ∀ text, grammar text → ∀ point ∈ text, OnLine point)
    (onLine' : ∀ text, fed text → ∀ point ∈ text, OnLine point) (text : PyStr) :
    OneSpelling construct render grammar text ↔ ¬ FedLine fed text := by
  refine one_spelling_iff ?_ (fun _ value built => ?_) fun line named => fed_off line (onLine text named)
  next =>
    rw [← accepts]
    constructor
    next => rintro ⟨made, built⟩; exact ((constructs text made).mp built).1
    next =>
      intro passed
      have ascii : ∀ point ∈ text, point.val < 0x80 := by
        rcases (accepts text).mp passed with named | ⟨line, rfl, named⟩
        next => exact fun point member => (onLine text named point member).1
        next =>
          intro point member
          rcases List.mem_append.mp member with before | feed
          next => exact (onLine' line named point before).1
          next =>
            rw [List.mem_singleton.mp feed]
            decide
      obtain ⟨written, rfl⟩ := ascii_written ascii
      exact ⟨make written, (constructs _ _).mpr ⟨passed, of_text_ok.mpr ⟨written, rfl, rfl⟩⟩⟩
  next =>
    obtain ⟨written, rfl, rfl⟩ := of_text_ok.mp ((constructs text value).mp built).2
    exact renders written

/-- `str(name)` -/
def EnvName.str (name : EnvName) : PyStr := lit name.value

/-- `str(name)` -/
def RefName.str (name : RefName) : PyStr := lit name.value

theorem env_name_spelling (text : PyStr) : OneSpelling EnvName.new EnvName.str IsEnvName text ↔ ¬ FedLine IsEnvName text := by
  refine @checked_spelling _ EnvName.mk EnvName.str (fun _ => rfl) EnvName.new (.valueError "not a valid environment name")
    (fun text => ENV_NAME_RE.matchLine text = true) IsEnvName IsEnvName (fun text made => ?_) (fun _ => Text.Pattern.matchLine_iff)
    (fun _ => env_onLine) (fun _ => env_onLine) text
  rw [EnvName.new]
  simp only [Monads.except_bind_ok, ensure_ok]
  simp

theorem infix_fed {needle text : PyStr} (apart : needle.getLast? ≠ some 0x0a) (filled : needle ≠ []) :
    needle <:+: text ++ [0x0a] ↔ needle <:+: text := by
  rw [List.infix_concat_iff, List.suffix_concat_iff]
  constructor
  next =>
    rintro ((empty | ⟨before, rfl, -⟩) | inside)
    next => exact absurd empty filled
    next => exact absurd List.getLast?_concat apart
    next => exact inside
  next => exact .inr

theorem ref_name_spelling (text : PyStr) : OneSpelling RefName.new RefName.str IsRefName text ↔ ¬ FedLine IsRefPath text := by
  have slashes (line : PyStr) : lit "//" <:+: line ++ [0x0a] ↔ lit "//" <:+: line := infix_fed (by decide) (by decide)
  have dots (line : PyStr) : lit ".." <:+: line ++ [0x0a] ↔ lit ".." <:+: line := infix_fed (by decide) (by decide)
  have slash (line : PyStr) : ¬ lit "/" <:+ line ++ [0x0a] := by
    rw [List.suffix_concat_iff]
    rintro (empty | ⟨before, same, -⟩)
    next => exact absurd empty (by decide)
    next =>
      have last := congrArg List.getLast? same
      rw [List.getLast?_concat] at last
      exact absurd last (by decide)
  refine @checked_spelling _ RefName.mk RefName.str (fun _ => rfl) RefName.new (.valueError "not a valid ref name")
    (fun text => REF_NAME_RE.matchLine text = true ∧ ¬ (lit "//" <:+: text ∨ lit "/" <:+ text ∨ lit ".." <:+: text)) IsRefName IsRefPath
    (fun text made => ?_) (fun text => ?_) (fun _ named => ref_onLine named.1) (fun _ named => ref_onLine named.1) text
  next =>
    rw [RefName.new]
    simp only [Monads.except_bind_ok, ensure_ok]
    simp [and_assoc]
  next =>
    rw [Text.Pattern.matchLine_iff, IsRefName, FedLine, not_or, not_or]
    constructor
    next =>
      rintro ⟨plain | ⟨line, rfl, fits⟩, double, single, dotted⟩
      next => exact .inl ⟨plain, double, single, dotted⟩
      next => exact .inr ⟨line, rfl, fits, mt (slashes line).mpr double, mt (dots line).mpr dotted⟩
    next =>
      rintro (⟨plain, double, single, dotted⟩ | ⟨line, rfl, fits, double, dotted⟩)
      next => exact ⟨.inl plain, double, single, dotted⟩
      next => exact ⟨.inr ⟨line, rfl, fits⟩, mt (slashes line).mp double, slash line, mt (dots line).mp dotted⟩

/-! ## Digests -/

theorem parse_digest {text : PyStr} {digest : Digest} :
    Digest.parse text = .ok digest ↔ digest.algorithm = SHA256 ∧ ENCODED.matchLine digest.encoded = true ∧ text = digest.str := by
  have clear : 0x3a ∉ SHA256 := by decide
  rw [Digest.parse]
  simp only [Digest.new, Monads.except_bind_ok, ensure_ok, pure, Except.pure, Except.ok.injEq]
  constructor
  next =>
    rintro ⟨_, colon, _, algorithm, _, fits, rfl⟩
    obtain ⟨before, after, rfl, clear⟩ := List.eq_append_cons_of_mem colon
    refine ⟨algorithm, fits, ?_⟩
    rw [Digest.str, Text.partition_append after clear]
  next =>
    rintro ⟨algorithm, fits, rfl⟩
    have parts : Text.partition 0x3a digest.str = (digest.algorithm, digest.encoded) :=
      Text.partition_append _ (by rwa [algorithm])
    rw [parts]
    exact ⟨(), List.mem_append_right _ List.mem_cons_self, (), algorithm, (), fits, rfl⟩

theorem digest_spelling (text : PyStr) : OneSpelling Digest.parse Digest.str IsDigest text ↔ ¬ FedLine IsDigest text := by
  refine one_spelling_iff ?_ (fun _ value parsed => (parse_digest.mp parsed).2.2.symm) fun line named => fed_off line ?_
  next =>
    simp only [parse_digest, Text.Pattern.matchLine_iff]
    constructor
    next =>
      rintro ⟨⟨_, encoded⟩, rfl, plain | ⟨line, rfl, fits⟩, rfl⟩
      next => exact .inl ⟨encoded, rfl, plain⟩
      next => exact .inr ⟨SHA256 ++ 0x3a :: line, by simp [Digest.str], line, rfl, fits⟩
    next =>
      rintro (⟨encoded, rfl, fits⟩ | ⟨_, rfl, encoded, rfl, fits⟩)
      next => exact ⟨⟨SHA256, encoded⟩, rfl, .inl fits, rfl⟩
      next => exact ⟨⟨SHA256, encoded ++ [0x0a]⟩, rfl, .inr ⟨encoded, rfl, fits⟩, by simp [Digest.str]⟩
  next =>
    obtain ⟨encoded, rfl, fits⟩ := named
    intro point member
    rcases List.mem_append.mp member with tag | member
    next =>
      have all : SHA256.all (fun point => decide (OnLine point)) = true := by decide
      exact of_decide_eq_true (List.all_eq_true.mp all point tag)
    next =>
      rcases List.mem_cons.mp member with rfl | digit
      next => decide
      next => exact encoded_onLine fits point digit

/-! ## One spelling -/

theorem OneSpelling.injective {α : Type} {parse : PyStr → Except PyError α} {render : α → PyStr} {grammar : PyStr → Prop}
    {text other : PyStr} {value : α} (spelled : OneSpelling parse render grammar text) (spelled' : OneSpelling parse render grammar other)
    (parsed : parse text = .ok value) (parsed' : parse other = .ok value) : text = other :=
  (spelled.2 value parsed).symm.trans (spelled'.2 value parsed')

/-- A text is taken exactly when it is of the grammar, and has the spelling of its value, unless it is a line that a line feed
ends; and no two texts but such lines are one value. -/
theorem one_spelling (text other : PyStr) :
    ((OneSpelling ObjectName.parse ObjectName.str IsObjectName text ↔ ¬ FedLine IsObjectName text) ∧
      (OneSpelling EnvName.new EnvName.str IsEnvName text ↔ ¬ FedLine IsEnvName text) ∧
      (OneSpelling RefName.new RefName.str IsRefName text ↔ ¬ FedLine IsRefPath text) ∧
      (OneSpelling Digest.parse Digest.str IsDigest text ↔ ¬ FedLine IsDigest text)) ∧
    (¬ FedLine IsObjectName text → ¬ FedLine IsObjectName other → ∀ value,
      ObjectName.parse text = .ok value → ObjectName.parse other = .ok value → text = other) ∧
    (¬ FedLine IsEnvName text → ¬ FedLine IsEnvName other → ∀ value,
      EnvName.new text = .ok value → EnvName.new other = .ok value → text = other) ∧
    (¬ FedLine IsRefPath text → ¬ FedLine IsRefPath other → ∀ value,
      RefName.new text = .ok value → RefName.new other = .ok value → text = other) ∧
    (¬ FedLine IsDigest text → ¬ FedLine IsDigest other → ∀ value,
      Digest.parse text = .ok value → Digest.parse other = .ok value → text = other) := by
  refine ⟨⟨object_name_spelling text, env_name_spelling text, ref_name_spelling text, digest_spelling text⟩, ?_, ?_, ?_, ?_⟩
  next => exact fun line line' _ => ((object_name_spelling text).mpr line).injective ((object_name_spelling other).mpr line')
  next => exact fun line line' _ => ((env_name_spelling text).mpr line).injective ((env_name_spelling other).mpr line')
  next => exact fun line line' _ => ((ref_name_spelling text).mpr line).injective ((ref_name_spelling other).mpr line')
  next => exact fun line line' _ => ((digest_spelling text).mpr line).injective ((digest_spelling other).mpr line')

theorem matches_of_ends {pattern : Pattern} {whole : PyStr} (found : [] ∈ pattern.ends whole) : pattern.Matches whole := by
  obtain ⟨line, rfl, fits⟩ := Text.Pattern.mem_ends.mp found
  rwa [List.append_nil]

def zeroed : ObjectName := ⟨List.replicate DIGEST_BYTES 0, zeros_sized⟩

/-- With a line feed at its end, the name of an object is read as that name; and so are taken names of an environment and
of a ref, the latter also with a slash before it, and a digest. -/
theorem fed_lines_taken :
    (ObjectName.parse zeroed.str = .ok zeroed ∧ ObjectName.parse (zeroed.str ++ [0x0a]) = .ok zeroed) ∧
      ¬ OneSpelling ObjectName.parse ObjectName.str IsObjectName (zeroed.str ++ [0x0a]) ∧
      ¬ OneSpelling EnvName.new EnvName.str IsEnvName (lit "org/env" ++ [0x0a]) ∧
      ¬ OneSpelling RefName.new RefName.str IsRefName (lit "refs/heads/main/" ++ [0x0a]) ∧
      ¬ OneSpelling Digest.parse Digest.str IsDigest (SHA256 ++ 0x3a :: List.replicate 64 0x30 ++ [0x0a]) := by
  refine ⟨⟨ObjectName.parse_hex zeroed, parse_str_fed zeroed⟩, fun spelled => ?_, fun spelled => ?_, fun spelled => ?_,
    fun spelled => ?_⟩
  next => exact (object_name_spelling _).mp spelled ⟨_, rfl, isObjectName_str.mpr ⟨zeroed, rfl⟩⟩
  next => exact (env_name_spelling _).mp spelled ⟨_, rfl, matches_of_ends (by decide)⟩
  next => exact (ref_name_spelling _).mp spelled ⟨_, rfl, matches_of_ends (by decide), by decide, by decide⟩
  next => exact (digest_spelling _).mp spelled ⟨_, rfl, _, rfl, matches_of_ends (by decide)⟩

end LedgerVcs
