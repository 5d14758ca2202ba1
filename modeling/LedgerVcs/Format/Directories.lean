import LedgerVcs.Format.NodeSizes

set_option autoImplicit false

namespace LedgerVcs

open Wire (Bytes)

variable (blake3 : Blake3)

/-- An entry that a level-0 tree node can hold on its own. -/
def ValidEntry (entry : TreeEntry) : Prop := ∃ framed, encode (.tree ⟨0, [entry]⟩) = .ok framed

theorem ValidEntry.validAt {entry : TreeEntry} (valid : ValidEntry entry) : ValidAt 0 entry := by
  obtain ⟨framed, encoded⟩ := valid
  obtain ⟨⟨-, fits, checked⟩, -⟩ := (encode_ok.mp encoded).1
  simp only [validate_tree_entries, validate_tree_entries_from, Monads.except_bind_ok, ensure_ok] at checked
  obtain ⟨_, name, _, -, _, fields, -⟩ := checked
  exact ⟨name, fields, fits entry (List.mem_singleton.mpr rfl)⟩

theorem reject_unsorted_ok {entries : List TreeEntry} (ascending : Ascending entries) :
    reject_unsorted entries = .ok () := by
  induction entries with
  | nil => rfl
  | cons previous entries ih =>
    obtain ⟨below, rest⟩ := List.pairwise_cons.mp ascending
    cases entries with
    | nil => rfl
    | cons current entries =>
      have step := List.not_le.mpr (below current List.mem_cons_self)
      simp only [reject_unsorted, Monads.except_bind_ok, ensure_ok]
      exact ⟨(), step, ih rest⟩

/-- What a caller of `build_tree` may do with each emitted node. -/
def Readable (pair : ObjectName × Bytes) : Prop :=
  pair.1 = name_of_encoded blake3 pair.2 ∧ pair.2.length ≤ MAX_NODE_BYTES ∧
    ∃ node : Tree, decode pair.2 = .ok (.tree node) ∧ (0 < node.level → 2 ≤ node.entries.length)

theorem Emitted.readable {pair : ObjectName × Bytes} (emitted : Emitted blake3 pair) : Readable blake3 pair := by
  obtain ⟨named, node, encoded⟩ := emitted
  obtain ⟨fits, spelled⟩ := encode_ok.mp encoded
  refine ⟨named, ?_, node, decode_ok.mpr ⟨fits, trivial, spelled⟩, ?_⟩
  next =>
    have small := fits.2
    simp only [spelled, Layout.object, Layout.payload, List.length_cons, HEADER_BYTES] at small ⊢
    omega
  next =>
    intro above
    have checked := fits.1.1.2.2
    simp only [validate_node_level, Monads.except_bind_ok, ensure_ok] at checked
    obtain ⟨_, -, children⟩ := checked
    omega

theorem build_tree_succeeds {entries : List TreeEntry} (valid : ∀ entry ∈ entries, ValidEntry entry)
    (ascending : Ascending entries) (emitted : List (ObjectName × Bytes)) :
    (∃ root out, build_tree blake3 entries PRODUCTION_SHAPE emitted = .ok (root, out)) ↔
      FitsLevels blake3 (MAX_LEVEL + 1) 0 (entries.map TreeEntry.name) := by
  rw [build_tree]
  split
  next none =>
    subst none
    have encoded : encode (.tree ⟨0, []⟩) = .ok [3, 1, 0, 0, 0, 0, 0] := by rfl
    refine iff_of_true ⟨_, _, (emit_node_ok blake3).mpr ⟨_, encoded, rfl, rfl⟩⟩ ⟨?_, .inl ?_⟩
    next => intro run member; cases member
    next => exact Nat.zero_le _
  next some =>
    have levels := levels_exact blake3 (MAX_LEVEL + 1) emitted (Nat.zero_add _)
      (fun entry member => (valid entry member).validAt) ascending some (fun above => absurd above (by omega))
    simp only [← levels, Monads.bind_ok, Monads.liftM_ok, reject_unsorted_ok ascending, true_and]
    constructor
    next => rintro ⟨root, out, _, _, rfl, built⟩; exact ⟨root, out, built⟩
    next => rintro ⟨root, out, built⟩; exact ⟨root, out, (), emitted, rfl, built⟩

theorem build_tree_emitted {entries : List TreeEntry} {params : ShapeParams}
    {emitted out : List (ObjectName × Bytes)} {root : ObjectName}
    (built : build_tree blake3 entries params emitted = .ok (root, out)) :
    ∃ added, out = emitted ++ added ∧ ∀ pair ∈ added, Emitted blake3 pair := by
  rw [build_tree] at built
  split at built
  next =>
    obtain ⟨framed, encoded, rfl, rfl⟩ := (emit_node_ok blake3).mp built
    exact ⟨[_], rfl, fun pair member => by rw [List.mem_singleton.mp member]; exact ⟨rfl, _, encoded⟩⟩
  next =>
    obtain ⟨_, middle, checked, levels⟩ := Monads.bind_ok.mp built
    obtain ⟨-, rfl⟩ := Monads.liftM_ok.mp checked
    exact levels_emitted blake3 _ levels

/-- A directory of valid entries is written, in nodes that all read back, exactly when the nodes that
content alone would cut leave room for the header, on at most 256 levels. -/
theorem build_tree_exact (entries : List TreeEntry) (valid : ∀ entry ∈ entries, ValidEntry entry)
    (ascending : Ascending entries) :
    (∃ root emitted, build_tree blake3 entries PRODUCTION_SHAPE [] = .ok (root, emitted) ∧
      ∀ pair ∈ emitted, Readable blake3 pair) ↔
      FitsLevels blake3 (MAX_LEVEL + 1) 0 (entries.map TreeEntry.name) := by
  rw [← build_tree_succeeds blake3 valid ascending []]
  constructor
  next => rintro ⟨root, emitted, built, -⟩; exact ⟨root, emitted, built⟩
  next =>
    rintro ⟨root, emitted, built⟩
    obtain ⟨added, rfl, emits⟩ := build_tree_emitted blake3 built
    exact ⟨root, _, built, fun pair member => (emits pair (by simpa using member)).readable⟩

/-! ## A directory that fits, and one that does not -/

def fileEntry (name : Bytes) : TreeEntry := ⟨name, .blob, ⟨List.replicate 32 0, zeros_sized⟩, MODE_REGULAR, 1⟩

theorem fileEntry_valid {name : Bytes} (long : 3 ≤ name.length) (short : name.length ≤ 255)
    (letters : ∀ byte ∈ name, 0x41 ≤ byte.toNat ∧ byte.toNat < 0x80) : ValidEntry (fileEntry name) := by
  obtain ⟨text, decoded⟩ := Text.decodeUtf8_ascii fun byte member => (letters byte member).2
  have named : validate_entry_name name = .ok () := by
    have plain : ∀ byte ∈ name, byte ∉ FORBIDDEN_NAME_BYTES := by
      intro byte member forbidden
      have letter := (letters byte member).1
      simp only [FORBIDDEN_NAME_BYTES, List.mem_cons, List.not_mem_nil, or_false] at forbidden
      rcases forbidden with rfl | rfl <;> exact absurd letter (by decide)
    have free : name ∉ RESERVED_NAMES := by
      intro reserved
      simp only [RESERVED_NAMES, List.mem_cons, List.not_mem_nil, or_false] at reserved
      rcases reserved with rfl | rfl <;> simp at long
    have read : decode_utf8 name "tree entry name" = .ok text := by rw [decode_utf8, decoded]
    simp only [validate_entry_name, Monads.except_bind_ok, ensure_ok]
    refine ⟨(), ⟨by omega, short⟩, (), plain, (), free, ?_⟩
    rw [read]
    rfl
  have valid : ValidAt 0 (fileEntry name) :=
    ⟨named, by rfl, short, ⟨by simp [fileEntry, MODE_REGULAR], by simp [fileEntry, MODE_REGULAR, U16_MAX]⟩,
      ⟨by simp [fileEntry], by simp [fileEntry, U64_MAX]⟩⟩
  refine (node_encodes (by simpa using valid) (List.pairwise_singleton ..) (by simp) (by decide) (by simp)).mpr ?_
  simp only [FitsNode, NODE_HEADER_BYTES, HEADER_BYTES, run_bytes, name_bytes, fileEntry, List.map_cons, List.map_nil,
    List.sum_cons, List.sum_nil, MAX_NODE_BYTES]
  omega

def oneFile : List TreeEntry := [fileEntry [0x61, 0x61, 0x61]]

/-- The digest of the one node of `oneFile`. -/
def oneFileDigest : Blake3 := .ofTable [
  ([0x03, 0x01, 0x00, 0x00, 0x00, 0x00, 0x01, 0x03, 0x61, 0x61, 0x61, 0x02, 0x00, 0x00, 0x00, 0x00, 0x00,
    0x00, 0x00, 0x00, 0x00, 0x00, 0x00, 0x00, 0x00, 0x00, 0x00, 0x00, 0x00, 0x00, 0x00, 0x00, 0x00, 0x00,
    0x00, 0x00, 0x00, 0x00, 0x00, 0x00, 0x00, 0x00, 0x00, 0x00, 0x01, 0xa4, 0x00, 0x00, 0x00, 0x00, 0x00,
    0x00, 0x00, 0x01],
    [0x51, 0x66, 0xef, 0x94, 0x6a, 0xe9, 0x03, 0x64, 0x24, 0xbe, 0x14, 0x3f, 0xbb, 0x1a, 0xa0, 0xc1, 0x53,
    0x04, 0x23, 0x6d, 0x91, 0xcb, 0x51, 0xd7, 0xcf, 0x5f, 0x0c, 0x20, 0x61, 0x93, 0x29, 0x70])]

theorem build_tree_exact_one_file :
    ∃ root emitted, build_tree oneFileDigest oneFile PRODUCTION_SHAPE [] = .ok (root, emitted) ∧
      ∀ pair ∈ emitted, Readable oneFileDigest pair := by
  have valid : ∀ entry ∈ oneFile, ValidEntry entry := by
    intro entry member
    rw [List.mem_singleton.mp member]
    refine fileEntry_valid (by decide) (by decide) fun byte letter => ?_
    obtain rfl : byte = 0x61 := by simpa using letter
    decide
  refine (build_tree_exact oneFileDigest oneFile valid (List.pairwise_singleton ..)).mpr ⟨?_, .inl ?_⟩
  next => decide
  next => decide

def longStem : Bytes := List.replicate 253 0x61

/-- 253 times the letter a, then two capital letters that count. -/
def longName (index : Nat) : Bytes :=
  longStem ++ [UInt8.ofNat (0x41 + index / 26), UInt8.ofNat (0x41 + index % 26)]

def longNames : List Bytes := (List.range 439).map longName

/-- `blake3(SPLIT_DOMAIN + bytes([0]) + longName(i)).digest(length=8)` for `i` from 63 on. -/
def longNameDigests : List Nat := [
  0xe2ec4265c6b6b84e, 0x7a263673e3540654, 0x8095be5b1fe90ada, 0x69b7a19b67dddd3c, 0xcdaaf18d4756f233,
  0xf08e93155ccb0897, 0x65bcf80e2da09a9a, 0x52e8b926d720577e, 0x2a74dd155e5f37ce, 0xf48d0240fe3f8e6c,
  0x568eba6606cc5249, 0x4081ae8059e77376, 0x8a63106d8918cfb6, 0x597a9a0ddda361da, 0x59dcc84bb22bc84d,
  0x6a421882263237b4, 0x6713de168261eb87, 0x501414bc235d23fe, 0xe61b05d97688f2a9, 0xdd9bf535c959ba00,
  0x5469c0c4d78cb9da, 0xa79c571d71aa7a1d, 0xf5452591c1b3da30, 0x225beb8cad2952c4, 0x3763d6d0a9ff13b1,
  0x7f08ea06585f1fd7, 0x848739c6dc84c7d0, 0x3533637628a700b9, 0x3755719017ff066b, 0xf8625c9f630eec5e,
  0x9aef16e31d5e91f6, 0x23828a6768dc10fc, 0x1e3cf8d43639c166, 0x301d2c29502d055c, 0x82b0f66c7a10a3fd,
  0x128bc7c53274126d, 0x53adca7edfbdf251, 0xf5c965cf3fac4453, 0xf4b3309428ed77a6, 0x6083af26bb1a887f,
  0x8033fe4d037c8fa6, 0x001babc58468289f, 0x045a7d23330ab295, 0x8dc81c542b27e68f, 0x28f531651c36339d,
  0xbb3d6730c4c069bc, 0x2af976267cc3f89b, 0x67c6368e9fb8c4ca, 0xc962e5d5ddf279f6, 0xff6039f08b25e08d,
  0x273bb0569294e31a, 0xdb12f23a24a755fc, 0x8505162f78027347, 0x436f70ae6eae788d, 0x1bac805464d72db3,
  0xce90a56a854f6884, 0xf2dd46d3074f05dc, 0x712eeaa7d62658b4, 0x7936cec0d0cda53f, 0xdd6da2d583f5b8e3,
  0x5fea1d4a3136360e, 0x9d5635f69321cd8e, 0xa9244c93f25b5cd1, 0x92eb9b08b1ff158e, 0xf21a532a17ff06fb,
  0x21b5571a6940aeda, 0xa99fc31597f7070e, 0x8154e484eeb13e95, 0x1541191401217cf4, 0x611eceb04248ba11,
  0x1a21fe928999f88b, 0xf6a70fa952bb73c6, 0x8e625613322666b5, 0x675974c845c83d21, 0x285fe71cc52aa309,
  0x705dcd68256f6f88, 0x900eb4e2dd3fc532, 0x82abe61015ee1abc, 0x1f7430323c59b60f, 0x4e6587820fcb6396,
  0xed94eab2faca8a9d, 0x80660f04a0e11812, 0x1b6fdded2d7dd4ae, 0xd93875e863b3257f, 0x4e7a558658e2d0d9,
  0xa95464a5826ba271, 0x1bf95df94a0ecbe0, 0xeff1d0a161407d43, 0x2677870fe4d95c6f, 0x99dfdfaca228de95,
  0x9338dc250ab1b88c, 0x29f1e0a43e744f8a, 0x8c003a771337816c, 0x3dde37ebb102d077, 0xe9851fe06a0568f4,
  0x3413ef9396e77849, 0x73648cce4264a5a4, 0x53ddf045fa2c611c, 0xe53040c31dd9dbe8, 0x5970104e031d2553,
  0x6e32d3298950848a, 0x44d2aa139361ad0b, 0xe35f942dbf7479dd, 0xb3862db3f8371262, 0xe4aac5b7cf90aa0a,
  0x083fa51d58ba4014, 0xc47d39d1bba86251, 0xfcf8642b15d2697e, 0xa34221c5ab817054, 0xb146e9a96ea8c536,
  0x0fa4f170d1499fb7, 0x2e154f3420e4f985, 0x80ce9d6d81556506, 0x92ea70ff3e420fb2, 0xa2bed6573efbf5aa,
  0xb427045c402ec6b9, 0x79ea54d6a20767b6, 0xc71b87b3ec8df3db, 0xa025b5a4461d97fd, 0xe31a83ade55cbd8c,
  0x8e5681d9066743e5, 0xffcc6956145bf4a8, 0x0e3596cf3a944a44, 0x8aa6e585ea56f8a9, 0xf73d95f7f5a80570,
  0x3b9e931a1ad45e8e, 0x0bfc10d6916c32c6, 0xdabf079b1c37dce3, 0x5a1ac2bdfcd09ff9, 0x272666f12aecef4a,
  0x10760e515eb6293e, 0xba18ad66e78aba60, 0x6ff71c842c047f9b, 0x9c457f8f70da8649, 0x9d27acd3f0c877c4,
  0x355730d3fbcaf9b8, 0x7c08e22717ad0787, 0x82cb2994ee78a2ca, 0xade2f5047fa0ed58, 0xf785097e14c466ea,
  0x7687068b636630bc, 0x64e6964ac01f0d59, 0xdc5c8c1d7b75a4e1, 0xfb8346ca65530140, 0xd5919180334a6975,
  0xba39b1c2b74a1cc7, 0xa58df439768e5c3e, 0xb7e4339a86b708e4, 0xfd7c6e46d770b342, 0x6d50da8173fac246,
  0xa433b70f255dea74, 0xbc32966724223fb3, 0x2e35c5f81f50c71f, 0x771019982fc5eaef, 0xede16f75cdbeda5f,
  0x9e28f9da91320d73, 0x71e46918490c295f, 0xddaf8fb3c405b8cb, 0x2780ccd1238b073c, 0x117d161e86cba0ab,
  0x919c30f686529cdc, 0xc3a1395e61abcb1a, 0x475e3e5fb4fe2795, 0x1b2bb40da34af837, 0x60324281a0bf8e2f,
  0x7e7a9a01675922bc, 0xc79b50994f35b389, 0xb918a4d0dd7e9293, 0x7a5ea7c70e47b353, 0xc4697d6c149451e2,
  0xb43546f2c201aebf, 0x147651cc3c2f7ad1, 0x1f68e8acd3a823cf, 0x6a069d418270f231, 0x616250232ed26f47,
  0x038e0da11575fee5, 0xd0bc66e0261673ee, 0x22b830fc84cc65c0, 0xe80b0e2fe718145e, 0xe9525e10c0dfa21e,
  0x55215afb739243a5, 0xae69cd773aa0f3a1, 0xd0eed1f9a1cc3c58, 0x2e3efa32dbd33b90, 0xf9f039b3711ce3ba,
  0x1ed76f1031f6494e, 0xa91052e888c160a3, 0x89be54171995bcd3, 0x5a1271ccc227f157, 0xed9dd20a0fd8aaa9,
  0x8f050720367107d4, 0x217999e74352a8fe, 0x27b4f35d7380b48a, 0x5b774e40048e25fb, 0x2af149073f207079,
  0xf4b0e4872dbb33bb, 0x059f322938da2261, 0x2bac77b5852605a1, 0x01a9daeae29e1573, 0xabfcb5e2ebd4181c,
  0x0db4fe175d62c30e, 0x02890dc86c3a7e95, 0x6487ef3a582567e6, 0x824b9520676140b1, 0x3c128007d801ffff,
  0x4fa3964eca255e5e, 0xe34f8138fc28b0b6, 0x2023d00546bdb177, 0x04a824d60c80dfa8, 0xc1725df8c08a7e46,
  0x19d24f3334f059ea, 0x51005205bdae0eba, 0x22aee3a5b2a01c85, 0xd6bad84ea27a7b67, 0x096f6eb12f5cd06c,
  0x422437fa7ebd9bd9, 0x19c09abb240f50e5, 0x766c69086433ef51, 0xbc8d127f1961c3cb, 0x8ea557ec043bc9c7,
  0xa12e4a76459102b1, 0x0411ef3759d1b8aa, 0x2c10868433a52412, 0xa292f9b0ce1072c5, 0x44282de9663d7386,
  0x78d2e409d7932a71, 0x9bd04abc3ddc0d0f, 0xa365df019e3ebd4c, 0x359409edfc607d50, 0xb5532b9aad2ebff2,
  0xebdf3b3a5ad7460a, 0xf87ea5583612e9b1, 0x1429632b4eefebaf, 0x56c4ad8154f62fed, 0x2cd36f4475d84a12,
  0x8db3f48196873750, 0x1322dfa714a16ab7, 0x32276621c7652111, 0x98e27daf549c1581, 0xc60131c861bfe441,
  0xb5737ef7b453b92c, 0x8754b8ac500d0858, 0x0e4d971142accd36, 0x92fa7e4645cfa4c5, 0xd5c23bd2e60b319a,
  0x7727636075a26a79, 0xfa7562f7d130e4b7, 0xaf401c5fce1eda4d, 0xcfdc8d7536e613fc, 0xc1be06aa09ccc812,
  0x66f8ed88e44fdcfc, 0x47b7197376196452, 0x10a38180543d3999, 0xd08f20e080e3d2fc, 0x882d290cbe33d085,
  0xa250bf74368aabfa, 0x9441418b56e996e5, 0xde26230fd9aee88d, 0x5db97207c77edae4, 0x2a6e004063eea657,
  0xfdad447c2e30de36, 0x64af7b2144cfb1e7, 0x19a05cdcb6942de7, 0xf425b9fc87482463, 0xbbc229f9e3f7fda1,
  0x76c5bd4b7e9f5006, 0x0871b123fc5a6351, 0xb021c7e922106f5e, 0x9be6e66b6b91f99a, 0x54b1dffc60204dfa,
  0x4e6901c89d4fd71a, 0x7cd81cd8cb25ce91, 0x14b97b0444ff17b6, 0x5c12641e112a59cd, 0x95e9bb0e609bfb04,
  0x263d7a5086c5b60a, 0xe9debcc79ae04393, 0x46bc6b0325d708ee, 0xb4e9735d4630897e, 0x1d7b64ecd613b037,
  0x9aaadbb72dc14fb9, 0x34752692ead15239, 0x8f5c9488dca62a4b, 0xcfd670fa9445f76d, 0x8c1543f17f70af95,
  0x4a9a26eeaaf29306, 0x4addfa11a9c293fd, 0xb5dd0e1ec4c60f33, 0x05413809a77d457a, 0xa5e0cb86a1bc8f54,
  0x964aa05c39d0ba19, 0x2af6a238c0bc8f31, 0xcbc39d7d45e07cba, 0xd47dbbcc979a5dc2, 0xa2a4b15d365139f9,
  0x357de3fe884c5d08, 0x0051b234db6d7108, 0xc5db2d45eff2ee37, 0x6ea7c1f6faad714c, 0x6dda05bea447c09c,
  0x63152e53eef2b478, 0x6f14df1ba3d63acb, 0xe6327f3250b8166a, 0x738e50fce50072ec, 0xc7f531e5c4b8ba2a,
  0x8a83540328145efd, 0xce0d1162651c2127, 0x4d1ed66b6b584f84, 0x566e6e0a2cb6a6a4, 0xf19b0d11a0da03b6,
  0x2bbf7c2066e75b27, 0x208d6b87d082e7fe, 0x3bfaae50fdcf8a66, 0x73a90ebb0f8383f1, 0x2512566139ad11b9,
  0xfc7839661ceb8b70, 0x5b1a444c97604bef, 0x072ab2231275bafa, 0x71bd4cad86cba966, 0x228e21fe1906b89e,
  0x3f20fa81b705190a, 0x1050b6b980ce5fb0, 0x8ba5835ecc52b90f, 0x1db08a981783d967, 0x9c076be67d94f6cf,
  0x604628935ac7547e, 0x2a9891beea0a515f, 0xebd8d03a2719c584, 0xb1ca734f52f0cba1, 0x78c13c4c9745d47c,
  0x26edd335893ef841, 0x4c02a5e868987f25, 0xcd46487493de45af, 0x33ce91e3ff3c89c4, 0xcb672163324cca97,
  0xd5b93064d79a436c, 0x8499e75e661ddaa5, 0xc9f3f028b7c04e99, 0xed1f7f2bec3cba35, 0x16810c44452337ab,
  0xa477ea8ef9667324, 0xc373072a4413f3c0, 0x7ac96c1e9596bc9e, 0x0702aaf8d9570bdf, 0xaf1785f2eda9457b,
  0x11c84feb66a26377, 0x296969644739163a, 0x5f2314c09c33203a, 0x5231b3f1a266215e, 0xc3e779360551e638,
  0x0dcf8ed28755cd4c, 0x9e3701d06b2fb2aa, 0x1481d4a4969eb7d5, 0x6394dbb83137d943, 0x64bbd7c1137759e4,
  0xa4f737549ec090d8, 0xd8b4911e356410f4, 0xe2ded019726b7c56, 0xbb05d8d82e8ea9c6, 0x29e91bbb71f92b04,
  0x5d3264fcef537133, 0x0bb6c24dd4773005, 0xda616b5d952be74f, 0xda5463b439227c06, 0x39e8a618c25c28c4,
  0x33f97d7a84d0d574, 0xec26ded5356782b0, 0x45ba4f39ff19b73a, 0x650d0024d2588927, 0xc5e9ac6905ce19c5,
  0x740976c6a41e3ffe, 0xfce8d07cb3378cd9, 0xb807a0fbbcfcaf29, 0xa1103200e2d903d0, 0x75ebfe0dc9f66fa5,
  0xcc357cc49aff190e]

/-- BLAKE3 where `is_boundary` asks for the digest of one of `longNames`: they differ in their last two bytes. -/
def longNameBlake3 : Blake3 where
  digest data length :=
    let index := ((data.getD (data.length - 2) 0).toNat - 0x41) * 26 + ((data.getD (data.length - 1) 0).toNat - 0x41)
    (Wire.toBE 8 (longNameDigests.getD (index - 63) 0) ++ List.replicate length 0).take length
  sized data length := by simp

theorem longNameDigests_unbroken : ∀ digest ∈ longNameDigests, digest < 256 ^ 8 ∧ digest % SPLIT_PERIOD ≠ 0 := by
  decide +kernel

theorem longName_length (index : Nat) : (longName index).length = 255 := by
  rw [longName, List.length_append, longStem, List.length_replicate]
  rfl

theorem longName_digest {index : Nat} (bound : index < 439) (front : Bytes) :
    longNameBlake3.digest (front ++ longName index) 8 = Wire.toBE 8 (longNameDigests.getD (index - 63) 0) := by
  have position : ((0x41 + index / 26) % 256 - 0x41) * 26 + ((0x41 + index % 26) % 256 - 0x41) = index := by omega
  rw [longName, ← List.append_assoc]
  generalize front ++ longStem = before
  simp [longNameBlake3, position]

theorem long_names_unbroken : content_scan longNameBlake3 0 longNames = ⟨[], longNames⟩ := by
  apply Runs.scan_open
  intro run initial
  obtain ⟨count, bound, rfl⟩ : ∃ count ≤ 439, run = (List.range count).map longName := by
    have start := List.prefix_iff_eq_take.mp initial
    have bound := initial.length_le
    rw [longNames, List.length_map, List.length_range] at bound
    rw [longNames, ← List.map_take, List.take_range, Nat.min_eq_left bound] at start
    exact ⟨run.length, bound, start⟩
  cases count with
  | zero => decide
  | succ index =>
    have last : ((List.range (index + 1)).map longName).getLast? = some (longName index) := by
      rw [List.range_succ, List.map_append]
      exact List.getLast?_concat
    simp only [content_closes, last, List.length_map, List.length_range, decide_eq_false_iff_not]
    rintro ⟨enough, many | ⟨name, same, boundary⟩⟩
    next => simp only [PRODUCTION_SHAPE, SPLIT_MAX_ENTRIES] at many; omega
    next =>
      obtain rfl := Option.some_inj.mp same
      simp only [PRODUCTION_SHAPE, SPLIT_MIN_ENTRIES] at enough
      have inside : index - 63 < longNameDigests.length := by
        have size : longNameDigests.length = 376 := by decide +kernel
        omega
      have listed : longNameDigests.getD (index - 63) 0 ∈ longNameDigests := by
        rw [List.getD_eq_getElem?_getD, List.getElem?_eq_getElem inside, Option.getD_some]
        exact List.getElem_mem inside
      obtain ⟨small, unbroken⟩ := longNameDigests_unbroken _ listed
      rw [id, longName_digest (by omega), Wire.ofBE_toBE small] at boundary
      exact unbroken boundary

theorem long_names_bytes : run_bytes name_bytes longNames = 439 * 299 := by
  have each : longNames.map name_bytes = List.replicate 439 299 := by
    rw [longNames, List.map_map, List.eq_replicate_iff]
    refine ⟨by simp, ?_⟩
    intro bytes member
    obtain ⟨index, -, rfl⟩ := List.mem_map.mp member
    simp [name_bytes, longName_length]
  rw [run_bytes, each, List.sum_replicate]
  rfl

theorem longNames_ascending : longNames.Pairwise (· < ·) := by
  refine List.pairwise_map.mpr (List.Pairwise.imp_of_mem ?_ List.pairwise_lt_range)
  intro left right leftMember rightMember below
  rw [List.mem_range] at leftMember rightMember
  apply List.append_left_lt
  have byte {value : Nat} (small : value < 26) : (UInt8.ofNat (0x41 + value)).toNat = 0x41 + value := by
    rw [UInt8.toNat_ofNat']
    omega
  have order {low high : Nat} (lowSmall : low < 26) (highSmall : high < 26) :
      UInt8.ofNat (0x41 + low) < UInt8.ofNat (0x41 + high) ↔ low < high := by
    rw [UInt8.lt_iff_toNat_lt, byte lowSmall, byte highSmall]
    omega
  rw [List.cons_lt_cons_iff, List.cons_lt_cons_iff, order (by omega) (by omega), order (by omega) (by omega)]
  rcases Nat.lt_or_ge (left / 26) (right / 26) with first | same
  next => exact .inl first
  next =>
    have equal : left / 26 = right / 26 := by omega
    exact .inr ⟨by rw [equal], .inl (by omega)⟩

/-- 439 files whose names are 255 letters long: no name is a boundary, and the budget closes the node
only when its entries alone exceed the limit of the encoding. -/
theorem long_names_rejected :
    (∀ entry ∈ longNames.map fileEntry, ValidEntry entry) ∧ Ascending (longNames.map fileEntry) ∧
      ¬ ∃ root emitted, build_tree longNameBlake3 (longNames.map fileEntry) PRODUCTION_SHAPE [] = .ok (root, emitted) := by
  have valid : ∀ entry ∈ longNames.map fileEntry, ValidEntry entry := by
    intro entry member
    obtain ⟨name, source, rfl⟩ := List.mem_map.mp member
    obtain ⟨index, inside, rfl⟩ := List.mem_map.mp source
    rw [List.mem_range] at inside
    have length := longName_length index
    refine fileEntry_valid (by omega) (by omega) ?_
    intro byte letter
    rcases List.mem_append.mp letter with stem | counter
    next =>
      rw [List.eq_of_mem_replicate stem]
      decide
    next =>
      simp only [List.mem_cons, List.not_mem_nil, or_false] at counter
      rcases counter with rfl | rfl
      next => rw [UInt8.toNat_ofNat']; omega
      next => rw [UInt8.toNat_ofNat']; omega
  have ascending : Ascending (longNames.map fileEntry) := List.pairwise_map.mpr longNames_ascending
  have names : (longNames.map fileEntry).map TreeEntry.name = longNames := by
    rw [List.map_map]
    exact List.map_id _
  refine ⟨valid, ascending, ?_⟩
  rw [build_tree_succeeds longNameBlake3 valid ascending [], names]
  rintro ⟨fits, -⟩
  have node : content_nodes longNameBlake3 0 longNames = [longNames] := by
    simp only [content_nodes, long_names_unbroken, Nat.lt_irrefl, gt_iff_lt, false_and, if_false]
    split <;> rfl
  have whole := fits longNames (by rw [node]; exact List.mem_singleton.mpr rfl)
  rw [FitsNode, long_names_bytes] at whole
  exact absurd whole (by decide)

end LedgerVcs
