import LedgerVcs.Format.Model

set_option autoImplicit false

namespace LedgerVcs

open Wire (Bytes)

def FORMAT_VERSION : UInt8 := 1

def MODE_REGULAR : Int := 0o644

def MODE_EXEC : Int := 0o755

def MAX_ENTRY_NAME_BYTES : Nat := 255

def MAX_CHUNK_BYTES : Nat := 4 * (1024 * 1024)

/-- `b"ledger.tree.split.v1"` -/
def SPLIT_DOMAIN : Bytes :=
  [0x6c, 0x65, 0x64, 0x67, 0x65, 0x72, 0x2e, 0x74, 0x72, 0x65, 0x65, 0x2e, 0x73, 0x70, 0x6c, 0x69, 0x74,
    0x2e, 0x76, 0x31]

def SPLIT_PERIOD : Nat := 448

def SPLIT_MIN_ENTRIES : Nat := 64

def SPLIT_MAX_ENTRIES : Nat := 2048

def MAX_NODE_BYTES : Nat := 128 * 1024

end LedgerVcs
