import Mathlib

namespace chfs

/-- `extent_protocol::xxstatus` and `chfs_client::xxstatus`, which agree on the
    values they share. -/
inductive Status where
  | OK | RPCERR | NOENT | IOERR | EXIST
  deriving DecidableEq, Repr

/-- `extent_protocol::types`. -/
inductive FileType where
  | T_DIR | T_FILE | T_SYMBOLIC
  deriving DecidableEq, Repr

/-- The value of an enumerator. -/
def FileType.code : FileType → UInt32
  | T_DIR => 1
  | T_FILE => 2
  | T_SYMBOLIC => 3

/-- An inode stores the type as a `short`. -/
theorem FileType.stored_code (type : FileType) :
    type.code.toUInt16.toInt16.toInt32.toUInt32 = type.code ∧ type.code.toUInt16.toInt16 ≠ 0 := by
  cases type <;> decide

theorem FileType.code_ne_zero (type : FileType) : type.code ≠ 0 := by
  cases type <;> decide

theorem FileType.code_inj {type type' : FileType} (h : type.code = type'.code) : type = type' := by
  cases type <;> cases type' <;> first | rfl | exact absurd h (by decide)

/-- `struct extent_protocol::attr`. -/
structure Attr where
  type : UInt32
  atime : UInt32
  mtime : UInt32
  ctime : UInt32
  size : UInt32
  deriving DecidableEq, Repr

/-- `memset(&attr, 0, sizeof(attr))`. -/
def Attr.zero : Attr := { type := 0, atime := 0, mtime := 0, ctime := 0, size := 0 }

end chfs
