import Chfs.Lib.Memory

namespace chfs

def DISK_SIZE : Nat := 1024 * 1024 * 16

def BLOCK_SIZE : Nat := 512

def BLOCK_NUM : Nat := DISK_SIZE / BLOCK_SIZE

@[simp] theorem BLOCK_SIZE_eq : BLOCK_SIZE = 512 := rfl

@[simp] theorem BLOCK_NUM_eq : BLOCK_NUM = 32768 := rfl

/-- The ways a call ends other than by returning to its caller. -/
inductive Fault where
  /-- An assertion fails, such as `assert(using_blocks[id] == 1)` in `free_block`. -/
  | assertion_failed
  /-- An array, an indirect table or a heap buffer is accessed outside its bounds. -/
  | out_of_bounds
  /-- A signed computation leaves the range of `int`. -/
  | int_overflow
  /-- `std::string` throws `std::out_of_range`. -/
  | out_of_range
  /-- The constructor of `inode_manager` calls `exit(0)`. -/
  | exited
  /-- A loop never comes to an end. -/
  | endless
  deriving DecidableEq, Repr

abbrev Result (α : Type) := Except Fault α

abbrev blockid_t := UInt32

/-- `unsigned char blocks[BLOCK_NUM][BLOCK_SIZE]`. -/
structure Disk where
  blocks : Fin BLOCK_NUM → Fin BLOCK_SIZE → UInt8

namespace Disk

/-- The constructor clears the whole disk. -/
def new : Disk := ⟨fun _ _ => 0⟩

/-- Copies the block to `buf`; a block number past the disk leaves `buf` alone. -/
def read_block (d : Disk) (id : blockid_t) (buf : Mem) : Mem :=
  if h : id.toNat < BLOCK_NUM then
    fun p => if hp : p < BLOCK_SIZE then d.blocks ⟨id.toNat, h⟩ ⟨p, hp⟩ else buf p
  else buf

/-- Copies `BLOCK_SIZE` bytes from `buf`, whatever the size of the object there. -/
def write_block (d : Disk) (id : blockid_t) (buf : Mem) : Disk :=
  if id.toNat < BLOCK_NUM then
    ⟨fun row p => if row = id.toNat then buf p else d.blocks row p⟩
  else d

/-- The contents of a block, with zeros for what lies outside the disk. -/
def data (d : Disk) (id : blockid_t) : Mem := d.read_block id Mem.zero

theorem data_of_size_le (d : Disk) (id : blockid_t) {p : Nat} (hp : 512 ≤ p) :
    d.data id p = 0 := by
  have hnot : ¬ p < 512 := by omega
  by_cases h : id.toNat < 32768 <;> simp [data, read_block, h, hnot]

theorem read_block_apply (d : Disk) {id : blockid_t} (hid : id.toNat < 32768) (buf : Mem) (p : Nat) :
    d.read_block id buf p = if p < 512 then d.data id p else buf p := by
  by_cases hp : p < 512 <;> simp [data, read_block, hid, hp]

theorem data_write_block_same (d : Disk) {id : blockid_t} (hid : id.toNat < 32768) (buf : Mem)
    {p : Nat} (hp : p < 512) : (d.write_block id buf).data id p = buf p := by
  simp [data, read_block, write_block, hid, hp]

theorem data_write_block_ne (d : Disk) {id other : blockid_t} (h : other ≠ id) (buf : Mem) :
    (d.write_block id buf).data other = d.data other := by
  funext p
  by_cases hid : id.toNat < 32768
  · by_cases hother : other.toNat < 32768
    · have hne : other.toNat ≠ id.toNat := fun heq => h (UInt32.toNat_inj.mp heq)
      simp [data, read_block, write_block, hid, hother, hne]
      rfl
    · simp [data, read_block, hother]
  · simp [write_block, hid]

@[simp] theorem data_new (id : blockid_t) : new.data id = Mem.zero := by
  funext p
  by_cases hid : id.toNat < 32768 <;> by_cases hp : p < 512 <;>
    simp [data, read_block, new, hid, hp]

end Disk

end chfs
