import Chfs.Lib.Trace
import Chfs.Model.Disk

namespace chfs

def INODE_NUM : Nat := 1024

/-- Inodes per block. -/
def IPB : Nat := 1

/-- Bitmap bits per block. -/
def BPB : Nat := BLOCK_SIZE * 8

/-- `sb.nblocks`: the constructor of `block_manager` sets the superblock and
    nothing changes it afterwards. -/
def nblocks : Nat := BLOCK_NUM

/-- The block containing inode `i`. -/
def IBLOCK (i : UInt32) : blockid_t :=
  UInt32.ofNat (nblocks / BPB) + i / UInt32.ofNat IPB + 3

@[simp] theorem INODE_NUM_eq : INODE_NUM = 1024 := rfl

theorem IBLOCK_toNat {i : UInt32} (hi : i.toNat ≤ 1024) : (IBLOCK i).toNat = i.toNat + 11 := by
  have hone : UInt32.ofNat IPB = 1 := rfl
  have height : UInt32.ofNat (nblocks / BPB) = 8 := rfl
  simp only [IBLOCK, hone, height, UInt32.div_one, UInt32.toNat_add]
  simp
  omega

/-- The block layer. `using_blocks` is a `std::map` from block numbers to `int`. -/
structure BlockManager where
  d : Disk
  using_blocks : blockid_t → Option Int
  /-- Ghost: how many calls of `alloc_block` returned 0. -/
  failed_allocs : Nat

namespace BlockManager

def new : BlockManager := { d := Disk.new, using_blocks := fun _ => none, failed_allocs := 0 }

def read_block (bm : BlockManager) (id : blockid_t) (buf : Mem) : Mem := bm.d.read_block id buf

def write_block (bm : BlockManager) (id : blockid_t) (buf : Mem) : BlockManager :=
  { bm with d := bm.d.write_block id buf }

/-- `using_blocks[id] = v`. -/
def set_using (bm : BlockManager) (id : blockid_t) (v : Int) : BlockManager :=
  { bm with using_blocks := fun b => if b = id then some v else bm.using_blocks b }

/-- Whether a block is in use. Looking an absent key up with `operator[]`
    inserts it with the value 0. -/
def is_valid_block (bm : BlockManager) (id : blockid_t) : Bool × BlockManager :=
  if BLOCK_NUM ≤ id.toNat then (false, bm)
  else
    match bm.using_blocks id with
    | some v => (v == 1, bm)
    | none => (false, bm.set_using id 0)

/-- `!using_blocks.count(i) || using_blocks[i] == 0`. -/
def is_free (bm : BlockManager) (i : Nat) : Bool :=
  match bm.using_blocks (UInt32.ofNat i) with
  | some v => v == 0
  | none => true

/-- The first block `alloc_block` considers. -/
def first_data_block : Nat := (IBLOCK (UInt32.ofNat INODE_NUM)).toNat + 1

/-- Hands out the first free block after the inode table, or 0 when there is none. -/
def alloc_block (bm : BlockManager) : blockid_t × BlockManager :=
  match (List.range' first_data_block (BLOCK_NUM - first_data_block)).find? bm.is_free with
  | some i => (UInt32.ofNat i, bm.set_using (UInt32.ofNat i) 1)
  | none => (0, { bm with failed_allocs := bm.failed_allocs + 1 })

/-- Clears the block on disk, then gives it back. -/
def free_block (bm : BlockManager) (id : blockid_t) : Result BlockManager :=
  if BLOCK_NUM ≤ id.toNat then .ok bm
  else
    let bm := bm.write_block id Mem.zero
    if bm.using_blocks id = some 1 then .ok (bm.set_using id 0) else .error .assertion_failed

end BlockManager

end chfs
