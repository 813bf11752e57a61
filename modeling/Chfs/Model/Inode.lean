import Chfs.Model.BlockManager

namespace chfs

def NDIRECT : Nat := 100

/-- `BLOCK_SIZE / sizeof(uint)`. -/
def NINDIRECT : Nat := BLOCK_SIZE / 4

def MAXFILE : Nat := NDIRECT + NINDIRECT

@[simp] theorem NDIRECT_eq : NDIRECT = 100 := rfl

@[simp] theorem NINDIRECT_eq : NINDIRECT = 128 := rfl

/-- `struct inode`. -/
structure Inode where
  type : Int16
  size : UInt32
  atime : UInt32
  mtime : UInt32
  ctime : UInt32
  blocks : Fin (NDIRECT + 1) → blockid_t

namespace Inode

/-- `node->blocks[i]`. -/
def block (node : Inode) (i : Nat) : blockid_t :=
  if h : i < NDIRECT + 1 then node.blocks ⟨i, h⟩ else 0

/-- `node->blocks[i] = id`. -/
def set_block (node : Inode) (i : Nat) (id : blockid_t) : Inode :=
  { node with blocks := fun j => if j.val = i then id else node.blocks j }

/-- `sizeof(struct inode)`: the type with its padding, four integers and the pointers. -/
def sizeof : Nat := 4 * (5 + (NDIRECT + 1))

/-- The 32-bit words the structure occupies. The two bytes of padding after the
    type are copied with the structure and are zero, as `bzero` left them. -/
def words (node : Inode) : Nat → UInt32
  | 0 => node.type.toUInt16.toUInt32
  | 1 => node.size
  | 2 => node.atime
  | 3 => node.mtime
  | 4 => node.ctime
  | i + 5 => node.block i

/-- Read a structure through a pointer. -/
def load (m : Mem) : Inode where
  type := (m.word 0).toUInt16.toInt16
  size := m.word 1
  atime := m.word 2
  mtime := m.word 3
  ctime := m.word 4
  blocks := fun i => m.word (i + 5)

/-- Assign a structure through the pointer `m + off`. -/
def store (node : Inode) (m : Mem) (off : Nat) : Mem :=
  Mem.memcpy m off (fun p => Mem.byteOf (node.words (p / 4)) (p % 4)) sizeof

@[simp] theorem sizeof_eq : sizeof = 424 := rfl

theorem word_store (node : Inode) (m : Mem) {off i : Nat} (hi : i < 106) :
    ((node.store m off).shift off).word i = node.words i := by
  apply Mem.word_of_bytes
  intro k hk
  have hdiv : (4 * i + k) / 4 = i := by omega
  have hmod : (4 * i + k) % 4 = k := by omega
  rw [Mem.shift_apply, store, Mem.memcpy_inside (by omega) (by simp; omega)]
  simp [hdiv, hmod]

theorem block_blocks (node : Inode) (i : Fin (NDIRECT + 1)) : node.block i = node.blocks i := by
  simp only [block, i.isLt, ↓reduceDIte]

/-- A structure read back from where it was stored is the one stored. -/
@[simp] theorem load_store (node : Inode) (m : Mem) (off : Nat) :
    load ((node.store m off).shift off) = node := by
  have hblocks : (fun i : Fin (NDIRECT + 1) => ((node.store m off).shift off).word (i + 5)) = node.blocks := by
    funext i
    have hi : i.val < NDIRECT + 1 := i.isLt
    rw [word_store node m (by simp at hi; omega)]
    exact node.block_blocks i
  simp only [load, hblocks, word_store node m (show 0 < 106 by decide),
    word_store node m (show 1 < 106 by decide), word_store node m (show 2 < 106 by decide),
    word_store node m (show 3 < 106 by decide), word_store node m (show 4 < 106 by decide), words]
  simp

theorem block_set_block_same (node : Inode) {i : Nat} (hi : i ≤ 100) (id : blockid_t) :
    (node.set_block i id).block i = id := by
  have h : i < NDIRECT + 1 := by simp; omega
  simp only [block, set_block, h, ↓reduceDIte, ↓reduceIte]

theorem block_set_block_ne (node : Inode) {i j : Nat} (hne : j ≠ i) (id : blockid_t) :
    (node.set_block i id).block j = node.block j := by
  simp only [block, set_block, hne, ↓reduceIte]

theorem set_block_eq_self (node : Inode) {i : Nat} (hi : i ≤ 100) {id : blockid_t} (h : node.block i = id) :
    node.set_block i id = node := by
  have hlt : i < NDIRECT + 1 := by simp; omega
  rw [block, dif_pos hlt] at h
  have hblocks : (fun j : Fin (NDIRECT + 1) => if j.val = i then id else node.blocks j) = node.blocks := by
    funext j
    split
    · next hj =>
      obtain rfl : j = ⟨i, hlt⟩ := Fin.ext hj
      exact h.symm
    · rfl
  rw [set_block, hblocks]

@[simp] theorem type_set_block (node : Inode) (i : Nat) (id : blockid_t) :
    (node.set_block i id).type = node.type := rfl

@[simp] theorem size_set_block (node : Inode) (i : Nat) (id : blockid_t) :
    (node.set_block i id).size = node.size := rfl

end Inode

/-- What the program reads from its surroundings: the successive results of
    `time(NULL)`, and the contents of the successive pieces of memory it
    looks at without having written them. -/
structure Env where
  clock : Nat → Nat
  heap : Nat → Mem

namespace Env

/-- `(unsigned int)time(NULL)`. -/
def time (env : Env) : UInt32 × Env :=
  (UInt32.ofNat (env.clock 0), { env with clock := fun n => env.clock (n + 1) })

/-- Fresh memory, with whatever it holds. -/
def malloc (env : Env) : Mem × Env :=
  (env.heap 0, { env with heap := fun n => env.heap (n + 1) })

end Env

end chfs
