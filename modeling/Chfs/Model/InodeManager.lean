import Chfs.Model.ExtentProtocol
import Chfs.Model.Inode

namespace chfs

/-- The inode layer. -/
structure InodeManager where
  bm : BlockManager
  last_alloced : UInt32
  env : Env
  /-- Ghost: how many calls of `alloc_inode` returned 0. -/
  failed_allocs : Nat

namespace InodeManager

def time (im : InodeManager) : UInt32 × InodeManager :=
  let (now, env) := im.env.time
  (now, { im with env })

def malloc (im : InodeManager) : Mem × InodeManager :=
  let (m, env) := im.env.malloc
  (m, { im with env })

/-- The inode stored for `inum`, unless its type is 0. -/
def get_inode (im : InodeManager) (inum : UInt32) : Option Inode :=
  if INODE_NUM < inum.toNat then none
  else
    let buf := im.bm.read_block (IBLOCK inum) Mem.zero
    let ino := Inode.load (buf.shift (Inode.sizeof * (inum.toNat % IPB)))
    if ino.type = 0 then none else some ino

/-- Stores the inode in its block. The buffer starts uninitialised, but the
    read fills all of it. -/
def put_inode (im : InodeManager) (inum : UInt32) (ino : Inode) : InodeManager :=
  let buf := im.bm.read_block (IBLOCK inum) Mem.zero
  let buf := ino.store buf (Inode.sizeof * (inum.toNat % IPB))
  { im with bm := im.bm.write_block (IBLOCK inum) buf }

/-- The inum that round `i` of the search in `alloc_inode` looks at. -/
def to_alloc (last_alloced : UInt32) (i : Nat) : UInt32 :=
  if UInt32.ofNat INODE_NUM ≤ UInt32.ofNat i + last_alloced then
    (UInt32.ofNat i + last_alloced) % UInt32.ofNat INODE_NUM + 1
  else UInt32.ofNat i + last_alloced

/-- Creates an empty inode and returns its inum, or 0 when the search finds no free one. -/
def alloc_inode (im : InodeManager) (type : UInt32) : UInt32 × InodeManager :=
  let (now, im) := im.time
  let new_node : Inode :=
    { type := type.toUInt16.toInt16, size := 0, atime := now, mtime := now, ctime := now,
      blocks := fun _ => 0 }
  match (List.range' 1 INODE_NUM).find?
      (fun i => (im.get_inode (to_alloc im.last_alloced i)).isNone) with
  | some i =>
    let inum := to_alloc im.last_alloced i
    (inum, { im.put_inode inum new_node with last_alloced := inum })
  | none => (0, { im with failed_allocs := im.failed_allocs + 1 })

/-- `new inode_manager()` on memory where `_last_alloced` happens to hold
    `garbage`: the field is assigned only after `alloc_inode` has read it. -/
def new (garbage : UInt32) (env : Env) : Result InodeManager :=
  let im : InodeManager :=
    { bm := BlockManager.new, last_alloced := garbage, env, failed_allocs := 0 }
  let (root_dir, im) := im.alloc_inode FileType.T_DIR.code
  let im := { im with last_alloced := 0 }
  if root_dir ≠ 1 then .error .exited else .ok im

/-- Clears the block of a live inode. -/
def free_inode (im : InodeManager) (inum : UInt32) : InodeManager :=
  if INODE_NUM < inum.toNat then im
  else
    match im.get_inode inum with
    | none => im
    | some _ => { im with bm := im.bm.write_block (IBLOCK inum) Mem.zero }

/-- `*((uint32_t *)table + i)` for a table of `BLOCK_SIZE` bytes. -/
def entry (table : Mem) (i : Nat) : Result blockid_t :=
  if i < NINDIRECT then .ok (table.word i) else .error .out_of_bounds

/-- The indirect table and the number of its entries, taken from the length of
    the block as a string. A block without a zero byte is read past its end. -/
def get_indirect_blocks (bm : BlockManager) (heap : Mem) (node : Inode) : Result (Mem × Nat) :=
  let buf := bm.read_block (node.block NDIRECT) heap
  match buf.strlen BLOCK_SIZE with
  | some n => .ok (buf, n / 4)
  | none => .error .out_of_bounds

/-- The loop of `free_indirect_blocks` over `n` entries from `i` on. -/
def free_entries : (n i : Nat) → BlockManager → (blocks : Mem) → Result (BlockManager × Mem)
  | 0, _, bm, blocks => .ok (bm, blocks)
  | n + 1, i, bm, blocks => do
    let id ← entry blocks i
    let bm ← bm.free_block id
    free_entries n (i + 1) bm (blocks.setWord i 0)

def free_indirect_blocks (bm : BlockManager) (heap : Mem) (node : Inode) (begin_block : Nat) :
    Result (BlockManager × Inode) := do
  let block_count :=
    if BLOCK_SIZE * NDIRECT ≤ node.size.toNat then
      (node.size.toNat - 1) / BLOCK_SIZE + 1 - NDIRECT
    else 0
  let blocks := bm.read_block (node.block NDIRECT) heap
  let (bm, blocks) ← free_entries (block_count - begin_block) begin_block bm blocks
  if begin_block = 0 then
    let bm ← bm.free_block (node.block NDIRECT)
    return (bm, node.set_block NDIRECT 0)
  else
    return (bm.write_block (node.block NDIRECT) blocks, node)

/-- `memcpy(*buf_out + off, buf, n)` into a buffer of `block_count` blocks. -/
def copy_out (block_count : Nat) (buf_out : Mem) (off : Nat) (buf : Mem) (n : Nat) : Result Mem :=
  if off + n ≤ block_count * BLOCK_SIZE then .ok (Mem.memcpy buf_out off buf n)
  else .error .out_of_bounds

/-- The loop of `read_file` over the `n` direct slots from `i` on. The result
    starts with the value of `i` on leaving the loop. -/
def read_direct (block_count remain_size : Nat) (node : Inode) :
    (n i : Nat) → BlockManager → (buf_out : Mem) → Result (Nat × BlockManager × Mem)
  | 0, i, bm, buf_out => .ok (i, bm, buf_out)
  | n + 1, i, bm, buf_out => do
    let block_id := node.block i
    let (valid, bm) := bm.is_valid_block block_id
    if valid then
      let buf := bm.read_block block_id Mem.zero
      if i = block_count - 1 ∧ remain_size ≠ 0 then
        let buf_out ← copy_out block_count buf_out (i * BLOCK_SIZE) buf remain_size
        return (i, bm, buf_out)
      let buf_out ← copy_out block_count buf_out (i * BLOCK_SIZE) buf BLOCK_SIZE
      read_direct block_count remain_size node n (i + 1) bm buf_out
    else
      read_direct block_count remain_size node n (i + 1) bm buf_out

/-- The loop of `read_file` over the `n` entries of the indirect table from `i` on. -/
def read_indirect (block_count remain_size : Nat) (indirect_blocks : Mem) :
    (n i : Nat) → BlockManager → (buf_out : Mem) → Result (BlockManager × Mem)
  | 0, _, bm, buf_out => .ok (bm, buf_out)
  | n + 1, i, bm, buf_out => do
    let block_id ← entry indirect_blocks i
    let (valid, bm) := bm.is_valid_block block_id
    if valid then
      let indirect_buf := bm.read_block block_id Mem.zero
      if i + NDIRECT = block_count - 1 ∧ remain_size ≠ 0 then
        let buf_out ←
          copy_out block_count buf_out ((i + NDIRECT) * BLOCK_SIZE) indirect_buf remain_size
        return (bm, buf_out)
      let buf_out ←
        copy_out block_count buf_out ((i + NDIRECT) * BLOCK_SIZE) indirect_buf BLOCK_SIZE
      read_indirect block_count remain_size indirect_blocks n (i + 1) bm buf_out
    else
      read_indirect block_count remain_size indirect_blocks n (i + 1) bm buf_out

/-- Reads a whole file. The answer is what `*buf_out` points at and `*size`,
    or nothing where the code leaves `*buf_out` alone and the size 0. -/
def read_file (im : InodeManager) (inum : UInt32) : Result (Option (Mem × Nat) × InodeManager) := do
  if INODE_NUM < inum.toNat then
    return (none, im)
  match im.get_inode inum with
  | none => return (none, im)
  | some node =>
    let size := node.size.toNat
    let block_count := size / BLOCK_SIZE
    let block_count :=
      if size % BLOCK_SIZE ≠ 0 ∨ block_count = 0 then block_count + 1 else block_count
    let remain_size := size % BLOCK_SIZE
    -- `block_count * BLOCK_SIZE` is computed in `int`
    if 2 ^ 31 ≤ block_count * BLOCK_SIZE then
      throw .int_overflow
    let (buf_out, im) := im.malloc
    let (i, bm, buf_out) ← read_direct block_count remain_size node NDIRECT 0 im.bm buf_out
    let (valid, bm) := if i = NDIRECT then bm.is_valid_block (node.block NDIRECT) else (false, bm)
    let (bm, buf_out) ←
      if valid then
        let indirect_blocks := bm.read_block (node.block NDIRECT) Mem.zero
        read_indirect block_count remain_size indirect_blocks (block_count - NDIRECT) 0 bm buf_out
      else
        pure (bm, buf_out)
    let (now, im) := { im with bm }.time
    return (some (buf_out, size), im.put_inode inum { node with atime := now })

/-- `if(!bm->is_valid_block(id)) id = bm->alloc_block()`. -/
def ensure_block (bm : BlockManager) (id : blockid_t) : blockid_t × BlockManager :=
  let (valid, bm) := bm.is_valid_block id
  if valid then (id, bm) else bm.alloc_block

/-- The variables of `write_file` that its loops change. -/
structure WriteState where
  bm : BlockManager
  node : Inode
  indirect_blocks : Mem
  arr_for_remain : Mem
  i : Nat
  pos : Nat

/-- One round of the loop of `write_file` over the direct slots. -/
def direct_round (buf : Mem) (size : Int) (s : WriteState) : WriteState :=
  let (id, bm) := ensure_block s.bm (s.node.block s.i)
  let s := { s with bm, node := s.node.set_block s.i id }
  let s :=
    if s.pos + BLOCK_SIZE > size then
      let arr := Mem.memcpy s.arr_for_remain 0 (buf.shift s.pos) (size - s.pos).toNat
      { s with bm := s.bm.write_block id arr, arr_for_remain := arr }
    else s
  let s := { s with bm := s.bm.write_block id (buf.shift s.pos) }
  { s with pos := s.pos + BLOCK_SIZE, i := s.i + 1 }

/-- The loop of `write_file` over the `n` direct slots from `i` on. -/
def write_direct (buf : Mem) (size : Int) : (n : Nat) → WriteState → WriteState
  | 0, s => s
  | n + 1, s =>
    if s.pos < size then write_direct buf size n (direct_round buf size s) else s

/-- The allocation at the start of a round of the loop over the indirect table. -/
def ensure_entry (s : WriteState) : WriteState :=
  let (id, bm) := ensure_block s.bm (s.indirect_blocks.word s.i)
  { s with bm, indirect_blocks := s.indirect_blocks.setWord s.i id }

/-- The loop of `write_file` over the `n` entries of the indirect table from `i` on. -/
def write_entries (buf : Mem) (size : Int) : (n : Nat) → WriteState → WriteState
  | 0, s => s
  | n + 1, s =>
    if s.pos < size then
      let s := ensure_entry s
      let id := s.indirect_blocks.word s.i
      if s.pos + BLOCK_SIZE > size then
        let arr := Mem.memcpy s.arr_for_remain 0 (buf.shift s.pos) (size - s.pos).toNat
        { s with bm := s.bm.write_block id arr, arr_for_remain := arr }
      else
        let s := { s with bm := s.bm.write_block id (buf.shift s.pos) }
        write_entries buf size n { s with pos := s.pos + BLOCK_SIZE, i := s.i + 1 }
    else s

/-- The part of `write_file` that handles the indirect blocks. -/
def write_indirect (buf : Mem) (size : Int) (s : WriteState) : WriteState :=
  if s.pos < size ∧ s.i = NDIRECT then
    let (valid, bm) := s.bm.is_valid_block (s.node.block NDIRECT)
    let s :=
      if valid then
        { s with bm, indirect_blocks := bm.read_block (s.node.block NDIRECT) Mem.zero }
      else
        let (id, bm) := bm.alloc_block
        { s with bm, node := s.node.set_block NDIRECT id, indirect_blocks := Mem.zero }
    let s := write_entries buf size NINDIRECT { s with i := 0 }
    { s with bm := s.bm.write_block (s.node.block NDIRECT) s.indirect_blocks }
  else s

/-- The loop of `write_file` that frees at most `n` direct slots from `i` on.
    The result starts with the value of `i` on leaving the loop. -/
def free_direct : (n i : Nat) → BlockManager → Inode → Result (Nat × BlockManager × Inode)
  | 0, i, bm, node => .ok (i, bm, node)
  | n + 1, i, bm, node => do
    let (valid, bm) := bm.is_valid_block (node.block i)
    if valid then
      let bm ← bm.free_block (node.block i)
      free_direct n (i + 1) bm (node.set_block i 0)
    else
      return (i, bm, node)

/-- `(node->size - 1) / BLOCK_SIZE + 1`, and 1 for an empty file. -/
def pre_block_num (node : Inode) : Nat :=
  if node.size = 0 then 1 else (node.size.toNat - 1) / BLOCK_SIZE + 1

/-- `(size - 1) / BLOCK_SIZE + 1`, where the division of an `int` rounds towards zero. -/
def used_block_num (size : Int) : Int := (size - 1).tdiv BLOCK_SIZE + 1

/-- The part of `write_file` that frees the blocks the new size does not need. -/
def free_unused (im : InodeManager) (node : Inode) (pre_block_num : Nat) (used_block_num : Int) :
    Result (InodeManager × Inode) := do
  -- the first round of the loop reads `node->blocks[used_block_num]`
  if used_block_num < 0 then
    throw .out_of_bounds
  let used := used_block_num.toNat
  let (i, bm, node) ← free_direct (min NDIRECT pre_block_num - used) used im.bm node
  let im := { im with bm }
  if NDIRECT ≤ i ∧ NDIRECT < pre_block_num then
    let (heap, im) := im.malloc
    let (bm, node) ← free_indirect_blocks im.bm heap node (i - NDIRECT)
    let node := if i - NDIRECT = 0 then node.set_block NDIRECT 0 else node
    return ({ im with bm }, node)
  return (im, node)

/-- Replaces the contents of a file by the `size` bytes at `buf`. -/
def write_file (im : InodeManager) (inum : UInt32) (buf : Mem) (size : Int) :
    Result InodeManager := do
  match im.get_inode inum with
  | none => return im
  | some node =>
    let pre := pre_block_num node
    let s := write_direct buf size NDIRECT
      { bm := im.bm, node, indirect_blocks := Mem.zero, arr_for_remain := Mem.zero, i := 0, pos := 0 }
    let s := write_indirect buf size s
    let (im, node) ← free_unused { im with bm := s.bm } s.node pre (used_block_num size)
    let (atime, im) := im.time
    let (ctime, im) := im.time
    let (mtime, im) := im.time
    return im.put_inode inum { node with size := UInt32.ofInt size, atime, ctime, mtime }

/-- The attributes of a live inode; `a` comes back unchanged for any other inum. -/
def get_attr (im : InodeManager) (inum : UInt32) (a : Attr) : Attr :=
  if INODE_NUM < inum.toNat then a
  else
    match im.get_inode inum with
    | none => a
    | some node =>
      { type := node.type.toInt32.toUInt32, atime := node.atime, ctime := node.ctime,
        mtime := node.mtime, size := node.size }

/-- The loop of `remove_file` over the `n` direct slots from `i` on. It yields `free_size`. -/
def remove_direct (node : Inode) :
    (n i : Nat) → (free_size : Nat) → BlockManager → Result (Nat × BlockManager)
  | 0, _, free_size, bm => .ok (free_size, bm)
  | n + 1, i, free_size, bm => do
    if free_size < node.size.toNat then
      let (valid, bm) := bm.is_valid_block (node.block i)
      if valid then
        let bm ← bm.free_block (node.block i)
        remove_direct node n (i + 1) (free_size + BLOCK_SIZE) bm
      else
        return (free_size, bm)
    else
      return (free_size, bm)

/-- The loop of `remove_file` over the `n` entries of the indirect table from `i` on. -/
def remove_indirect (node : Inode) (indirect_blocks : Mem) :
    (n i : Nat) → (free_size : Nat) → BlockManager → Result (Nat × BlockManager)
  | 0, _, free_size, bm => .ok (free_size, bm)
  | n + 1, i, free_size, bm => do
    if free_size < node.size.toNat then
      let id ← entry indirect_blocks i
      let (valid, bm) := bm.is_valid_block id
      if valid then
        let bm ← bm.free_block id
        remove_indirect node indirect_blocks n (i + 1) (free_size + BLOCK_SIZE) bm
      else
        return (free_size, bm)
    else
      return (free_size, bm)

/-- Gives the blocks of a file and its inode back. -/
def remove_file (im : InodeManager) (inum : UInt32) : Result InodeManager := do
  if INODE_NUM < inum.toNat then
    return im
  match im.get_inode inum with
  | none => return im
  | some node =>
    let (free_size, bm) ← remove_direct node NDIRECT 0 0 im.bm
    let im := { im with bm }
    let im ←
      if free_size < node.size.toNat then do
        let (heap, im) := im.malloc
        let (indirect_blocks, indirect_block_num) ← get_indirect_blocks im.bm heap node
        let (_, bm) ← remove_indirect node indirect_blocks indirect_block_num 0 free_size im.bm
        let bm ← bm.free_block (node.block NDIRECT)
        pure { im with bm }
      else
        pure im
    return im.free_inode inum

end InodeManager

end chfs
