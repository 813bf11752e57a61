import Chfs.Blocks.InUse
import Chfs.Model.InodeManager

namespace chfs

theorem IBLOCK_inj {i j : UInt32} (hi : i.toNat ≤ 1024) (hj : j.toNat ≤ 1024)
    (h : IBLOCK i = IBLOCK j) : i = j := by
  have hval := congrArg UInt32.toNat h
  rw [IBLOCK_toNat hi, IBLOCK_toNat hj] at hval
  exact UInt32.toNat_inj.mp (by omega)

/-- The inode table and the data region do not overlap. -/
theorem DataBlock.ne_IBLOCK {id : blockid_t} (h : DataBlock id) {i : UInt32} (hi : i.toNat ≤ 1024) :
    id ≠ IBLOCK i := by
  rintro rfl
  have hlo := h.1
  rw [IBLOCK_toNat hi] at hlo
  omega

theorem IBLOCK_ne_zero {i : UInt32} (hi : i.toNat ≤ 1024) : IBLOCK i ≠ 0 := by
  intro h
  have hval := congrArg UInt32.toNat h
  rw [IBLOCK_toNat hi] at hval
  simp at hval

namespace InodeManager

open BlockManager

/-- What `get_inode` reads is the block of the inode. -/
theorem get_inode_eq (im : InodeManager) {inum : UInt32} (hinum : inum.toNat ≤ 1024) :
    im.get_inode inum =
      if (Inode.load (im.bm.data (IBLOCK inum))).type = 0 then none
      else some (Inode.load (im.bm.data (IBLOCK inum))) := by
  have hnot : ¬ INODE_NUM < inum.toNat := by
    simp
    omega
  have hshift : ∀ m : Mem, m.shift (Inode.sizeof * (inum.toNat % IPB)) = m := by
    intro m
    funext p
    simp [IPB, Nat.mod_one]
  simp only [get_inode, hnot, ↓reduceIte, hshift, read_block_zero]

theorem get_inode_large (im : InodeManager) {inum : UInt32} (hinum : 1024 < inum.toNat) :
    im.get_inode inum = none := if_pos (by simpa using hinum)

/-- Live inodes have inums of the table. -/
theorem live_le {im : InodeManager} {inum : UInt32} {node : Inode}
    (h : im.get_inode inum = some node) : inum.toNat ≤ 1024 := by
  by_contra hlarge
  rw [im.get_inode_large (by omega)] at h
  cases h

theorem live_type {im : InodeManager} {inum : UInt32} {node : Inode}
    (h : im.get_inode inum = some node) : node.type ≠ 0 := by
  rw [im.get_inode_eq (live_le h)] at h
  split at h
  · cases h
  · next htype =>
    cases h
    exact htype

/-- An inode depends on its own block only. -/
theorem get_inode_congr {im im' : InodeManager} {inum : UInt32}
    (h : inum.toNat ≤ 1024 → im'.bm.data (IBLOCK inum) = im.bm.data (IBLOCK inum)) :
    im'.get_inode inum = im.get_inode inum := by
  by_cases hinum : inum.toNat ≤ 1024
  · rw [get_inode_eq _ hinum, get_inode_eq _ hinum, h hinum]
  · rw [get_inode_large _ (by omega), get_inode_large _ (by omega)]

/-- The first words of a block determine the inode it holds. -/
theorem load_congr {m m' : Mem} (h : ∀ p < 424, m p = m' p) : Inode.load m = Inode.load m' := by
  have hword : ∀ i < 106, m.word i = m'.word i := fun i hi =>
    Mem.word_congr fun p hp => h p (by omega)
  have hblocks : (fun i : Fin (NDIRECT + 1) => m.word (i + 5)) =
      fun i : Fin (NDIRECT + 1) => m'.word (i + 5) := by
    funext i
    have hi : i.val < NDIRECT + 1 := i.isLt
    exact hword _ (by simp at hi; omega)
  simp only [Inode.load, hblocks, hword 0 (by decide), hword 1 (by decide), hword 2 (by decide),
    hword 3 (by decide), hword 4 (by decide)]

theorem load_put_inode (im : InodeManager) {inum : UInt32} (hinum : inum.toNat ≤ 1024) (node : Inode) :
    Inode.load ((im.put_inode inum node).bm.data (IBLOCK inum)) = node := by
  have hsmall : (IBLOCK inum).toNat < 32768 := by
    rw [IBLOCK_toNat hinum]
    omega
  refine Eq.trans ?_ (Inode.load_store node (im.bm.read_block (IBLOCK inum) Mem.zero) 0)
  apply load_congr
  intro p hp
  have hoff : Inode.sizeof * (inum.toNat % IPB) = 0 := by simp [IPB, Nat.mod_one]
  rw [put_inode, hoff, data_write_block_same _ hsmall _ (by omega), Mem.shift_apply, Nat.zero_add]

/-- An inode is read back as it was stored, and an inode of type 0 counts as none. -/
theorem get_inode_put_inode (im : InodeManager) {inum : UInt32} (hinum : inum.toNat ≤ 1024) (node : Inode) :
    (im.put_inode inum node).get_inode inum = if node.type = 0 then none else some node := by
  rw [get_inode_eq _ hinum, load_put_inode im hinum]

theorem get_inode_put_inode_same (im : InodeManager) {inum : UInt32} (hinum : inum.toNat ≤ 1024)
    {node : Inode} (htype : node.type ≠ 0) : (im.put_inode inum node).get_inode inum = some node := by
  rw [im.get_inode_put_inode hinum, if_neg htype]

@[simp] theorem inUse_put_inode (im : InodeManager) (inum : UInt32) (node : Inode) (id : blockid_t) :
    (im.put_inode inum node).bm.InUse id ↔ im.bm.InUse id := Iff.rfl

@[simp] theorem free_count_put_inode (im : InodeManager) (inum : UInt32) (node : Inode) :
    (im.put_inode inum node).bm.free_count = im.bm.free_count := rfl

@[simp] theorem failed_put_inode (im : InodeManager) (inum : UInt32) (node : Inode) :
    (im.put_inode inum node).bm.failed_allocs = im.bm.failed_allocs := rfl

theorem wf_put_inode {im : InodeManager} (hwf : im.bm.WF) (inum : UInt32) (node : Inode) :
    (im.put_inode inum node).bm.WF := hwf.write_block _ _

/-- Storing an inode changes no other block. -/
theorem data_put_inode (im : InodeManager) {inum : UInt32} {id : blockid_t} (hid : id ≠ IBLOCK inum)
    (node : Inode) : (im.put_inode inum node).bm.data id = im.bm.data id :=
  data_write_block_ne _ hid _

theorem get_inode_put_inode_ne (im : InodeManager) {inum other : UInt32} (hinum : inum.toNat ≤ 1024)
    (hne : other ≠ inum) (node : Inode) :
    (im.put_inode inum node).get_inode other = im.get_inode other := by
  apply get_inode_congr
  intro hother
  exact im.data_put_inode (fun h => hne (IBLOCK_inj hother hinum h)) node

/-- Freeing an inode clears it and leaves the others. -/
theorem get_inode_free_inode (im : InodeManager) (inum other : UInt32) :
    (im.free_inode inum).get_inode other = if other = inum then none else im.get_inode other := by
  unfold free_inode
  split
  · next hlarge =>
    split
    · next heq =>
      rw [heq]
      exact im.get_inode_large (by simpa using hlarge)
    · rfl
  · next hsmall =>
    have hinum : inum.toNat ≤ 1024 := by simpa using hsmall
    cases hnode : im.get_inode inum with
    | none =>
      dsimp only
      split
      · next heq => rw [heq, hnode]
      · rfl
    | some node =>
      dsimp only
      split
      · next heq =>
        subst heq
        have hblock : (IBLOCK other).toNat < 32768 := by
          rw [IBLOCK_toNat hinum]
          omega
        rw [get_inode_eq _ hinum, if_pos]
        have hload : Inode.load ((im.bm.write_block (IBLOCK other) Mem.zero).data (IBLOCK other)) =
            Inode.load Mem.zero :=
          load_congr fun p hp => data_write_block_same _ hblock _ (by omega)
        rw [hload]
        rfl
      · next hne =>
        apply get_inode_congr
        intro hother
        exact data_write_block_ne _ (fun h => hne (IBLOCK_inj hother hinum h)) _

end InodeManager

end chfs
