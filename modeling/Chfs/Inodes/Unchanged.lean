import Chfs.Inodes.Table

namespace chfs

/-- An inode without its times. -/
def Inode.timeless (node : Inode) : Inode := { node with atime := 0, mtime := 0, ctime := 0 }

/-- The inode layers hold the same files: they differ at most in the times of the
    inodes, in default entries of the map of blocks and in blocks outside the
    data region. -/
structure Unchanged (im im' : InodeManager) : Prop where
  inodes : ∀ inum, (im'.get_inode inum).map Inode.timeless = (im.get_inode inum).map Inode.timeless
  data : ∀ id, DataBlock id → im'.bm.data id = im.bm.data id
  in_use : ∀ id, im'.bm.InUse id ↔ im.bm.InUse id
  failed_blocks : im'.bm.failed_allocs = im.bm.failed_allocs
  wf : im.bm.WF → im'.bm.WF
  last_alloced : im'.last_alloced = im.last_alloced
  failed_inodes : im'.failed_allocs = im.failed_allocs

namespace Unchanged

variable {im im' im'' : InodeManager}

theorem refl (im : InodeManager) : Unchanged im im :=
  ⟨fun _ => rfl, fun _ _ => rfl, fun _ => Iff.rfl, rfl, id, rfl, rfl⟩

theorem trans (h : Unchanged im im') (h' : Unchanged im' im'') : Unchanged im im'' where
  inodes := fun inum => (h'.inodes inum).trans (h.inodes inum)
  data := fun id hid => (h'.data id hid).trans (h.data id hid)
  in_use := fun id => (h'.in_use id).trans (h.in_use id)
  failed_blocks := h'.failed_blocks.trans h.failed_blocks
  wf := fun hwf => h'.wf (h.wf hwf)
  last_alloced := h'.last_alloced.trans h.last_alloced
  failed_inodes := h'.failed_inodes.trans h.failed_inodes

theorem free_count (h : Unchanged im im') : im'.bm.free_count = im.bm.free_count := by
  simp only [BlockManager.free_count, BlockManager.free_blocks, h.in_use]

theorem dead (h : Unchanged im im') {inum : UInt32} :
    im'.get_inode inum = none ↔ im.get_inode inum = none := by
  rw [← Option.map_eq_none_iff (f := Inode.timeless), h.inodes, Option.map_eq_none_iff]

/-- A live inode stays live with its type, size and pointers. -/
theorem live (h : Unchanged im im') {inum : UInt32} {node' : Inode}
    (hlive : im'.get_inode inum = some node') :
    ∃ node, im.get_inode inum = some node ∧ node.type = node'.type ∧ node.size = node'.size ∧
      node.blocks = node'.blocks := by
  have hmap := h.inodes inum
  rw [hlive, Option.map_some] at hmap
  obtain ⟨node, hnode, heq⟩ := Option.map_eq_some_iff.mp hmap.symm
  simp only [Inode.timeless, Inode.mk.injEq, true_and] at heq
  exact ⟨node, hnode, heq.1, heq.2.1, heq.2.2⟩

/-- And the other way round. -/
theorem live_after (h : Unchanged im im') {inum : UInt32} {node : Inode}
    (hlive : im.get_inode inum = some node) :
    ∃ node', im'.get_inode inum = some node' ∧ node'.type = node.type ∧ node'.size = node.size ∧
      node'.blocks = node.blocks := by
  have hmap := h.inodes inum
  rw [hlive, Option.map_some] at hmap
  obtain ⟨node', hnode', heq⟩ := Option.map_eq_some_iff.mp hmap
  simp only [Inode.timeless, Inode.mk.injEq, true_and] at heq
  exact ⟨node', hnode', heq.1, heq.2.1, heq.2.2⟩

end Unchanged

namespace InodeManager

/-- Consuming time and memory changes nothing. -/
theorem unchanged_env (im : InodeManager) (env : Env) : Unchanged im { im with env } :=
  ⟨fun _ => rfl, fun _ _ => rfl, fun _ => Iff.rfl, rfl, id, rfl, rfl⟩

/-- Nor does a query of the block map. -/
theorem unchanged_of_same {im : InodeManager} {bm : BlockManager} (h : BlockManager.Same im.bm bm) :
    Unchanged im { im with bm } where
  inodes := by
    intro inum
    rw [@get_inode_congr im _ _ fun _ => h.data (IBLOCK inum)]
  data := fun id _ => h.data id
  in_use := h.in_use
  failed_blocks := h.failed
  wf := h.wf
  last_alloced := rfl
  failed_inodes := rfl

/-- Nor does storing an inode with other times. -/
theorem unchanged_put_inode {im : InodeManager} {inum : UInt32} {node : Inode} (node' : Inode)
    (hlive : im.get_inode inum = some node) (htimeless : node'.timeless = node.timeless) :
    Unchanged im (im.put_inode inum node') where
  inodes := by
    intro other
    have hinum := live_le hlive
    have htype : node'.type ≠ 0 := by
      have h := congrArg Inode.type htimeless
      exact fun hzero => live_type hlive (h.symm.trans hzero)
    by_cases heq : other = inum
    · rw [heq, get_inode_put_inode_same im hinum htype, hlive, Option.map_some, Option.map_some, htimeless]
    · rw [get_inode_put_inode_ne im hinum heq]
  data := fun id hid => im.data_put_inode (hid.ne_IBLOCK (live_le hlive)) node'
  in_use := fun _ => Iff.rfl
  failed_blocks := rfl
  wf := fun hwf => wf_put_inode hwf inum node'
  last_alloced := rfl
  failed_inodes := rfl

end InodeManager

end chfs
