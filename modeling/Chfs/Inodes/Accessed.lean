import Chfs.Inodes.Unchanged

namespace chfs

open BlockManager

/-- The inode layers differ at most in the access time of the live inode `inum` and
    in default entries of the map of blocks. -/
structure Accessed (im : InodeManager) (inum : UInt32) (im' : InodeManager) : Prop where
  inode : ∃ node now, im.get_inode inum = some node ∧ im'.get_inode inum = some { node with atime := now }
  others : ∀ other, other ≠ inum → im'.get_inode other = im.get_inode other
  frame : ∀ id, id ≠ IBLOCK inum → im'.bm.data id = im.bm.data id
  in_use : ∀ id, im'.bm.InUse id ↔ im.bm.InUse id
  failed_blocks : im'.bm.failed_allocs = im.bm.failed_allocs
  last_alloced : im'.last_alloced = im.last_alloced
  failed_inodes : im'.failed_allocs = im.failed_allocs

namespace InodeManager

/-- Reading asks which blocks are in use and changes nothing else. -/
theorem read_direct_same {k remain : Nat} {node : Inode} (n : Nat) :
    ∀ {i : Nat} {bm : BlockManager} {out : Mem} {result : Nat × BlockManager × Mem},
      read_direct k remain node n i bm out = .ok result → Same bm result.2.1 := by
  induction n with
  | zero =>
    intro i bm out result h
    cases h
    exact Same.refl bm
  | succ n ih =>
    intro i bm out result h
    have hsame := bm.is_valid_block_same (node.block i)
    rw [read_direct] at h
    dsimp only at h
    split at h
    · split at h
      · obtain ⟨out', _, h⟩ := Except.bind_eq_ok_iff.mp h
        cases h
        exact hsame
      · obtain ⟨out', _, h⟩ := Except.bind_eq_ok_iff.mp h
        exact hsame.trans (ih h)
    · exact hsame.trans (ih h)

theorem read_indirect_same {k remain : Nat} {table : Mem} (n : Nat) :
    ∀ {i : Nat} {bm : BlockManager} {out : Mem} {result : BlockManager × Mem},
      read_indirect k remain table n i bm out = .ok result → Same bm result.1 := by
  induction n with
  | zero =>
    intro i bm out result h
    cases h
    exact Same.refl bm
  | succ n ih =>
    intro i bm out result h
    rw [read_indirect] at h
    obtain ⟨id, _, h⟩ := Except.bind_eq_ok_iff.mp h
    have hsame := bm.is_valid_block_same id
    dsimp only at h
    split at h
    · split at h
      · obtain ⟨out', _, h⟩ := Except.bind_eq_ok_iff.mp h
        cases h
        exact hsame
      · obtain ⟨out', _, h⟩ := Except.bind_eq_ok_iff.mp h
        exact hsame.trans (ih h)
    · exact hsame.trans (ih h)

/-- Storing the inode with a new access time touches its own block only. -/
theorem accessed_put_inode {im : InodeManager} {inum : UInt32} {node : Inode} {bm : BlockManager}
    (hlive : im.get_inode inum = some node) (hsame : Same im.bm bm) (env : Env) (now : UInt32) :
    Accessed im inum ({ im with bm, env }.put_inode inum { node with atime := now }) where
  inode := by
    have htype := live_type hlive
    exact ⟨node, now, hlive, get_inode_put_inode_same _ (live_le hlive) htype⟩
  others := by
    intro other hother
    rw [get_inode_put_inode_ne _ (live_le hlive) hother]
    exact get_inode_congr fun _ => hsame.data _
  frame := by
    intro id hid
    rw [data_put_inode _ hid]
    exact hsame.data id
  in_use := hsame.in_use
  failed_blocks := hsame.failed
  last_alloced := rfl
  failed_inodes := rfl

/-- Reading a live file takes memory, asks which blocks are in use, looks at the clock and
    stores the inode with a new access time. -/
theorem read_file_eq {im im' : InodeManager} {inum : UInt32} {node : Inode} {out : Option (Mem × Nat)}
    (hlive : im.get_inode inum = some node) (h : im.read_file inum = .ok (out, im')) :
    ∃ bm, Same im.bm bm ∧
      im' = { im with bm, env := im.env.malloc.2.time.2 }.put_inode inum { node with atime := im.env.time.1 } := by
  have hinum := live_le hlive
  have hsmall : ¬ INODE_NUM < inum.toNat := by
    simp
    omega
  unfold read_file at h
  simp only [hsmall, ↓reduceIte, hlive] at h
  generalize (if node.size.toNat % BLOCK_SIZE ≠ 0 ∨ node.size.toNat / BLOCK_SIZE = 0 then
    node.size.toNat / BLOCK_SIZE + 1 else node.size.toNat / BLOCK_SIZE) = block_count at h
  split at h
  · cases h
  · obtain ⟨⟨i, bm₁, out₁⟩, hdirect, h⟩ := Except.bind_eq_ok_iff.mp h
    have hsame₁ : Same im.bm bm₁ := read_direct_same _ hdirect
    obtain ⟨⟨valid, bm₂⟩, hvalid⟩ : ∃ query, query =
      if i = NDIRECT then bm₁.is_valid_block (node.block NDIRECT) else (false, bm₁) := ⟨_, rfl⟩
    have hsame₂ : Same im.bm bm₂ := by
      split at hvalid
      · have hquery := bm₁.is_valid_block_same (node.block NDIRECT)
        rw [← hvalid] at hquery
        exact hsame₁.trans hquery
      · cases hvalid
        exact hsame₁
    dsimp only at h
    rw [← hvalid] at h
    split at h
    · obtain ⟨⟨bm₃, out₂⟩, hindirect, h⟩ := Except.bind_eq_ok_iff.mp h
      cases h
      exact ⟨bm₃, hsame₂.trans (read_indirect_same _ hindirect), rfl⟩
    · cases h
      exact ⟨bm₂, hsame₂, rfl⟩

theorem read_file_accessed {im im' : InodeManager} {inum : UInt32} {node : Inode} {out : Option (Mem × Nat)}
    (hlive : im.get_inode inum = some node) (h : im.read_file inum = .ok (out, im')) :
    Accessed im inum im' := by
  obtain ⟨bm, hsame, rfl⟩ := read_file_eq hlive h
  exact accessed_put_inode hlive hsame _ _

end InodeManager

namespace Accessed

variable {im im' : InodeManager} {inum : UInt32}

/-- The set of live inodes stays. -/
theorem dead_iff (h : Accessed im inum im') (other : UInt32) :
    im'.get_inode other = none ↔ im.get_inode other = none := by
  by_cases heq : other = inum
  · subst heq
    obtain ⟨node, now, hlive, hlive'⟩ := h.inode
    simp [hlive, hlive']
  · rw [h.others other heq]

theorem inum_le (h : Accessed im inum im') : inum.toNat ≤ 1024 := by
  obtain ⟨node, now, hlive, _⟩ := h.inode
  exact InodeManager.live_le hlive

end Accessed

end chfs
