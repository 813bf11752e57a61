import Chfs.WriteFile.Spec

namespace chfs

namespace BlockManager

/-- Freeing a block fails in the assertion only. -/
theorem free_block_error {bm : BlockManager} {id : blockid_t} {fault : Fault}
    (h : bm.free_block id = .error fault) : fault = .assertion_failed := by
  unfold free_block at h
  dsimp only at h
  split at h
  · cases h
  · split at h
    · cases h
    · cases h
      rfl

end BlockManager

namespace InodeManager

theorem free_direct_error {fault : Fault} (n : Nat) :
    ∀ (i : Nat) (bm : BlockManager) (node : Inode), free_direct n i bm node = .error fault →
      fault = .assertion_failed := by
  induction n with
  | zero =>
    intro i bm node h
    cases h
  | succ n ih =>
    intro i bm node h
    rw [free_direct] at h
    dsimp only at h
    split at h
    · rcases Except.bind_eq_error_iff.mp h with hfree | ⟨bm', _, h⟩
      · exact BlockManager.free_block_error hfree
      · exact ih _ _ _ h
    · cases h

/-- So does the loop over the entries, as long as it stays within the table. -/
theorem free_entries_error {fault : Fault} (n : Nat) :
    ∀ (i : Nat) (bm : BlockManager) (table : Mem), i + n ≤ 128 → free_entries n i bm table = .error fault →
      fault = .assertion_failed := by
  induction n with
  | zero =>
    intro i bm table _ h
    cases h
  | succ n ih =>
    intro i bm table hbound h
    have hentry : entry table i = .ok (table.word i) := if_pos (by simp; omega)
    rw [free_entries, hentry, Except.ok_bind] at h
    rcases Except.bind_eq_error_iff.mp h with hfree | ⟨bm', _, h⟩
    · exact BlockManager.free_block_error hfree
    · exact ih _ _ _ (by omega) h

theorem free_indirect_blocks_error {bm : BlockManager} {heap : Mem} {node : Inode} {b : Nat} {fault : Fault}
    (hlarge : 100 < pre_block_num node) (hsmall : pre_block_num node ≤ 228)
    (h : free_indirect_blocks bm heap node b = .error fault) : fault = .assertion_failed := by
  rw [free_indirect_blocks_eq hlarge] at h
  rcases Except.bind_eq_error_iff.mp h with hentries | ⟨⟨bm₁, table⟩, _, h⟩
  · by_cases hb : b ≤ 128
    · exact free_entries_error _ _ _ _ (by omega) hentries
    · have hnone : pre_block_num node - 100 - b = 0 := by omega
      rw [hnone] at hentries
      cases hentries
  · dsimp only at h
    split at h
    · rcases Except.bind_eq_error_iff.mp h with hfree | ⟨bm₂, _, h⟩
      · exact BlockManager.free_block_error hfree
      · cases h
    · cases h

theorem free_direct_size {n : Nat} :
    ∀ {i : Nat} {bm : BlockManager} {node : Inode} {result : Nat × BlockManager × Inode},
      free_direct n i bm node = .ok result → result.2.2.size = node.size := by
  induction n with
  | zero =>
    intro i bm node result h
    cases h
    rfl
  | succ n ih =>
    intro i bm node result h
    rw [free_direct] at h
    dsimp only at h
    split at h
    · obtain ⟨bm', _, h⟩ := Except.bind_eq_ok_iff.mp h
      exact (ih h).trans (node.size_set_block i 0)
    · cases h
      rfl

theorem free_unused_error {im : InodeManager} {node : Inode} {used : Nat} {fault : Fault}
    (hsmall : pre_block_num node ≤ 228)
    (h : free_unused im node (pre_block_num node) used = .error fault) : fault = .assertion_failed := by
  have hnonneg : ¬ (used : Int) < 0 := by omega
  unfold free_unused at h
  simp only [hnonneg, ↓reduceIte] at h
  rcases Except.bind_eq_error_iff.mp h with hdirect | ⟨⟨i, bm, node₁⟩, hdirect, h⟩
  · exact free_direct_error _ _ _ _ hdirect
  · have hsize : node₁.size = node.size := free_direct_size hdirect
    have hpre : pre_block_num node₁ = pre_block_num node := by simp only [pre_block_num, hsize]
    dsimp only at h
    split at h
    · next hbranch =>
      simp only [NDIRECT_eq] at hbranch
      rcases Except.bind_eq_error_iff.mp h with hindirect | ⟨result, _, h⟩
      · exact free_indirect_blocks_error (by omega) (by omega) hindirect
      · cases h
    · cases h

/-- A `write_file` on a file that an indirect table has room for fails in the assertion only. -/
theorem write_file_error {im : InodeManager} {inum : UInt32} {node : Inode} {buf : Mem} {n p : Nat}
    {fault : Fault} (hlive : im.get_inode inum = some node) (hwf : im.bm.WF) (hlayout : Layout im.bm node p)
    (hsmall : pre_block_num node ≤ 228) (h : im.write_file inum buf n = .error fault) :
    fault = .assertion_failed := by
  obtain ⟨s, hs⟩ : ∃ s, s = write_indirect buf n (write_direct buf n NDIRECT (start im.bm node)) := ⟨_, rfl⟩
  obtain ⟨_, ⟨blocks, hnode⟩, _⟩ := write_blocks_fills hwf hlayout.held hs
  have hpre : pre_block_num s.node = pre_block_num node := by rw [hnode]; rfl
  unfold write_file at h
  simp only [hlive] at h
  rw [used_block_num_natCast, ← start, ← hs, ← hpre] at h
  rcases Except.bind_eq_error_iff.mp h with hfree | ⟨result, _, h⟩
  · exact free_unused_error (by omega) hfree
  · cases h

end InodeManager

end chfs
