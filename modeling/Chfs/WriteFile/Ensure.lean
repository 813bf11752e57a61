import Chfs.Blocks.Fill
import Chfs.Model.InodeManager

namespace chfs.InodeManager

open BlockManager

/-- A block already in use is kept. -/
theorem ensure_block_of_inUse {bm : BlockManager} (hwf : bm.WF) {id : blockid_t}
    (huse : bm.InUse id) :
    ∃ bm', ensure_block bm id = (id, bm') ∧ Same bm bm' := by
  refine ⟨(bm.is_valid_block id).2, ?_, bm.is_valid_block_same id⟩
  simp only [ensure_block, is_valid_block_of_inUse hwf huse, ↓reduceIte]

/-- Where there is none, a free block is taken. -/
theorem ensure_block_of_free {bm : BlockManager} (hwf : bm.WF) (hfree : 0 < bm.free_count) :
    ∃ id bm', ensure_block bm 0 = (id, bm') ∧ DataBlock id ∧ ¬ bm.InUse id ∧ bm'.WF ∧
      bm'.d = bm.d ∧ (∀ other, bm'.InUse other ↔ other = id ∨ bm.InUse other) ∧
      bm'.free_count = bm.free_count - 1 ∧ bm'.failed_allocs = bm.failed_allocs := by
  have hsame := bm.is_valid_block_same 0
  have hwf' := hsame.wf hwf
  have hfree' : 0 < (bm.is_valid_block 0).2.free_count := by rwa [hsame.free_count]
  obtain ⟨id, halloc, hdata, hnot, _⟩ := alloc_block_of_free hwf' hfree'
  refine ⟨id, (bm.is_valid_block 0).2.set_using id 1, ?_, hdata, ?_, hwf'.set_using_one hdata,
    hsame.d, ?_, ?_, hsame.failed⟩
  · simp only [ensure_block, is_valid_block_of_not_inUse hwf hwf.not_inUse_zero,
      Bool.false_eq_true, ↓reduceIte, halloc]
  · rwa [hsame.in_use] at hnot
  · intro other
    rw [inUse_set_using, hsame.in_use]
    by_cases heq : other = id <;> simp [heq]
  · rw [free_count_set_using_one hdata hnot, hsame.free_count]

/-- Where there is none and none is free, the pointer becomes 0. -/
theorem ensure_block_of_full {bm : BlockManager} (hwf : bm.WF) (hfull : bm.free_count = 0) :
    ∃ bm', ensure_block bm 0 = (0, bm') ∧ bm'.WF ∧ bm'.d = bm.d ∧
      (∀ other, bm'.InUse other ↔ bm.InUse other) ∧ bm'.free_count = 0 ∧
      bm'.failed_allocs = bm.failed_allocs + 1 := by
  have hsame := bm.is_valid_block_same 0
  have hwf' := hsame.wf hwf
  have hfull' : (bm.is_valid_block 0).2.free_count = 0 := by rwa [hsame.free_count]
  refine ⟨{ (bm.is_valid_block 0).2 with failed_allocs := (bm.is_valid_block 0).2.failed_allocs + 1 },
    ?_, ⟨hwf'.data_block, hwf'.zero_or_one⟩, hsame.d, hsame.in_use, hfull', ?_⟩
  · simp only [ensure_block, is_valid_block_of_not_inUse hwf hwf.not_inUse_zero,
      Bool.false_eq_true, ↓reduceIte, alloc_block_of_full hwf' hfull']
  · simp only [hsame.failed]

/-- The pointer that comes out names a data block or is 0. -/
theorem ensure_block_dataBlock {bm bm' : BlockManager} {old id : blockid_t} (hwf : bm.WF)
    (hold : old ≠ 0 → bm.InUse old) (hensure : ensure_block bm old = (id, bm')) (hne : id ≠ 0) :
    DataBlock id := by
  by_cases hzero : old = 0
  · subst hzero
    by_cases hfull : bm.free_count = 0
    · obtain ⟨_, h, _⟩ := ensure_block_of_full hwf hfull
      rw [hensure] at h
      cases h
      exact absurd rfl hne
    · obtain ⟨_, _, h, hdata, _⟩ := ensure_block_of_free hwf (by omega)
      rw [hensure] at h
      cases h
      exact hdata
  · obtain ⟨_, h, _⟩ := ensure_block_of_inUse hwf (hold hzero)
    rw [hensure] at h
    cases h
    exact hwf.data_block _ (hold hzero)

/-- One position of a loop of `write_file`: the pointer is ensured and, except at
    the position of the indirect block, its block is written. -/
theorem ensure_block_fills {chunk : Nat → Mem} {bm : BlockManager} {a : Pointers} (hwf : bm.WF)
    (hheld : Held bm a) (i : Nat) {id : blockid_t} {bm₁ : BlockManager} {d : Disk}
    (hensure : ensure_block bm (a i) = (id, bm₁))
    (hframe : ∀ other, other ≠ id → d.data other = bm₁.d.data other)
    (hwritten : i ≠ 100 → id ≠ 0 → ∀ p < 512, d.data id p = chunk i p) :
    Fills chunk i (i + 1) bm a { bm₁ with d } (Function.update a i id) := by
  have hone := a.missing_one i
  by_cases hzero : a i = 0
  · rw [if_pos hzero] at hone
    rw [hzero] at hensure
    by_cases hfull : bm.free_count = 0
    · obtain ⟨bm', hensure', hwf', hd, huse, hcount, hfailed⟩ := ensure_block_of_full hwf hfull
      rw [hensure] at hensure'
      cases hensure'
      have hdata : ∀ other, other ≠ 0 → d.data other = bm.data other := by
        intro other hne
        rw [hframe other hne, hd]
        rfl
      rw [← hzero, Function.update_eq_self]
      refine .stay i ⟨hwf'.data_block, hwf'.zero_or_one⟩ huse (hcount.trans hfull.symm) (fun _ => hcount) ?_ ?_ ?_
      · rw [hone]
        exact hfailed
      · intro other hne
        rw [hzero] at hne
        exact hdata other hne.symm
      · exact fun _ hne => absurd hzero hne
    · obtain ⟨id', bm', hensure', hdata, hnot, hwf', hd, huse, hcount, hfailed⟩ :=
        ensure_block_of_free hwf (by omega)
      rw [hensure] at hensure'
      cases hensure'
      have hne := hdata.ne_zero
      refine .take i hzero hne hnot ⟨hwf'.data_block, hwf'.zero_or_one⟩ huse (by omega) hcount hfailed ?_
        fun hi => hwritten hi hne
      intro other hother
      change d.data other = bm.d.data other
      rw [hframe other hother.symm, hd]
  · rw [if_neg hzero] at hone
    obtain ⟨bm', hensure', hsame⟩ := ensure_block_of_inUse hwf (hheld.in_use i hzero)
    rw [hensure] at hensure'
    cases hensure'
    have hwf' := hsame.wf hwf
    rw [Function.update_eq_self]
    refine .stay i ⟨hwf'.data_block, hwf'.zero_or_one⟩ hsame.in_use hsame.free_count (fun h => absurd h hzero) ?_ ?_
      hwritten
    · rw [hone]
      exact hsame.failed
    · intro other hother
      change d.data other = bm.d.data other
      rw [hframe other hother.symm, hsame.d]

end chfs.InodeManager
