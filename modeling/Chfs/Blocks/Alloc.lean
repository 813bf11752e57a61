import Chfs.Blocks.InUse

namespace chfs.BlockManager

@[simp] theorem first_data_block_eq : first_data_block = 1036 := by decide

theorem is_free_iff {bm : BlockManager} (hwf : bm.WF) (i : Nat) :
    bm.is_free i = true ↔ ¬ bm.InUse (UInt32.ofNat i) := by
  unfold is_free InUse
  cases hget : bm.using_blocks (UInt32.ofNat i) with
  | none => simp
  | some v => rcases hwf.zero_or_one _ v hget with rfl | rfl <;> simp

theorem mem_free_blocks {bm : BlockManager} {i : Nat} :
    i ∈ bm.free_blocks ↔ (1036 ≤ i ∧ i < 32768) ∧ ¬ bm.InUse (UInt32.ofNat i) := by
  simp [free_blocks]

theorem toNat_ofNat_of_lt {i : Nat} (hi : i < 32768) : (UInt32.ofNat i).toNat = i := by
  rw [UInt32.toNat_ofNat']
  omega

/-- The free data blocks, as block numbers. -/
theorem toNat_mem_free_blocks {bm : BlockManager} {id : blockid_t} :
    id.toNat ∈ bm.free_blocks ↔ DataBlock id ∧ ¬ bm.InUse id := by
  rw [mem_free_blocks, DataBlock, UInt32.ofNat_toNat]
  constructor
  · rintro ⟨⟨hlo, hhi⟩, hnot⟩
    exact ⟨⟨by omega, hhi⟩, hnot⟩
  · rintro ⟨⟨hlo, hhi⟩, hnot⟩
    exact ⟨⟨by omega, hhi⟩, hnot⟩

/-- With a free block left, allocation marks one in use and returns it: the
    least one there is. -/
theorem alloc_block_of_free {bm : BlockManager} (hwf : bm.WF) (hfree : 0 < bm.free_count) :
    ∃ id, bm.alloc_block = (id, bm.set_using id 1) ∧ DataBlock id ∧ ¬ bm.InUse id ∧
      ∀ other, DataBlock other → ¬ bm.InUse other → id.toNat ≤ other.toNat := by
  obtain ⟨k, hk⟩ := Finset.card_pos.mp hfree
  obtain ⟨⟨hlo, hhi⟩, hnot⟩ := mem_free_blocks.mp hk
  cases hfind : (List.range' first_data_block (BLOCK_NUM - first_data_block)).find? bm.is_free with
  | none =>
    have hall := List.find?_eq_none.mp hfind k (by simp; omega)
    exact absurd ((is_free_iff hwf k).mpr hnot) hall
  | some i =>
    have hi := List.find?_range'_eq_some.mp hfind
    have hmem := hi.2.1
    simp at hmem
    have hval : (UInt32.ofNat i).toNat = i := toNat_ofNat_of_lt (by omega)
    refine ⟨UInt32.ofNat i, ?_, ?_, (is_free_iff hwf i).mp hi.1, ?_⟩
    · simp only [alloc_block, hfind]
    · unfold DataBlock
      omega
    · intro other hdata hother
      by_contra hlt
      obtain ⟨hdlo, _⟩ := hdata
      have hfirst := hi.2.2 other.toNat (by simp; omega) (by omega)
      rw [Bool.not_eq_true', ← Bool.not_eq_true, is_free_iff hwf, UInt32.ofNat_toNat] at hfirst
      exact hfirst hother

/-- Without one, it returns 0 and changes nothing. -/
theorem alloc_block_of_full {bm : BlockManager} (hwf : bm.WF) (hfull : bm.free_count = 0) :
    bm.alloc_block = (0, { bm with failed_allocs := bm.failed_allocs + 1 }) := by
  have hempty : bm.free_blocks = ∅ := Finset.card_eq_zero.mp hfull
  have hnone : (List.range' first_data_block (BLOCK_NUM - first_data_block)).find? bm.is_free = none := by
    rw [List.find?_eq_none]
    intro i hi hfree
    simp at hi
    have hmem : i ∈ bm.free_blocks := mem_free_blocks.mpr ⟨by omega, (is_free_iff hwf i).mp hfree⟩
    simp [hempty] at hmem
  simp only [alloc_block, hnone]

theorem WF.set_using_one {bm : BlockManager} (hwf : bm.WF) {id : blockid_t} (hdata : DataBlock id) :
    (bm.set_using id 1).WF := by
  refine ⟨?_, ?_⟩
  · intro other hother
    rw [inUse_set_using] at hother
    split at hother
    · next heq => exact heq ▸ hdata
    · exact hwf.data_block other hother
  · intro other v hother
    simp only [set_using] at hother
    split at hother
    · simp at hother
      exact .inr hother.symm
    · exact hwf.zero_or_one other v hother

theorem WF.set_using_zero {bm : BlockManager} (hwf : bm.WF) (id : blockid_t) :
    (bm.set_using id 0).WF := by
  refine ⟨?_, ?_⟩
  · intro other hother
    rw [inUse_set_using] at hother
    split at hother
    · cases hother
    · exact hwf.data_block other hother
  · intro other v hother
    simp only [set_using] at hother
    split at hother
    · simp at hother
      exact .inl hother.symm
    · exact hwf.zero_or_one other v hother

/-- Marking a free data block in use takes it out of the free ones. -/
theorem free_blocks_set_using_one {bm : BlockManager} (id : blockid_t) :
    (bm.set_using id 1).free_blocks = bm.free_blocks.erase id.toNat := by
  ext i
  simp only [Finset.mem_erase, mem_free_blocks, inUse_set_using]
  by_cases hi : i < 32768
  · have heq : UInt32.ofNat i = id ↔ i = id.toNat := by
      rw [← UInt32.toNat_inj, toNat_ofNat_of_lt hi]
    by_cases h : i = id.toNat <;> simp [heq, h]
  · simp [hi]

theorem free_count_set_using_one {bm : BlockManager} {id : blockid_t} (hdata : DataBlock id)
    (hfree : ¬ bm.InUse id) : (bm.set_using id 1).free_count = bm.free_count - 1 := by
  rw [free_count, free_blocks_set_using_one,
    Finset.card_erase_of_mem (toNat_mem_free_blocks.mpr ⟨hdata, hfree⟩), free_count]

/-- Giving a data block back adds it to the free ones. -/
theorem free_blocks_set_using_zero {bm : BlockManager} {id : blockid_t} (hdata : DataBlock id) :
    (bm.set_using id 0).free_blocks = insert id.toNat bm.free_blocks := by
  obtain ⟨hlo, hhi⟩ := hdata
  ext i
  simp only [Finset.mem_insert, mem_free_blocks, inUse_set_using]
  by_cases hi : i < 32768
  · have heq : UInt32.ofNat i = id ↔ i = id.toNat := by
      rw [← UInt32.toNat_inj, toNat_ofNat_of_lt hi]
    by_cases h : i = id.toNat
    · simp [h, hhi]
      omega
    · simp [heq, h]
  · have hne : i ≠ id.toNat := by omega
    simp [hi, hne]

theorem free_count_set_using_zero {bm : BlockManager} (hwf : bm.WF) {id : blockid_t}
    (huse : bm.InUse id) : (bm.set_using id 0).free_count = bm.free_count + 1 := by
  have hnot : id.toNat ∉ bm.free_blocks := fun h => (toNat_mem_free_blocks.mp h).2 huse
  rw [free_count, free_blocks_set_using_zero (hwf.data_block id huse),
    Finset.card_insert_of_notMem hnot, free_count]

/-- Freeing a block in use clears it and takes the mark away. -/
theorem free_block_of_inUse {bm : BlockManager} (hwf : bm.WF) {id : blockid_t} (huse : bm.InUse id) :
    bm.free_block id = .ok ((bm.write_block id Mem.zero).set_using id 0) := by
  have hsmall : ¬ BLOCK_NUM ≤ id.toNat := by
    have hbound := (hwf.data_block id huse).2
    simp
    omega
  have hmark : (bm.write_block id Mem.zero).using_blocks id = some 1 := huse
  simp only [free_block, hsmall, hmark, ↓reduceIte]

/-- Freeing any other block of the disk fails the assertion. -/
theorem free_block_of_not_inUse {bm : BlockManager} {id : blockid_t} (hid : id.toNat < 32768)
    (hnot : ¬ bm.InUse id) : bm.free_block id = .error .assertion_failed := by
  have hsmall : ¬ BLOCK_NUM ≤ id.toNat := by
    simp
    omega
  have hmark : (bm.write_block id Mem.zero).using_blocks id ≠ some 1 := hnot
  simp only [free_block, hsmall, hmark, ↓reduceIte]

/-- Freeing a block never marks block 0 in use. -/
theorem free_block_zero {bm bm' : BlockManager} {id : blockid_t} (hnot : ¬ bm.InUse 0)
    (hfree : bm.free_block id = .ok bm') : ¬ bm'.InUse 0 := by
  unfold free_block at hfree
  dsimp only at hfree
  split at hfree
  · cases hfree
    exact hnot
  · split at hfree
    · cases hfree
      rw [inUse_set_using]
      split
      · simp
      · exact hnot
    · cases hfree

end chfs.BlockManager
