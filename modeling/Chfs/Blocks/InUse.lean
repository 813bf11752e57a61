import Chfs.Model.BlockManager

namespace chfs

/-- A block of the data region, behind the block of the last inode. -/
def DataBlock (id : blockid_t) : Prop := 1035 < id.toNat ∧ id.toNat < 32768

instance (id : blockid_t) : Decidable (DataBlock id) := inferInstanceAs (Decidable (_ ∧ _))

theorem not_dataBlock_zero : ¬ DataBlock 0 := by decide

theorem DataBlock.ne_zero {id : blockid_t} (h : DataBlock id) : id ≠ 0 := by
  rintro rfl
  exact not_dataBlock_zero h

namespace BlockManager

/-- The block is marked in use. -/
def InUse (bm : BlockManager) (id : blockid_t) : Prop := bm.using_blocks id = some 1

instance (bm : BlockManager) (id : blockid_t) : Decidable (bm.InUse id) :=
  inferInstanceAs (Decidable (_ = _))

/-- The bytes of a block on disk. -/
def data (bm : BlockManager) (id : blockid_t) : Mem := bm.d.data id

/-- Only data blocks are in use, and the map holds no values but 0 and 1. -/
structure WF (bm : BlockManager) : Prop where
  data_block : ∀ id, bm.InUse id → DataBlock id
  zero_or_one : ∀ id v, bm.using_blocks id = some v → v = 0 ∨ v = 1

theorem WF.not_inUse_zero {bm : BlockManager} (hwf : bm.WF) : ¬ bm.InUse 0 :=
  fun h => not_dataBlock_zero (hwf.data_block 0 h)

theorem WF.ne_zero {bm : BlockManager} (hwf : bm.WF) {id : blockid_t} (h : bm.InUse id) : id ≠ 0 :=
  (hwf.data_block id h).ne_zero

theorem wf_new : new.WF where
  data_block := by
    intro id h
    cases h
  zero_or_one := by
    intro id v h
    cases h

/-- The numbers of the free data blocks. -/
def free_blocks (bm : BlockManager) : Finset Nat :=
  (Finset.Ico 1036 32768).filter (fun i => ¬ bm.InUse (UInt32.ofNat i))

def free_count (bm : BlockManager) : Nat := bm.free_blocks.card

/-- The two block layers differ at most in default entries of the map. -/
structure Same (bm bm' : BlockManager) : Prop where
  d : bm'.d = bm.d
  in_use : ∀ id, bm'.InUse id ↔ bm.InUse id
  failed : bm'.failed_allocs = bm.failed_allocs
  wf : bm.WF → bm'.WF

theorem Same.refl (bm : BlockManager) : Same bm bm := ⟨rfl, fun _ => Iff.rfl, rfl, id⟩

theorem Same.trans {bm bm' bm'' : BlockManager} (h : Same bm bm') (h' : Same bm' bm'') :
    Same bm bm'' :=
  ⟨h'.d.trans h.d, fun id => (h'.in_use id).trans (h.in_use id), h'.failed.trans h.failed,
    fun hwf => h'.wf (h.wf hwf)⟩

theorem Same.data {bm bm' : BlockManager} (h : Same bm bm') (id : blockid_t) :
    bm'.data id = bm.data id := by
  simp only [BlockManager.data, h.d]

theorem Same.free_blocks {bm bm' : BlockManager} (h : Same bm bm') :
    bm'.free_blocks = bm.free_blocks := by
  simp only [BlockManager.free_blocks, h.in_use]

theorem Same.free_count {bm bm' : BlockManager} (h : Same bm bm') :
    bm'.free_count = bm.free_count := by
  rw [BlockManager.free_count, h.free_blocks, BlockManager.free_count]

theorem inUse_set_using (bm : BlockManager) (id : blockid_t) (v : Int) (other : blockid_t) :
    (bm.set_using id v).InUse other ↔ if other = id then v = 1 else bm.InUse other := by
  unfold InUse set_using
  by_cases h : other = id <;> simp [h]

/-- A query leaves everything but default entries of the map as it was. -/
theorem is_valid_block_same (bm : BlockManager) (id : blockid_t) :
    Same bm (bm.is_valid_block id).2 := by
  unfold is_valid_block
  split
  · exact Same.refl bm
  · cases hget : bm.using_blocks id with
    | some v => exact Same.refl bm
    | none =>
      refine ⟨rfl, ?_, rfl, ?_⟩
      · intro other
        simp only [inUse_set_using]
        split
        · next heq => simp [InUse, heq, hget]
        · rfl
      · intro hwf
        refine ⟨?_, ?_⟩
        · intro other hother
          simp only [inUse_set_using] at hother
          split at hother
          · cases hother
          · exact hwf.data_block other hother
        · intro other v hother
          simp only [set_using] at hother
          split at hother
          · simp at hother
            exact .inl hother.symm
          · exact hwf.zero_or_one other v hother

/-- The query answers whether the block is in use. -/
theorem is_valid_block_iff {bm : BlockManager} (hwf : bm.WF) (id : blockid_t) :
    (bm.is_valid_block id).1 = true ↔ bm.InUse id := by
  unfold is_valid_block
  split
  · next hlarge =>
    have hnot : ¬ bm.InUse id := by
      intro h
      have hbound := (hwf.data_block id h).2
      simp at hlarge
      omega
    simp [hnot]
  · cases hget : bm.using_blocks id <;> simp [InUse, hget]

theorem is_valid_block_of_inUse {bm : BlockManager} (hwf : bm.WF) {id : blockid_t}
    (h : bm.InUse id) : (bm.is_valid_block id).1 = true := (is_valid_block_iff hwf id).mpr h

theorem is_valid_block_of_not_inUse {bm : BlockManager} (hwf : bm.WF) {id : blockid_t}
    (h : ¬ bm.InUse id) : (bm.is_valid_block id).1 = false := by
  simpa using (is_valid_block_iff hwf id).not.mpr h

@[simp] theorem data_set_using (bm : BlockManager) (id : blockid_t) (v : Int) (other : blockid_t) :
    (bm.set_using id v).data other = bm.data other := rfl

@[simp] theorem inUse_write_block (bm : BlockManager) (id : blockid_t) (buf : Mem)
    (other : blockid_t) : (bm.write_block id buf).InUse other ↔ bm.InUse other := Iff.rfl

@[simp] theorem failed_write_block (bm : BlockManager) (id : blockid_t) (buf : Mem) :
    (bm.write_block id buf).failed_allocs = bm.failed_allocs := rfl

@[simp] theorem free_count_write_block (bm : BlockManager) (id : blockid_t) (buf : Mem) :
    (bm.write_block id buf).free_count = bm.free_count := rfl

theorem WF.write_block {bm : BlockManager} (hwf : bm.WF) (id : blockid_t) (buf : Mem) :
    (bm.write_block id buf).WF := ⟨hwf.data_block, hwf.zero_or_one⟩

theorem data_write_block_same (bm : BlockManager) {id : blockid_t} (hid : id.toNat < 32768)
    (buf : Mem) {p : Nat} (hp : p < 512) : (bm.write_block id buf).data id p = buf p :=
  bm.d.data_write_block_same hid buf hp

theorem data_write_block_ne (bm : BlockManager) {id other : blockid_t} (h : other ≠ id)
    (buf : Mem) : (bm.write_block id buf).data other = bm.data other :=
  bm.d.data_write_block_ne h buf

theorem read_block_apply (bm : BlockManager) {id : blockid_t} (hid : id.toNat < 32768) (buf : Mem)
    (p : Nat) : bm.read_block id buf p = if p < 512 then bm.data id p else buf p :=
  bm.d.read_block_apply hid buf p

theorem read_block_zero (bm : BlockManager) (id : blockid_t) :
    bm.read_block id Mem.zero = bm.data id := rfl

end BlockManager

end chfs
