import Chfs.WriteFile.Contents

namespace chfs

/-- Writing a block depends only on the bytes of that block. -/
theorem Disk.write_block_congr (d : Disk) (id : blockid_t) {buf buf' : Mem}
    (h : ∀ p < 512, buf p = buf' p) : d.write_block id buf = d.write_block id buf' := by
  have hrow : ∀ p : Fin BLOCK_SIZE, buf p = buf' p := fun p => h p p.isLt
  simp only [write_block, hrow]

namespace InodeManager

/-- The buffers agree where `write_file` reads them: up to `size`, and up to the end of
    the block in which `size` lies when that is a direct one. -/
def AgreeOnInput (size : Int) (buf buf' : Mem) : Prop :=
  ∀ p : Nat, (p < size ∨ (p < 51200 ∧ ((512 * (p / 512) : Nat) : Int) < size)) → buf p = buf' p

variable {buf buf' : Mem} {size : Int}

theorem AgreeOnInput.memcpy_eq (h : AgreeOnInput size buf buf') (dst : Mem) (pos : Nat) :
    Mem.memcpy dst 0 (buf.shift pos) (size - pos).toNat = Mem.memcpy dst 0 (buf'.shift pos) (size - pos).toNat := by
  apply Mem.memcpy_congr
  intro p hp
  exact h (pos + p) (.inl (by omega))

theorem AgreeOnInput.direct_round_eq (h : AgreeOnInput size buf buf') {s : WriteState} {i : Nat}
    (hpos : s.pos = 512 * i) (hi : i < 100) (hlt : (s.pos : Int) < size) :
    direct_round buf size s = direct_round buf' size s := by
  have hblock : ∀ bm : BlockManager, ∀ id, bm.write_block id (buf.shift s.pos) =
    bm.write_block id (buf'.shift s.pos) := by
    intro bm id
    unfold BlockManager.write_block
    rw [Disk.write_block_congr]
    intro p hp
    exact h (s.pos + p) (.inr ⟨by omega, by omega⟩)
  unfold direct_round
  by_cases hpart : (s.pos : Int) + BLOCK_SIZE > size
  · simp only [hpart, ↓reduceIte, h.memcpy_eq, hblock]
  · simp only [hpart, ↓reduceIte, hblock]

/-- The loop over the direct slots reads whole blocks. -/
theorem AgreeOnInput.write_direct_eq (h : AgreeOnInput size buf buf') (n : Nat) :
    ∀ (s : WriteState) (i : Nat), s.pos = 512 * i → i + n ≤ 100 →
      write_direct buf size n s = write_direct buf' size n s := by
  induction n with
  | zero =>
    intro s i _ _
    rfl
  | succ n ih =>
    intro s i hpos hbound
    rw [write_direct, write_direct]
    split
    · next hlt =>
      rw [h.direct_round_eq hpos (by omega) hlt]
      have hnext : (direct_round buf' size s).pos = 512 * (i + 1) := by
        rw [(direct_round_frame buf' size s).2.1, hpos]
        omega
      exact ih _ (i + 1) hnext (by omega)
    · rfl

/-- The loop over the indirect table stops at the end of the buffer. -/
theorem AgreeOnInput.write_entries_eq (h : AgreeOnInput size buf buf') (n : Nat) :
    ∀ s : WriteState, write_entries buf size n s = write_entries buf' size n s := by
  induction n with
  | zero =>
    intro s
    rfl
  | succ n ih =>
    intro s
    rw [write_entries, write_entries]
    split
    · have hpos : (ensure_entry s).pos = s.pos := rfl
      dsimp only
      split
      · rw [h.memcpy_eq]
      · next hfull =>
        have hblock : ∀ bm : BlockManager, ∀ id,
            bm.write_block id (buf.shift (ensure_entry s).pos) =
              bm.write_block id (buf'.shift (ensure_entry s).pos) := by
          intro bm id
          unfold BlockManager.write_block
          rw [Disk.write_block_congr]
          intro p hp
          refine h _ (.inl ?_)
          rw [BLOCK_SIZE_eq] at hfull
          omega
        rw [hblock, ih]
    · rfl

/-- `write_file` reads no more of its buffer than that. -/
theorem AgreeOnInput.write_file_eq (h : AgreeOnInput size buf buf') (im : InodeManager) (inum : UInt32) :
    im.write_file inum buf size = im.write_file inum buf' size := by
  have hdirect : ∀ s : WriteState, s.pos = 0 → write_direct buf size NDIRECT s = write_direct buf' size NDIRECT s :=
    fun s hpos => h.write_direct_eq 100 s 0 hpos (le_refl 100)
  have hindirect : ∀ s : WriteState, write_indirect buf size s = write_indirect buf' size s := by
    intro s
    unfold write_indirect
    simp only [h.write_entries_eq]
  unfold write_file
  cases im.get_inode inum with
  | none => rfl
  | some node =>
    have hstart := hdirect (start im.bm node) rfl
    unfold start at hstart
    simp only [hstart, hindirect]

end InodeManager

end chfs
