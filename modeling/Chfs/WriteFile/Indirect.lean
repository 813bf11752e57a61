import Chfs.WriteFile.Direct

namespace chfs.InodeManager

open BlockManager

/-- What the loop over the indirect table writes at position `j`: the bytes from
    the buffer, padded with zeros behind the end of the file. -/
def entry_chunk (buf : Mem) (size : Int) (j : Nat) : Mem :=
  fun p => if ((512 * (j - 1) + p : Nat) : Int) < size then buf (512 * (j - 1) + p) else 0

/-- What an indirect round changes on disk, given the block it writes and that it
    finds the staging array clear. -/
theorem ensure_entry_fills {buf : Mem} {size : Int} {s : WriteState} {d : Disk}
    (hi : s.i < 128) (hwf : s.bm.WF)
    (hheld : Held s.bm (pointers_with s.node (table_pointers s.indirect_blocks)))
    (hframe : ∀ other, other ≠ (ensure_entry s).indirect_blocks.word s.i →
      d.data other = (ensure_entry s).bm.d.data other)
    (hwritten : DataBlock ((ensure_entry s).indirect_blocks.word s.i) → ∀ p < 512,
      d.data ((ensure_entry s).indirect_blocks.word s.i) p = entry_chunk buf size (101 + s.i) p) :
    Fills (entry_chunk buf size) (101 + s.i) (101 + s.i + 1) s.bm
      (pointers_with s.node (table_pointers s.indirect_blocks)) { (ensure_entry s).bm with d }
      (pointers_with s.node (table_pointers (ensure_entry s).indirect_blocks)) := by
  have hat : pointers_with s.node (table_pointers s.indirect_blocks) (101 + s.i) =
      s.indirect_blocks.word s.i := by
    have hle : 101 + s.i ≤ 228 := by omega
    rw [pointers_with_of_gt _ _ (by omega), table_pointers, if_pos hle]
    congr 1
    omega
  obtain ⟨id, bm₁, hensure⟩ : ∃ id bm₁, ensure_block s.bm (s.indirect_blocks.word s.i) = (id, bm₁) :=
    ⟨_, _, rfl⟩
  have hdata : id ≠ 0 → DataBlock id :=
    ensure_block_dataBlock hwf (fun h => by rw [← hat]; exact hheld.in_use _ (by rwa [hat])) hensure
  have hstate : ensure_entry s =
      { s with bm := bm₁, indirect_blocks := s.indirect_blocks.setWord s.i id } := by
    simp only [ensure_entry, hensure]
  rw [hstate] at hframe hwritten ⊢
  simp only [Mem.word_setWord_same] at hframe hwritten
  rw [pointers_with_setWord s.node s.indirect_blocks hi]
  apply ensure_block_fills hwf hheld (101 + s.i) (by rw [hat]; exact hensure)
  · intro other hne
    exact hframe other hne
  · intro _ hne p hp
    exact hwritten (hdata hne) p hp

theorem write_entries_fills (buf : Mem) (size : Int) (n : Nat) :
    ∀ s : WriteState, s.i + n = 128 → s.pos = 512 * (100 + s.i) → s.arr_for_remain = Mem.zero →
      s.bm.WF → Held s.bm (pointers_with s.node (table_pointers s.indirect_blocks)) →
      (write_entries buf size n s).node = s.node ∧
      Fills (entry_chunk buf size) (101 + s.i)
        (101 + max s.i (min 128 (blocks_for size.toNat - 100))) s.bm
        (pointers_with s.node (table_pointers s.indirect_blocks)) (write_entries buf size n s).bm
        (pointers_with s.node (table_pointers (write_entries buf size n s).indirect_blocks)) := by
  induction n with
  | zero =>
    intro s hi hpos harr hwf hheld
    have hend : max s.i (min 128 (blocks_for size.toNat - 100)) = s.i := by omega
    rw [hend]
    exact ⟨rfl, Fills.refl _ _ hwf⟩
  | succ n ih =>
    intro s hi hpos harr hwf hheld
    rw [write_entries]
    split
    · next hlt =>
      have hnode : (ensure_entry s).node = s.node := rfl
      have hpos' : (ensure_entry s).pos = s.pos := rfl
      have hi' : (ensure_entry s).i = s.i := rfl
      have harr' : (ensure_entry s).arr_for_remain = Mem.zero := harr
      have hslot : 512 * (101 + s.i - 1) = s.pos := by omega
      dsimp only
      split
      · next hpart =>
        -- the last block: the staging array is filled, written, and the loop left
        rw [hpos'] at hpart
        simp at hpart
        have hend : max s.i (min 128 (blocks_for size.toNat - 100)) = s.i + 1 := by
          unfold blocks_for
          omega
        rw [hend]
        refine ⟨hnode, ensure_entry_fills (by omega) hwf hheld ?_ ?_⟩
        · intro other hne
          exact Disk.data_write_block_ne _ hne _
        · intro hdata p hp
          rw [hi', Disk.data_write_block_same _ hdata.2 _ hp, harr', hpos']
          unfold entry_chunk
          rw [hslot]
          split
          · next hin => rw [Mem.memcpy_inside (by omega) (by omega), Mem.shift_apply, Nat.sub_zero]
          · next hout => rw [Mem.memcpy_outside (by omega), Mem.zero_apply]
      · next hfull =>
        rw [hpos'] at hfull
        simp at hfull
        set next : WriteState :=
          { ensure_entry s with
            bm := (ensure_entry s).bm.write_block ((ensure_entry s).indirect_blocks.word s.i) (buf.shift s.pos),
            pos := s.pos + BLOCK_SIZE, i := s.i + 1 } with hnext
        have hfills : Fills (entry_chunk buf size) (101 + s.i) (101 + s.i + 1) s.bm
            (pointers_with s.node (table_pointers s.indirect_blocks)) next.bm
            (pointers_with s.node (table_pointers next.indirect_blocks)) := by
          apply ensure_entry_fills (by omega) hwf hheld
          · intro other hne
            exact Disk.data_write_block_ne _ hne _
          · intro hdata p hp
            rw [Disk.data_write_block_same _ hdata.2 _ hp, Mem.shift_apply]
            unfold entry_chunk
            rw [hslot, if_pos (by omega)]
        have hrest := ih next (by simp [hnext]; omega) (by simp [hnext]; omega) harr hfills.wf
          (hfills.held hheld)
        have hend : max (s.i + 1) (min 128 (blocks_for size.toNat - 100)) =
            max s.i (min 128 (blocks_for size.toNat - 100)) := by
          unfold blocks_for
          omega
        refine ⟨hrest.1, ?_⟩
        have hrestFills := hrest.2
        rw [show next.i = s.i + 1 from rfl, hend] at hrestFills
        exact hfills.trans hheld (by omega) (by omega) hrestFills
    · next hnot =>
      have hend : max s.i (min 128 (blocks_for size.toNat - 100)) = s.i := by
        unfold blocks_for
        omega
      rw [hend]
      exact ⟨rfl, Fills.refl _ _ hwf⟩

end chfs.InodeManager
