import Chfs.WriteFile.Ensure
import Chfs.WriteFile.Pointers

namespace chfs

namespace InodeManager

open BlockManager

/-- What the loop over the direct slots writes at position `j`: 512 bytes from the
    buffer, also where the file ends within them. -/
def direct_chunk (buf : Mem) (j : Nat) : Mem := buf.shift (512 * j)

theorem direct_round_fills (buf : Mem) (size : Int) {s : WriteState} {entries : Pointers}
    (hi : s.i < 100) (hpos : s.pos = 512 * s.i) (hwf : s.bm.WF)
    (hheld : Held s.bm (pointers_with s.node entries)) :
    Fills (direct_chunk buf) s.i (s.i + 1) s.bm (pointers_with s.node entries)
      (direct_round buf size s).bm (pointers_with (direct_round buf size s).node entries) := by
  have hat := pointers_with_of_le s.node entries (show s.i ≤ 100 by omega)
  obtain ⟨id, bm₁, hensure⟩ : ∃ id bm₁, ensure_block s.bm (s.node.block s.i) = (id, bm₁) := ⟨_, _, rfl⟩
  have hdata : id ≠ 0 → DataBlock id :=
    ensure_block_dataBlock hwf (fun h => by rw [← hat]; exact hheld.in_use _ (by rwa [hat])) hensure
  have hnode : (direct_round buf size s).node = s.node.set_block s.i id := by
    unfold direct_round
    rw [hensure]
    dsimp only
    split <;> rfl
  obtain ⟨d, hbm, hd⟩ : ∃ d : Disk, (direct_round buf size s).bm =
    { bm₁ with d := d.write_block id (buf.shift s.pos) } ∧
      ∀ other, other ≠ id → d.data other = bm₁.d.data other := by
    unfold direct_round
    rw [hensure]
    dsimp only
    split
    · exact ⟨_, rfl, fun other hne => Disk.data_write_block_ne _ hne _⟩
    · exact ⟨_, rfl, fun _ _ => rfl⟩
  rw [hnode, hbm, pointers_with_set_block s.node entries (by omega)]
  apply ensure_block_fills hwf hheld s.i (by rw [hat]; exact hensure)
  · intro other hne
    rw [Disk.data_write_block_ne _ hne, hd other hne]
  · intro _ hne p hp
    rw [Disk.data_write_block_same _ (hdata hne).2 _ hp, direct_chunk, ← hpos]

theorem direct_round_frame (buf : Mem) (size : Int) (s : WriteState) :
    (direct_round buf size s).i = s.i + 1 ∧ (direct_round buf size s).pos = s.pos + 512 ∧
      (∃ blocks, (direct_round buf size s).node = { s.node with blocks }) ∧
      ((s.pos : Int) + 512 ≤ size → (direct_round buf size s).arr_for_remain = s.arr_for_remain) := by
  obtain ⟨id, bm₁, hensure⟩ : ∃ id bm₁, ensure_block s.bm (s.node.block s.i) = (id, bm₁) := ⟨_, _, rfl⟩
  unfold direct_round
  rw [hensure]
  dsimp only
  split
  · next hpart =>
    refine ⟨rfl, rfl, ⟨_, rfl⟩, ?_⟩
    intro hfull
    simp at hpart
    omega
  · exact ⟨rfl, rfl, ⟨_, rfl⟩, fun _ => rfl⟩

/-- What the loop over the direct slots leaves behind: it goes through as many
    slots as the size asks for, and has touched the staging array only if it has
    written the last block. -/
structure DirectDone (buf : Mem) (size : Int) (entries : Pointers) (s s' : WriteState) : Prop where
  i : s'.i = max s.i (min 100 (blocks_for size.toNat))
  pos : s'.pos = 512 * s'.i
  fills : Fills (direct_chunk buf) s.i s'.i s.bm (pointers_with s.node entries)
    s'.bm (pointers_with s'.node entries)
  node : ∃ blocks, s'.node = { s.node with blocks }
  arr : (s'.pos : Int) < size → s'.arr_for_remain = s.arr_for_remain

theorem write_direct_done {buf : Mem} {size : Int} {entries : Pointers} (n : Nat) :
    ∀ s : WriteState, s.i + n = 100 → s.pos = 512 * s.i → s.bm.WF →
      Held s.bm (pointers_with s.node entries) →
      DirectDone buf size entries s (write_direct buf size n s) := by
  induction n with
  | zero =>
    intro s hi hpos hwf hheld
    exact ⟨by simp [write_direct]; omega, hpos, Fills.refl _ _ hwf, ⟨_, rfl⟩, fun _ => rfl⟩
  | succ n ih =>
    intro s hi hpos hwf hheld
    rw [write_direct]
    split
    · next hlt =>
      have hfills := direct_round_fills buf size (by omega) hpos hwf hheld
      obtain ⟨hi', hpos', ⟨blocks, hnode⟩, harr⟩ := direct_round_frame buf size s
      have hrest := ih (direct_round buf size s) (by omega) (by omega) hfills.wf (hfills.held hheld)
      obtain ⟨blocks', hnode'⟩ := hrest.node
      have hrestI := hrest.i
      have hrestPos := hrest.pos
      refine ⟨?_, hrest.pos, ?_, ⟨blocks', ?_⟩, ?_⟩
      · unfold blocks_for at hrestI ⊢
        omega
      · have hrestFills := hrest.fills
        rw [hi'] at hrestFills
        exact hfills.trans hheld (by omega) (by omega) hrestFills
      · rw [hnode', hnode]
      · intro hmore
        rw [hrest.arr hmore, harr (by omega)]
    · next hnot =>
      refine ⟨?_, hpos, Fills.refl _ _ hwf, ⟨_, rfl⟩, fun _ => rfl⟩
      unfold blocks_for
      omega

end InodeManager

end chfs
