import Chfs.Extent.AllOrNothing
import Chfs.Extent.Ownership
import Chfs.WriteFile.Input

namespace chfs

open BlockManager InodeManager

namespace ExtentServer

variable {start es : ExtentServer} {id : extentid_t} {node : Inode} {p : Nat} {buf : List UInt8}

/-- The server in the same state, with `m` behind the zero byte of the next buffer it is given. -/
def with_tail (es : ExtentServer) (m : Mem) : ExtentServer :=
  es.with_memory (Function.update es.im.env.heap 0 m)

/-- The `put` reads nothing behind the zero byte of its buffer, and the blocks of the
    file then hold the buffer, the last one filled up with zeros. -/
structure WritesInputOnly (es : ExtentServer) (id : extentid_t) (buf : List UInt8) : Prop where
  no_overread : ∀ m, (es.with_tail m).put id buf = es.put id buf
  blocks : ∃ es' node, es.put id buf = .ok (.OK, es') ∧ es'.im.get_inode (inum_of id) = some node ∧
    ∀ k < blocks_for buf.length, es'.im.bm.using_blocks (logical_slot es'.im.bm node k) = some 1 ∧
      ∀ q < BLOCK_SIZE, es'.im.bm.data (logical_slot es'.im.bm node k) q = buf.getD (BLOCK_SIZE * k + q) 0

/-- The lengths for which `write_file` does not write the last block from behind the end
    of the buffer: nothing is left of a direct block, or just the zero byte, or the last
    block is not a direct one. -/
def EndsInside (n : Nat) : Prop := n % BLOCK_SIZE = 0 ∨ n % BLOCK_SIZE = BLOCK_SIZE - 1 ∨ NDIRECT * BLOCK_SIZE < n

instance (n : Nat) : Decidable (EndsInside n) := inferInstanceAs (Decidable (_ ∨ _))

/-- Then all that is read of the last block is the buffer with its zero byte. -/
theorem EndsInside.read_le {n p : Nat} (h : EndsInside n) (hp : p < 51200) (hblock : 512 * (p / 512) < n) :
    p ≤ n := by
  have hlimit : NDIRECT * BLOCK_SIZE = 51200 := rfl
  unfold EndsInside at h
  rw [hlimit, BLOCK_SIZE_eq] at h
  omega

/-- The zero byte is all there is behind the buffer. -/
theorem ofBytes_nul {buf : List UInt8} (rest : Mem) {p : Nat} (hp : p ≤ buf.length) :
    Mem.ofBytes (buf ++ [0]) rest p = buf.getD p 0 := by
  rw [Mem.ofBytes_of_lt (by simp; omega)]
  by_cases hlt : p < buf.length
  · rw [List.getElem_append_left hlt, List.getD_eq_getElem _ _ hlt]
  · rw [List.getElem_append_right (by omega), List.getD_eq_default _ _ (by omega)]
    simp

theorem put_with_tail (hends : EndsInside buf.length) (hlen : buf.length < 2 ^ 31) (m : Mem) :
    (es.with_tail m).put id buf = es.put id buf := by
  have hmalloc : (es.with_tail m).im.malloc = (m, es.im.malloc.2) := rfl
  have hagree : AgreeOnInput buf.length (Mem.ofBytes (buf ++ [0]) m) (Mem.ofBytes (buf ++ [0]) (es.im.env.heap 0)) := by
    intro p hp
    have hle : p ≤ buf.length := by
      rcases hp with hp | ⟨hp, hblock⟩
      · omega
      · exact hends.read_le hp (by exact_mod_cast hblock)
    rw [ofBytes_nul _ hle, ofBytes_nul _ hle]
  have hwrite := hagree.write_file_eq es.im.malloc.2 (inum_of id)
  unfold put
  rw [hmalloc, int_of_size_of_lt hlen]
  dsimp only
  rw [hwrite]
  rfl

/-- What a `put` with enough room leaves in the blocks of the file. -/
theorem put_blocks (howned : Owned es.im) (hlive : es.im.get_inode (inum_of id) = some node)
    (hlayout : Layout es.im.bm node p) (hfits : buf.length ≤ 116736)
    (hroom : pointers_for (blocks_for buf.length) ≤ p + es.im.bm.free_count)
    (hshrink : CanShrink (pre_block_num node) (max 1 (blocks_for buf.length))
      (filled p (target buf.length) es.im.bm.free_count)) :
    ∃ es' node', es.put id buf = .ok (.OK, es') ∧ es'.im.get_inode (inum_of id) = some node' ∧
      ∀ k < blocks_for buf.length, es'.im.bm.using_blocks (logical_slot es'.im.bm node' k) = some 1 ∧
        ∀ q < 512, es'.im.bm.data (logical_slot es'.im.bm node' k) q =
          file_chunk (Mem.ofBytes (buf ++ [0]) (es.im.env.heap 0)) buf.length (slot_position k) q := by
  obtain ⟨im', node', hrun, hdone, _⟩ := put_done buf hlive howned.wf hlayout (by omega) hshrink
  obtain ⟨⟨p', hlayout', hp'⟩, _⟩ := hdone.whole hfits ((Nat.min_le_right _ _).trans hroom)
  rw [hdone.size_toNat (by omega)] at hp'
  refine ⟨{ im := im', longest_put := max es.longest_put buf.length }, node', hrun, hdone.live, ?_⟩
  intro k hk
  have hslot : k < MAXFILE := by
    unfold blocks_for at hk
    simp [MAXFILE]
    omega
  have hreach := slot_position_lt_pointers_for hk
  have hne : pointers im'.bm node' (slot_position k) ≠ 0 := hlayout'.front.ne_zero (by omega)
  have huse := hlayout'.held.in_use _ hne
  have hblocks := hdone.written.blocks k hk hne
  rw [pointers_slot _ _ hslot] at huse hblocks
  exact ⟨huse, hblocks⟩

/-- A direct block that the buffer ends in is filled up with what lies behind its zero byte. -/
theorem put_overreads (howned : Owned es.im) (hlive : es.im.get_inode (inum_of id) = some node)
    (hlayout : Layout es.im.bm node p) (hfits : buf.length ≤ 116736)
    (hroom : pointers_for (blocks_for buf.length) ≤ p + es.im.bm.free_count)
    (hshrink : CanShrink (pre_block_num node) (max 1 (blocks_for buf.length))
      (filled p (target buf.length) es.im.bm.free_count))
    (hends : ¬ EndsInside buf.length) : ¬ ∀ m, (es.with_tail m).put id buf = es.put id buf := by
  intro hall
  have hlimit : NDIRECT * BLOCK_SIZE = 51200 := rfl
  unfold EndsInside at hends
  rw [hlimit, BLOCK_SIZE_eq] at hends
  have hk : buf.length / 512 < blocks_for buf.length := by
    unfold blocks_for
    omega
  have hslot : slot_position (buf.length / 512) = buf.length / 512 := if_pos (by omega)
  -- the byte behind the zero byte ends up in the last block
  have hbyte : ∀ rest : Mem, file_chunk (Mem.ofBytes (buf ++ [0]) rest) buf.length
      (slot_position (buf.length / 512)) (buf.length % 512 + 1) = rest 0 := by
    intro rest
    have hlt : buf.length / 512 < 100 := by omega
    have hpos : 512 * (buf.length / 512) + (buf.length % 512 + 1) = buf.length + 1 := by omega
    rw [hslot, file_chunk, if_pos hlt, direct_chunk, Mem.shift_apply, hpos, Mem.ofBytes, dif_neg (by simp)]
    simp
  obtain ⟨m, hm⟩ : ∃ m : Mem, m = fun p => es.im.env.heap 0 p + 1 := ⟨_, rfl⟩
  have howned' : Owned (es.with_tail m).im := howned.of_unchanged (unchanged_env _ _)
  have hlive' : (es.with_tail m).im.get_inode (inum_of id) = some node := hlive
  obtain ⟨es₁, node₁, hrun₁, hlive₁, hblocks₁⟩ := put_blocks howned hlive hlayout hfits hroom hshrink
  obtain ⟨es₂, node₂, hrun₂, hlive₂, hblocks₂⟩ := put_blocks howned' hlive' hlayout hfits hroom hshrink
  rw [hall m, hrun₁] at hrun₂
  cases hrun₂
  rw [hlive₁] at hlive₂
  cases hlive₂
  have hfirst := (hblocks₁ _ hk).2 (buf.length % 512 + 1) (by omega)
  have hsecond := (hblocks₂ _ hk).2 (buf.length % 512 + 1) (by omega)
  rw [hbyte] at hfirst hsecond
  have htail : (es.with_tail m).im.env.heap 0 = m := rfl
  rw [hfirst, htail, hm] at hsecond
  simp at hsecond

/-- In states in order, with enough free blocks for the buffer. -/
theorem writesInputOnly_iff_of_owned (howned : Owned es.im) (hlive : es.im.get_inode (inum_of id) = some node)
    (hsize : 1 ≤ buf.length) (hfits : Fits buf)
    (hroom : pointers_for (blocks_for buf.length) ≤ held_count es.im.bm node + es.im.bm.free_count) :
    WritesInputOnly es id buf ↔
      EndsInside buf.length ∧ CanShrink (pre_block_num node) (max 1 (blocks_for buf.length))
        (held_count es.im.bm node) := by
  obtain ⟨p, hlayout⟩ := howned.layout _ _ hlive
  have hfits := fits_iff.mp hfits
  rw [held_count_eq hlayout.front] at hroom
  rw [held_count_eq hlayout.front, ← canShrink_filled es.im.bm.free_count]
  constructor
  · rintro ⟨hno, es', node', hput, _⟩
    have hshrink : CanShrink (pre_block_num node) (max 1 (blocks_for buf.length))
        (filled p (target buf.length) es.im.bm.free_count) := by
      by_contra hnot
      obtain ⟨fault, hrun⟩ := put_fault buf hlive howned.wf hlayout (by omega) hnot
      rw [hrun] at hput
      cases hput
    refine ⟨?_, hshrink⟩
    by_contra hends
    exact put_overreads howned hlive hlayout hfits hroom hshrink hends hno
  · rintro ⟨hends, hshrink⟩
    obtain ⟨es', node', hrun, hlive', hblocks⟩ := put_blocks howned hlive hlayout hfits hroom hshrink
    refine ⟨put_with_tail hends (by omega), es', node', hrun, hlive', ?_⟩
    intro k hk
    refine ⟨(hblocks k hk).1, ?_⟩
    intro q hq
    rw [BLOCK_SIZE_eq] at hq ⊢
    rw [(hblocks k hk).2 q hq, file_chunk]
    split
    · next hdirect =>
      have hk100 : k < 100 := by
        unfold slot_position at hdirect
        split at hdirect <;> omega
      have hslot : slot_position k = k := if_pos hk100
      rw [direct_chunk, Mem.shift_apply, hslot]
      refine ofBytes_nul _ (hends.read_le ?_ ?_)
      · omega
      · unfold blocks_for at hk
        omega
    · next hentry =>
      have hk100 : ¬ k < 100 := fun hlt => hentry (by rwa [slot_position, if_pos hlt])
      have hslot : slot_position k - 1 = k := by rw [slot_position, if_neg hk100, Nat.add_sub_cancel]
      rw [entry_chunk, hslot]
      split
      · next hin => exact ofBytes_nul _ (by omega)
      · next hout =>
        have hle : buf.length ≤ 512 * k + q := by omega
        rw [List.getD_eq_default _ _ hle]

/-- In every state a new server reaches, a `put` of a nonempty buffer for which there is
    room reads only its input and pads the last block with zeros exactly when the buffer
    does not end inside a direct block, or just before its last byte, and the blocks
    behind the new size can be freed. -/
theorem writesInputOnly_iff {garbage : UInt32} {env : Env} {history : List (ExtentOp × ExtentReply)}
    (hnew : ExtentServer.new garbage env = .ok start) (hrun : ShortRun start history es)
    (hlive : es.im.get_inode (inum_of id) = some node) (hsize : 1 ≤ buf.length) (hfits : Fits buf)
    (hroom : pointers_for (blocks_for buf.length) ≤ held_count es.im.bm node + es.im.bm.free_count) :
    WritesInputOnly es id buf ↔
      EndsInside buf.length ∧ CanShrink (pre_block_num node) (max 1 (blocks_for buf.length))
        (held_count es.im.bm node) :=
  writesInputOnly_iff_of_owned (ShortRun.owned (fresh_new hnew).1.owned hrun) hlive hsize hfits hroom

/-- What a small buffer needs and a new server has. -/
theorem room_fresh (h : Fresh start.im) (node : Inode) (buf : List UInt8) (hbuf : buf.length ≤ 512) :
    pointers_for (blocks_for buf.length) ≤ held_count start.im.bm node + start.im.bm.free_count := by
  have hfree := h.free_count
  unfold pointers_for blocks_for
  split <;> omega

theorem writesInputOnly_iff_root :
    ∃ start node, ExtentServer.new 0 still = .ok start ∧ start.im.get_inode (inum_of 1) = some node ∧
      (WritesInputOnly start 1 [104, 105] ↔
        EndsInside 2 ∧ CanShrink (pre_block_num node) (max 1 (blocks_for 2)) (held_count start.im.bm node)) := by
  obtain ⟨start, hnew⟩ := new_zero still
  have hfresh := (fresh_new hnew).1
  obtain ⟨root, hroot, _⟩ := hfresh.root
  have hroom := room_fresh hfresh root [104, 105] (by simp)
  exact ⟨start, root, hnew, hroot, writesInputOnly_iff hnew .nil hroot (by simp) (by decide) hroom⟩

/-- Two bytes are written with what lies behind their zero byte. -/
theorem short_put_overreads :
    ∃ start node, ExtentServer.new 0 still = .ok start ∧ start.im.get_inode (inum_of 1) = some node ∧
      pointers_for (blocks_for 2) ≤ held_count start.im.bm node + start.im.bm.free_count ∧
      ¬ WritesInputOnly start 1 [104, 105] := by
  obtain ⟨start, hnew⟩ := new_zero still
  have hfresh := (fresh_new hnew).1
  obtain ⟨root, hroot, _⟩ := hfresh.root
  have hroot : start.im.get_inode (inum_of 1) = some root := hroot
  have hroom := room_fresh hfresh root [104, 105] (by simp)
  refine ⟨start, root, hnew, hroot, hroom, ?_⟩
  intro hwrites
  have hends := ((writesInputOnly_iff_of_owned hfresh.owned hroot (by simp) (by decide) hroom).mp hwrites).1
  exact absurd hends (by decide)

end ExtentServer

end chfs
