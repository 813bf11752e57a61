import Chfs.Extent.Aborts
import Chfs.Extent.Refinement

namespace chfs

open BlockManager InodeManager

namespace ExtentServer

variable {start es es' : ExtentServer} {id : extentid_t} {node : Inode} {p : Nat} {buf bytes : List UInt8}

/-- The server in the same state, with other contents in the memory it has not written yet. -/
def with_memory (es : ExtentServer) (heap : Nat → Mem) : ExtentServer :=
  { es with im := { es.im with env := { es.im.env with heap } } }

/-- No other inode's content or size changes. -/
def KeepsOthers (es es' : ExtentServer) (id : extentid_t) : Prop :=
  ∀ other, inum_of other ≠ inum_of id →
    (∀ heap bytes, (es'.with_memory heap).Reads other bytes ↔ (es.with_memory heap).Reads other bytes) ∧
      (es'.getattr other).2.size = (es.getattr other).2.size

/-- After the `put` the file holds the whole buffer or what it held before, its size
    is the length of that, and the other files are as before. -/
def PutAllOrNothing (es : ExtentServer) (id : extentid_t) (buf : List UInt8) : Prop :=
  ∃ es', es.put id buf = .ok (.OK, es') ∧
    (∃ bytes, es'.Reads id bytes ∧ (bytes = buf ∨ es.Reads id bytes) ∧
      (es'.getattr id).2.size.toNat = bytes.length) ∧
    KeepsOthers es es' id

/-- And that whatever the memory holds that the server looks at without having written it. -/
def AllOrNothing (es : ExtentServer) (id : extentid_t) (buf : List UInt8) : Prop :=
  ∀ heap, PutAllOrNothing (es.with_memory heap) id buf

/-- What a live file reads as, when it can be read. -/
theorem reads_iff_of_live (hlive : es.im.get_inode (inum_of id) = some node) (hwf : es.im.bm.WF)
    (hlayout : Layout es.im.bm node p) :
    es.Reads id bytes ↔
      (pre_block_num node ≤ 228 ∨ (p ≤ 100 ∧ pre_block_num node * 512 < 2 ^ 31)) ∧
        bytes = (file_bytes es.im.bm node (es.im.env.heap 0)).bytes node.size.toNat := by
  by_cases hroom : pre_block_num node ≤ 228 ∨ (p ≤ 100 ∧ pre_block_num node * 512 < 2 ^ 31)
  · obtain ⟨im', hrun, _⟩ := get_done hlive hwf hlayout hroom
    simp only [Reads, hrun, hroom, true_and]
    constructor
    · rintro ⟨es', hget⟩
      cases hget
      rfl
    · rintro rfl
      exact ⟨_, rfl⟩
  · obtain ⟨fault, hrun⟩ := get_fault hlive hwf hlayout hroom
    simp only [Reads, hrun, hroom, false_and, iff_false]
    rintro ⟨es', hget⟩
    cases hget

theorem reads_iff_of_dead (hdead : es.im.get_inode (inum_of id) = none) : es.Reads id bytes ↔ bytes = [] := by
  simp only [Reads, get_dead hdead]
  constructor
  · rintro ⟨es', hget⟩
    cases hget
    rfl
  · rintro rfl
    exact ⟨_, rfl⟩

/-- Sparing the other inodes keeps what they read as. -/
theorem keepsOthers_of_spares (howned : Owned es.im) (hwf' : es'.im.bm.WF)
    (hspares : Spares es.im es'.im (inum_of id)) : KeepsOthers es es' id := by
  intro other hother
  have hinode := hspares.inodes _ hother
  refine ⟨?_, ?_⟩
  · intro heap bytes
    cases hnode : es.im.get_inode (inum_of other) with
    | none =>
      rw [hnode] at hinode
      have hdead : (es.with_memory heap).im.get_inode (inum_of other) = none := hnode
      have hdead' : (es'.with_memory heap).im.get_inode (inum_of other) = none := hinode
      rw [reads_iff_of_dead hdead, reads_iff_of_dead hdead']
    | some file =>
      obtain ⟨q, hlayout⟩ := howned.layout _ _ hnode
      have hlayout' := hspares.layout hother hnode hlayout
      have hbytes := hspares.file_bytes_eq hother hnode (heap 0)
      rw [hnode] at hinode
      have hlive : (es.with_memory heap).im.get_inode (inum_of other) = some file := hnode
      have hlive' : (es'.with_memory heap).im.get_inode (inum_of other) = some file := hinode
      rw [reads_iff_of_live hlive howned.wf hlayout, reads_iff_of_live hlive' hwf' hlayout']
      change _ ∧ bytes = (file_bytes es'.im.bm file (heap 0)).bytes _ ↔
        _ ∧ bytes = (file_bytes es.im.bm file (heap 0)).bytes _
      rw [hbytes]
  · rw [getattr_eq, getattr_eq, hinode]

/-- A byte that no block holds, before or after the `put`. -/
theorem missing_byte {free : Nat} (hlayout : Layout es.im.bm node p) {im' : InodeManager} {node' : Inode}
    (hfront : Prefix (pointers im'.bm node')
      (min (filled p (target buf.length) free) (pointers_for (max 1 (blocks_for buf.length)))))
    (hnot : ¬(buf.length ≤ 116736 ∧ pointers_for (blocks_for buf.length) ≤ p + free)) :
    ∃ q < buf.length, pointers im'.bm node' (slot_position (q / 512)) = 0 ∧
      pointers es.im.bm node (slot_position (q / 512)) = 0 := by
  by_cases hlarge : 116736 < buf.length
  · refine ⟨116736, hlarge, ?_, ?_⟩
    · exact pointers_of_large _ _ (by decide)
    · exact pointers_of_large _ _ (by decide)
  · -- the last block of the file is missing
    have hk : p + free < pointers_for (blocks_for buf.length) := by omega
    have htarget := Nat.min_le_right 229 (pointers_for (blocks_for buf.length))
    have hslot : p + free ≤ slot_position (blocks_for buf.length - 1) := by
      unfold pointers_for at hk
      unfold slot_position
      split at hk <;> split <;> omega
    have hdiv : 512 * (blocks_for buf.length - 1) / 512 = blocks_for buf.length - 1 :=
      Nat.mul_div_cancel_left _ (by omega)
    refine ⟨512 * (blocks_for buf.length - 1), ?_, ?_, ?_⟩
    · unfold pointers_for blocks_for at *
      split at hk <;> omega
    · rw [hdiv]
      apply hfront.eq_zero
      unfold filled
      omega
    · rw [hdiv]
      exact hlayout.front.eq_zero (by omega)

/-- With room for it in a file and on the disk, a `put` that can free what it need not
    keep stores the buffer. -/
theorem putAllOrNothing_of_room (howned : Owned es.im) (hlive : es.im.get_inode (inum_of id) = some node)
    (hlayout : Layout es.im.bm node p) (hfits : buf.length ≤ 116736)
    (hroom : pointers_for (blocks_for buf.length) ≤ p + es.im.bm.free_count)
    (hshrink : CanShrink (pre_block_num node) (max 1 (blocks_for buf.length))
      (filled p (target buf.length) es.im.bm.free_count)) :
    PutAllOrNothing es id buf := by
  obtain ⟨im', node', hrun, hdone, _⟩ := put_done buf hlive howned.wf hlayout (by omega) hshrink
  have hroom' : target buf.length ≤ p + es.im.bm.free_count := (Nat.min_le_right _ _).trans hroom
  obtain ⟨⟨p', hlayout', hp'⟩, hbytes⟩ := hdone.whole hfits hroom'
  have howned' := hdone.owned howned hlive (by omega)
  have hsize := hdone.size_toNat (by omega)
  have hk := Whole.blocks_le ⟨p', hlayout', hp'⟩
  have hpre : pre_block_num node' ≤ 228 := by
    rw [pre_block_num_eq]
    omega
  obtain ⟨es', hes'⟩ : ∃ es' : ExtentServer,
      es' = { im := im', longest_put := max es.longest_put buf.length } := ⟨_, rfl⟩
  have him' : im' = es'.im := by rw [hes']
  rw [← hes'] at hrun
  rw [him'] at hdone howned' hlayout' hbytes
  refine ⟨es', hrun, ⟨buf, ?_, .inl rfl, ?_⟩, keepsOthers_of_spares howned howned'.wf (hdone.spares howned hlive)⟩
  · refine (reads_iff_of_live hdone.live howned'.wf hlayout').mpr ⟨.inl hpre, ?_⟩
    apply List.ext_getElem
    · rw [Mem.length_bytes, hsize]
    · intro q hq hq'
      rw [Mem.getElem_bytes, hbytes _ q hq]
  · rw [getattr_eq, hdone.live]
    exact hsize

/-- Without the room, what is left of the memory shows through: bytes that are neither
    the buffer's nor those the file held before. -/
theorem not_putAllOrNothing (howned : Owned es.im) (hlive : es.im.get_inode (inum_of id) = some node)
    (hlayout : Layout es.im.bm node p) (hlen : buf.length < 2 ^ 31)
    (hnot : ¬(buf.length ≤ 116736 ∧ pointers_for (blocks_for buf.length) ≤ p + es.im.bm.free_count))
    (hheap : ∀ i q, es.im.env.heap (i + 1) q ≠ es.im.env.heap 0 q ∧
      es.im.env.heap (i + 1) q ≠ buf.getD q 0) :
    ¬ PutAllOrNothing es id buf := by
  rintro ⟨es', hput, ⟨bytes, hreads, hbytes, hsize⟩, _⟩
  by_cases hshrink : CanShrink (pre_block_num node) (max 1 (blocks_for buf.length))
      (filled p (target buf.length) es.im.bm.free_count)
  · obtain ⟨im', node', hrun, hdone, k, hmemory⟩ := put_done buf hlive howned.wf hlayout hlen hshrink
    have him' : im' = es'.im := by
      rw [hrun] at hput
      cases hput
      rfl
    rw [him'] at hdone hmemory
    have howned' := hdone.owned howned hlive (by omega)
    have hsize' := hdone.size_toNat (by omega)
    obtain ⟨q, hq, hnone', hnone⟩ := missing_byte hlayout hdone.written.front hnot
    obtain ⟨_, hnow⟩ := (reads_iff_of_live hdone.live howned'.wf (hdone.layout (by omega))).mp hreads
    have hlength : bytes.length = buf.length := by rw [hnow, Mem.length_bytes, hsize']
    have hbyte : bytes.getD q 0 = es.im.env.heap (k + 1) q := by
      rw [List.getD_eq_getElem _ _ (by omega)]
      simp only [hnow, Mem.getElem_bytes, file_bytes, hnone', ↓reduceIte, hmemory, Nat.zero_add]
    rcases hbytes with rfl | hold
    · exact (hheap k q).2 hbyte.symm
    · obtain ⟨_, hbefore⟩ := (reads_iff_of_live hlive howned.wf hlayout).mp hold
      have hbyte' : bytes.getD q 0 = es.im.env.heap 0 q := by
        rw [List.getD_eq_getElem _ _ (by omega)]
        simp only [hbefore, Mem.getElem_bytes, file_bytes, hnone, ↓reduceIte]
      exact (hheap k q).1 (hbyte.symm.trans hbyte')
  · obtain ⟨fault, hrun⟩ := put_fault buf hlive howned.wf hlayout hlen hshrink
    rw [hrun] at hput
    cases hput

/-- In a state in order, a `put` on a live inode is all or nothing exactly when the
    buffer fits into a file, there are enough free blocks for it, and the blocks behind
    the new size can be freed. -/
theorem allOrNothing_iff_of_owned (howned : Owned es.im)
    (hlive : es.im.get_inode (inum_of id) = some node) (hlen : buf.length < 2 ^ 31) :
    AllOrNothing es id buf ↔
      Fits buf ∧ pointers_for (blocks_for buf.length) ≤ held_count es.im.bm node + es.im.bm.free_count ∧
        CanShrink (pre_block_num node) (max 1 (blocks_for buf.length)) (held_count es.im.bm node) := by
  obtain ⟨p, hlayout⟩ := howned.layout _ _ hlive
  have howned' : ∀ heap, Owned (es.with_memory heap).im := fun heap =>
    howned.of_unchanged (unchanged_env es.im { es.im.env with heap })
  rw [held_count_eq hlayout.front, fits_iff, ← canShrink_filled es.im.bm.free_count]
  constructor
  · intro hall
    have hroom : buf.length ≤ 116736 ∧ pointers_for (blocks_for buf.length) ≤ p + es.im.bm.free_count := by
      by_contra hnot
      let heap : Nat → Mem := fun i q => if i = 0 then buf.getD q 0 else buf.getD q 0 + 1
      refine not_putAllOrNothing (howned' heap) hlive hlayout hlen hnot ?_ (hall heap)
      intro i q
      have hne : buf.getD q 0 + 1 ≠ buf.getD q 0 := by simp
      exact ⟨hne, hne⟩
    refine ⟨hroom.1, hroom.2, ?_⟩
    by_contra hnot
    obtain ⟨es', hput, _⟩ := hall es.im.env.heap
    have hlive' : (es.with_memory es.im.env.heap).im.get_inode (inum_of id) = some node := hlive
    obtain ⟨fault, hrun⟩ := put_fault buf hlive' howned.wf hlayout hlen hnot
    rw [hrun] at hput
    cases hput
  · rintro ⟨hfits, hroom, hshrink⟩ heap
    exact putAllOrNothing_of_room (howned' heap) hlive hlayout hfits hroom hshrink

/-- In every state a new server reaches, a `put` on a live inode is all or nothing
    exactly when the buffer fits into a file, there are enough free blocks for it, and
    the blocks behind the new size can be freed. -/
theorem allOrNothing_iff {garbage : UInt32} {env : Env} {history : List (ExtentOp × ExtentReply)}
    (hnew : ExtentServer.new garbage env = .ok start) (hrun : ShortRun start history es)
    (hlive : es.im.get_inode (inum_of id) = some node) (hlen : buf.length < 2 ^ 31) :
    AllOrNothing es id buf ↔
      Fits buf ∧ pointers_for (blocks_for buf.length) ≤ held_count es.im.bm node + es.im.bm.free_count ∧
        CanShrink (pre_block_num node) (max 1 (blocks_for buf.length)) (held_count es.im.bm node) :=
  allOrNothing_iff_of_owned (ShortRun.owned (fresh_new hnew).1.owned hrun) hlive hlen

theorem allOrNothing_iff_root :
    ∃ start node, ExtentServer.new 0 still = .ok start ∧ start.im.get_inode (inum_of 1) = some node ∧
      (AllOrNothing start 1 [104, 105] ↔
        Fits [104, 105] ∧ pointers_for (blocks_for 2) ≤ held_count start.im.bm node + start.im.bm.free_count ∧
          CanShrink (pre_block_num node) (max 1 (blocks_for 2)) (held_count start.im.bm node)) := by
  obtain ⟨start, hnew⟩ := new_zero still
  obtain ⟨root, hroot, _⟩ := (fresh_new hnew).1.root
  exact ⟨start, root, hnew, hroot, allOrNothing_iff hnew .nil hroot (by decide)⟩

/-- A buffer of one byte more than a file has room for. -/
def oversized : List UInt8 := List.replicate (MAXFILE * BLOCK_SIZE + 1) 0

@[simp] theorem length_oversized : oversized.length = 116737 := List.length_replicate

/-- The file it leaves in the root of a new server has all 229 blocks, and needs one more. -/
theorem put_oversized (hstart : Fresh start.im) :
    ∃ es node, start.put 1 oversized = .ok (.OK, es) ∧ es.im.get_inode (inum_of 1) = some node ∧
      es.im.bm.WF ∧ Layout es.im.bm node 229 ∧ pre_block_num node = 229 ∧ node.size.toNat = 116737 := by
  obtain ⟨root, hroot, _, hsize, _⟩ := hstart.root
  have hroot : start.im.get_inode (inum_of 1) = some root := hroot
  obtain ⟨p, hlayout⟩ := hstart.owned.layout 1 root hroot
  have hpre : pre_block_num root = 1 := by rw [pre_block_num, if_pos hsize]
  obtain ⟨im', node', hrun, hdone, _⟩ := put_done oversized hroot hstart.wf hlayout
    (by rw [length_oversized]; omega) (.inl (by omega))
  have hlayout' := hdone.layout (by rw [length_oversized]; omega)
  have hsize' := hdone.size_toNat (by rw [length_oversized]; omega)
  rw [length_oversized] at hlayout' hsize'
  have htarget : target 116737 = 229 := by decide
  have hroom : pointers_for (max 1 (blocks_for 116737)) = 230 := by decide
  have hfree := hstart.free_count
  have hp := prefix_le hlayout.front
  have hreach : min (filled p 229 start.im.bm.free_count) 230 = 229 := by
    unfold filled
    omega
  rw [htarget, hroom, hreach] at hlayout'
  refine ⟨{ im := im', longest_put := max start.longest_put oversized.length }, node', hrun, hdone.live,
    hdone.written.wf, hlayout', ?_, hsize'⟩
  rw [pre_block_num_eq, hsize']
  decide

/-- A `put` of one byte too many is accepted, and afterwards the file cannot be read. -/
theorem oversized_put_is_not_all_or_nothing :
    ∃ start es', ExtentServer.new 0 still = .ok start ∧ start.im.get_inode (inum_of 1) ≠ none ∧
      start.put 1 (List.replicate 116737 0) = .ok (.OK, es') ∧ (∀ bytes, ¬ es'.Reads 1 bytes) ∧
      ¬ AllOrNothing start 1 (List.replicate 116737 0) := by
  obtain ⟨start, hnew⟩ := new_zero still
  have hfresh := (fresh_new hnew).1
  obtain ⟨root, hroot, _⟩ := hfresh.root
  have hroot : start.im.get_inode (inum_of 1) = some root := hroot
  obtain ⟨es', node', hrun, hlive, hwf, hlayout, hpre, _⟩ := put_oversized hfresh
  have hbuf : List.replicate 116737 0 = oversized := rfl
  rw [hbuf]
  refine ⟨start, es', hnew, by rw [hroot]; simp, hrun, ?_, ?_⟩
  · intro bytes hreads
    have hread := ((reads_iff_of_live hlive hwf hlayout).mp hreads).1
    omega
  · intro hall
    have hfits := ((allOrNothing_iff_of_owned hfresh.owned hroot (by rw [length_oversized]; omega)).mp hall).1
    rw [fits_iff, length_oversized] at hfits
    omega

end ExtentServer

end chfs
