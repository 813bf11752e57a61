import Chfs.Extent.AllOrNothing
import Chfs.Extent.Ownership
import Chfs.Extent.WholeFiles

namespace chfs

open BlockManager InodeManager

/-- A slot past the end of the indirect table names no block. -/
theorem logical_slot_of_le (bm : BlockManager) (node : Inode) {i : Nat} (hi : MAXFILE ≤ i) :
    logical_slot bm node i = 0 := by
  simp only [MAXFILE, NDIRECT_eq, NINDIRECT_eq] at hi
  unfold logical_slot
  rw [NDIRECT_eq, if_neg (by omega)]
  split
  · rfl
  · have hword : (bm.data (node.block 100)).word (i - 100) = Mem.zero.word (i - 100) :=
      Mem.word_congr fun p hp => Disk.data_of_size_le bm.d _ (by omega)
    rw [hword, Mem.word_zero]

namespace ExtentServer

variable {start es es' : ExtentServer} {op : ExtentOp} {id : extentid_t}

/-- A `get` stays within its buffers, and each byte it returns comes from a block in use
    that a slot of the inode names, whatever the memory held before. -/
def ReadsOwnBytes (es : ExtentServer) (id : extentid_t) : Prop :=
  ∃ bytes, (∀ heap, (es.with_memory heap).Reads id bytes) ∧ bytes.length = (es.getattr id).2.size.toNat ∧
    ∀ q (hq : q < bytes.length), ∃ node, es.im.get_inode (inum_of id) = some node ∧
      es.im.bm.using_blocks (logical_slot es.im.bm node (q / BLOCK_SIZE)) = some 1 ∧
      bytes[q] = es.im.bm.data (logical_slot es.im.bm node (q / BLOCK_SIZE)) (q % BLOCK_SIZE)

theorem readsOwnBytes_of_whole (howned : Owned es.im) (hwhole : AllWhole es.im) (id : extentid_t) :
    es.ReadsOwnBytes id := by
  cases hnode : es.im.get_inode (inum_of id) with
  | none =>
    refine ⟨[], fun heap => ?_, ?_, ?_⟩
    · have hdead : (es.with_memory heap).im.get_inode (inum_of id) = none := hnode
      exact (reads_iff_of_dead hdead).mpr rfl
    · rw [getattr_eq, hnode]
      rfl
    · intro q hq
      simp at hq
  | some node =>
    obtain ⟨p, hlayout, hp⟩ := hwhole _ node hnode
    have hk := (hwhole _ node hnode).blocks_le
    have hpre : pre_block_num node ≤ 228 := by
      rw [pre_block_num_eq]
      omega
    -- the slot of each byte of the file names a block
    have hslot : ∀ q < node.size.toNat, pointers es.im.bm node (slot_position (q / 512)) ≠ 0 ∧
        pointers es.im.bm node (slot_position (q / 512)) = logical_slot es.im.bm node (q / 512) := by
      intro q hq
      have hblock : q / 512 < blocks_for node.size.toNat := by
        unfold blocks_for
        omega
      have hreach := slot_position_lt_pointers_for hblock
      refine ⟨hlayout.front.ne_zero (by omega), pointers_slot _ _ ?_⟩
      simp [MAXFILE]
      omega
    have hbyte : ∀ heap, ∀ q < node.size.toNat, file_bytes es.im.bm node heap q =
        es.im.bm.data (logical_slot es.im.bm node (q / 512)) (q % 512) := by
      intro heap q hq
      obtain ⟨hne, heq⟩ := hslot q hq
      rw [← heq]
      exact if_neg hne
    refine ⟨(file_bytes es.im.bm node Mem.zero).bytes node.size.toNat, fun heap => ?_, ?_, ?_⟩
    · have hlive : (es.with_memory heap).im.get_inode (inum_of id) = some node := hnode
      refine (reads_iff_of_live hlive howned.wf hlayout).mpr ⟨.inl hpre, ?_⟩
      refine List.map_congr_left fun q hq => ?_
      have hq := List.mem_range.mp hq
      exact (hbyte _ q hq).trans (hbyte _ q hq).symm
    · rw [Mem.length_bytes, getattr_eq, hnode]
    · intro q hq
      rw [Mem.length_bytes] at hq
      obtain ⟨hne, heq⟩ := hslot q hq
      refine ⟨node, hnode, ?_, ?_⟩
      · have huse := hlayout.held.in_use _ hne
        rw [heq] at huse
        exact huse
      · rw [Mem.getElem_bytes]
        exact hbyte _ q hq

/-- A file of which a byte has no block does not read so. -/
theorem not_readsOwnBytes {node : Inode} (hwf : es.im.bm.WF) (hlive : es.im.get_inode (inum_of id) = some node)
    {q : Nat} (hq : q < node.size.toNat) (hnone : pointers es.im.bm node (slot_position (q / 512)) = 0) :
    ¬ es.ReadsOwnBytes id := by
  rintro ⟨bytes, _, hlength, hbytes⟩
  rw [getattr_eq, hlive] at hlength
  have hlength : bytes.length = node.size.toNat := hlength
  obtain ⟨file, hfile, huse, _⟩ := hbytes q (by omega)
  rw [hlive] at hfile
  cases hfile
  have hzero : logical_slot es.im.bm node (q / BLOCK_SIZE) = 0 := by
    by_cases hslot : q / BLOCK_SIZE < MAXFILE
    · rw [← pointers_slot _ _ hslot]
      exact hnone
    · exact logical_slot_of_le _ _ (Nat.le_of_not_lt hslot)
  rw [hzero] at huse
  exact hwf.not_inUse_zero huse

/-- A buffer that does not fit, or for which there are not enough blocks, leaves a file
    that does not read as its own bytes. -/
theorem put_without_room (howned : Owned es.im) (hwhole : AllWhole es.im) (hshort : op.Short)
    (hnot : ¬ es.HasRoom op) :
    ∃ reply es', es.step op = .ok (reply, es') ∧ ¬ ∀ id, es'.ReadsOwnBytes id := by
  cases op with
  | put id buf =>
    have hshort : buf.length < 2 ^ 31 := hshort
    simp only [HasRoom, not_forall] at hnot
    obtain ⟨node, hlive, hroom⟩ := hnot
    obtain ⟨p, hlayout, hp⟩ := hwhole _ node hlive
    rw [held_count_eq hlayout.front, fits_iff] at hroom
    obtain ⟨im', node', hrun, hdone, _⟩ := put_done buf hlive howned.wf hlayout hshort
      (Whole.can_shrink hlayout hp _ _ _)
    obtain ⟨q, hq, hnone, _⟩ := missing_byte hlayout hdone.written.front hroom
    have hsize := hdone.size_toNat (by omega)
    obtain ⟨es', hes'⟩ : ∃ es' : ExtentServer,
        es' = { im := im', longest_put := max es.longest_put buf.length } := ⟨_, rfl⟩
    have him' : im' = es'.im := by rw [hes']
    rw [← hes'] at hrun
    rw [him'] at hdone hnone
    refine ⟨.put .OK, es', by rw [step, hrun]; rfl, ?_⟩
    intro hall
    exact not_readsOwnBytes hdone.written.wf hdone.live (by rwa [hsize]) hnone (hall id)
  | _ => exact absurd trivial hnot

/-- From states in order a run reads own bytes only exactly when there was room for
    each buffer put. -/
theorem reads_own_bytes_iff_of_whole {ops : List ExtentOp} (howned : Owned es.im) (hwhole : AllWhole es.im)
    (hshort : ∀ op ∈ ops, op.Short) :
    Trace.Along step (fun es => ∀ id, es.ReadsOwnBytes id) es ops ↔ Trace.Each step HasRoom es ops := by
  let Inv : ExtentServer → Prop := fun es => Owned es.im ∧ AllWhole es.im
  have hreads : ∀ s, Inv s → ∀ id, s.ReadsOwnBytes id := fun s hs => readsOwnBytes_of_whole hs.1 hs.2
  have hkeeps : ∀ s op reply s', Inv s → op.Short → s.HasRoom op → s.step op = .ok (reply, s') → Inv s' := by
    rintro s op reply s' ⟨howned, hwhole⟩ hshort hroom hstep
    have hdone := step_done howned hshort hstep
    exact ⟨hdone.owned howned hshort, hdone.all_whole howned hwhole hroom⟩
  have hbreaks : ∀ s op, Inv s → op.Short → ¬ s.HasRoom op →
      ∃ reply s', s.step op = .ok (reply, s') ∧ ¬ ∀ id, s'.ReadsOwnBytes id :=
    fun s op hs hshort hnot => put_without_room hs.1 hs.2 hshort hnot
  exact Trace.along_iff_each hreads hkeeps hbreaks ops es ⟨howned, hwhole⟩ hshort

/-- Along a run of a new server each `get` stays within its buffers and returns the
    file's own bytes exactly when each buffer put fits into a file and there are
    enough blocks for it. -/
theorem reads_own_bytes_iff {garbage : UInt32} {env : Env} {ops : List ExtentOp}
    (hnew : ExtentServer.new garbage env = .ok start) (hshort : ∀ op ∈ ops, op.Short) :
    Trace.Along step (fun es => ∀ id, es.ReadsOwnBytes id) start ops ↔ Trace.Each step HasRoom start ops :=
  reads_own_bytes_iff_of_whole (fresh_new hnew).1.owned (AllWhole.fresh (fresh_new hnew).1) hshort

theorem reads_own_bytes_iff_put :
    ∃ start, ExtentServer.new 0 still = .ok start ∧
      (Trace.Along step (fun es => ∀ id, es.ReadsOwnBytes id) start [.put 1 [104, 105], .get 1] ↔
        Trace.Each step HasRoom start [.put 1 [104, 105], .get 1]) := by
  obtain ⟨start, hnew⟩ := new_zero still
  refine ⟨start, hnew, reads_own_bytes_iff hnew ?_⟩
  simp [ExtentOp.Short]

/-- After a `put` of one byte too many the `get` does not return. -/
theorem oversized_put_reads_foreign_bytes :
    ∃ start es fault, ExtentServer.new 0 still = .ok start ∧ start.put 1 oversized = .ok (.OK, es) ∧
      es.get 1 = .error fault ∧ ¬ es.ReadsOwnBytes 1 := by
  obtain ⟨start, hnew⟩ := new_zero still
  obtain ⟨es, node, hput, hlive, hwf, hlayout, hpre, hsize⟩ := put_oversized (fresh_new hnew).1
  obtain ⟨fault, hget⟩ := get_fault hlive hwf hlayout (by omega)
  refine ⟨start, es, fault, hnew, hput, hget, ?_⟩
  refine not_readsOwnBytes (q := 116736) hwf hlive (by omega) ?_
  exact pointers_of_large _ _ (by decide)

end ExtentServer

end chfs
