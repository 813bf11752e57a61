import Chfs.Extent.DiskFull
import Chfs.Extent.Refinement

namespace chfs

open BlockManager InodeManager

/-- The requests of a file's life between its creation and its removal, as long as it
    keeps to the direct blocks. -/
def ExtentOp.OfLife (id : extentid_t) : ExtentOp → Prop
  | .put id' buf => id' = id ∧ buf.length ≤ NDIRECT * BLOCK_SIZE
  | .get _ => True
  | _ => False

/-- The buffers put in the course of a history, the latest first. -/
def puts : List (ExtentOp × ExtentReply) → List (List UInt8)
  | [] => []
  | (.put _ buf, _) :: earlier => buf :: puts earlier
  | _ :: earlier => puts earlier

/-- The last buffer put is not empty and there were blocks for it, or none but empty
    ones have been put, or there was no block at all. -/
def LeavesNothing (free : Nat) : List (List UInt8) → Prop
  | [] => True
  | buf :: earlier =>
    if buf = [] then free = 0 ∨ ∀ other ∈ earlier, other = [] else blocks_for buf.length ≤ free

/-- How many of `free` blocks the file has once the buffers are put. An empty buffer
    leaves it one block, if it had any. -/
def blocks_kept (free : Nat) : List (List UInt8) → Nat
  | [] => 0
  | buf :: earlier => if buf = [] then min 1 (blocks_kept free earlier) else min (blocks_for buf.length) free

/-- The length of the last buffer. -/
def last_length : List (List UInt8) → Nat
  | [] => 0
  | buf :: _ => buf.length

theorem blocks_for_pos {buf : List UInt8} (h : buf ≠ []) : 1 ≤ blocks_for buf.length := by
  have hlen := List.length_pos_iff.mpr h
  unfold blocks_for
  omega

theorem blocks_kept_eq_zero (free : Nat) (bufs : List (List UInt8)) :
    blocks_kept free bufs = 0 ↔ free = 0 ∨ ∀ buf ∈ bufs, buf = [] := by
  induction bufs with
  | nil => simp [blocks_kept]
  | cons buf earlier ih =>
    by_cases hempty : buf = []
    · rw [blocks_kept, if_pos hempty]
      simp only [List.mem_cons, forall_eq_or_imp, hempty, true_and]
      rw [← ih]
      omega
    · have hpos := blocks_for_pos hempty
      rw [blocks_kept, if_neg hempty]
      simp only [List.mem_cons, forall_eq_or_imp, hempty, false_and, or_false]
      omega

/-- The file has as many blocks as its size asks for exactly when none is left behind. -/
theorem leavesNothing_iff (free : Nat) (bufs : List (List UInt8)) :
    LeavesNothing free bufs ↔ blocks_kept free bufs = blocks_for (last_length bufs) := by
  cases bufs with
  | nil => simp [LeavesNothing, blocks_kept, last_length, blocks_for]
  | cons buf earlier =>
    rw [LeavesNothing, blocks_kept, last_length]
    by_cases hempty : buf = []
    · have hzero : blocks_for ([] : List UInt8).length = 0 := rfl
      rw [if_pos hempty, if_pos hempty, hempty, hzero, ← blocks_kept_eq_zero]
      omega
    · rw [if_neg hempty, if_neg hempty]
      omega

namespace ExtentServer

variable {start es es' es'' : ExtentServer} {id : extentid_t} {life : List (ExtentOp × ExtentReply)}

/-- The file `id` lives beside what there was in `es` before it was created. -/
structure LivesBeside (es : ExtentServer) (id : extentid_t) (bufs : List (List UInt8)) (es' : ExtentServer) : Prop where
  owned : Owned es'.im
  file : ∃ node, es'.im.get_inode (inum_of id) = some node ∧
    Layout es'.im.bm node (blocks_kept es.im.bm.free_count bufs) ∧ node.size.toNat = last_length bufs ∧
    (∀ j, ¬ es.im.bm.InUse (pointers es'.im.bm node j)) ∧
    ∀ blk, es'.im.bm.InUse blk ↔ es.im.bm.InUse blk ∨ ∃ j, pointers es'.im.bm node j = blk ∧ blk ≠ 0
  direct : last_length bufs ≤ NDIRECT * BLOCK_SIZE
  free : es'.im.bm.free_count + blocks_kept es.im.bm.free_count bufs = es.im.bm.free_count

theorem livesBeside_created {type : FileType} {inum : UInt32} {im' : InodeManager} (howned : Owned es.im)
    (hcreated : Created es.im type.code inum im') (hinum : inum_of id = inum) :
    LivesBeside es id [] { es with im := im' } := by
  obtain ⟨node, hstored, htype, hsize, _⟩ := hcreated.stored
  have hlive : im'.get_inode inum = some node := by
    rw [hstored, if_neg]
    rw [htype]
    exact type.stored_code.2
  obtain ⟨hlayout, hnone⟩ := hcreated.layout hlive
  refine ⟨hcreated.owned howned, ⟨node, hinum ▸ hlive, hlayout, by rw [hsize]; rfl, ?_, ?_⟩, Nat.zero_le _, ?_⟩
  · intro j
    rw [hnone j]
    exact howned.wf.not_inUse_zero
  · intro blk
    rw [hcreated.in_use]
    refine ⟨Or.inl, ?_⟩
    rintro (huse | ⟨j, hj, hne⟩)
    · exact huse
    · exact absurd (hj.symm.trans (hnone j)) hne
  · simp only [BlockManager.free_count, BlockManager.free_blocks, hcreated.in_use, blocks_kept, Nat.add_zero]

/-- A `put` grows or shrinks the file beside the rest. -/
theorem LivesBeside.put {bufs : List (List UInt8)} {buf : List UInt8} {reply : ExtentReply}
    (h : LivesBeside es id bufs es') (howned : Owned es.im) (hdirect : buf.length ≤ NDIRECT * BLOCK_SIZE)
    (hstep : es'.step (.put id buf) = .ok (reply, es'')) : LivesBeside es id (buf :: bufs) es'' := by
  have hlen : buf.length ≤ 51200 := hdirect
  obtain ⟨howned', ⟨node, hlive, hlayout, hsize, hapart, hin_use⟩, _, hfree⟩ := h
  cases step_done howned' (by unfold ExtentOp.Short; omega) hstep with
  | put_dead hdead =>
    rw [hlive] at hdead
    cases hdead
  | @put _ _ _ node' p im' hlive' hlayout' _ hdone =>
    rw [hlive] at hlive'
    cases hlive'
    obtain rfl := (held_count_eq hlayout'.front).symm.trans (held_count_eq hlayout.front)
    have hn := hdone.size_toNat (by omega)
    have hlayout'' := hdone.layout (by omega)
    have hreach : min (filled (blocks_kept es.im.bm.free_count bufs) (target buf.length) es'.im.bm.free_count)
        (pointers_for (max 1 (blocks_for buf.length))) = blocks_kept es.im.bm.free_count (buf :: bufs) := by
      have htarget : target buf.length = blocks_for buf.length := by
        unfold target pointers_for blocks_for
        split <;> omega
      have hroom : pointers_for (max 1 (blocks_for buf.length)) = max 1 (blocks_for buf.length) := by
        unfold blocks_for
        exact if_pos (by omega)
      rw [htarget, hroom, blocks_kept]
      unfold filled
      by_cases hempty : buf = []
      · have hzero : blocks_for buf.length = 0 := by rw [hempty]; rfl
        rw [if_pos hempty]
        omega
      · have hpos := blocks_for_pos hempty
        rw [if_neg hempty]
        omega
    have hwritten := hdone.written
    have hcount := hwritten.free
    rw [hreach] at hlayout'' hcount
    refine ⟨hdone.owned howned' hlive (by omega), ⟨node', hdone.live, hlayout'', hn, ?_, ?_⟩, hdirect, ?_⟩
    · intro j huse
      rcases hwritten.fresh j (howned.wf.ne_zero huse) with hold | hnew
      · rw [hold] at huse
        exact hapart j huse
      · exact hnew ((hin_use _).mpr (.inl huse))
    · intro blk
      rw [hwritten.in_use]
      constructor
      · rintro (⟨huse, hnone⟩ | hnamed)
        · rcases (hin_use blk).mp huse with hbefore | ⟨j, hj, _⟩
          · exact .inl hbefore
          · exact absurd hj (hnone j)
        · exact .inr hnamed
      · rintro (hbefore | hnamed)
        · refine .inl ⟨(hin_use blk).mpr (.inl hbefore), ?_⟩
          rintro j rfl
          exact hapart j hbefore
        · exact .inr hnamed
    · change im'.bm.free_count + _ = _
      omega

/-- It always returns. -/
theorem LivesBeside.put_returns {bufs : List (List UInt8)} (h : LivesBeside es id bufs es') (buf : List UInt8)
    (hdirect : buf.length ≤ NDIRECT * BLOCK_SIZE) : ∃ es'', es'.step (.put id buf) = .ok (.put .OK, es'') := by
  have hlen : buf.length ≤ 51200 := hdirect
  have hbefore : last_length bufs ≤ 51200 := h.direct
  obtain ⟨node, hlive, hlayout, hsize, _⟩ := h.file
  have hpre : pre_block_num node ≤ 100 := by
    rw [pre_block_num_eq, hsize]
    unfold blocks_for
    omega
  obtain ⟨im', node', hrun, _⟩ := put_done buf hlive h.owned.wf hlayout (by omega) (.inl hpre)
  exact ⟨_, by rw [step, hrun]; rfl⟩

/-- So does a `get`, -/
theorem LivesBeside.get_returns {bufs : List (List UInt8)} (h : LivesBeside es id bufs es') :
    ∃ reply es'', es'.step (.get id) = .ok (reply, es'') := by
  have hbefore : last_length bufs ≤ 51200 := h.direct
  obtain ⟨node, hlive, hlayout, hsize, _⟩ := h.file
  have hpre : pre_block_num node ≤ 228 := by
    rw [pre_block_num_eq, hsize]
    unfold blocks_for
    omega
  obtain ⟨im', hrun, _⟩ := get_done hlive h.owned.wf hlayout (.inl hpre)
  exact ⟨_, _, by rw [step, hrun]; rfl⟩

/-- which leaves it as it is. -/
theorem LivesBeside.get {bufs : List (List UInt8)} {id' : extentid_t} {reply : ExtentReply}
    (h : LivesBeside es id bufs es') (hstep : es'.step (.get id') = .ok (reply, es'')) :
    LivesBeside es id bufs es'' := by
  have hunchanged : Unchanged es'.im es''.im := by
    have hshort : (ExtentOp.get id').Short := trivial
    cases step_done h.owned hshort hstep with
    | get_dead _ => exact Unchanged.refl _
    | get _ _ _ hunchanged => exact hunchanged
  obtain ⟨howned', ⟨node, hlive, hlayout, hsize, hapart, hin_use⟩, hdirect, hfree⟩ := h
  obtain ⟨node', hlive', _, hsize', hblocks⟩ := hunchanged.live_after hlive
  have hpointers := hunchanged.pointers_eq howned' hlive hblocks
  refine ⟨howned'.of_unchanged hunchanged, ⟨node', hlive', hunchanged.layout howned' hlive hblocks hsize' hlayout,
    by rw [hsize', hsize], ?_, ?_⟩, hdirect, by rw [hunchanged.free_count, hfree]⟩
  · rw [hpointers]
    exact hapart
  · intro blk
    rw [hunchanged.in_use, hpointers]
    exact hin_use blk

/-- So does its whole life. -/
theorem livesBeside_of_life (howned : Owned es.im) (hstart : LivesBeside es id [] es')
    (hlife : Trace step (fun _ op => op.OfLife id) es' life es'') : LivesBeside es id (puts life) es'' := by
  refine hlife.history_invariant (P := fun life s => LivesBeside es id (puts life) s) hstart ?_
  intro life s op reply s' h hop hstep
  cases op with
  | put id' buf =>
    obtain ⟨rfl, hdirect⟩ := hop
    exact h.put howned hdirect hstep
  | get id' => exact h.get hstep
  | _ => exact False.elim hop

/-- Removing the file gives back what it took exactly when it has no more and no fewer
    blocks than its size asks for. -/
theorem LivesBeside.remove_iff {bufs : List (List UInt8)} (h : LivesBeside es id bufs es') :
    (∃ es'', es'.remove id = .ok (.OK, es'') ∧
        ∀ blk, es''.im.bm.using_blocks blk = some 1 ↔ es.im.bm.using_blocks blk = some 1) ↔
      LeavesNothing es.im.bm.free_count bufs := by
  have hdirect : last_length bufs ≤ 51200 := h.direct
  obtain ⟨howned', ⟨node, hlive, hlayout, hsize, hapart, hin_use⟩, _, hfree⟩ := h
  rw [leavesNothing_iff]
  have hk : blocks_for (last_length bufs) ≤ 100 := by
    unfold blocks_for
    omega
  have hpointers : pointers_for (blocks_for (last_length bufs)) = blocks_for (last_length bufs) := if_pos hk
  have hcan : CanRemove node.size.toNat (blocks_kept es.im.bm.free_count bufs) ↔
      blocks_for (last_length bufs) ≤ blocks_kept es.im.bm.free_count bufs := by
    unfold CanRemove
    rw [hsize, hpointers]
    omega
  by_cases hok : CanRemove node.size.toNat (blocks_kept es.im.bm.free_count bufs)
  · obtain ⟨im', hrun, hdone⟩ := remove_done hlive howned'.wf hlayout hok
    have hremoved : removed node.size.toNat = Finset.range (blocks_for (last_length bufs)) := by
      rw [removed, hsize, hpointers, Nat.min_eq_left (by omega)]
    have hback := hdone.in_use
    rw [hremoved] at hback
    have hle := hcan.mp hok
    constructor
    · rintro ⟨es'', hrun', hsame⟩
      rw [hrun] at hrun'
      cases hrun'
      by_contra hne
      -- the block behind those that the size asks for
      have hj : pointers es'.im.bm node (blocks_for (last_length bufs)) ≠ 0 := hlayout.front.ne_zero (by omega)
      refine hapart (blocks_for (last_length bufs)) ((hsame _).mp ((hback _).mpr ⟨hlayout.held.in_use _ hj, ?_⟩))
      intro j hj' heq
      have hinj := hlayout.held.injective _ _ hj heq.symm
      rw [Finset.mem_range] at hj'
      omega
    · intro heq
      refine ⟨{ es' with im := im' }, hrun, ?_⟩
      intro blk
      refine (hback blk).trans ?_
      rw [hin_use]
      constructor
      · rintro ⟨hbefore | ⟨j, hj, hne⟩, hnone⟩
        · exact hbefore
        · have hreach := (hlayout.front j).mp (hj ▸ hne)
          exact absurd hj (hnone j (Finset.mem_range.mpr (by omega)))
      · intro hbefore
        refine ⟨.inl hbefore, ?_⟩
        rintro j _ rfl
        exact hapart j hbefore
  · obtain ⟨fault, hrun⟩ := remove_fault hlive howned'.wf hlayout hok
    constructor
    · rintro ⟨es'', hrun', _⟩
      rw [hrun] at hrun'
      cases hrun'
    · intro heq
      exact absurd (hcan.mpr (by omega)) hok

/-- The life of a file created in a state in order. -/
theorem life_leaves_nothing_iff_of_owned {type : FileType} {ret : Status} (howned : Owned es.im)
    (hcreate : es.create type.code = (ret, id, es')) (hid : id ≠ 0)
    (hlife : Trace step (fun _ op => op.OfLife id) es' life es'') :
    (∃ last, es''.remove id = .ok (.OK, last) ∧
        ∀ blk, last.im.bm.using_blocks blk = some 1 ↔ es.im.bm.using_blocks blk = some 1) ↔
      LeavesNothing es.im.bm.free_count (puts life) := by
  rcases create_cases howned type.code with ⟨inum, im', hrun, hcreated⟩ | ⟨_, env, hrun⟩
  · rw [hcreate] at hrun
    cases hrun
    have hbound := hcreated.bounds.2
    exact (livesBeside_of_life howned
      (livesBeside_created howned hcreated (inum_of_toUInt64 (by omega))) hlife).remove_iff
  · rw [hcreate] at hrun
    cases hrun
    exact absurd rfl hid

/-- A file that is created in a state a new server reaches, keeps to its direct blocks
    and is removed leaves no block behind exactly when the last buffer put is not empty
    and there were blocks for it, or no other buffer has been put. -/
theorem life_leaves_nothing_iff {garbage : UInt32} {env : Env} {history : List (ExtentOp × ExtentReply)}
    {type : FileType} {ret : Status} (hnew : ExtentServer.new garbage env = .ok start)
    (hrun : ShortRun start history es) (hcreate : es.create type.code = (ret, id, es')) (hid : id ≠ 0)
    (hlife : Trace step (fun _ op => op.OfLife id) es' life es'') :
    (∃ last, es''.remove id = .ok (.OK, last) ∧
        ∀ blk, last.im.bm.using_blocks blk = some 1 ↔ es.im.bm.using_blocks blk = some 1) ↔
      LeavesNothing es.im.bm.free_count (puts life) :=
  life_leaves_nothing_iff_of_owned (ShortRun.owned (fresh_new hnew).1.owned hrun) hcreate hid hlife

/-- A file that is emptied and then grows to two blocks leaves nothing. -/
theorem life_leaves_nothing_iff_regrown :
    ∃ start es es' last reply, ExtentServer.new 0 still = .ok start ∧ start.create FileType.T_FILE.code = (.OK, 2, es) ∧
      Trace step (fun _ op => op.OfLife 2) es [(.put 2 (List.replicate 600 104), .put .OK), (.get 2, reply),
        (.put 2 [], .put .OK), (.put 2 [104], .put .OK)] es' ∧
      es'.remove 2 = .ok (.OK, last) ∧ ∀ blk, last.im.bm.using_blocks blk = some 1 ↔
        start.im.bm.using_blocks blk = some 1 := by
  obtain ⟨start, hnew⟩ := new_zero still
  have hfresh := (fresh_new hnew).1
  obtain ⟨im', hcreate, hcreated⟩ := create_fresh hfresh .T_FILE
  have hbeside : LivesBeside start 2 [] { start with im := im' } := livesBeside_created hfresh.owned hcreated rfl
  have hlong : (List.replicate 600 (104 : UInt8)).length = 600 := List.length_replicate
  have hdirect : (List.replicate 600 (104 : UInt8)).length ≤ NDIRECT * BLOCK_SIZE := by
    rw [hlong]
    decide
  obtain ⟨es₁, hput₁⟩ := hbeside.put_returns [104] (by simp)
  have hbeside := hbeside.put hfresh.owned (by simp) hput₁
  obtain ⟨es₂, hput₂⟩ := hbeside.put_returns [] (by simp)
  have hbeside := hbeside.put hfresh.owned (by simp) hput₂
  obtain ⟨reply, es₃, hget⟩ := hbeside.get_returns
  have hbeside := hbeside.get hget
  obtain ⟨es₄, hput₄⟩ := hbeside.put_returns (List.replicate 600 104) hdirect
  have hlife : Trace step (fun _ op => op.OfLife 2) { start with im := im' }
      [(.put 2 (List.replicate 600 104), .put .OK), (.get 2, reply), (.put 2 [], .put .OK),
        (.put 2 [104], .put .OK)] es₄ :=
    .cons (.cons (.cons (.cons .nil ⟨rfl, by simp⟩ hput₁) ⟨rfl, by simp⟩ hput₂) trivial hget) ⟨rfl, hdirect⟩ hput₄
  have hiff := life_leaves_nothing_iff hnew .nil hcreate (by decide) hlife
  have hnothing : LeavesNothing start.im.bm.free_count [List.replicate 600 104, [], [104]] := by
    rw [LeavesNothing, if_neg (by simp), hlong, hfresh.free_count]
    decide
  obtain ⟨last, hremove, hsame⟩ := hiff.mpr hnothing
  exact ⟨start, _, es₄, last, reply, hnew, hcreate, hlife, hremove, hsame⟩

/-- A file that is emptied before it is removed leaves a block behind. -/
theorem emptied_file_leaves_block :
    ∃ start es₁ es₂ es₃, ExtentServer.new 0 still = .ok start ∧
      start.create FileType.T_FILE.code = (.OK, 2, es₁) ∧ es₁.step (.put 2 [104]) = .ok (.put .OK, es₂) ∧
      es₂.step (.put 2 []) = .ok (.put .OK, es₃) ∧
      ¬ ∃ last, es₃.remove 2 = .ok (.OK, last) ∧
        ∀ blk, last.im.bm.using_blocks blk = some 1 ↔ start.im.bm.using_blocks blk = some 1 := by
  obtain ⟨start, hnew⟩ := new_zero still
  have hfresh := (fresh_new hnew).1
  obtain ⟨im', hcreate, hcreated⟩ := create_fresh hfresh .T_FILE
  have hbeside : LivesBeside start 2 [] { start with im := im' } := livesBeside_created hfresh.owned hcreated rfl
  obtain ⟨es₂, hput₁⟩ := hbeside.put_returns [104] (by simp)
  have hbeside := hbeside.put hfresh.owned (by simp) hput₁
  obtain ⟨es₃, hput₂⟩ := hbeside.put_returns [] (by simp)
  have hbeside := hbeside.put hfresh.owned (by simp) hput₂
  refine ⟨start, { start with im := im' }, es₂, es₃, hnew, hcreate, hput₁, hput₂, ?_⟩
  rw [hbeside.remove_iff, hfresh.free_count]
  simp [LeavesNothing]

end ExtentServer

end chfs
