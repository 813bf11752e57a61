import Chfs.Extent.Accounting

namespace chfs

open BlockManager InodeManager

/-- The blocks that are marked in use though no live inode names them. -/
def leaked (im : InodeManager) : Set blockid_t :=
  { blk | im.bm.using_blocks blk = some 1 ∧
    ∀ inum node, im.get_inode inum = some node → blk ∉ held_blocks im.bm node }

/-- The blocks of a file that `remove_file` does not free: those that its indirect block
    names, and of an empty file the block that it still has. -/
def left_behind (bm : BlockManager) (node : Inode) : Set blockid_t :=
  { blk | blk ≠ 0 ∧ ∃ i < MAXFILE, (NDIRECT ≤ i ∨ node.size = 0) ∧ logical_slot bm node i = blk }

variable {im im' : InodeManager} {inum : UInt32} {node : Inode} {blk : blockid_t}

/-- In terms of positions, these are the blocks that are not given back. -/
theorem mem_left_behind {p : Nat} (hlayout : Layout im.bm node p) (hok : CanRemove node.size.toNat p) :
    blk ∈ left_behind im.bm node ↔
      ∃ j, j ∉ removed node.size.toNat ∧ pointers im.bm node j = blk ∧ blk ≠ 0 := by
  have hsize : node.size = 0 ↔ blocks_for node.size.toNat = 0 := by
    rw [← UInt32.toNat_inj]
    unfold blocks_for
    change node.size.toNat = 0 ↔ _
    omega
  have hp := hlayout.bounded
  rw [pre_block_num_eq] at hp
  unfold CanRemove at hok
  constructor
  · rintro ⟨hne, i, hi, hbehind, rfl⟩
    rw [← pointers_slot _ _ hi] at hne ⊢
    refine ⟨slot_position i, ?_, rfl, hne⟩
    rw [removed, Finset.mem_range]
    rcases hbehind with hentry | hempty
    · rw [NDIRECT_eq] at hentry
      unfold slot_position
      rw [if_neg (by omega)]
      omega
    · rw [hsize.mp hempty]
      exact Nat.not_lt.mpr ((Nat.min_le_left _ _).trans (Nat.zero_le _))
  · rintro ⟨j, hj, rfl, hne⟩
    have hreach := (hlayout.front j).mp hne
    rw [removed, Finset.mem_range] at hj
    have h100 : j ≠ 100 := by
      intro heq
      unfold pointers_for at *
      split at hp <;> split at hj <;> omega
    have hlarge : j < pointers_for MAXFILE := by
      have hle := prefix_le hlayout.front
      have hmax : pointers_for MAXFILE = 229 := by decide
      omega
    obtain ⟨i, hi, rfl⟩ := exists_slot_position hlarge h100
    refine ⟨hne, i, hi, ?_, (pointers_slot _ _ hi).symm⟩
    by_cases hzero : blocks_for node.size.toNat = 0
    · exact .inr (hsize.mpr hzero)
    · have hmax : max 1 (blocks_for node.size.toNat) = blocks_for node.size.toNat := by omega
      rw [hmax] at hp
      have hbeyond : 101 ≤ slot_position i := by omega
      unfold slot_position at hbeyond
      rw [NDIRECT_eq]
      split at hbeyond <;> omega

theorem mem_leaked (hwf : im.bm.WF) :
    blk ∈ leaked im ↔ im.bm.InUse blk ∧
      ∀ inum node, im.get_inode inum = some node → ∀ j, pointers im.bm node j ≠ blk := by
  constructor
  · rintro ⟨huse, hnone⟩
    refine ⟨huse, fun inum node hlive j heq => ?_⟩
    exact hnone inum node hlive (mem_held_blocks.mpr ⟨j, heq, hwf.ne_zero huse⟩)
  · rintro ⟨huse, hnone⟩
    refine ⟨huse, fun inum node hlive hheld => ?_⟩
    obtain ⟨j, hj, _⟩ := mem_held_blocks.mp hheld
    exact hnone inum node hlive j hj

theorem Unchanged.leaked (h : Unchanged im im') (howned : Owned im) : leaked im' = leaked im := by
  ext blk
  rw [mem_leaked (h.wf howned.wf), mem_leaked howned.wf, h.in_use]
  apply and_congr_right
  intro _
  constructor
  · intro hnone inum node hlive
    obtain ⟨node', hlive', _, _, hblocks⟩ := h.live_after hlive
    rw [← h.pointers_eq howned hlive hblocks]
    exact hnone inum node' hlive'
  · intro hnone inum node' hlive'
    obtain ⟨node, hlive, _, _, hblocks⟩ := h.live hlive'
    rw [h.pointers_eq howned hlive hblocks.symm]
    exact hnone inum node hlive

/-- A block is in use, and the inode does not name it. -/
def InUseBeside (im : InodeManager) (inum : UInt32) (blk : blockid_t) : Prop :=
  im.bm.InUse blk ∧ ∀ node, im.get_inode inum = some node → ∀ j, pointers im.bm node j ≠ blk

/-- What a step that spares the other inodes leaks is what it leaves in use without
    the name it had. -/
theorem Spares.leaked (h : Spares im im' inum) (howned : Owned im) (howned' : Owned im') {left : Set blockid_t}
    (hbeside : ∀ blk, InUseBeside im' inum blk ↔ InUseBeside im inum blk ∨ blk ∈ left)
    (hleft : ∀ blk ∈ left, ∃ node j, im.get_inode inum = some node ∧ pointers im.bm node j = blk ∧ blk ≠ 0) :
    leaked im' = leaked im ∪ left := by
  ext blk
  rw [Set.mem_union, mem_leaked howned'.wf, mem_leaked howned.wf]
  constructor
  · rintro ⟨huse, hnone⟩
    rcases (hbeside blk).mp ⟨huse, hnone inum⟩ with ⟨hold, hnot⟩ | hmem
    · refine .inl ⟨hold, ?_⟩
      intro other node hlive
      by_cases heq : other = inum
      · subst heq
        exact hnot node hlive
      · rw [← h.pointers_eq heq hlive]
        exact hnone other node ((h.inodes other heq).trans hlive)
    · exact .inr hmem
  · intro hcases
    have hnow : InUseBeside im' inum blk :=
      (hbeside blk).mpr (hcases.imp (fun ⟨huse, hnone⟩ => ⟨huse, hnone inum⟩) id)
    refine ⟨hnow.1, ?_⟩
    intro other node hlive
    by_cases heq : other = inum
    · subst heq
      exact hnow.2 node hlive
    · have hold : im.get_inode other = some node := (h.inodes other heq).symm.trans hlive
      rw [h.pointers_eq heq hold]
      rcases hcases with ⟨_, hnone⟩ | hmem
      · exact hnone other node hold
      · intro k hk
        obtain ⟨file, j, hfile, rfl, hne⟩ := hleft blk hmem
        exact howned.disjoint inum other file node hfile hold (Ne.symm heq) j k hne hk.symm

theorem Spares.leaked_eq (h : Spares im im' inum) (howned : Owned im) (howned' : Owned im')
    (hbeside : ∀ blk, InUseBeside im' inum blk ↔ InUseBeside im inum blk) : chfs.leaked im' = chfs.leaked im := by
  have hall : chfs.leaked im' = chfs.leaked im ∪ ∅ := by
    refine h.leaked howned howned' ?_ (fun _ hmem => absurd hmem (Set.notMem_empty _))
    intro blk
    rw [Set.mem_empty_iff_false, or_false]
    exact hbeside blk
  rwa [Set.union_empty] at hall

/-- A new inode leaks nothing, -/
theorem InodeManager.Created.leaked {type : UInt32} (h : Created im type inum im') (howned : Owned im) :
    leaked im' = leaked im := by
  apply (h.spares howned).leaked_eq howned (h.owned howned)
  intro blk
  rw [InUseBeside, InUseBeside, h.in_use]
  apply and_congr_right
  intro huse
  refine ⟨fun _ node hlive => ?_, fun _ node hlive j hj => ?_⟩
  · rw [h.dead] at hlive
    cases hlive
  · rw [(h.layout hlive).2 j] at hj
    exact howned.wf.ne_zero huse hj.symm

/-- nor does a file that is written, however much of it is: the blocks it gives up are free. -/
theorem InodeManager.WriteDone.leaked {buf : Mem} {n p : Nat} {node' : Inode}
    (h : WriteDone buf n im inum node p im' node')
    (howned : Owned im) (hlive : im.get_inode inum = some node) (hn : n < 2 ^ 32) : leaked im' = leaked im := by
  apply (h.spares howned hlive).leaked_eq howned (h.owned howned hlive hn)
  intro blk
  constructor
  · rintro ⟨huse, hnone⟩
    rcases (h.written.in_use blk).mp huse with ⟨hold, hnot⟩ | ⟨j, hj, _⟩
    · refine ⟨hold, fun file hfile => ?_⟩
      rw [hlive] at hfile
      cases hfile
      exact hnot
    · exact absurd hj (hnone node' h.live j)
  · rintro ⟨huse, hnone⟩
    have hnot := hnone node hlive
    refine ⟨(h.written.in_use blk).mpr (.inl ⟨huse, hnot⟩), fun file hfile j hj => ?_⟩
    rw [h.live] at hfile
    cases hfile
    have hne : pointers im'.bm node' j ≠ 0 := hj ▸ howned.wf.ne_zero huse
    rcases h.written.fresh j hne with hsame | hfree
    · exact hnot j (hsame.symm.trans hj)
    · exact hfree (hj ▸ huse)

/-- A removed file leaks what `remove_file` leaves behind. -/
theorem InodeManager.RemoveDone.leaked {p : Nat} (h : RemoveDone im inum node im') (howned : Owned im)
    (hlive : im.get_inode inum = some node) (hlayout : Layout im.bm node p) (hok : CanRemove node.size.toNat p) :
    leaked im' = leaked im ∪ left_behind im.bm node := by
  have hdead := h.inodes inum
  rw [if_pos rfl] at hdead
  refine (h.spares howned hlive).leaked howned (h.owned howned hlive) ?_ ?_
  · intro blk
    rw [mem_left_behind hlayout hok]
    constructor
    · rintro ⟨huse, _⟩
      obtain ⟨hold, hnot⟩ := (h.in_use blk).mp huse
      by_cases hnamed : ∃ j, pointers im.bm node j = blk
      · obtain ⟨j, hj⟩ := hnamed
        exact .inr ⟨j, fun hmem => hnot j hmem hj, hj, howned.wf.ne_zero hold⟩
      · refine .inl ⟨hold, fun file hfile j hj => hnamed ⟨j, ?_⟩⟩
        rw [hlive] at hfile
        cases hfile
        exact hj
    · intro hcases
      refine ⟨(h.in_use blk).mpr ?_, fun file hfile => ?_⟩
      · rcases hcases with ⟨huse, hnone⟩ | ⟨j, hj, rfl, hne⟩
        · exact ⟨huse, fun j _ => hnone node hlive j⟩
        · refine ⟨hlayout.held.in_use j hne, fun k hk heq => hj ?_⟩
          rwa [hlayout.held.injective k j (heq ▸ hne) heq] at hk
      · rw [hdead] at hfile
        cases hfile
  · intro blk hmem
    obtain ⟨j, _, hj, hne⟩ := (mem_left_behind hlayout hok).mp hmem
    exact ⟨node, j, hlive, hj, hne⟩

namespace ExtentServer

variable {start es es' : ExtentServer} {op : ExtentOp} {reply : ExtentReply} {history : List (ExtentOp × ExtentReply)}

/-- What a request leaks. -/
def leaks (es : ExtentServer) : ExtentOp → Set blockid_t
  | .remove id => { blk | ∃ node, es.im.get_inode (inum_of id) = some node ∧ blk ∈ left_behind es.im.bm node }
  | _ => ∅

theorem StepDone.leaked (h : StepDone es op reply es') (howned : Owned es.im) (hshort : op.Short) :
    leaked es'.im = leaked es.im ∪ es.leaks op := by
  cases h with
  | created hcreated => exact (hcreated.leaked howned).trans (Set.union_empty _).symm
  | not_created _ => exact (Set.union_empty _).symm
  | put_dead _ => exact (Set.union_empty _).symm
  | @put id buf _ _ _ _ hlive _ _ hdone =>
    have hlen : buf.length < 2 ^ 31 := hshort
    exact (hdone.leaked howned hlive (by omega)).trans (Set.union_empty _).symm
  | get_dead _ => exact (Set.union_empty _).symm
  | get _ _ _ hunchanged => exact (hunchanged.leaked howned).trans (Set.union_empty _).symm
  | getattr => exact (Set.union_empty _).symm
  | @remove_dead id hdead =>
    have hnone : es.leaks (.remove id) = ∅ := by
      ext blk
      simp [leaks, hdead]
    rw [hnone, Set.union_empty]
  | @remove id node _ _ hlive hlayout hok hdone =>
    have hleft : es.leaks (.remove id) = left_behind es.im.bm node := by
      ext blk
      simp [leaks, hlive]
    rw [hleft, hdone.leaked howned hlive hlayout hok]

/-- No request touches a leaked block. -/
theorem StepDone.keeps_leaked (h : StepDone es op reply es') (howned : Owned es.im) {blk : blockid_t}
    (hleaked : blk ∈ chfs.leaked es.im) : es'.im.bm.data blk = es.im.bm.data blk := by
  obtain ⟨huse, hnone⟩ := (mem_leaked howned.wf).mp hleaked
  have hdata := howned.wf.data_block _ huse
  cases h with
  | created hcreated => exact hcreated.data blk hdata
  | @put id buf node node' p im' hlive _ _ hdone =>
    refine hdone.written.frame blk hdata (hnone _ node hlive) ?_
    intro j hj
    have hne : pointers im'.bm node' j ≠ 0 := hj ▸ howned.wf.ne_zero huse
    rcases hdone.written.fresh j hne with hsame | hfree
    · exact hnone _ node hlive j (hsame.symm.trans hj)
    · exact hfree (hj ▸ huse)
  | get _ _ _ hunchanged => exact hunchanged.data blk hdata
  | @remove id node _ _ hlive _ _ hdone =>
    exact hdone.untouched blk (hdata.ne_IBLOCK (live_le hlive)) fun j _ => hnone _ node hlive j
  | _ => rfl

/-- Nor does a run, from any state in order. -/
theorem run_keeps_leaked (howned : Owned es.im) (hrun : ShortRun es history es') {blk : blockid_t}
    (hleaked : blk ∈ chfs.leaked es.im) : blk ∈ chfs.leaked es'.im ∧ es'.im.bm.data blk = es.im.bm.data blk := by
  have hkept := hrun.invariant
    (P := fun s => Owned s.im ∧ blk ∈ chfs.leaked s.im ∧ s.im.bm.data blk = es.im.bm.data blk) ⟨howned, hleaked, rfl⟩ ?_
  · exact hkept.2
  · rintro s op reply s' ⟨howned, hleaked, hdata⟩ hshort hstep
    have hdone := step_done howned hshort hstep
    refine ⟨hdone.owned howned hshort, ?_, (hdone.keeps_leaked howned hleaked).trans hdata⟩
    rw [hdone.leaked howned hshort]
    exact .inl hleaked

theorem leaked_fresh (h : Fresh start.im) : chfs.leaked start.im = ∅ := by
  ext blk
  exact ⟨fun ⟨huse, _⟩ => h.no_block blk huse, fun hmem => absurd hmem (Set.notMem_empty _)⟩

/-- At any time the leaked blocks are those that a `remove` has left behind since the server
    started. They stay leaked and keep their bytes whatever is requested later. -/
theorem removals_leak_for_good {garbage : UInt32} {env : Env} (hnew : ExtentServer.new garbage env = .ok start)
    (hrun : ShortRun start history es) (blk : blockid_t) :
    (blk ∈ chfs.leaked es.im ↔ ∃ s id node, Trace.Takes step (fun _ op => op.Short) start history es s (.remove id) ∧
      s.im.get_inode (inum_of id) = some node ∧ blk ∈ left_behind s.im.bm node) ∧
    ∀ later es', ShortRun es later es' → blk ∈ chfs.leaked es.im →
      blk ∈ chfs.leaked es'.im ∧ es'.im.bm.data blk = es.im.bm.data blk := by
  have hfresh := (fresh_new hnew).1
  have howned := ShortRun.owned hfresh.owned hrun
  constructor
  · have hinv : ∀ s op reply s', Owned s.im → ExtentOp.Short op → step s op = .ok (reply, s') → Owned s'.im :=
      fun s op reply s' howned hshort hstep => (step_done howned hshort hstep).owned howned hshort
    have hleaks : ∀ s op reply s', Owned s.im → ExtentOp.Short op → step s op = .ok (reply, s') →
        chfs.leaked s'.im = chfs.leaked s.im ∪ leaks s op :=
      fun s op reply s' howned hshort hstep => (step_done howned hshort hstep).leaked howned hshort
    have hcollects : blk ∈ chfs.leaked es.im ↔ blk ∈ chfs.leaked start.im ∨
        ∃ s op, Trace.Takes step (fun _ op => op.Short) start history es s op ∧ blk ∈ leaks s op :=
      Trace.collects hinv hleaks hfresh.owned hrun blk
    rw [leaked_fresh hfresh] at hcollects
    rw [hcollects]
    constructor
    · rintro (hmem | ⟨s, op, htakes, hleaks⟩)
      · exact absurd hmem (Set.notMem_empty _)
      · cases op with
        | remove id =>
          obtain ⟨node, hlive, hleft⟩ := hleaks
          exact ⟨s, id, node, htakes, hlive, hleft⟩
        | _ => exact absurd hleaks (Set.notMem_empty _)
    · rintro ⟨s, id, node, htakes, hlive, hleft⟩
      exact .inr ⟨s, .remove id, htakes, node, hlive, hleft⟩
  · intro later es' hlater hleaked
    exact run_keeps_leaked howned hlater hleaked

/-- The one entry of an indirect block is leaked. -/
theorem removals_leak_for_good_root :
    ∃ start es es' blk, ExtentServer.new 0 still = .ok start ∧ start.put 1 (List.replicate 51201 0) = .ok (.OK, es) ∧
      es.remove 1 = .ok (.OK, es') ∧ blk ∈ chfs.leaked es'.im := by
  obtain ⟨start, hnew⟩ := new_zero still
  have hlength : (List.replicate 51201 (0 : UInt8)).length = 51201 := List.length_replicate
  obtain ⟨es, node, hput, hlive, hsize, _, ⟨p, hlayout, hp⟩, howned⟩ :=
    put_root (fresh_new hnew).1 (List.replicate 51201 0) (by rw [hlength]; omega)
  rw [hlength] at hsize
  obtain ⟨im', hremove, hdone⟩ := remove_done hlive howned.wf hlayout (Whole.can_remove hlayout hp)
  have hblocks : pointers_for (blocks_for 51201) = 102 := by decide
  rw [hsize, hblocks] at hp
  have hentry : pointers es.im.bm node (slot_position 100) ≠ 0 := hlayout.front.ne_zero (by
    have hslot : slot_position 100 = 101 := rfl
    omega)
  have hslot := pointers_slot es.im.bm node (show 100 < MAXFILE by decide)
  rw [hslot] at hentry
  have hstep : start.step (.put 1 (List.replicate 51201 0)) = .ok (.put .OK, es) := by
    rw [step, hput]
    rfl
  have hstep' : es.step (.remove 1) = .ok (.remove .OK, { es with im := im' }) := by
    rw [step, hremove]
    rfl
  have hfirst : ShortRun start [(.put 1 (List.replicate 51201 0), .put .OK)] es :=
    .cons .nil (by rw [ExtentOp.Short, hlength]; omega) hstep
  have hshort : (ExtentOp.remove 1).Short := trivial
  have hrun : ShortRun start _ { es with im := im' } := .cons hfirst hshort hstep'
  have hleaked := (removals_leak_for_good hnew hrun _).1.mpr
    ⟨es, 1, node, ⟨_, _, _, [], hfirst, hshort, hstep', .nil, rfl⟩, hlive, hentry, 100, by decide, .inl (by decide),
      rfl⟩
  exact ⟨start, es, _, _, hnew, hput, hremove, hleaked⟩

end ExtentServer

end chfs
