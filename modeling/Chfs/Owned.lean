import Chfs.Inodes.Alloc
import Chfs.ReadFile
import Chfs.RemoveFile

namespace chfs

open BlockManager InodeManager

/-- The ownership invariant of the inode layer: each live inode lies on the disk as
    its size asks for, and no two of them name the same block. -/
structure Owned (im : InodeManager) : Prop where
  wf : im.bm.WF
  layout : ∀ inum node, im.get_inode inum = some node → ∃ p, Layout im.bm node p
  disjoint : ∀ inum other node node', im.get_inode inum = some node → im.get_inode other = some node' →
    inum ≠ other → ∀ j k, pointers im.bm node j ≠ 0 → pointers im.bm node j ≠ pointers im.bm node' k
  zero_dead : im.get_inode 0 = none
  last_alloced : im.last_alloced.toNat ≤ 1024

/-- A step may change the inode `inum`, but no other inode nor its blocks. -/
structure Spares (im im' : InodeManager) (inum : UInt32) : Prop where
  inodes : ∀ other, other ≠ inum → im'.get_inode other = im.get_inode other
  blocks : ∀ other node, other ≠ inum → im.get_inode other = some node → ∀ j, pointers im.bm node j ≠ 0 →
    im'.bm.InUse (pointers im.bm node j) ∧
      im'.bm.data (pointers im.bm node j) = im.bm.data (pointers im.bm node j)

namespace Spares

variable {im im' : InodeManager} {inum other : UInt32} {node : Inode}

theorem pointers_eq (h : Spares im im' inum) (hother : other ≠ inum) (hlive : im.get_inode other = some node) :
    pointers im'.bm node = pointers im.bm node := by
  apply pointers_congr (fun _ _ => rfl)
  intro hne
  rw [← pointers_of_le im.bm node (le_refl 100)] at hne ⊢
  exact (h.blocks other node hother hlive 100 hne).2

theorem layout (h : Spares im im' inum) (hother : other ≠ inum) (hlive : im.get_inode other = some node)
    {p : Nat} (hlayout : Layout im.bm node p) : Layout im'.bm node p where
  held := by
    rw [h.pointers_eq hother hlive]
    exact ⟨fun j hj => (h.blocks other node hother hlive j hj).1, hlayout.held.injective⟩
  front := by
    rw [h.pointers_eq hother hlive]
    exact hlayout.front
  bounded := hlayout.bounded

/-- The contents of the other files stay. -/
theorem file_bytes_eq (h : Spares im im' inum) (hother : other ≠ inum)
    (hlive : im.get_inode other = some node) (heap : Mem) :
    file_bytes im'.bm node heap = file_bytes im.bm node heap := by
  funext q
  unfold file_bytes
  rw [h.pointers_eq hother hlive]
  by_cases hzero : pointers im.bm node (slot_position (q / 512)) = 0
  · simp only [hzero, ↓reduceIte]
  · simp only [hzero, ↓reduceIte]
    rw [(h.blocks other node hother hlive _ hzero).2]

end Spares

namespace Owned

variable {im im' : InodeManager} {inum : UInt32}

/-- A block of a live inode is in use. -/
theorem in_use (h : Owned im) {node : Inode} (hlive : im.get_inode inum = some node) {j : Nat}
    (hj : pointers im.bm node j ≠ 0) : im.bm.InUse (pointers im.bm node j) := by
  obtain ⟨p, hlayout⟩ := h.layout inum node hlive
  exact hlayout.held.in_use j hj

/-- A step that spares the other inodes keeps the invariant when it leaves the inode
    `inum` in order, with its own blocks or free ones. -/
theorem of_spares (h : Owned im) (hspares : Spares im im' inum) (hwf : im'.bm.WF) (hinum : inum ≠ 0)
    (hlast : im'.last_alloced.toNat ≤ 1024)
    (hnode : ∀ node', im'.get_inode inum = some node' → (∃ p, Layout im'.bm node' p) ∧
      ∀ j, pointers im'.bm node' j ≠ 0 →
        (∃ node k, im.get_inode inum = some node ∧ pointers im.bm node k = pointers im'.bm node' j) ∨
          ¬ im.bm.InUse (pointers im'.bm node' j)) :
    Owned im' where
  wf := hwf
  layout := by
    intro other node hlive
    by_cases heq : other = inum
    · subst heq
      exact (hnode node hlive).1
    · rw [hspares.inodes other heq] at hlive
      obtain ⟨p, hlayout⟩ := h.layout other node hlive
      exact ⟨p, hspares.layout heq hlive hlayout⟩
  disjoint := by
    -- the blocks of `inum` differ from those of any other inode
    have hone : ∀ other node node', other ≠ inum → im.get_inode other = some node →
        im'.get_inode inum = some node' → ∀ j k, pointers im'.bm node' j ≠ 0 →
          pointers im'.bm node' j ≠ pointers im.bm node k := by
      intro other node node' hother hlive hlive' j k hj heq
      rcases (hnode node' hlive').2 j hj with ⟨old, i, hold, hi⟩ | hfree
      · rw [← hi] at hj heq
        exact h.disjoint inum other old node hold hlive (Ne.symm hother) i k hj heq
      · rw [heq] at hj hfree
        exact hfree (h.in_use hlive hj)
    intro first second node node' hfirst hsecond hne j k hj heq
    by_cases h₁ : first = inum
    · subst h₁
      rw [hspares.inodes second (Ne.symm hne)] at hsecond
      rw [hspares.pointers_eq (Ne.symm hne) hsecond] at heq
      exact hone second node' node (Ne.symm hne) hsecond hfirst j k hj heq
    · rw [hspares.inodes first h₁] at hfirst
      rw [hspares.pointers_eq h₁ hfirst] at hj heq
      by_cases h₂ : second = inum
      · subst h₂
        exact hone first node node' h₁ hfirst hsecond k j (heq ▸ hj) heq.symm
      · rw [hspares.inodes second h₂] at hsecond
        rw [hspares.pointers_eq h₂ hsecond] at heq
        exact h.disjoint first second node node' hfirst hsecond hne j k hj heq
  zero_dead := by
    rw [hspares.inodes 0 (Ne.symm hinum)]
    exact h.zero_dead
  last_alloced := hlast

theorem ne_zero (h : Owned im) {node : Inode} (hlive : im.get_inode inum = some node) : inum ≠ 0 := by
  rintro rfl
  rw [h.zero_dead] at hlive
  cases hlive

end Owned

/-- Steps that change nothing keep the pointers of every inode. -/
theorem Unchanged.pointers_eq {im im' : InodeManager} (h : Unchanged im im') (howned : Owned im)
    {inum : UInt32} {node node' : Inode} (hlive : im.get_inode inum = some node)
    (hblocks : node'.blocks = node.blocks) : pointers im'.bm node' = pointers im.bm node := by
  apply pointers_congr
  · intro j _
    simp only [Inode.block, hblocks]
  · intro hne
    rw [← pointers_of_le im.bm node (le_refl 100)] at hne ⊢
    exact h.data _ (howned.wf.data_block _ (howned.in_use hlive hne))

theorem Unchanged.layout {im im' : InodeManager} (h : Unchanged im im') (howned : Owned im)
    {inum : UInt32} {node node' : Inode} (hlive : im.get_inode inum = some node)
    (hblocks : node'.blocks = node.blocks) (hsize : node'.size = node.size) {p : Nat}
    (hlayout : Layout im.bm node p) : Layout im'.bm node' p where
  held := by
    rw [h.pointers_eq howned hlive hblocks]
    exact ⟨fun j hj => (h.in_use _).mpr (hlayout.held.in_use j hj), hlayout.held.injective⟩
  front := by
    rw [h.pointers_eq howned hlive hblocks]
    exact hlayout.front
  bounded := by
    have hpre : pre_block_num node' = pre_block_num node := by simp only [pre_block_num, hsize]
    rw [hpre]
    exact hlayout.bounded

theorem Unchanged.file_bytes_eq {im im' : InodeManager} (h : Unchanged im im') (howned : Owned im)
    {inum : UInt32} {node node' : Inode} (hlive : im.get_inode inum = some node)
    (hblocks : node'.blocks = node.blocks) (heap : Mem) :
    file_bytes im'.bm node' heap = file_bytes im.bm node heap := by
  funext q
  unfold file_bytes
  rw [h.pointers_eq howned hlive hblocks]
  by_cases hzero : pointers im.bm node (slot_position (q / 512)) = 0
  · simp only [hzero, ↓reduceIte]
  · simp only [hzero, ↓reduceIte]
    rw [h.data _ (howned.wf.data_block _ (howned.in_use hlive hzero))]

theorem Owned.of_unchanged {im im' : InodeManager} (howned : Owned im) (h : Unchanged im im') : Owned im' where
  wf := h.wf howned.wf
  layout := by
    intro inum node' hlive'
    obtain ⟨node, hlive, _, hsize, hblocks⟩ := h.live hlive'
    obtain ⟨p, hlayout⟩ := howned.layout inum node hlive
    exact ⟨p, h.layout howned hlive hblocks.symm hsize.symm hlayout⟩
  disjoint := by
    intro first second node₁ node₂ hfirst hsecond hne j k hj
    obtain ⟨node, hlive, _, _, hblocks⟩ := h.live hfirst
    obtain ⟨node', hlive', _, _, hblocks'⟩ := h.live hsecond
    rw [h.pointers_eq howned hlive hblocks.symm] at hj ⊢
    rw [h.pointers_eq howned hlive' hblocks'.symm]
    exact howned.disjoint first second node node' hlive hlive' hne j k hj
  zero_dead := h.dead.mpr howned.zero_dead
  last_alloced := by
    rw [h.last_alloced]
    exact howned.last_alloced

namespace InodeManager

variable {im im' : InodeManager} {inum : UInt32} {node node' : Inode} {p n : Nat} {buf : Mem}

theorem WriteDone.spares (h : WriteDone buf n im inum node p im' node') (howned : Owned im)
    (hlive : im.get_inode inum = some node) : Spares im im' inum where
  inodes := h.others
  blocks := by
    intro other file hother hfile j hj
    have huse := howned.in_use hfile hj
    have hnot : ∀ k, pointers im.bm node k ≠ pointers im.bm file j := fun k heq =>
      howned.disjoint other inum file node hfile hlive hother j k hj heq.symm
    refine ⟨(h.written.in_use _).mpr (.inl ⟨huse, hnot⟩), h.written.frame _ (howned.wf.data_block _ huse) hnot ?_⟩
    intro k heq
    rcases h.written.fresh k (heq ▸ hj) with hold | hfree
    · exact hnot k (hold.symm.trans heq)
    · exact hfree (heq ▸ huse)

theorem WriteDone.size_toNat (h : WriteDone buf n im inum node p im' node') (hn : n < 2 ^ 32) :
    node'.size.toNat = n := by
  rw [h.size, UInt32.toNat_ofNat']
  omega

/-- The file written lies on the disk as its new size asks for, as far as there were blocks. -/
theorem WriteDone.layout (h : WriteDone buf n im inum node p im' node') (hn : n < 2 ^ 32) :
    Layout im'.bm node'
      (min (filled p (target n) im.bm.free_count) (pointers_for (max 1 (blocks_for n)))) where
  held := h.written.held
  front := h.written.front
  bounded := by
    rw [pre_block_num_eq, h.size_toNat hn]
    exact Nat.min_le_right _ _

theorem WriteDone.owned (h : WriteDone buf n im inum node p im' node') (howned : Owned im)
    (hlive : im.get_inode inum = some node) (hn : n < 2 ^ 32) : Owned im' := by
  refine howned.of_spares (h.spares howned hlive) h.written.wf (howned.ne_zero hlive) ?_ ?_
  · rw [h.last_alloced]
    exact howned.last_alloced
  · intro file hfile
    rw [h.live] at hfile
    cases hfile
    refine ⟨⟨_, h.layout hn⟩, ?_⟩
    intro j hj
    rcases h.written.fresh j hj with hold | hfree
    · exact .inl ⟨node, j, hlive, hold.symm⟩
    · exact .inr hfree

theorem RemoveDone.spares (h : RemoveDone im inum node im') (howned : Owned im)
    (hlive : im.get_inode inum = some node) : Spares im im' inum where
  inodes := fun other hother => by rw [h.inodes, if_neg hother]
  blocks := by
    intro other file hother hfile j hj
    have huse := howned.in_use hfile hj
    have hnot : ∀ k, pointers im.bm node k ≠ pointers im.bm file j := fun k heq =>
      howned.disjoint other inum file node hfile hlive hother j k hj heq.symm
    exact ⟨(h.in_use _).mpr ⟨huse, fun k _ => hnot k⟩,
      h.untouched _ ((howned.wf.data_block _ huse).ne_IBLOCK (live_le hlive)) fun k _ => hnot k⟩

theorem RemoveDone.owned (h : RemoveDone im inum node im') (howned : Owned im)
    (hlive : im.get_inode inum = some node) : Owned im' := by
  refine howned.of_spares (h.spares howned hlive) h.wf (howned.ne_zero hlive) ?_ ?_
  · rw [h.last_alloced]
    exact howned.last_alloced
  · intro file hfile
    rw [h.inodes, if_pos rfl] at hfile
    cases hfile

theorem Created.spares {type : UInt32} (h : Created im type inum im') (howned : Owned im) :
    Spares im im' inum where
  inodes := h.others
  blocks := by
    intro other file hother hfile j hj
    have huse := howned.in_use hfile hj
    exact ⟨(h.in_use _).mpr huse, h.data _ (howned.wf.data_block _ huse)⟩

/-- A new inode names no block. -/
theorem Created.layout {type : UInt32} (h : Created im type inum im') (hlive : im'.get_inode inum = some node) :
    Layout im'.bm node 0 ∧ ∀ j, pointers im'.bm node j = 0 := by
  obtain ⟨stored, hstored, _, _, hblocks⟩ := h.stored
  rw [hlive] at hstored
  split at hstored
  · cases hstored
  cases hstored
  have hnone : ∀ j, pointers im'.bm node j = 0 := by
    intro j
    by_cases hj : j ≤ 100
    · rw [pointers_of_le _ _ hj, hblocks]
    · exact pointers_of_no_indirect _ (hblocks 100) (by omega)
  refine ⟨⟨⟨?_, ?_⟩, ?_, Nat.zero_le _⟩, hnone⟩
  · intro j hj
    exact absurd (hnone j) hj
  · intro j k hj
    exact absurd (hnone j) hj
  · intro j
    simp [hnone j]

theorem Created.owned {type : UInt32} (h : Created im type inum im') (howned : Owned im) : Owned im' := by
  have hinum : inum ≠ 0 := by
    rintro rfl
    have := h.bounds.1
    simp at this
  refine howned.of_spares (h.spares howned) (h.wf howned.wf) hinum ?_ ?_
  · rw [h.last_alloced]
    exact h.bounds.2
  · intro file hfile
    obtain ⟨hlayout, hnone⟩ := h.layout hfile
    refine ⟨⟨0, hlayout⟩, ?_⟩
    intro j hj
    exact absurd (hnone j) hj

/-- A creation that failed changes nothing but its count. -/
theorem owned_failed (howned : Owned im) (env : Env) (failed : Nat) :
    Owned { im with env, failed_allocs := failed } :=
  ⟨howned.wf, howned.layout, howned.disjoint, howned.zero_dead, howned.last_alloced⟩

end InodeManager

end chfs
