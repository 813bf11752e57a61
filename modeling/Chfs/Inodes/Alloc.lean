import Chfs.Inodes.Unchanged

namespace chfs.InodeManager

open BlockManager

theorem to_alloc_toNat {last : UInt32} (hlast : last.toNat ≤ 1024) {i : Nat} (hi : i ≤ 1024) :
    (to_alloc last i).toNat =
      if 1024 ≤ i + last.toNat then (i + last.toNat) % 1024 + 1 else i + last.toNat := by
  have hsum : (UInt32.ofNat i + last).toNat = i + last.toNat := by
    rw [UInt32.toNat_add, UInt32.toNat_ofNat']
    omega
  have hnum : (UInt32.ofNat INODE_NUM).toNat = 1024 := rfl
  unfold to_alloc
  by_cases hle : 1024 ≤ i + last.toNat
  · rw [if_pos (UInt32.le_iff_toNat_le.mpr (by rw [hnum, hsum]; exact hle)), if_pos hle,
      UInt32.toNat_add, UInt32.toNat_mod, hsum, hnum]
    simp
    omega
  · rw [if_neg (fun h => hle (by rw [← hsum, ← hnum]; exact UInt32.le_iff_toNat_le.mp h)), if_neg hle, hsum]

theorem to_alloc_bounds {last : UInt32} (hlast : last.toNat ≤ 1024) {i : Nat} (hlo : 1 ≤ i) (hhi : i ≤ 1024) :
    1 ≤ (to_alloc last i).toNat ∧ (to_alloc last i).toNat ≤ 1024 := by
  rw [to_alloc_toNat hlast hhi]
  split <;> omega

/-- The search of `alloc_inode` comes past the inum. -/
def Visited (last inum : UInt32) : Prop := ∃ i, 1 ≤ i ∧ i ≤ 1024 ∧ to_alloc last i = inum

/-- What `alloc_inode` leaves when it creates the inode `inum`. -/
structure Created (im : InodeManager) (type inum : UInt32) (im' : InodeManager) : Prop where
  dead : im.get_inode inum = none
  bounds : 1 ≤ inum.toNat ∧ inum.toNat ≤ 1024
  stored : ∃ node : Inode, im'.get_inode inum = (if node.type = 0 then none else some node) ∧
    node.type = type.toUInt16.toInt16 ∧ node.size = 0 ∧ ∀ j, node.block j = 0
  others : ∀ other, other ≠ inum → im'.get_inode other = im.get_inode other
  frame : ∀ id, id ≠ IBLOCK inum → im'.bm.data id = im.bm.data id
  in_use : ∀ id, im'.bm.InUse id ↔ im.bm.InUse id
  failed_blocks : im'.bm.failed_allocs = im.bm.failed_allocs
  wf : im.bm.WF → im'.bm.WF
  last_alloced : im'.last_alloced = inum
  failed_inodes : im'.failed_allocs = im.failed_allocs

theorem Created.data {im im' : InodeManager} {type inum : UInt32} (h : Created im type inum im') (id : blockid_t)
    (hid : DataBlock id) : im'.bm.data id = im.bm.data id :=
  h.frame id (hid.ne_IBLOCK h.bounds.2)

/-- What round `i` of the search stores when it is the first to find a free inum. -/
theorem alloc_inode_eq {im : InodeManager} {i : Nat} (type : UInt32) (hlo : 1 ≤ i) (hhi : i ≤ 1024)
    (hdead : im.get_inode (to_alloc im.last_alloced i) = none)
    (hbefore : ∀ j, 1 ≤ j → j < i → im.get_inode (to_alloc im.last_alloced j) ≠ none) :
    ∃ stored env, im.alloc_inode type =
        (to_alloc im.last_alloced i,
          { InodeManager.put_inode { im with env } (to_alloc im.last_alloced i) stored with
            last_alloced := to_alloc im.last_alloced i }) ∧
      env = im.env.time.2 ∧ stored.atime = im.env.time.1 ∧
      stored.type = type.toUInt16.toInt16 ∧ stored.size = 0 ∧ ∀ j, stored.block j = 0 := by
  have hfind : (List.range' 1 INODE_NUM).find?
      (fun i => (im.time.2.get_inode (to_alloc im.time.2.last_alloced i)).isNone) = some i := by
    change (List.range' 1 INODE_NUM).find?
      (fun i => (im.get_inode (to_alloc im.last_alloced i)).isNone) = some i
    rw [List.find?_range'_eq_some]
    refine ⟨by simp [hdead], by simp; omega, ?_⟩
    intro j hj hji
    have hlive := hbefore j hj hji
    simpa [Option.isSome_iff_ne_none] using hlive
  let now := im.time.1
  refine ⟨⟨type.toUInt16.toInt16, 0, now, now, now, fun _ => 0⟩, im.time.2.env, ?_, rfl, rfl, rfl, rfl, ?_⟩
  · unfold alloc_inode
    simp only [hfind]
    rfl
  · intro j
    unfold Inode.block
    split <;> rfl

/-- `alloc_inode` creates an inode at the first free inum it comes past. -/
theorem alloc_inode_at {im : InodeManager} (hlast : im.last_alloced.toNat ≤ 1024) {i : Nat} (type : UInt32)
    (hlo : 1 ≤ i) (hhi : i ≤ 1024) (hdead : im.get_inode (to_alloc im.last_alloced i) = none)
    (hbefore : ∀ j, 1 ≤ j → j < i → im.get_inode (to_alloc im.last_alloced j) ≠ none) :
    ∃ im', im.alloc_inode type = (to_alloc im.last_alloced i, im') ∧
      Created im type (to_alloc im.last_alloced i) im' := by
  have hbounds := to_alloc_bounds hlast hlo hhi
  obtain ⟨stored, env, hrun, _, _, htype, hsize, hblocks⟩ := alloc_inode_eq type hlo hhi hdead hbefore
  refine ⟨_, hrun, hdead, hbounds, ⟨stored, ?_, htype, hsize, hblocks⟩, ?_, ?_, fun _ => Iff.rfl, rfl,
    fun hwf => hwf.write_block _ _, rfl, rfl⟩
  · exact get_inode_put_inode { im with env } hbounds.2 stored
  · intro other hother
    exact get_inode_put_inode_ne { im with env } hbounds.2 hother stored
  · intro id hid
    exact data_put_inode { im with env } hid stored

/-- The first free inum that the search of `alloc_inode` comes past. -/
def FirstFree (im : InodeManager) (inum : UInt32) : Prop :=
  im.get_inode inum = none ∧ ∃ i, 1 ≤ i ∧ i ≤ 1024 ∧ to_alloc im.last_alloced i = inum ∧
    ∀ j, 1 ≤ j → j < i → im.get_inode (to_alloc im.last_alloced j) ≠ none

theorem FirstFree.alloc_inode {im : InodeManager} {inum : UInt32} (h : FirstFree im inum)
    (hlast : im.last_alloced.toNat ≤ 1024) (type : UInt32) :
    ∃ im', im.alloc_inode type = (inum, im') ∧ Created im type inum im' := by
  obtain ⟨hdead, i, hlo, hhi, rfl, hbefore⟩ := h
  exact alloc_inode_at hlast type hlo hhi hdead hbefore

theorem exists_firstFree {im : InodeManager} {inum : UInt32} (hvisited : Visited im.last_alloced inum)
    (hdead : im.get_inode inum = none) : ∃ first, FirstFree im first := by
  obtain ⟨i, hlo, hhi, rfl⟩ := hvisited
  have hex : ∃ i, 1 ≤ i ∧ im.get_inode (to_alloc im.last_alloced i) = none := ⟨i, hlo, hdead⟩
  have hfirst := Nat.find_spec hex
  have hle : Nat.find hex ≤ i := Nat.find_min' hex ⟨hlo, hdead⟩
  refine ⟨_, hfirst.2, Nat.find hex, hfirst.1, by omega, rfl, ?_⟩
  intro j hj hlt hnone
  exact Nat.find_min hex hlt ⟨hj, hnone⟩

theorem alloc_inode_done {im : InodeManager} (hlast : im.last_alloced.toNat ≤ 1024) (type : UInt32)
    {inum : UInt32} (hvisited : Visited im.last_alloced inum) (hdead : im.get_inode inum = none) :
    ∃ first im', im.alloc_inode type = (first, im') ∧ Created im type first im' := by
  obtain ⟨first, hfirst⟩ := exists_firstFree hvisited hdead
  exact ⟨first, hfirst.alloc_inode hlast type⟩

/-- Without a free inum on its way it returns 0 and creates nothing. -/
theorem alloc_inode_none {im : InodeManager} {type : UInt32}
    (hlive : ∀ inum, Visited im.last_alloced inum → im.get_inode inum ≠ none) :
    ∃ env, im.alloc_inode type = (0, { im with env, failed_allocs := im.failed_allocs + 1 }) := by
  have hfind : (List.range' 1 INODE_NUM).find?
      (fun i => (im.time.2.get_inode (to_alloc im.time.2.last_alloced i)).isNone) = none := by
    rw [List.find?_eq_none]
    intro i hi
    simp at hi
    have hnext : im.time.2.get_inode (to_alloc im.time.2.last_alloced i) ≠ none :=
      hlive _ ⟨i, hi.1, by omega, rfl⟩
    simpa using hnext
  refine ⟨im.time.2.env, ?_⟩
  unfold alloc_inode
  simp only [hfind]
  rfl

/-- One of the two happens. -/
theorem alloc_inode_cases {im : InodeManager} (hlast : im.last_alloced.toNat ≤ 1024) (type : UInt32) :
    (∃ inum im', im.alloc_inode type = (inum, im') ∧ Created im type inum im') ∨
      ((∀ inum, Visited im.last_alloced inum → im.get_inode inum ≠ none) ∧
        ∃ env, im.alloc_inode type = (0, { im with env, failed_allocs := im.failed_allocs + 1 })) := by
  by_cases hfree : ∃ inum, Visited im.last_alloced inum ∧ im.get_inode inum = none
  · obtain ⟨inum, hvisited, hdead⟩ := hfree
    exact .inl (alloc_inode_done hlast type hvisited hdead)
  · have hlive : ∀ inum, Visited im.last_alloced inum → im.get_inode inum ≠ none :=
      fun inum hvisited hdead => hfree ⟨inum, hvisited, hdead⟩
    exact .inr ⟨hlive, alloc_inode_none hlive⟩

end chfs.InodeManager
