import Chfs.Extent.Ownership
import Chfs.Extent.WholeFiles

namespace chfs

open BlockManager InodeManager

/-- The blocks an inode names. -/
def held_blocks (bm : BlockManager) (node : Inode) : Set blockid_t :=
  { blk | blk ≠ 0 ∧ ((∃ i < MAXFILE, logical_slot bm node i = blk) ∨ node.block NDIRECT = blk) }

theorem mem_held_blocks {bm : BlockManager} {node : Inode} {blk : blockid_t} :
    blk ∈ held_blocks bm node ↔ ∃ j, pointers bm node j = blk ∧ blk ≠ 0 := by
  have hat : pointers bm node 100 = node.block NDIRECT := pointers_of_le _ _ (le_refl 100)
  constructor
  · rintro ⟨hne, ⟨i, hi, hslot⟩ | hindirect⟩
    · exact ⟨slot_position i, (pointers_slot _ _ hi).trans hslot, hne⟩
    · exact ⟨100, hat.trans hindirect, hne⟩
  · rintro ⟨j, rfl, hne⟩
    refine ⟨hne, ?_⟩
    have hj : j ≤ 228 := by
      by_contra hlarge
      exact hne (pointers_of_large _ _ (by omega))
    by_cases h100 : j = 100
    · subst h100
      exact .inr hat.symm
    · have hj : j < pointers_for MAXFILE := by
        simp [pointers_for, MAXFILE]
        omega
      obtain ⟨i, hi, rfl⟩ := exists_slot_position hj h100
      exact .inl ⟨i, hi, (pointers_slot _ _ hi).symm⟩

/-- The inode has exactly the blocks `n` bytes need, each another one. It keeps those
    of its blocks that it still needs, gives back the others cleared, and no block
    besides changes. -/
structure AccountsFor (im : InodeManager) (inum : UInt32) (node : Inode) (n : Nat) (im' : InodeManager)
    (node' : Inode) : Prop where
  live : im'.get_inode inum = some node'
  data_blocks : ∀ i < MAXFILE, logical_slot im'.bm node' i ≠ 0 ↔ i < blocks_for n
  indirect_block : node'.block NDIRECT ≠ 0 ↔ NDIRECT * BLOCK_SIZE < n
  distinct : ∀ i < MAXFILE, ∀ j < MAXFILE, logical_slot im'.bm node' i ≠ 0 →
    logical_slot im'.bm node' i = logical_slot im'.bm node' j → i = j
  not_indirect : ∀ i < MAXFILE, logical_slot im'.bm node' i ≠ 0 → logical_slot im'.bm node' i ≠ node'.block NDIRECT
  kept : ∀ i < blocks_for n, logical_slot im.bm node i ≠ 0 → logical_slot im'.bm node' i = logical_slot im.bm node i
  kept_indirect : NDIRECT * BLOCK_SIZE < n → node.block NDIRECT ≠ 0 → node'.block NDIRECT = node.block NDIRECT
  taken : ∀ blk ∈ held_blocks im'.bm node', blk ∉ held_blocks im.bm node →
    im.bm.using_blocks blk ≠ some 1 ∧ im'.bm.using_blocks blk = some 1
  released : ∀ blk ∈ held_blocks im.bm node, blk ∉ held_blocks im'.bm node' →
    im'.bm.using_blocks blk ≠ some 1 ∧ im'.bm.data blk = Mem.zero ∧
      ∀ other file, im'.get_inode other = some file → blk ∉ held_blocks im'.bm file
  marks : ∀ blk, (blk ∈ held_blocks im.bm node ↔ blk ∈ held_blocks im'.bm node') →
    (im'.bm.using_blocks blk = some 1 ↔ im.bm.using_blocks blk = some 1)
  bytes : ∀ blk, blk ∉ held_blocks im.bm node → blk ∉ held_blocks im'.bm node' → blk ≠ IBLOCK inum →
    im'.bm.data blk = im.bm.data blk

namespace InodeManager

/-- Writing a whole file with enough room accounts for each block. -/
theorem WriteDone.accounts {im im' : InodeManager} {inum : UInt32} {node node' : Inode} {p : Nat}
    {bytes : List UInt8} {rest : Mem} (howned : Owned im) (hlive : im.get_inode inum = some node)
    (hlayout : Layout im.bm node p) (hp : pointers_for (blocks_for node.size.toNat) ≤ p)
    (hdone : WriteDone (Mem.ofBytes (bytes ++ [0]) rest) bytes.length im inum node p im' node')
    (hsize : 1 ≤ bytes.length) (hfits : bytes.length ≤ 116736)
    (hroom : pointers_for (blocks_for bytes.length) ≤ p + im.bm.free_count) :
    AccountsFor im inum node bytes.length im' node' := by
  have hwritten := hdone.written
  have howned' := hdone.owned howned hlive (by omega)
  have hk : 1 ≤ blocks_for bytes.length ∧ blocks_for bytes.length ≤ 228 := by
    unfold blocks_for
    omega
  have htarget : target bytes.length = pointers_for (blocks_for bytes.length) := by
    unfold target pointers_for
    split <;> omega
  have hmax : max 1 (blocks_for bytes.length) = blocks_for bytes.length := by omega
  have hreach : min (filled p (target bytes.length) im.bm.free_count) (pointers_for (max 1 (blocks_for bytes.length))) =
      pointers_for (blocks_for bytes.length) := by
    rw [htarget, hmax]
    unfold filled
    omega
  have hfront := hwritten.front
  rw [hreach] at hfront
  have hkept := hwritten.kept
  rw [hmax] at hkept
  have hat : ∀ (bm : BlockManager) (node : Inode), pointers bm node 100 = node.block NDIRECT := fun _ _ =>
    pointers_of_le _ _ (le_refl 100)
  have hlarge : NDIRECT * BLOCK_SIZE < bytes.length ↔ 100 < pointers_for (blocks_for bytes.length) := by
    have hlimit : NDIRECT * BLOCK_SIZE = 51200 := rfl
    rw [hlimit]
    unfold pointers_for blocks_for
    split <;> omega
  have hslot : ∀ i, i < blocks_for bytes.length → i < MAXFILE := by
    intro i hi
    simp only [MAXFILE, NDIRECT_eq, NINDIRECT_eq]
    omega
  refine ⟨hdone.live, ?_, ?_, ?_, ?_, ?_, ?_, ?_, ?_, ?_, ?_⟩
  · intro i hi
    rw [← pointers_slot _ _ hi, hfront]
    unfold slot_position pointers_for
    split <;> split <;> omega
  · rw [← hat im'.bm, hfront, hlarge]
  · intro i hi j hj hne heq
    rw [← pointers_slot _ _ hi] at hne heq
    rw [← pointers_slot _ _ hj] at heq
    exact slot_position_inj (hwritten.held.injective _ _ hne heq)
  · intro i hi hne heq
    rw [← pointers_slot _ _ hi] at hne heq
    rw [← hat im'.bm] at heq
    exact slot_position_ne i (hwritten.held.injective _ _ hne heq)
  · intro i hi hne
    rw [← pointers_slot _ _ (hslot i hi)] at hne ⊢
    rw [← pointers_slot _ _ (hslot i hi)]
    exact hkept _ (slot_position_lt_pointers_for hi) hne
  · intro hmore hne
    rw [← hat im.bm] at hne ⊢
    rw [← hat im'.bm]
    exact hkept 100 (hlarge.mp hmore) hne
  · intro blk hheld hnot
    obtain ⟨j, rfl, hne⟩ := mem_held_blocks.mp hheld
    refine ⟨?_, hwritten.held.in_use j hne⟩
    rcases hwritten.fresh j hne with hold | hfree
    · exact absurd (mem_held_blocks.mpr ⟨j, hold.symm, hne⟩) hnot
    · exact hfree
  · intro blk hheld hnot
    obtain ⟨j, rfl, hne⟩ := mem_held_blocks.mp hheld
    have hgone : pointers im'.bm node' j = 0 := by
      by_contra hstays
      have heq := hkept j ((hfront j).mp hstays) hne
      exact hnot (mem_held_blocks.mpr ⟨j, heq, hne⟩)
    have hfree : ¬ im'.bm.InUse (pointers im.bm node j) := by
      rw [hwritten.in_use]
      rintro (⟨_, hnone⟩ | ⟨k, hk, _⟩)
      · exact hnone j rfl
      · exact hnot (mem_held_blocks.mpr ⟨k, hk, hne⟩)
    refine ⟨hfree, hwritten.zeroed j hne hgone, ?_⟩
    intro other file hfile hnamed
    obtain ⟨k, hk, _⟩ := mem_held_blocks.mp hnamed
    rw [← hk] at hne hfree
    exact hfree (howned'.in_use hfile hne)
  · intro blk hboth
    have hwas : blk ∈ held_blocks im.bm node → im.bm.InUse blk := by
      intro hheld
      obtain ⟨j, rfl, hne⟩ := mem_held_blocks.mp hheld
      exact howned.in_use hlive hne
    have hmark := hwritten.in_use blk
    rw [← mem_held_blocks] at hmark
    refine hmark.trans ?_
    constructor
    · rintro (⟨huse, _⟩ | hheld)
      · exact huse
      · exact hwas (hboth.mpr hheld)
    · intro huse
      by_cases hheld : blk ∈ held_blocks im'.bm node'
      · exact .inr hheld
      · refine .inl ⟨huse, ?_⟩
        rintro j rfl
        exact hheld (hboth.mp (mem_held_blocks.mpr ⟨j, rfl, howned.wf.ne_zero huse⟩))
  · intro blk hold hnew hinode
    refine hdone.frame blk hinode ?_ ?_ ?_
    · intro j hj heq
      exact hold (mem_held_blocks.mpr ⟨j, heq, heq ▸ hj⟩)
    · intro j hj heq
      exact hnew (mem_held_blocks.mpr ⟨j, heq, heq ▸ hj⟩)
    · intro _
      refine ⟨?_, ?_⟩
      · rw [hwritten.failed, htarget]
        omega
      · by_cases hsmall : pre_block_num node ≤ 100
        · exact .inl hsmall
        · refine .inr (hlayout.front.ne_zero ?_)
          rcases Whole.pointers_for_pre hlayout hp with hall | ⟨hzero, _⟩
          · rw [hall]
            unfold pointers_for
            split <;> omega
          · rw [pre_block_num_eq, hzero] at hsmall
            exact absurd (by decide) hsmall

end InodeManager

namespace ExtentServer

variable {start es es' : ExtentServer} {id : extentid_t} {node : Inode} {buf : List UInt8}

/-- In every state a new server reaches without a failed allocation, a `put` of a
    nonempty buffer that fits returns, and if its own allocations succeed it accounts
    for each block: the file has the blocks it needs and keeps those it had, the others
    are given back, and no block besides is touched. -/
theorem put_accounts {garbage : UInt32} {env : Env} {history : List (ExtentOp × ExtentReply)}
    (hnew : ExtentServer.new garbage env = .ok start) (hrun : FittingRun start history es)
    (hfail : es.im.bm.failed_allocs = 0) (hlive : es.im.get_inode (inum_of id) = some node)
    (hsize : 1 ≤ buf.length) (hfits : Fits buf) :
    ∃ es', es.put id buf = .ok (.OK, es') ∧
      (es'.im.bm.failed_allocs = 0 → ∃ node', AccountsFor es.im (inum_of id) node buf.length es'.im node') := by
  have howned := ShortRun.owned (fresh_new hnew).1.owned hrun.short
  obtain ⟨p, hlayout, hp⟩ := FittingRun.all_whole (fresh_new hnew).1 hrun hfail _ _ hlive
  have hlen := fits_iff.mp hfits
  obtain ⟨im', node', hput, hdone, _⟩ := put_done buf hlive howned.wf hlayout (by omega)
    (Whole.can_shrink hlayout hp _ _ _)
  refine ⟨{ im := im', longest_put := max es.longest_put buf.length }, hput, ?_⟩
  intro hfail'
  have hfailed := hdone.written.failed
  rw [hfail] at hfailed
  have hfail' : im'.bm.failed_allocs = 0 := hfail'
  refine ⟨node', hdone.accounts howned hlive hlayout hp hsize hlen ?_⟩
  unfold target pointers_for blocks_for at *
  split at hfailed <;> split <;> omega

/-- A file of three blocks that shrinks to two keeps these and gives the third back. -/
theorem put_accounts_root :
    ∃ start es₁ node₁ es₂ node₂, ExtentServer.new 0 still = .ok start ∧
      start.put 1 (List.replicate 1300 104) = .ok (.OK, es₁) ∧ es₁.im.get_inode (inum_of 1) = some node₁ ∧
      es₁.put 1 (List.replicate 600 105) = .ok (.OK, es₂) ∧ AccountsFor es₁.im (inum_of 1) node₁ 600 es₂.im node₂ := by
  obtain ⟨start, hnew⟩ := new_zero still
  have hfresh := (fresh_new hnew).1
  obtain ⟨root, hroot, _⟩ := hfresh.root
  have hroot : start.im.get_inode (inum_of 1) = some root := hroot
  have hlong : (List.replicate 1300 (104 : UInt8)).length = 1300 := List.length_replicate
  have hshort : (List.replicate 600 (105 : UInt8)).length = 600 := List.length_replicate
  have hfree := hfresh.free_count
  have hfits₁ := fits_iff.mpr (hlong.trans_le (by omega))
  obtain ⟨es₁, hput₁, haccounts₁⟩ := put_accounts hnew .nil hfresh.failed_blocks hroot (by omega) hfits₁
  have hstep₁ : start.step (.put 1 (List.replicate 1300 104)) = .ok (.put .OK, es₁) := by
    rw [step, hput₁]
    rfl
  have hrun₁ : FittingRun start [(.put 1 (List.replicate 1300 104), .put .OK)] es₁ := .cons .nil hfits₁ hstep₁
  obtain ⟨hfail₁, hfree₁⟩ := put_with_room hfresh.owned (by omega) (by omega) hstep₁
  have hfail₁ := hfail₁.trans hfresh.failed_blocks
  obtain ⟨node₁, hnode₁⟩ := haccounts₁ hfail₁
  have hfits₂ := fits_iff.mpr (hshort.trans_le (by omega))
  obtain ⟨es₂, hput₂, haccounts₂⟩ := put_accounts hnew hrun₁ hfail₁ hnode₁.live (by omega) hfits₂
  have hstep₂ : es₁.step (.put 1 (List.replicate 600 105)) = .ok (.put .OK, es₂) := by
    rw [step, hput₂]
    rfl
  have howned₁ := ShortRun.owned hfresh.owned hrun₁.short
  obtain ⟨hfail₂, _⟩ := put_with_room howned₁ (by omega) (by omega) hstep₂
  obtain ⟨node₂, hnode₂⟩ := haccounts₂ (hfail₂.trans hfail₁)
  rw [hshort] at hnode₂
  exact ⟨start, es₁, node₁, es₂, node₂, hnew, hput₁, hnode₁.live, hput₂, hnode₂⟩

end ExtentServer

end chfs
