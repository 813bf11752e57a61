import Chfs.Blocks.Release
import Chfs.Inodes.Unchanged
import Chfs.WriteFile.Spec

namespace chfs

open BlockManager

/-- The pointers once those at the positions in `S` are cleared. -/
def Pointers.clear (a : Pointers) (S : Finset Nat) : Pointers := fun j => if j ∈ S then 0 else a j

theorem Pointers.clear_empty (a : Pointers) : a.clear ∅ = a := by
  funext j
  simp [clear]

theorem Pointers.clear_update (a : Pointers) (i : Nat) (S : Finset Nat) :
    Pointers.clear (Function.update a i 0) S = a.clear ({i} ∪ S) := by
  funext j
  by_cases hj : j = i
  · simp [clear, hj]
  · simp [clear, hj]

/-- The blocks `remove_file` gives back can be freed: each direct block the size asks
    for is there, and the indirect block if it asks for one. -/
def CanRemove (size p : Nat) : Prop := min (pointers_for (blocks_for size)) 101 ≤ p

instance (size p : Nat) : Decidable (CanRemove size p) := inferInstanceAs (Decidable (_ ≤ _))

/-- The positions of the blocks `remove_file` gives back. Of a file that goes on
    behind its direct blocks it frees these and the indirect block only. -/
def removed (size : Nat) : Finset Nat := Finset.range (min (pointers_for (blocks_for size)) 101)

namespace InodeManager

/-- The loop over the direct slots frees blocks until it has freed as many as the size
    asks for, or meets a slot without a block. -/
theorem remove_direct_releases (node : Inode) (n : Nat) :
    ∀ (i : Nat) (bm : BlockManager) (a : Pointers), i + n ≤ 100 → bm.WF → Held bm a →
      (∀ j, i ≤ j → j < 100 → a j = node.block j) →
      ∃ e bm', remove_direct node n i (512 * i) bm = .ok (512 * e, bm') ∧ i ≤ e ∧ e ≤ i + n ∧
        (e < i + n → node.size.toNat ≤ 512 * e ∨ node.block e = 0) ∧
        (i < e → 512 * (e - 1) < node.size.toNat) ∧
        Releases (Finset.Ico i e) bm a bm' (a.clear (Finset.Ico i e)) := by
  induction n with
  | zero =>
    intro i bm a _ hwf _ _
    refine ⟨i, bm, rfl, le_refl i, le_refl i, by omega, by omega, ?_⟩
    rw [Finset.Ico_self, Pointers.clear_empty]
    exact Releases.refl hwf a
  | succ n ih =>
    intro i bm a hbound hwf hheld hat
    have hsame := bm.is_valid_block_same (node.block i)
    have hwf₁ := hsame.wf hwf
    rw [remove_direct]
    by_cases hdone : node.size.toNat ≤ 512 * i
    · refine ⟨i, bm, if_neg (by omega), le_refl i, by omega, fun _ => .inl hdone, by omega, ?_⟩
      rw [Finset.Ico_self, Pointers.clear_empty]
      exact Releases.refl hwf a
    · rw [if_pos (by omega)]
      by_cases hzero : node.block i = 0
      · have hnot : (bm.is_valid_block (node.block i)).1 = false := by
          rw [hzero]
          exact is_valid_block_of_not_inUse hwf hwf.not_inUse_zero
        refine ⟨i, (bm.is_valid_block (node.block i)).2, ?_, le_refl i, by omega, fun _ => .inr hzero,
          by omega, ?_⟩
        · simp only [hnot, Bool.false_eq_true, ↓reduceIte]
          rfl
        · rw [Finset.Ico_self, Pointers.clear_empty]
          exact (Releases.refl hwf₁ a).of_same hsame
      · have hati := hat i (le_refl i) (by omega)
        have hvalid := is_valid_block_of_inUse hwf (hati ▸ hheld.in_use i (by rwa [hati]))
        have hheld₁ := hheld.of_same hsame
        obtain ⟨bm₂, hfree, hone⟩ := Releases.one hwf₁ hheld₁ (i := i) (by rwa [hati])
        rw [hati] at hfree
        obtain ⟨e, bm', hrest, hlo, hhi, hstop, hneeded, hreleases⟩ :=
          ih (i + 1) bm₂ _ (by omega) hone.wf (hone.held hheld₁) (by
            intro j hj hj'
            rw [Function.update_of_ne (by omega)]
            exact hat j (by omega) hj')
        have hdisjoint : Disjoint {i} (Finset.Ico (i + 1) e) := by simp
        have hunion : {i} ∪ Finset.Ico (i + 1) e = Finset.Ico i e := by
          ext j
          simp only [Finset.mem_union, Finset.mem_singleton, Finset.mem_Ico]
          omega
        have hall := hone.trans hheld₁ hdisjoint hreleases
        rw [Pointers.clear_update, hunion] at hall
        refine ⟨e, bm', ?_, by omega, by omega, fun he => hstop (by omega), ?_, hall.of_same hsame⟩
        · have hnext : 512 * i + BLOCK_SIZE = 512 * (i + 1) := by
            rw [BLOCK_SIZE_eq]
            omega
          simp only [hvalid, ↓reduceIte, hfree, Except.ok_bind, hnext, hrest]
        · intro _
          by_cases he : e = i + 1
          · rw [he, Nat.add_sub_cancel]
            omega
          · exact hneeded (by omega)

/-- A table of block numbers has a zero among its first three bytes, so seen as a string
    it holds no entry. -/
theorem get_indirect_blocks_of_table (bm : BlockManager) {node : Inode} (heap : Mem)
    (hsmall : (node.block 100).toNat < 32768)
    (hfirst : ((bm.data (node.block 100)).word 0).toNat < 65536) :
    ∃ table, get_indirect_blocks bm heap node = .ok (table, 0) := by
  obtain ⟨table, htable⟩ : ∃ table, table = bm.read_block (node.block NDIRECT) heap := ⟨_, rfl⟩
  have hbytes : ∀ p < 512, table p = bm.data (node.block 100) p := by
    intro p hp
    rw [htable, NDIRECT_eq, read_block_apply bm hsmall heap p, if_pos hp]
  have hword : table.word 0 = (bm.data (node.block 100)).word 0 :=
    Mem.word_congr fun p hp => hbytes p (by omega)
  have hzero : table 2 = 0 := by
    rw [← hword] at hfirst
    have h0 := (table 0).toNat_lt
    have h1 := (table 1).toNat_lt
    have h2 := (table 2).toNat_lt
    have h3 := (table 3).toNat_lt
    apply UInt8.toNat_inj.mp
    simp only [Mem.word, UInt32.toNat_ofNat'] at hfirst
    simp only [Nat.mul_zero, Nat.zero_add] at hfirst
    change (table 2).toNat = 0
    omega
  obtain ⟨n, hlen, hle⟩ := Mem.strlen_le (show 2 < BLOCK_SIZE by simp) hzero
  have hcount : n / 4 = 0 := by omega
  refine ⟨table, ?_⟩
  unfold get_indirect_blocks
  rw [← htable]
  dsimp only
  rw [hlen]
  dsimp only
  rw [hcount]

/-- Whatever the loop over the entries frees, it never marks block 0 in use. -/
theorem remove_indirect_zero {node : Inode} {table : Mem} (n : Nat) :
    ∀ (i free_size : Nat) (bm : BlockManager) (result : Nat × BlockManager), ¬ bm.InUse 0 →
      remove_indirect node table n i free_size bm = .ok result → ¬ result.2.InUse 0 := by
  induction n with
  | zero =>
    intro i free_size bm result hnot h
    cases h
    exact hnot
  | succ n ih =>
    intro i free_size bm result hnot h
    rw [remove_indirect] at h
    split at h
    · obtain ⟨id, _, h⟩ := Except.bind_eq_ok_iff.mp h
      have hnot₁ : ¬ (bm.is_valid_block id).2.InUse 0 := by
        rwa [(bm.is_valid_block_same id).in_use]
      dsimp only at h
      split at h
      · obtain ⟨bm₁, hfree, h⟩ := Except.bind_eq_ok_iff.mp h
        exact ih _ _ _ _ (free_block_zero hnot₁ hfree) h
      · cases h
        exact hnot₁
    · cases h
      exact hnot

theorem remove_file_dead {im : InodeManager} {inum : UInt32} (hdead : im.get_inode inum = none) :
    im.remove_file inum = .ok im := by
  unfold remove_file
  split
  · rfl
  · simp only [hdead]
    rfl

/-- Where the loop over the direct slots stops in a file from slot 0 on. -/
theorem remove_direct_stops {bm : BlockManager} {node : Inode} {p : Nat} (hwf : bm.WF)
    (hlayout : Layout bm node p) :
    ∃ e bm', remove_direct node 100 0 0 bm = .ok (512 * e, bm') ∧
      e = min (min 100 p) (blocks_for node.size.toNat) ∧
      Releases (Finset.Ico 0 e) bm (pointers bm node) bm' ((pointers bm node).clear (Finset.Ico 0 e)) := by
  obtain ⟨e, bm', hrun, _, hhi, hstop, hneeded, hreleases⟩ := remove_direct_releases node 100 0 bm
    (pointers bm node) (by omega) hwf hlayout.held (fun j _ hj => pointers_of_le _ _ (by omega))
  refine ⟨e, bm', hrun, ?_, hreleases⟩
  have hp : 0 < e → e ≤ p := by
    intro he
    have hlast := hreleases.named (e - 1) (by simp; omega)
    have := (hlayout.front (e - 1)).mp hlast
    omega
  have hstop' : e < 100 → node.size.toNat ≤ 512 * e ∨ p ≤ e := by
    intro he
    rcases hstop (by omega) with hsize | hzero
    · exact .inl hsize
    · right
      by_contra hlt
      rw [← pointers_of_le bm node (by omega)] at hzero
      exact hlayout.front.ne_zero (by omega) hzero
  unfold blocks_for
  omega

/-- What `remove_file` leaves of a live inode. -/
structure RemoveDone (im : InodeManager) (inum : UInt32) (node : Inode) (im' : InodeManager) : Prop where
  inodes : ∀ other, im'.get_inode other = if other = inum then none else im.get_inode other
  last_alloced : im'.last_alloced = im.last_alloced
  failed_inodes : im'.failed_allocs = im.failed_allocs
  wf : im'.bm.WF
  in_use : ∀ id, im'.bm.InUse id ↔
    im.bm.InUse id ∧ ∀ j ∈ removed node.size.toNat, pointers im.bm node j ≠ id
  named : ∀ j ∈ removed node.size.toNat, pointers im.bm node j ≠ 0
  zeroed : ∀ j ∈ removed node.size.toNat, im'.bm.data (pointers im.bm node j) = Mem.zero
  cleared : im'.bm.data (IBLOCK inum) = Mem.zero
  untouched : ∀ id, id ≠ IBLOCK inum → (∀ j ∈ removed node.size.toNat, pointers im.bm node j ≠ id) →
    im'.bm.data id = im.bm.data id
  failed_blocks : im'.bm.failed_allocs = im.bm.failed_allocs
  free : im'.bm.free_count = im.bm.free_count + (removed node.size.toNat).card

/-- Giving the blocks back and clearing the inode removes the file. -/
theorem RemoveDone.of_releases {im : InodeManager} {inum : UInt32} {node : Inode} {bm : BlockManager}
    (hlive : im.get_inode inum = some node) (hwf : im.bm.WF) (hheld : Held im.bm (pointers im.bm node))
    (h : Releases (removed node.size.toNat) im.bm (pointers im.bm node) bm
      ((pointers im.bm node).clear (removed node.size.toNat))) (env : Env) :
    RemoveDone im inum node ({ im with bm, env }.free_inode inum) := by
  have hinum := live_le hlive
  have htable : ∀ other, other.toNat ≤ 1024 → bm.data (IBLOCK other) = im.bm.data (IBLOCK other) := by
    intro other hother
    apply h.frame
    intro j hj heq
    exact (hwf.data_block _ (hheld.in_use j (h.named j hj))).ne_IBLOCK hother heq
  have hlive' : ({ im with bm, env } : InodeManager).get_inode inum = some node := by
    rw [← hlive]
    exact get_inode_congr (htable inum)
  have hnot : ¬ INODE_NUM < inum.toNat := by
    simp
    omega
  have hfree : ({ im with bm, env } : InodeManager).free_inode inum =
      { im with bm := bm.write_block (IBLOCK inum) Mem.zero, env } := by
    simp only [free_inode, hnot, ↓reduceIte, hlive']
  constructor
  · intro other
    rw [get_inode_free_inode]
    split
    · rfl
    · exact get_inode_congr (htable other)
  · rw [hfree]
  · rw [hfree]
  · rw [hfree]
    exact h.wf.write_block _ _
  · rw [hfree]
    exact h.in_use
  · exact h.named
  · intro j hj
    have huse := hheld.in_use j (h.named j hj)
    rw [hfree, data_write_block_ne _ ((hwf.data_block _ huse).ne_IBLOCK hinum)]
    exact h.zeroed j hj
  · rw [hfree]
    funext q
    by_cases hq : q < 512
    · exact data_write_block_same _ (by rw [IBLOCK_toNat hinum]; omega) _ hq
    · exact Disk.data_of_size_le _ _ (by omega)
  · intro id hid hnone
    rw [hfree, data_write_block_ne _ hid]
    exact h.frame id hnone
  · rw [hfree]
    exact h.failed
  · rw [hfree]
    exact h.free

theorem remove_file_done {im : InodeManager} {inum : UInt32} {node : Inode} {p : Nat}
    (hlive : im.get_inode inum = some node) (hwf : im.bm.WF) (hlayout : Layout im.bm node p)
    (hok : CanRemove node.size.toNat p) :
    ∃ im', im.remove_file inum = .ok im' ∧ RemoveDone im inum node im' := by
  have hnot : ¬ INODE_NUM < inum.toNat := by
    have := live_le hlive
    simp
    omega
  have hat : pointers im.bm node 100 = node.block 100 := pointers_of_le _ _ (le_refl 100)
  obtain ⟨e, bm₁, hdirect, he, hreleases⟩ := remove_direct_stops hwf hlayout
  have hdirect : remove_direct node NDIRECT 0 0 im.bm = .ok (512 * e, bm₁) := hdirect
  unfold CanRemove at hok
  unfold remove_file
  simp only [hnot, ↓reduceIte, hlive, hdirect, Except.ok_bind]
  by_cases hlarge : 512 * e < node.size.toNat
  · -- the file goes on behind its direct blocks
    have hk : 100 < blocks_for node.size.toNat := by
      unfold pointers_for blocks_for at *
      split at hok <;> omega
    have hok' : 101 ≤ p := by
      unfold pointers_for at hok
      rw [if_neg (by omega)] at hok
      omega
    have he' : e = 100 := by omega
    subst he'
    have hne : node.block 100 ≠ 0 := by
      rw [← hat]
      exact hlayout.front.ne_zero (by omega)
    have hdata : DataBlock (node.block 100) := by
      rw [← hat] at hne ⊢
      exact hwf.data_block _ (hlayout.held.in_use 100 hne)
    have hframe : bm₁.data (node.block 100) = im.bm.data (node.block 100) := by
      apply hreleases.frame
      intro j hj heq
      rw [← hat] at heq
      have := hlayout.held.injective j 100 (hreleases.named j hj) heq
      simp at hj
      omega
    have hentry : pointers im.bm node 101 = (im.bm.data (node.block 100)).word 0 := by
      rw [pointers, pointers_with_of_gt _ _ (by omega), entries_on_disk, if_neg hne]
      rfl
    obtain ⟨table, htable⟩ := get_indirect_blocks_of_table bm₁ (im.env.heap 0)
      hdata.2 (by
        rw [hframe, ← hentry]
        by_cases hzero : pointers im.bm node 101 = 0
        · rw [hzero]
          decide
        · have := (hwf.data_block _ (hlayout.held.in_use 101 hzero)).2
          omega)
    have hheld₁ := hreleases.held hlayout.held
    have hat₁ : (pointers im.bm node).clear (Finset.Ico 0 100) 100 = node.block 100 := by
      rw [Pointers.clear, if_neg (by simp), hat]
    obtain ⟨bm₂, hfree, hone⟩ := Releases.one hreleases.wf hheld₁ (i := 100) (by rwa [hat₁])
    rw [hat₁] at hfree
    have hall := hreleases.trans hlayout.held (by simp) hone
    have hunion : Finset.Ico 0 100 ∪ {100} = removed node.size.toNat := by
      ext j
      simp only [removed, pointers_for, if_neg (show ¬ blocks_for node.size.toNat ≤ 100 by omega),
        Finset.mem_union, Finset.mem_Ico, Finset.mem_singleton, Finset.mem_range]
      omega
    have hclear : Function.update ((pointers im.bm node).clear (Finset.Ico 0 100)) 100 0 =
        (pointers im.bm node).clear (Finset.Ico 0 100 ∪ {100}) := by
      funext j
      by_cases hj : j = 100
      · simp [Pointers.clear, hj]
      · simp [Pointers.clear, hj]
    rw [hclear, hunion] at hall
    refine ⟨_, ?_, RemoveDone.of_releases hlive hwf hlayout.held hall im.env.malloc.2⟩
    simp only [hlarge, ↓reduceIte, malloc, Env.malloc, htable, Except.ok_bind, remove_indirect, NDIRECT_eq,
      hfree]
    rfl
  · have hrange : Finset.Ico 0 e = removed node.size.toNat := by
      ext j
      simp only [removed, Finset.mem_Ico, Finset.mem_range]
      unfold pointers_for blocks_for at *
      split at hok <;> split <;> omega
    rw [hrange] at hreleases
    refine ⟨_, ?_, RemoveDone.of_releases hlive hwf hlayout.held hreleases im.env⟩
    simp only [hlarge, ↓reduceIte]
    rfl

/-- Otherwise the call ends in a fault. Without an indirect block, block 0 is taken for
    one, and freeing it fails at the latest. -/
theorem remove_file_fault {im : InodeManager} {inum : UInt32} {node : Inode} {p : Nat}
    (hlive : im.get_inode inum = some node) (hwf : im.bm.WF) (hlayout : Layout im.bm node p)
    (hnot : ¬ CanRemove node.size.toNat p) : ∃ fault, im.remove_file inum = .error fault := by
  have hsmall : ¬ INODE_NUM < inum.toNat := by
    have := live_le hlive
    simp
    omega
  obtain ⟨e, bm₁, hdirect, he, hreleases⟩ := remove_direct_stops hwf hlayout
  have hdirect : remove_direct node NDIRECT 0 0 im.bm = .ok (512 * e, bm₁) := hdirect
  unfold CanRemove at hnot
  have hp : p ≤ 100 ∧ 512 * e < node.size.toNat := by
    unfold pointers_for blocks_for at *
    split at hnot <;> omega
  have hzero : node.block NDIRECT = 0 := by
    rw [NDIRECT_eq, ← pointers_of_le im.bm node (le_refl 100)]
    exact hlayout.front.eq_zero hp.1
  unfold remove_file
  simp only [hsmall, ↓reduceIte, hlive, hdirect, Except.ok_bind, hp.2, hzero]
  cases hget : get_indirect_blocks bm₁ im.env.malloc.1 node with
  | error fault =>
    simp only [malloc, hget, Except.error_bind]
    exact ⟨_, rfl⟩
  | ok result =>
    simp only [malloc, hget, Except.ok_bind]
    cases hentries : remove_indirect node result.1 result.2 0 (512 * e) bm₁ with
    | error fault =>
      rw [Except.error_bind]
      exact ⟨_, rfl⟩
    | ok last =>
      have hlast := remove_indirect_zero _ _ _ _ _ hreleases.wf.not_inUse_zero hentries
      rw [Except.ok_bind, free_block_of_not_inUse (by decide) hlast, Except.error_bind]
      exact ⟨_, rfl⟩

end InodeManager

end chfs
