import Chfs.WriteFile.FreeIndirect

namespace chfs

theorem pointers_for_mono {k l : Nat} (h : k ≤ l) : pointers_for k ≤ pointers_for l := by
  unfold pointers_for
  split <;> split <;> omega

theorem prefix_le {bm : BlockManager} {node : Inode} {p : Nat} (h : Prefix (pointers bm node) p) :
    p ≤ 229 := by
  by_contra hlt
  exact h.ne_zero (show 229 < p by omega) (pointers_of_large bm node (by omega))

namespace InodeManager

open BlockManager

/-- The blocks behind the new size can be freed: the file had no entries, or the
    loop over the direct slots stops at a slot without a block, or there is
    nothing to free, or every block of the old size is there. -/
def CanShrink (pre used p : Nat) : Prop :=
  pre ≤ 100 ∨ (used < 100 ∧ p < 100) ∨ pre ≤ used ∨ pointers_for pre ≤ p

instance (pre used p : Nat) : Decidable (CanShrink pre used p) :=
  inferInstanceAs (Decidable (_ ∨ _))

/-- Where the loop over the direct slots stops. -/
theorem free_direct_stops {im : InodeManager} {node : Inode} {p : Nat} (pre used : Nat) (hwf : im.bm.WF)
    (hheld : Held im.bm (pointers im.bm node)) (hfront : Prefix (pointers im.bm node) p) :
    ∃ bm' blocks, free_direct (min NDIRECT pre - used) used im.bm node =
        .ok (max used (min (min 100 pre) p), bm', { node with blocks }) ∧
      Releases (Finset.Ico used (max used (min (min 100 pre) p))) im.bm (pointers im.bm node) bm'
        (pointers bm' { node with blocks }) := by
  obtain ⟨e, bm', blocks, hrun, hlo, hhi, hstop, hreleases⟩ :=
    free_direct_releases (entries_on_disk im.bm node) (min NDIRECT pre - used) used im.bm node
      (by simp; omega) hwf hheld
  have hreleases : Releases (Finset.Ico used e) im.bm (pointers im.bm node) bm'
      (pointers_with { node with blocks } (entries_on_disk im.bm node)) := hreleases
  simp only [NDIRECT_eq] at hhi hstop
  have hstop' : e < used + (min 100 pre - used) → p ≤ e := by
    intro he
    by_contra hlt
    exact hfront.ne_zero (show e < p by omega) (hstop he)
  have hnamed : used < e → e ≤ p := by
    intro he
    have hlast := hreleases.named (e - 1) (by simp; omega)
    have := (hfront (e - 1)).mp hlast
    omega
  have he : e = max used (min (min 100 pre) p) := by omega
  -- the indirect block is none of the blocks freed, so the entries stay
  have h100 : 100 ∉ Finset.Ico used e := by
    rw [Finset.mem_Ico]
    omega
  have hindirect : ({ node with blocks } : Inode).block 100 = node.block 100 := by
    have hout := hreleases.outside 100 h100
    rwa [pointers_with_of_le _ _ (le_refl 100), pointers_of_le _ _ (le_refl 100)] at hout
  have hpointers : pointers bm' { node with blocks } =
      pointers_with { node with blocks } (entries_on_disk im.bm node) := by
    apply pointers_with_congr
    intro j hj
    unfold entries_on_disk
    rw [hindirect]
    split
    · rfl
    · next hne =>
      have hat : pointers im.bm node 100 = node.block 100 := pointers_of_le _ _ (le_refl 100)
      rw [hreleases.frame (node.block 100)]
      intro k hk heq
      have heq' := hheld.injective k 100 (hreleases.named k hk) (heq.trans hat.symm)
      exact h100 (heq' ▸ hk)
  subst he
  refine ⟨bm', blocks, hrun, ?_⟩
  rw [hpointers]
  exact hreleases

/-- Freeing the blocks behind the new size trims the pointers to those the new size
    asks for. -/
theorem free_unused_trims (im : InodeManager) {node : Inode} {p : Nat} (used : Nat) (hwf : im.bm.WF)
    (hheld : Held im.bm (pointers im.bm node)) (hfront : Prefix (pointers im.bm node) p)
    (hp : p ≤ max (pointers_for (pre_block_num node)) (pointers_for used))
    (hok : CanShrink (pre_block_num node) used p) :
    ∃ bm' env' blocks, free_unused im node (pre_block_num node) used =
        .ok ({ im with bm := bm', env := env' }, { node with blocks }) ∧
      (∃ k, env'.heap = fun n => im.env.heap (n + k)) ∧
      (pre_block_num node ≤ 100 → bm'.data 0 = im.bm.data 0) ∧
      Trims (pointers_for used) p im.bm (pointers im.bm node) bm' (pointers bm' { node with blocks }) := by
  obtain ⟨pre, hpre⟩ : ∃ pre, pre = pre_block_num node := ⟨_, rfl⟩
  rw [← hpre] at hp hok ⊢
  have hp229 := prefix_le hfront
  obtain ⟨bm₁, blocks₁, hdirect, hreleases⟩ := free_direct_stops pre used hwf hheld hfront
  obtain ⟨e, he⟩ : ∃ e, e = max used (min (min 100 pre) p) := ⟨_, rfl⟩
  rw [← he] at hdirect hreleases
  have hheld₁ := hreleases.held hheld
  have hnonneg : ¬ (used : Int) < 0 := by omega
  unfold free_unused
  simp only [hnonneg, ↓reduceIte, Int.toNat_natCast, hdirect, Except.ok_bind]
  by_cases hbranch : NDIRECT ≤ e ∧ NDIRECT < pre
  · simp only [hbranch, and_self, ↓reduceIte]
    simp only [NDIRECT_eq] at hbranch ⊢
    have hpre₁ : pre_block_num { node with blocks := blocks₁ } = pre := hpre.symm
    by_cases hkeep : pre - 100 ≤ e - 100
    · -- nothing behind the new size: `used` is at least `pre`
      have hempty : Finset.Ico used e = ∅ := by
        rw [Finset.Ico_eq_empty_iff]
        omega
      rw [hempty] at hreleases
      obtain ⟨bm₂, hrun, hwf₂, hpointers, huse, hdata, hfailed, hfree⟩ :=
        free_indirect_blocks_keep (im.env.heap 0) hreleases.wf hheld₁ (by omega) (by omega : _ ≤ e - 100)
      refine ⟨bm₂, im.env.malloc.2, blocks₁, ?_, ⟨1, rfl⟩, by omega, ?_⟩
      · have hne : e - 100 ≠ 0 := by omega
        simp only [malloc, Env.malloc, hrun, Except.ok_bind, hne, ↓reduceIte]
        rfl
      · have hsame : pointers bm₁ { node with blocks := blocks₁ } = pointers im.bm node := by
          funext j
          exact hreleases.outside j (by simp)
        have hr : p ≤ pointers_for used := by
          have := pointers_for_mono (show pre ≤ used by omega)
          omega
        have hbehind : ∀ j, pointers_for used ≤ j → pointers im.bm node j = 0 := fun j hj =>
          hfront.eq_zero (by omega)
        rw [hpointers, hsame]
        refine .of_nothing hwf hwf₂ hr hbehind ?_ ?_ (hfailed.trans hreleases.failed) ?_
        · intro id
          rw [huse, hreleases.in_use]
          simp
        · intro id hid
          rw [hdata id (by rwa [hsame]), hreleases.frame id (by simp)]
        · rw [hfree, hreleases.free, Finset.card_empty]
          rfl
    · have hwhole : pointers_for pre ≤ p := by
        unfold CanShrink at hok
        omega
      have hpeq : p = pointers_for pre := by
        have := pointers_for_mono (show used ≤ pre by omega)
        omega
      have hpre1 : p = pre + 1 := by
        unfold pointers_for at hpeq
        rwa [if_neg (by omega)] at hpeq
      have hfront₁ : PrefixFrom 100 (pointers bm₁ { node with blocks := blocks₁ }) p := by
        intro j hj
        rw [hreleases.outside j (by simp; omega)]
        exact hfront j
      obtain ⟨bm₂, blocks₂, hrun, hnone, htrims⟩ := free_indirect_blocks_trims (im.env.heap 0)
        (b := e - 100) hreleases.wf hheld₁ hfront₁ (by omega) (by rw [hpeq, hpre₁]) hp229 (by omega)
      have hcleared : (if e - 100 = 0 then ({ node with blocks := blocks₂ } : Inode).set_block 100 0
          else { node with blocks := blocks₂ }) = { node with blocks := blocks₂ } := by
        split
        · next h0 => exact Inode.set_block_eq_self _ (by omega) (hnone h0)
        · rfl
      refine ⟨bm₂, im.env.malloc.2, blocks₂, ?_, ⟨1, rfl⟩, by omega, ?_⟩
      · simp only [malloc, Env.malloc, hrun, Except.ok_bind]
        exact congrArg (fun n => Except.ok (_, n)) hcleared
      · by_cases hused : used < 100
        · have he100 : e = 100 := by omega
          have hr : pointers_for used = used := if_pos (by omega)
          rw [hr]
          rw [he100] at hreleases htrims
          exact hreleases.trans_trims hheld (show used ≤ 100 by omega) (by omega) (by simp) (by simp) htrims
        · have hr : (if e - 100 = 0 then 100 else 101 + (e - 100)) = pointers_for used := by
            unfold pointers_for
            split <;> split <;> omega
          rw [hr] at htrims
          refine hreleases.trans_trims hheld (le_refl _) (.inr rfl) ?_ ?_ htrims
          · intro j
            rw [Finset.mem_Ico]
            omega
          · rw [Finset.mem_Ico]
            omega
  · simp only [hbranch, ↓reduceIte]
    refine ⟨bm₁, im.env, blocks₁, rfl, ⟨0, rfl⟩, fun _ => hreleases.frame 0 hreleases.named, ?_⟩
    simp only [NDIRECT_eq] at hbranch
    have hrange : Finset.Ico used e = Finset.Ico (pointers_for used) p := by
      ext j
      simp only [Finset.mem_Ico]
      unfold pointers_for at hp ⊢
      split at hp <;> split at hp <;> split <;> omega
    rw [hrange] at hreleases
    exact hreleases.trims hwf (hfront.prefixFrom _)

/-- Otherwise the call ends in a fault. -/
theorem free_unused_fault (im : InodeManager) {node : Inode} {p : Nat} (used : Nat) (hwf : im.bm.WF)
    (hheld : Held im.bm (pointers im.bm node)) (hfront : Prefix (pointers im.bm node) p)
    (htable : 100 < used → ∀ i < 128,
      (im.bm.data (node.block 100)).word i = pointers im.bm node (101 + i))
    (hnot : ¬ CanShrink (pre_block_num node) used p) :
    ∃ fault, free_unused im node (pre_block_num node) used = .error fault := by
  obtain ⟨pre, hpre⟩ : ∃ pre, pre = pre_block_num node := ⟨_, rfl⟩
  rw [← hpre] at hnot ⊢
  obtain ⟨bm₁, blocks₁, hdirect, hreleases⟩ := free_direct_stops pre used hwf hheld hfront
  obtain ⟨e, he⟩ : ∃ e, e = max used (min (min 100 pre) p) := ⟨_, rfl⟩
  rw [← he] at hdirect hreleases
  have hheld₁ := hreleases.held hheld
  have hnonneg : ¬ (used : Int) < 0 := by omega
  unfold CanShrink at hnot
  have hpre₁ : pre_block_num { node with blocks := blocks₁ } = pre := hpre.symm
  have hbranch : NDIRECT ≤ e ∧ NDIRECT < pre := by
    simp only [NDIRECT_eq]
    omega
  have hfront₁ : PrefixFrom 100 (pointers bm₁ { node with blocks := blocks₁ }) p := by
    intro j hj
    rw [hreleases.outside j (by simp; omega)]
    exact hfront j
  obtain ⟨fault, hfault⟩ := free_indirect_blocks_fault (im.env.heap 0) (b := e - 100)
    hreleases.wf hheld₁ hfront₁ (by omega) (by rw [hpre₁]; omega) (by omega) (by
      intro hb i hi
      have hempty : Finset.Ico used e = ∅ := by
        rw [Finset.Ico_eq_empty_iff]
        omega
      rw [hempty] at hreleases
      have hout : ∀ j, pointers bm₁ { node with blocks := blocks₁ } j = pointers im.bm node j :=
        fun j => hreleases.outside j (by simp)
      have hindirect : ({ node with blocks := blocks₁ } : Inode).block 100 = node.block 100 := by
        have h100 := hout 100
        rwa [pointers_of_le _ _ (le_refl 100), pointers_of_le _ _ (le_refl 100)] at h100
      rw [hout, hindirect, hreleases.frame _ (by simp)]
      exact htable (by omega) i hi)
  refine ⟨fault, ?_⟩
  unfold free_unused
  simp only [hnonneg, ↓reduceIte, Int.toNat_natCast, hdirect, Except.ok_bind, hbranch, and_self]
  simp only [malloc, Env.malloc, NDIRECT_eq, hfault, Except.error_bind]

end InodeManager

end chfs
