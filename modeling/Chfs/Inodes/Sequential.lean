import Chfs.Inodes.Alloc

namespace chfs.InodeManager

/-- The inodes 1 to `n` are live and no others, as after creating them one after another. -/
structure Sequential (im : InodeManager) (n : Nat) : Prop where
  live : ∀ inum : UInt32, im.get_inode inum = none ↔ ¬(1 ≤ inum.toNat ∧ inum.toNat ≤ n)
  last : im.last_alloced.toNat = n ∨ (n = 1 ∧ im.last_alloced.toNat = 0)
  bounds : 1 ≤ n ∧ n ≤ 1024

theorem Sequential.last_le {im : InodeManager} {n : Nat} (h : Sequential im n) : im.last_alloced.toNat ≤ 1024 := by
  have hbounds := h.bounds
  have hlast := h.last
  omega

/-- The search finds the next inum. -/
theorem Sequential.firstFree {im : InodeManager} {n : Nat} (h : Sequential im n) (hn : n < 1024) :
    ∃ inum, inum.toNat = n + 1 ∧ FirstFree im inum := by
  have hlast := h.last_le
  have hbounds := h.bounds
  -- the round that comes past `n + 1`, after rounds that come past live inodes only
  obtain ⟨i, hlo, hhi, hat, hbefore⟩ : ∃ i, 1 ≤ i ∧ i ≤ 1024 ∧ (to_alloc im.last_alloced i).toNat = n + 1 ∧
      ∀ j, 1 ≤ j → j < i → 1 ≤ (to_alloc im.last_alloced j).toNat ∧ (to_alloc im.last_alloced j).toNat ≤ n := by
    rcases h.last with hlast' | ⟨rfl, hlast'⟩
    · by_cases hend : n = 1023
      · refine ⟨1024, by omega, le_refl _, ?_, ?_⟩
        · rw [to_alloc_toNat hlast (le_refl _), hlast', if_pos (by omega)]
          omega
        · intro j hj hj'
          rw [to_alloc_toNat hlast (by omega), hlast', if_pos (by omega)]
          omega
      · refine ⟨1, le_refl 1, by omega, ?_, by omega⟩
        rw [to_alloc_toNat hlast (by omega), hlast', if_neg (by omega)]
        omega
    · refine ⟨2, by omega, by omega, ?_, ?_⟩
      · rw [to_alloc_toNat hlast (by omega), hlast', if_neg (by omega)]
      · intro j hj hj'
        rw [to_alloc_toNat hlast (by omega), hlast', if_neg (by omega)]
        omega
  have hdead : im.get_inode (to_alloc im.last_alloced i) = none := by
    rw [h.live, hat]
    omega
  refine ⟨_, hat, hdead, i, hlo, hhi, rfl, ?_⟩
  intro j hj hji hnone
  exact (h.live _).mp hnone (hbefore j hj hji)

/-- The next inode created gets the next inum. -/
theorem Sequential.next {im : InodeManager} {n : Nat} (h : Sequential im n) (hn : n < 1024) (type : UInt32) :
    ∃ inum im', im.alloc_inode type = (inum, im') ∧ inum.toNat = n + 1 ∧ Created im type inum im' := by
  obtain ⟨inum, hat, hfirst⟩ := h.firstFree hn
  obtain ⟨im', hrun, hcreated⟩ := hfirst.alloc_inode h.last_le type
  exact ⟨inum, im', hrun, hat, hcreated⟩

/-- And none is left behind the last. -/
theorem Sequential.full {im : InodeManager} (h : Sequential im 1024) (type : UInt32) :
    ∃ env, im.alloc_inode type = (0, { im with env, failed_allocs := im.failed_allocs + 1 }) := by
  apply alloc_inode_none
  rintro inum ⟨i, hlo, hhi, rfl⟩ hnone
  exact (h.live _).mp hnone (to_alloc_bounds h.last_le hlo hhi)

/-- A step that creates an inode of a nonzero type extends the sequence. -/
theorem Sequential.created {im im' : InodeManager} {n : Nat} {type inum : UInt32} (h : Sequential im n)
    (hcreated : Created im type inum im') (hinum : inum.toNat = n + 1) (htype : type.toUInt16.toInt16 ≠ 0) :
    Sequential im' (n + 1) where
  live := by
    intro other
    by_cases heq : other = inum
    · subst heq
      obtain ⟨node, hnode, hnode_type, _⟩ := hcreated.stored
      rw [hnode, if_neg (by rwa [hnode_type])]
      simp
      omega
    · have hval : other.toNat ≠ n + 1 := fun hval => heq (UInt32.toNat_inj.mp (hval.trans hinum.symm))
      rw [hcreated.others other heq, h.live]
      omega
  last := by
    left
    rw [hcreated.last_alloced, hinum]
  bounds := by
    have := hcreated.bounds
    omega

/-- Steps that create and remove no inode keep it. -/
theorem Sequential.keep {im im' : InodeManager} {n : Nat} (h : Sequential im n)
    (hdead : ∀ inum, im'.get_inode inum = none ↔ im.get_inode inum = none)
    (hlast : im'.last_alloced = im.last_alloced) : Sequential im' n where
  live := fun inum => (hdead inum).trans (h.live inum)
  last := by
    rw [hlast]
    exact h.last
  bounds := h.bounds

end chfs.InodeManager
