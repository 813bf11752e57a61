import Chfs.Blocks.Fill

namespace chfs

/-- The pointers `a'` and the block layer `bm'` arise from `a` and `bm` by freeing
    the blocks at the positions in `S` and clearing their pointers. -/
structure Releases (S : Finset Nat) (bm : BlockManager) (a : Pointers) (bm' : BlockManager)
    (a' : Pointers) : Prop where
  wf : bm'.WF
  named : ∀ j ∈ S, a j ≠ 0
  cleared : ∀ j ∈ S, a' j = 0
  outside : ∀ j ∉ S, a' j = a j
  in_use : ∀ id, bm'.InUse id ↔ bm.InUse id ∧ ∀ j ∈ S, a j ≠ id
  frame : ∀ id, (∀ j ∈ S, a j ≠ id) → bm'.data id = bm.data id
  zeroed : ∀ j ∈ S, bm'.data (a j) = Mem.zero
  failed : bm'.failed_allocs = bm.failed_allocs
  free : bm'.free_count = bm.free_count + S.card

namespace Releases

variable {S T : Finset Nat} {bm bm' bm'' : BlockManager} {a a' a'' : Pointers}

theorem refl (hwf : bm.WF) (a : Pointers) : Releases ∅ bm a bm a where
  wf := hwf
  named := by simp
  cleared := by simp
  outside := by simp
  in_use := by simp
  frame := by simp
  zeroed := by simp
  failed := rfl
  free := by simp

/-- A query before the release makes no difference. -/
theorem of_same (hsame : BlockManager.Same bm bm') (h : Releases S bm' a bm'' a') :
    Releases S bm a bm'' a' where
  wf := h.wf
  named := h.named
  cleared := h.cleared
  outside := h.outside
  in_use := by
    intro id
    rw [h.in_use, hsame.in_use]
  frame := by
    intro id hnot
    rw [h.frame id hnot, hsame.data]
  zeroed := h.zeroed
  failed := h.failed.trans hsame.failed
  free := by rw [h.free, hsame.free_count]

/-- What is left is still valid and distinct. -/
theorem held (hheld : Held bm a) (h : Releases S bm a bm' a') : Held bm' a' where
  in_use := by
    intro j hj
    have hout : j ∉ S := fun hin => hj (h.cleared j hin)
    rw [h.outside j hout] at hj ⊢
    rw [h.in_use]
    refine ⟨hheld.in_use j hj, ?_⟩
    intro k hk heq
    exact hout (hheld.injective k j (h.named k hk) heq ▸ hk)
  injective := by
    intro j k hj heq
    have hjout : j ∉ S := fun hin => hj (h.cleared j hin)
    have hkout : k ∉ S := fun hin => hj (heq.trans (h.cleared k hin))
    rw [h.outside j hjout] at hj heq
    rw [h.outside k hkout] at heq
    exact hheld.injective j k hj heq

theorem trans (hheld : Held bm a) (hdisjoint : Disjoint S T) (h : Releases S bm a bm' a')
    (h' : Releases T bm' a' bm'' a'') : Releases (S ∪ T) bm a bm'' a'' := by
  have hT : ∀ j ∈ T, a' j = a j := fun j hj => h.outside j fun hin =>
    Finset.disjoint_left.mp hdisjoint hin hj
  have hnamed : ∀ j ∈ T, a j ≠ 0 := fun j hj => by rw [← hT j hj]; exact h'.named j hj
  refine ⟨h'.wf, ?_, ?_, ?_, ?_, ?_, ?_, h'.failed.trans h.failed, ?_⟩
  · intro j hj
    rcases Finset.mem_union.mp hj with hin | hin
    · exact h.named j hin
    · exact hnamed j hin
  · intro j hj
    by_cases hin : j ∈ T
    · exact h'.cleared j hin
    · rw [h'.outside j hin]
      exact h.cleared j ((Finset.mem_union.mp hj).resolve_right hin)
  · intro j hj
    rw [Finset.notMem_union] at hj
    rw [h'.outside j hj.2, h.outside j hj.1]
  · intro id
    rw [h'.in_use, h.in_use]
    constructor
    · rintro ⟨⟨huse, hS⟩, hT'⟩
      refine ⟨huse, ?_⟩
      intro j hj
      rcases Finset.mem_union.mp hj with hin | hin
      · exact hS j hin
      · rw [← hT j hin]
        exact hT' j hin
    · rintro ⟨huse, hall⟩
      refine ⟨⟨huse, fun j hj => hall j (Finset.mem_union_left T hj)⟩, ?_⟩
      intro j hj
      rw [hT j hj]
      exact hall j (Finset.mem_union_right S hj)
  · intro id hall
    rw [h'.frame id, h.frame id]
    · exact fun j hj => hall j (Finset.mem_union_left T hj)
    · intro j hj
      rw [hT j hj]
      exact hall j (Finset.mem_union_right S hj)
  · intro j hj
    by_cases hin : j ∈ T
    · rw [← hT j hin]
      exact h'.zeroed j hin
    · have hinS := (Finset.mem_union.mp hj).resolve_right hin
      rw [h'.frame (a j)]
      · exact h.zeroed j hinS
      · intro k hk heq
        rw [hT k hk] at heq
        exact hin (hheld.injective k j (hnamed k hk) heq ▸ hk)
  · rw [h'.free, h.free, Finset.card_union_of_disjoint hdisjoint]
    omega

/-- Freeing one block that a pointer names. -/
theorem one (hwf : bm.WF) (hheld : Held bm a) {i : Nat} (hi : a i ≠ 0) :
    ∃ bm', bm.free_block (a i) = .ok bm' ∧ Releases {i} bm a bm' (Function.update a i 0) := by
  have huse := hheld.in_use i hi
  have hdata := hwf.data_block _ huse
  refine ⟨_, BlockManager.free_block_of_inUse hwf huse, ?_⟩
  have hwf' := hwf.write_block (a i) Mem.zero
  have huse' : (bm.write_block (a i) Mem.zero).InUse (a i) := huse
  refine ⟨hwf'.set_using_zero _, ?_, ?_, ?_, ?_, ?_, ?_, rfl, ?_⟩
  · simpa using hi
  · simp
  · intro j hj
    rw [Finset.mem_singleton] at hj
    exact Function.update_of_ne hj 0 a
  · intro id
    rw [BlockManager.inUse_set_using]
    by_cases heq : id = a i
    · simp [heq]
    · have hne : a i ≠ id := fun h => heq h.symm
      simp [heq, hne]
  · intro id hne
    have hne : id ≠ a i := fun h => hne i (Finset.mem_singleton_self i) h.symm
    rw [BlockManager.data_set_using, BlockManager.data_write_block_ne _ hne]
  · intro j hj
    rw [Finset.mem_singleton] at hj
    subst hj
    funext p
    rw [BlockManager.data_set_using]
    by_cases hp : p < 512
    · exact BlockManager.data_write_block_same _ hdata.2 _ hp
    · exact Disk.data_of_size_le _ _ (by omega)
  · rw [BlockManager.free_count_set_using_zero hwf' huse', BlockManager.free_count_write_block,
      Finset.card_singleton]

end Releases

end chfs
