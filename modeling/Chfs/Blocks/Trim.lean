import Chfs.Blocks.Prefix
import Chfs.Blocks.Release

namespace chfs

/-- The pointers `a'` and the block layer `bm'` arise from `a` and `bm` by freeing
    every block from position `r` on, where `a` holds blocks up to position `p`.
    The block at position `NDIRECT` may be rewritten on the way. -/
structure Trims (r p : Nat) (bm : BlockManager) (a : Pointers) (bm' : BlockManager)
    (a' : Pointers) : Prop where
  wf : bm'.WF
  pointers : ∀ j, a' j = if j < r then a j else 0
  in_use : ∀ id, bm'.InUse id ↔ bm.InUse id ∧ ∀ j, r ≤ j → a j ≠ id
  frame : ∀ id, id ≠ a 100 → (∀ j, r ≤ j → a j ≠ 0 → a j ≠ id) → bm'.data id = bm.data id
  zeroed : ∀ j, r ≤ j → a j ≠ 0 → bm'.data (a j) = Mem.zero
  failed : bm'.failed_allocs = bm.failed_allocs
  free : bm'.free_count = bm.free_count + (p - r)

/-- From position `r` on, the positions that hold a block are those before `p`. -/
def PrefixFrom (r : Nat) (a : Pointers) (p : Nat) : Prop := ∀ j, r ≤ j → (a j ≠ 0 ↔ j < p)

theorem Prefix.prefixFrom {a : Pointers} {p : Nat} (h : Prefix a p) (r : Nat) : PrefixFrom r a p :=
  fun j _ => h j

theorem PrefixFrom.eq_zero {r p j : Nat} {a : Pointers} (h : PrefixFrom r a p) (hr : r ≤ j)
    (hj : p ≤ j) : a j = 0 := by
  by_contra hne
  have := (h j hr).mp hne
  omega

/-- Releasing the blocks behind `r` trims the pointers. -/
theorem Releases.trims {r p : Nat} {bm bm' : BlockManager} {a a' : Pointers} (hwf : bm.WF)
    (hfront : PrefixFrom r a p) (h : Releases (Finset.Ico r p) bm a bm' a') :
    Trims r p bm a bm' a' := by
  have hbehind : ∀ id, id ≠ 0 → ((∀ j ∈ Finset.Ico r p, a j ≠ id) ↔ ∀ j, r ≤ j → a j ≠ id) := by
    intro id hne
    refine ⟨?_, fun hall j hj => hall j (Finset.mem_Ico.mp hj).1⟩
    intro hall j hj heq
    have hin := (hfront j hj).mp (heq ▸ hne)
    exact hall j (Finset.mem_Ico.mpr ⟨hj, hin⟩) heq
  refine ⟨h.wf, ?_, ?_, ?_, ?_, h.failed, ?_⟩
  · intro j
    by_cases hj : j < r
    · rw [if_pos hj, h.outside j (by simp; omega)]
    · rw [if_neg hj]
      by_cases hp : j < p
      · exact h.cleared j (Finset.mem_Ico.mpr ⟨by omega, hp⟩)
      · rw [h.outside j (by simp; omega)]
        exact hfront.eq_zero (by omega) (by omega)
  · intro id
    rw [h.in_use]
    constructor
    · rintro ⟨huse, hall⟩
      exact ⟨huse, (hbehind id (hwf.ne_zero huse)).mp hall⟩
    · rintro ⟨huse, hall⟩
      exact ⟨huse, (hbehind id (hwf.ne_zero huse)).mpr hall⟩
  · intro id _ hall
    exact h.frame id fun j hj => hall j (Finset.mem_Ico.mp hj).1 (h.named j hj)
  · intro j hj hne
    exact h.zeroed j (Finset.mem_Ico.mpr ⟨hj, (hfront j hj).mp hne⟩)
  · rw [h.free, Nat.card_Ico]

/-- Releasing the blocks between `lo` and `r` before trimming at `r` trims at `lo`. -/
theorem Releases.trans_trims {S : Finset Nat} {lo r p : Nat} {bm bm' bm'' : BlockManager}
    {a a' a'' : Pointers} (hheld : Held bm a) (hlo : lo ≤ r) (hr : r ≤ p ∨ lo = r)
    (hS : ∀ j, j ∈ S ↔ lo ≤ j ∧ j < r) (h100 : 100 ∉ S) (h : Releases S bm a bm' a')
    (h' : Trims r p bm' a' bm'' a'') : Trims lo p bm a bm'' a'' := by
  have hbehind : ∀ j, r ≤ j → a' j = a j := fun j hj => h.outside j (by rw [hS]; omega)
  have hcard : S.card = r - lo := by
    rw [show S = Finset.Ico lo r by ext j; rw [hS, Finset.mem_Ico], Nat.card_Ico]
  refine ⟨h'.wf, ?_, ?_, ?_, ?_, h'.failed.trans h.failed, ?_⟩
  · intro j
    rw [h'.pointers]
    by_cases hjlo : j < lo
    · rw [if_pos (by omega), if_pos hjlo, h.outside j (by rw [hS]; omega)]
    · rw [if_neg hjlo]
      split
      · next hjr => exact h.cleared j ((hS j).mpr ⟨by omega, hjr⟩)
      · rfl
  · intro id
    rw [h'.in_use, h.in_use]
    constructor
    · rintro ⟨⟨huse, hfirst⟩, hsecond⟩
      refine ⟨huse, ?_⟩
      intro j hj
      by_cases hjr : j < r
      · exact hfirst j ((hS j).mpr ⟨hj, hjr⟩)
      · rw [← hbehind j (by omega)]
        exact hsecond j (by omega)
    · rintro ⟨huse, hall⟩
      refine ⟨⟨huse, fun j hj => hall j ((hS j).mp hj).1⟩, ?_⟩
      intro j hj
      rw [hbehind j hj]
      exact hall j (by omega)
  · intro id h100' hall
    rw [h'.frame id, h.frame id]
    · exact fun j hj => hall j ((hS j).mp hj).1 (h.named j hj)
    · rwa [h.outside 100 h100]
    · intro j hj
      rw [hbehind j hj]
      exact hall j (by omega)
  · intro j hj hne
    by_cases hjr : j < r
    · have hin := (hS j).mpr ⟨hj, hjr⟩
      have h100j : j ≠ 100 := fun heq => h100 (heq ▸ hin)
      rw [h'.frame (a j)]
      · exact h.zeroed j hin
      · rw [h.outside 100 h100]
        exact fun heq => h100j (hheld.injective j 100 hne heq)
      · intro k hk _ heq
        rw [hbehind k hk] at heq
        have := hheld.injective j k hne heq.symm
        omega
    · rw [← hbehind j (by omega)]
      exact h'.zeroed j (by omega) (by rwa [hbehind j (by omega)])
  · rw [h'.free, h.free, hcard]
    omega

namespace Trims

variable {r p j : Nat} {bm bm' : BlockManager} {a a' : Pointers}

theorem lt_of_ne_zero (h : Trims r p bm a bm' a') (hj : a' j ≠ 0) : j < r := by
  by_contra hnot
  rw [h.pointers, if_neg hnot] at hj
  exact hj rfl

theorem kept (h : Trims r p bm a bm' a') (hj : a' j ≠ 0) : a' j = a j := by
  rw [h.pointers, if_pos (h.lt_of_ne_zero hj)]

/-- Trimming keeps the pointers valid and distinct. -/
theorem held (hheld : Held bm a) (h : Trims r p bm a bm' a') : Held bm' a' where
  in_use := by
    intro j hj
    have hlt := h.lt_of_ne_zero hj
    have hold := h.kept hj
    rw [hold] at hj ⊢
    rw [h.in_use]
    refine ⟨hheld.in_use j hj, ?_⟩
    intro k hk heq
    have := hheld.injective j k hj heq.symm
    omega
  injective := by
    intro j k hj heq
    have hk : a' k ≠ 0 := heq ▸ hj
    have hold := h.kept hj
    rw [hold] at hj
    rw [hold, h.kept hk] at heq
    exact hheld.injective j k hj heq

/-- Where nothing lies behind `r` there is nothing to free. -/
theorem of_nothing (hwf : bm.WF) (hwf' : bm'.WF) (hp : p ≤ r) (hbehind : ∀ j, r ≤ j → a j = 0)
    (huse : ∀ id, bm'.InUse id ↔ bm.InUse id) (hframe : ∀ id, id ≠ a 100 → bm'.data id = bm.data id)
    (hfailed : bm'.failed_allocs = bm.failed_allocs) (hfree : bm'.free_count = bm.free_count) :
    Trims r p bm a bm' a where
  wf := hwf'
  pointers := by
    intro j
    split
    · rfl
    · exact hbehind j (by omega)
  in_use := by
    intro id
    rw [huse]
    constructor
    · intro h
      refine ⟨h, ?_⟩
      intro j hj
      rw [hbehind j hj]
      exact (hwf.ne_zero h).symm
    · exact fun h => h.1
  frame := fun id hid _ => hframe id hid
  zeroed := fun j hj hne => absurd (hbehind j hj) hne
  failed := hfailed
  free := by omega

/-- After filling and trimming the blocks in use are the others and those the pointers name. -/
theorem in_use_filled {chunk : Nat → Mem} {t : Nat} {bm₁ : BlockManager} {a₁ : Pointers} (hheld : Held bm a)
    (hfills : Fills chunk 0 t bm a bm₁ a₁) (h : Trims r p bm₁ a₁ bm' a') (ht : t ≤ r) (id : blockid_t) :
    bm'.InUse id ↔ (bm.InUse id ∧ ∀ j, a j ≠ id) ∨ ∃ j, a' j = id ∧ id ≠ 0 := by
  constructor
  · intro huse
    have hid := h.wf.ne_zero huse
    obtain ⟨huse₁, hnot⟩ := (h.in_use id).mp huse
    by_cases hnamed : ∃ j, a₁ j = id
    · obtain ⟨j, hj⟩ := hnamed
      have hjr : j < r := by
        by_contra hjr
        exact hnot j (by omega) hj
      exact .inr ⟨j, by rw [h.pointers, if_pos hjr, hj], hid⟩
    · have hnone : ∀ j, a₁ j ≠ id := fun j hj => hnamed ⟨j, hj⟩
      rcases (hfills.in_use id).mp huse₁ with hold | ⟨j, _, hj, _⟩
      · refine .inl ⟨hold, ?_⟩
        rintro j rfl
        exact hnone j (hfills.kept j hid)
      · exact absurd hj (hnone j)
  · rintro (⟨hold, hnone⟩ | ⟨j, rfl, hj⟩)
    · rw [h.in_use]
      refine ⟨hfills.mono hold, ?_⟩
      intro j hj
      rw [hfills.outside j (by omega)]
      exact hnone j
    · exact (h.held (hfills.held hheld)).in_use j hj

end Trims

end chfs
