import Chfs.Blocks.Alloc

namespace chfs

/-- Pointers to blocks by position. Position `NDIRECT` holds the indirect
    block, the positions before it the direct blocks and those behind it the
    entries of the indirect block. -/
abbrev Pointers := Nat → blockid_t

/-- How many of the positions in `[lo, hi)` hold no block. -/
def Pointers.missing (a : Pointers) (lo hi : Nat) : Nat :=
  ((Finset.Ico lo hi).filter (fun j => a j = 0)).card

namespace Pointers

theorem missing_split (a : Pointers) {lo mid hi : Nat} (hlo : lo ≤ mid) (hhi : mid ≤ hi) :
    a.missing lo hi = a.missing lo mid + a.missing mid hi := by
  rw [missing, ← Finset.Ico_union_Ico_eq_Ico hlo hhi, Finset.filter_union,
    Finset.card_union_of_disjoint]
  · rfl
  · exact Finset.disjoint_filter_filter (Finset.Ico_disjoint_Ico_consecutive lo mid hi)

theorem missing_congr {a b : Pointers} {lo hi : Nat} (h : ∀ j, lo ≤ j → j < hi → a j = b j) :
    a.missing lo hi = b.missing lo hi := by
  unfold missing
  congr 1
  apply Finset.filter_congr
  intro j hj
  rw [Finset.mem_Ico] at hj
  rw [h j hj.1 hj.2]

theorem missing_one (a : Pointers) (i : Nat) : a.missing i (i + 1) = if a i = 0 then 1 else 0 := by
  unfold missing
  rw [Nat.Ico_succ_singleton, Finset.filter_singleton]
  split <;> rfl

@[simp] theorem missing_empty (a : Pointers) (i : Nat) : a.missing i i = 0 := by
  simp [missing]

theorem missing_eq_zero {a : Pointers} {lo hi : Nat} :
    a.missing lo hi = 0 ↔ ∀ j, lo ≤ j → j < hi → a j ≠ 0 := by
  simp [missing, Finset.filter_eq_empty_iff]

end Pointers

/-- Every pointer names a block in use, and no two positions name the same. -/
structure Held (bm : BlockManager) (a : Pointers) : Prop where
  in_use : ∀ j, a j ≠ 0 → bm.InUse (a j)
  injective : ∀ j k, a j ≠ 0 → a j = a k → j = k

theorem Held.of_same {bm bm' : BlockManager} {a : Pointers} (hheld : Held bm a)
    (hsame : BlockManager.Same bm bm') : Held bm' a :=
  ⟨fun j hj => (hsame.in_use _).mpr (hheld.in_use j hj), hheld.injective⟩

/-- The pointers `a'` and the block layer `bm'` arise from `a` and `bm` by going
    through the positions `[lo, hi)` in order, allocating a block where there is
    none and writing `chunk j` to the block at each position `j` but `NDIRECT`. -/
structure Fills (chunk : Nat → Mem) (lo hi : Nat) (bm : BlockManager) (a : Pointers)
    (bm' : BlockManager) (a' : Pointers) : Prop where
  wf : bm'.WF
  kept : ∀ j, a j ≠ 0 → a' j = a j
  outside : ∀ j, ¬(lo ≤ j ∧ j < hi) → a' j = a j
  fresh : ∀ j, a j = 0 → a' j ≠ 0 → ¬ bm.InUse (a' j)
  in_use : ∀ id, bm'.InUse id ↔ bm.InUse id ∨ ∃ j, a j = 0 ∧ a' j = id ∧ id ≠ 0
  distinct : ∀ j k, a j = 0 → a k = 0 → a' j ≠ 0 → a' j = a' k → j = k
  exhausted : ∀ j, lo ≤ j → j < hi → a' j = 0 → bm'.free_count = 0
  in_order : ∀ j k, lo ≤ j → j ≤ k → k < hi → a' j = 0 → a k = 0 → a' k = 0
  missing : a'.missing lo hi = a.missing lo hi - bm.free_count
  free : bm'.free_count = bm.free_count - a.missing lo hi
  failed : bm'.failed_allocs = bm.failed_allocs + a'.missing lo hi
  frame : ∀ id, (∀ j, lo ≤ j → j < hi → a' j ≠ id) → bm'.data id = bm.data id
  written : ∀ j, lo ≤ j → j < hi → j ≠ 100 → a' j ≠ 0 → ∀ p < 512, bm'.data (a' j) p = chunk j p

namespace Fills

variable {chunk : Nat → Mem} {lo mid hi : Nat} {bm bm' bm'' : BlockManager} {a a' a'' : Pointers}

theorem refl (chunk : Nat → Mem) (i : Nat) (hwf : bm.WF) : Fills chunk i i bm a bm a where
  wf := hwf
  kept := by simp
  outside := by simp
  fresh := by
    intro j h hne
    exact absurd h hne
  in_use := by
    intro id
    constructor
    · exact .inl
    · rintro (h | ⟨j, hzero, rfl, hne⟩)
      · exact h
      · exact absurd hzero hne
  distinct := by
    intro j k h _ hne
    exact absurd h hne
  exhausted := by
    intro j _ _
    omega
  in_order := by
    intro j k _ _ _
    omega
  missing := by simp
  free := by simp
  failed := by simp
  frame := by simp
  written := by
    intro j _ _
    omega

/-- One position at which the pointer stays. -/
theorem stay (i : Nat) (hwf : bm'.WF) (huse : ∀ id, bm'.InUse id ↔ bm.InUse id)
    (hcount : bm'.free_count = bm.free_count) (hnone : a i = 0 → bm'.free_count = 0)
    (hfailed : bm'.failed_allocs = bm.failed_allocs + a.missing i (i + 1))
    (hframe : ∀ id, a i ≠ id → bm'.data id = bm.data id)
    (hwritten : i ≠ 100 → a i ≠ 0 → ∀ p < 512, bm'.data (a i) p = chunk i p) :
    Fills chunk i (i + 1) bm a bm' a where
  wf := hwf
  kept := fun _ _ => rfl
  outside := fun _ _ => rfl
  fresh := by
    intro j hzero hne
    exact absurd hzero hne
  in_use := by
    intro id
    rw [huse]
    constructor
    · exact .inl
    · rintro (h | ⟨j, hzero, rfl, hne⟩)
      · exact h
      · exact absurd hzero hne
  distinct := by
    intro j k hzero _ hne
    exact absurd hzero hne
  exhausted := by
    intro j hlo hhi hzero
    obtain rfl : j = i := by omega
    exact hnone hzero
  in_order := fun j k _ _ _ _ hzero => hzero
  missing := by
    have hone := a.missing_one i
    by_cases hzero : a i = 0
    · have := hnone hzero
      omega
    · rw [if_neg hzero] at hone
      omega
  free := by
    have hone := a.missing_one i
    by_cases hzero : a i = 0
    · have := hnone hzero
      omega
    · rw [if_neg hzero] at hone
      omega
  failed := hfailed
  frame := fun id hnot => hframe id (hnot i (le_refl i) (by omega))
  written := by
    intro j hlo hhi
    obtain rfl : j = i := by omega
    exact hwritten

/-- One position at which a free block is taken. -/
theorem take (i : Nat) {id : blockid_t} (hzero : a i = 0) (hne : id ≠ 0) (hfresh : ¬ bm.InUse id) (hwf : bm'.WF)
    (huse : ∀ other, bm'.InUse other ↔ other = id ∨ bm.InUse other) (hfree : 0 < bm.free_count)
    (hcount : bm'.free_count = bm.free_count - 1) (hfailed : bm'.failed_allocs = bm.failed_allocs)
    (hframe : ∀ other, id ≠ other → bm'.data other = bm.data other)
    (hwritten : i ≠ 100 → ∀ p < 512, bm'.data id p = chunk i p) :
    Fills chunk i (i + 1) bm a bm' (Function.update a i id) := by
  have hself : Function.update a i id i = id := Function.update_self i id a
  have hother : ∀ j, j ≠ i → Function.update a i id j = a j := fun j hj => Function.update_of_ne hj id a
  have hat : ∀ j, a j = 0 → Function.update a i id j ≠ 0 → j = i := by
    intro j hj hj'
    by_contra hji
    rw [hother j hji] at hj'
    exact hj' hj
  have hbefore := a.missing_one i
  have hafter := Pointers.missing_one (Function.update a i id) i
  rw [if_pos hzero] at hbefore
  rw [hself, if_neg hne] at hafter
  refine ⟨hwf, ?_, ?_, ?_, ?_, ?_, ?_, ?_, by omega, by omega, by omega, ?_, ?_⟩
  · intro j hj
    apply hother
    rintro rfl
    exact hj hzero
  · intro j hj
    exact hother j (by omega)
  · intro j hj hj'
    rw [hat j hj hj', hself]
    exact hfresh
  · intro other
    rw [huse]
    constructor
    · rintro (rfl | h)
      · exact .inr ⟨i, hzero, hself, hne⟩
      · exact .inl h
    · rintro (h | ⟨j, hj, rfl, hj'⟩)
      · exact .inr h
      · rw [hat j hj hj', hself]
        exact .inl rfl
  · intro j k hj hk hj' heq
    rw [hat j hj hj', hat k hk (heq ▸ hj')]
  · intro j hlo hhi hj
    obtain rfl : j = i := by omega
    exact absurd (hself.symm.trans hj) hne
  · intro j k hlo hjk hhi hj _
    obtain rfl : j = i := by omega
    exact absurd (hself.symm.trans hj) hne
  · intro other hnot
    exact hframe other (hself ▸ hnot i (le_refl i) (by omega))
  · intro j hlo hhi hj _ p hp
    obtain rfl : j = i := by omega
    rw [hself]
    exact hwritten hj p hp

/-- Filling keeps the pointers valid and distinct. -/
theorem held (hheld : Held bm a) (h : Fills chunk lo hi bm a bm' a') : Held bm' a' where
  in_use := by
    intro j hj
    rw [h.in_use]
    by_cases hzero : a j = 0
    · exact .inr ⟨j, hzero, rfl, hj⟩
    · rw [h.kept j hzero]
      exact .inl (hheld.in_use j hzero)
  injective := by
    intro j k hj heq
    by_cases hzero : a j = 0
    · by_cases hk : a k = 0
      · exact h.distinct j k hzero hk hj heq
      · have huse := hheld.in_use k hk
        rw [← h.kept k hk, ← heq] at huse
        exact absurd huse (h.fresh j hzero hj)
    · have hold := h.kept j hzero
      by_cases hk : a k = 0
      · have hk' : a' k ≠ 0 := heq ▸ hj
        have huse := hheld.in_use j hzero
        rw [← hold, heq] at huse
        exact absurd huse (h.fresh k hk hk')
      · rw [hold, h.kept k hk] at heq
        exact hheld.injective j k hzero heq

/-- The blocks in use stay in use. -/
theorem mono (h : Fills chunk lo hi bm a bm' a') {id : blockid_t} (huse : bm.InUse id) :
    bm'.InUse id := (h.in_use id).mpr (.inl huse)

theorem trans (hheld : Held bm a) (hlo : lo ≤ mid) (hhi : mid ≤ hi)
    (h : Fills chunk lo mid bm a bm' a') (h' : Fills chunk mid hi bm' a' bm'' a'') :
    Fills chunk lo hi bm a bm'' a'' := by
  have hheld' := h.held hheld
  have hheld'' := h'.held hheld'
  have hsecond : ∀ j, mid ≤ j → a' j = a j := fun j hj => h.outside j (by omega)
  have hfirst : ∀ j, j < mid → a'' j = a' j := fun j hj => h'.outside j (by omega)
  have hold : a'.missing mid hi = a.missing mid hi :=
    Pointers.missing_congr fun j hj _ => hsecond j hj
  have hnew : a''.missing lo mid = a'.missing lo mid :=
    Pointers.missing_congr fun j _ hj => hfirst j hj
  have hsplit := a.missing_split hlo hhi
  have hsplit'' := a''.missing_split hlo hhi
  have hmissing := h.missing
  have hmissing' := h'.missing
  have hfree := h.free
  have hfree' := h'.free
  refine ⟨h'.wf, ?_, ?_, ?_, ?_, ?_, ?_, ?_, by omega, by omega, ?_, ?_, ?_⟩
  · intro j hj
    have hkept := h.kept j hj
    rw [h'.kept j (by rwa [hkept]), hkept]
  · intro j hj
    rw [h'.outside j (by omega), h.outside j (by omega)]
  · intro j hzero hj huse
    by_cases hj' : a' j = 0
    · exact h'.fresh j hj' hj (h.mono huse)
    · rw [h'.kept j hj'] at huse
      exact h.fresh j hzero hj' huse
  · intro id
    rw [h'.in_use, h.in_use]
    constructor
    · rintro ((huse | ⟨j, hzero, rfl, hne⟩) | ⟨j, hzero, rfl, hne⟩)
      · exact .inl huse
      · exact .inr ⟨j, hzero, h'.kept j hne, hne⟩
      · refine .inr ⟨j, ?_, rfl, hne⟩
        by_contra hne'
        rw [h.kept j hne'] at hzero
        exact hne' hzero
    · rintro (huse | ⟨j, hzero, rfl, hne⟩)
      · exact .inl (.inl huse)
      · by_cases hj' : a' j = 0
        · exact .inr ⟨j, hj', rfl, hne⟩
        · exact .inl (.inr ⟨j, hzero, (h'.kept j hj').symm, hne⟩)
  · intro j k _ _ hj heq
    exact hheld''.injective j k hj heq
  · intro j hjlo hjhi hzero
    by_cases hj : j < mid
    · have hnone := h.exhausted j hjlo hj (by rwa [← hfirst j hj])
      omega
    · exact h'.exhausted j (by omega) hjhi hzero
  · intro j k hjlo hjk hkhi hj hk
    by_cases hkmid : k < mid
    · rw [hfirst k hkmid]
      exact h.in_order j k hjlo hjk hkmid (by rwa [← hfirst j (by omega)]) hk
    · by_cases hjmid : j < mid
      · -- the first part ran out of blocks, so the second allocates none
        have hnone := h.exhausted j hjlo hjmid (by rwa [← hfirst j hjmid])
        by_contra hne
        have hk' : a' k = 0 := by rw [hsecond k (by omega), hk]
        have huse : bm''.InUse (a'' k) := hheld''.in_use k hne
        have hfresh := h'.fresh k hk' hne
        have hdata := h'.wf.data_block _ huse
        have hmem := BlockManager.toNat_mem_free_blocks.mpr ⟨hdata, hfresh⟩
        rw [Finset.card_eq_zero.mp hnone] at hmem
        simp at hmem
      · exact h'.in_order j k (by omega) hjk hkhi hj (by rw [hsecond k (by omega), hk])
  · rw [h'.failed, h.failed]
    omega
  · intro id hnot
    rw [h'.frame id, h.frame id]
    · intro j hjlo hjhi
      rw [← hfirst j hjhi]
      exact hnot j hjlo (by omega)
    · intro j hjlo hjhi
      exact hnot j (by omega) hjhi
  · intro j hjlo hjhi hj hne p hp
    by_cases hjmid : j < mid
    · have heq := hfirst j hjmid
      rw [heq] at hne
      rw [heq, h'.frame (a' j)]
      · exact h.written j hjlo hjmid hj hne p hp
      · intro k hklo hkhi hk
        rw [← heq] at hk hne
        have := hheld''.injective j k hne hk.symm
        omega
    · exact h'.written j (by omega) hjhi hj hne p hp

/-- The chunks matter only at the positions the loop goes through. -/
theorem congr_chunk {chunk' : Nat → Mem} (h : Fills chunk lo hi bm a bm' a')
    (heq : ∀ j, lo ≤ j → j < hi → j ≠ 100 → chunk j = chunk' j) : Fills chunk' lo hi bm a bm' a' :=
  { h with
    written := by
      intro j hjlo hjhi hj hne p hp
      rw [← heq j hjlo hjhi hj]
      exact h.written j hjlo hjhi hj hne p hp }

/-- Writing to the indirect block afterwards does not disturb the data blocks. -/
theorem write_indirect_block (hheld : Held bm a) (hlo : lo ≤ 100) (hhi : 100 < hi)
    (h : Fills chunk lo hi bm a bm' a') (table : Mem) :
    Fills chunk lo hi bm a (bm'.write_block (a' 100) table) a' :=
  { h with
    wf := h.wf.write_block _ _
    frame := by
      intro id hnot
      rw [BlockManager.data_write_block_ne _ (hnot 100 hlo hhi).symm]
      exact h.frame id hnot
    written := by
      intro j hjlo hjhi hj hne p hp
      have hother : a' j ≠ a' 100 := fun heq => hj ((h.held hheld).injective j 100 hne heq)
      rw [BlockManager.data_write_block_ne _ hother]
      exact h.written j hjlo hjhi hj hne p hp }

end Fills

end chfs
