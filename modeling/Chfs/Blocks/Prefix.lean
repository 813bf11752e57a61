import Chfs.Blocks.Fill

namespace chfs

/-- The positions that hold a block are the first `p`. -/
def Prefix (a : Pointers) (p : Nat) : Prop := ∀ j, a j ≠ 0 ↔ j < p

/-- How far the blocks reach once the first `t` positions are filled from `free` blocks. -/
def filled (p t free : Nat) : Nat := max p (min t (p + free))

namespace Prefix

variable {a a' : Pointers} {p : Nat}

theorem eq_zero (h : Prefix a p) {j : Nat} (hj : p ≤ j) : a j = 0 := by
  by_contra hne
  have := (h j).mp hne
  omega

theorem ne_zero (h : Prefix a p) {j : Nat} (hj : j < p) : a j ≠ 0 := (h j).mpr hj

theorem missing (h : Prefix a p) (lo hi : Nat) : a.missing lo hi = hi - max lo p := by
  have hfilter : (Finset.Ico lo hi).filter (fun j => a j = 0) = Finset.Ico (max lo p) hi := by
    ext j
    have hj := (h j).not
    rw [not_not] at hj
    simp only [Finset.mem_filter, Finset.mem_Ico, hj]
    omega
  rw [Pointers.missing, hfilter, Nat.card_Ico]

/-- Filling the first `t` positions extends the prefix as far as free blocks last. -/
theorem fills {chunk : Nat → Mem} {t : Nat} {bm bm' : BlockManager} (h : Prefix a p)
    (hfills : Fills chunk 0 t bm a bm' a') : Prefix a' (filled p t bm.free_count) := by
  have hend : a' (max p t) = 0 := by
    rw [hfills.outside _ (by omega)]
    exact h.eq_zero (by omega)
  have hex : ∃ j, a' j = 0 := ⟨_, hend⟩
  have hfirst := Nat.find_spec hex
  have hbefore : ∀ j, j < Nat.find hex → a' j ≠ 0 := fun j hj => Nat.find_min hex hj
  have hle : p ≤ Nat.find hex := by
    by_contra hlt
    have hne := h.ne_zero (show Nat.find hex < p by omega)
    rw [← hfills.kept _ hne] at hne
    exact hne hfirst
  have hfront : Prefix a' (Nat.find hex) := by
    intro j
    refine ⟨?_, hbefore j⟩
    intro hne
    by_contra hj
    have hold : a j = 0 := h.eq_zero (by omega)
    by_cases hin : j < t
    · exact hne (hfills.in_order (Nat.find hex) j (Nat.zero_le _) (by omega) hin hfirst hold)
    · rw [hfills.outside j (by omega)] at hne
      exact hne hold
  have hmissing := hfills.missing
  rw [h.missing, hfront.missing] at hmissing
  have hmax : Nat.find hex ≤ max p t := Nat.find_min' hex hend
  have hreach : Nat.find hex = filled p t bm.free_count := by
    unfold filled
    omega
  rwa [hreach] at hfront

end Prefix

end chfs
