import Chfs.Blocks.Release
import Chfs.WriteFile.Contents

namespace chfs.InodeManager

open BlockManager

/-- The loop over the direct slots frees from `i` on up to the first slot without a
    block, or all the slots it may go through. -/
theorem free_direct_releases (entries : Pointers) (n : Nat) :
    ∀ (i : Nat) (bm : BlockManager) (node : Inode), (n = 0 ∨ i + n ≤ 100) → bm.WF →
      Held bm (pointers_with node entries) →
      ∃ e bm' blocks, free_direct n i bm node = .ok (e, bm', { node with blocks }) ∧ i ≤ e ∧ e ≤ i + n ∧
        (e < i + n → pointers_with node entries e = 0) ∧
        Releases (Finset.Ico i e) bm (pointers_with node entries) bm'
          (pointers_with { node with blocks } entries) := by
  induction n with
  | zero =>
    intro i bm node _ hwf _
    refine ⟨i, bm, node.blocks, rfl, le_refl i, le_refl i, by omega, ?_⟩
    rw [Finset.Ico_self]
    exact Releases.refl hwf _
  | succ n ih =>
    intro i bm node hbound hwf hheld
    have hat := pointers_with_of_le node entries (show i ≤ 100 by omega)
    have hsame := bm.is_valid_block_same (node.block i)
    have hwf₁ := hsame.wf hwf
    rw [free_direct]
    by_cases hzero : node.block i = 0
    · have hnot : (bm.is_valid_block (node.block i)).1 = false := by
        rw [hzero]
        exact is_valid_block_of_not_inUse hwf hwf.not_inUse_zero
      refine ⟨i, (bm.is_valid_block (node.block i)).2, node.blocks, ?_, le_refl i, by omega,
        fun _ => hat.trans hzero, ?_⟩
      · simp only [hnot, Bool.false_eq_true, ↓reduceIte]
        rfl
      · rw [Finset.Ico_self]
        exact (Releases.refl hwf₁ _).of_same hsame
    · have hvalid := is_valid_block_of_inUse hwf (hat ▸ hheld.in_use i (by rwa [hat]))
      have hheld₁ := hheld.of_same hsame
      obtain ⟨bm₂, hfree, hone⟩ := Releases.one hwf₁ hheld₁ (i := i) (by rwa [hat])
      rw [hat] at hfree
      rw [← pointers_with_set_block node entries (show i ≤ 100 by omega)] at hone
      obtain ⟨e, bm', blocks, hrest, hlo, hhi, hstop, hreleases⟩ :=
        ih (i + 1) bm₂ (node.set_block i 0) (by omega) hone.wf (hone.held hheld₁)
      have hdisjoint : Disjoint {i} (Finset.Ico (i + 1) e) := by simp
      have hunion : {i} ∪ Finset.Ico (i + 1) e = Finset.Ico i e := by
        ext j
        simp only [Finset.mem_union, Finset.mem_singleton, Finset.mem_Ico]
        omega
      have hall := hone.trans hheld₁ hdisjoint hreleases
      rw [hunion] at hall
      refine ⟨e, bm', blocks, ?_, by omega, by omega, ?_, ?_⟩
      · simp only [hvalid, ↓reduceIte, hfree, Except.ok_bind, hrest]
        rfl
      · intro he
        have hnone := hstop (by omega)
        rwa [pointers_with_set_block node entries (by omega), Function.update_of_ne (by omega)] at hnone
      · exact hall.of_same hsame

/-- The loop over the entries frees all of them when each names a block. -/
theorem free_entries_releases (node : Inode) (n : Nat) :
    ∀ (i : Nat) (bm : BlockManager) (table : Mem), i + n ≤ 128 → bm.WF →
      Held bm (pointers_with node (table_pointers table)) → (∀ k, i ≤ k → k < i + n → table.word k ≠ 0) →
      ∃ bm' table', free_entries n i bm table = .ok (bm', table') ∧
        Releases (Finset.Ico (101 + i) (101 + i + n)) bm (pointers_with node (table_pointers table)) bm'
          (pointers_with node (table_pointers table')) := by
  induction n with
  | zero =>
    intro i bm table _ hwf _ _
    refine ⟨bm, table, rfl, ?_⟩
    rw [Nat.add_zero, Finset.Ico_self]
    exact Releases.refl hwf _
  | succ n ih =>
    intro i bm table hbound hwf hheld hnamed
    have hat : pointers_with node (table_pointers table) (101 + i) = table.word i := by
      have hle : 101 + i ≤ 228 := by omega
      have hsub : 101 + i - 101 = i := by omega
      rw [pointers_with_of_gt _ _ (by omega), table_pointers, if_pos hle, hsub]
    have hne := hnamed i (le_refl i) (by omega)
    obtain ⟨bm₁, hfree, hone⟩ := Releases.one hwf hheld (i := 101 + i) (by rwa [hat])
    rw [hat] at hfree
    rw [← pointers_with_setWord node table (by omega)] at hone
    obtain ⟨bm', table', hrest, hreleases⟩ := ih (i + 1) bm₁ (table.setWord i 0) (by omega) hone.wf
      (hone.held hheld) (by
        intro k hlo hhi
        rw [Mem.word_setWord_ne _ _ (by omega)]
        exact hnamed k (by omega) (by omega))
    have hentry : entry table i = .ok (table.word i) := if_pos (by simp; omega)
    have hdisjoint : Disjoint {101 + i} (Finset.Ico (101 + (i + 1)) (101 + (i + 1) + n)) := by
      simp
    have hunion : {101 + i} ∪ Finset.Ico (101 + (i + 1)) (101 + (i + 1) + n) =
        Finset.Ico (101 + i) (101 + i + (n + 1)) := by
      ext j
      simp only [Finset.mem_union, Finset.mem_singleton, Finset.mem_Ico]
      omega
    refine ⟨bm', table', ?_, ?_⟩
    · rw [free_entries, hentry, Except.ok_bind, hfree, Except.ok_bind, hrest]
    · rw [← hunion]
      exact hone.trans hheld hdisjoint hreleases

/-- An entry that names no block, or lies behind the table, ends it in a fault. -/
theorem free_entries_fault (node : Inode) (n : Nat) :
    ∀ (i : Nat) (bm : BlockManager) (table : Mem), bm.WF →
      Held bm (pointers_with node (table_pointers table)) →
      (∃ k, i ≤ k ∧ k < i + n ∧ (128 ≤ k ∨ table.word k = 0)) →
      ∃ fault, free_entries n i bm table = .error fault := by
  induction n with
  | zero =>
    rintro i bm table _ _ ⟨k, hlo, hhi, _⟩
    omega
  | succ n ih =>
    rintro i bm table hwf hheld ⟨k, hlo, hhi, hbad⟩
    rw [free_entries]
    by_cases hlarge : 128 ≤ i
    · have hentry : entry table i = .error .out_of_bounds := if_neg (by simp; omega)
      rw [hentry, Except.error_bind]
      exact ⟨_, rfl⟩
    · have hentry : entry table i = .ok (table.word i) := if_pos (by simp; omega)
      have hat : pointers_with node (table_pointers table) (101 + i) = table.word i := by
        have hle : 101 + i ≤ 228 := by omega
        have hsub : 101 + i - 101 = i := by omega
        rw [pointers_with_of_gt _ _ (by omega), table_pointers, if_pos hle, hsub]
      rw [hentry, Except.ok_bind]
      by_cases hzero : table.word i = 0
      · rw [hzero, free_block_of_not_inUse (by decide) hwf.not_inUse_zero, Except.error_bind]
        exact ⟨_, rfl⟩
      · obtain ⟨bm₁, hfree, hone⟩ := Releases.one hwf hheld (i := 101 + i) (by rwa [hat])
        rw [hat] at hfree
        rw [← pointers_with_setWord node table (by omega)] at hone
        rw [hfree, Except.ok_bind]
        apply ih (i + 1) bm₁ (table.setWord i 0) hone.wf (hone.held hheld)
        have hne : k ≠ i := by
          rintro rfl
          rcases hbad with hbad | hbad
          · exact hlarge hbad
          · exact hzero hbad
        refine ⟨k, by omega, by omega, ?_⟩
        rw [Mem.word_setWord_ne _ _ hne]
        exact hbad

/-- Freeing entries never marks block 0 in use, whatever the table holds. -/
theorem free_entries_zero (n : Nat) :
    ∀ (i : Nat) (bm bm' : BlockManager) (table table' : Mem), ¬ bm.InUse 0 →
      free_entries n i bm table = .ok (bm', table') → ¬ bm'.InUse 0 := by
  induction n with
  | zero =>
    intro i bm bm' table table' hnot h
    cases h
    exact hnot
  | succ n ih =>
    intro i bm bm' table table' hnot h
    rw [free_entries] at h
    obtain ⟨id, _, h⟩ := Except.bind_eq_ok_iff.mp h
    obtain ⟨bm₁, hfree, h⟩ := Except.bind_eq_ok_iff.mp h
    exact ih _ _ _ _ _ (free_block_zero hnot hfree) h

end chfs.InodeManager
