import Chfs.Blocks.Trim
import Chfs.WriteFile.FreeDirect

namespace chfs.InodeManager

open BlockManager

/-- With an indirect block, the pointers are those of any table that agrees with it. -/
theorem pointers_eq_table {bm : BlockManager} {node : Inode} {table : Mem} (hne : node.block 100 ≠ 0)
    (htable : ∀ p < 512, table p = bm.data (node.block 100) p) :
    pointers bm node = pointers_with node (table_pointers table) :=
  pointers_of_table (fun _ p hp => (htable p hp).symm) (fun h => absurd h hne)

/-- For a file that goes on behind its direct blocks, `block_count` is the number of
    entries its size asks for. -/
theorem free_indirect_blocks_eq {bm : BlockManager} {heap : Mem} {node : Inode} {b : Nat}
    (hlarge : 100 < pre_block_num node) :
    free_indirect_blocks bm heap node b =
      (free_entries (pre_block_num node - 100 - b) b bm (bm.read_block (node.block 100) heap) >>=
        fun (bm, blocks) =>
          if b = 0 then do
            let bm ← bm.free_block (node.block 100)
            return (bm, node.set_block 100 0)
          else
            return (bm.write_block (node.block 100) blocks, node)) := by
  have hpre : pre_block_num node = (node.size.toNat - 1) / 512 + 1 := by
    unfold pre_block_num at *
    split at hlarge
    · omega
    · next hne => rw [if_neg hne, BLOCK_SIZE_eq]
  have hsize : BLOCK_SIZE * NDIRECT ≤ node.size.toNat := by
    simp
    omega
  unfold free_indirect_blocks
  dsimp only
  rw [if_pos hsize, hpre]
  rfl

/-- `free_indirect_blocks` with all entries in place: it gives back those from
    `begin_block` on and, when nothing is kept, the indirect block itself. -/
theorem free_indirect_blocks_trims {bm : BlockManager} {node : Inode} (heap : Mem) {p b : Nat}
    (hwf : bm.WF) (hheld : Held bm (pointers bm node)) (hfront : PrefixFrom 100 (pointers bm node) p)
    (hlarge : 100 < pre_block_num node) (hp : p = pointers_for (pre_block_num node)) (hp' : p ≤ 229)
    (hb : b < pre_block_num node - 100) :
    ∃ bm' blocks, free_indirect_blocks bm heap node b = .ok (bm', { node with blocks }) ∧
      (b = 0 → ({ node with blocks } : Inode).block 100 = 0) ∧
      Trims (if b = 0 then 100 else 101 + b) p bm (pointers bm node) bm'
        (pointers bm' { node with blocks }) := by
  have hpre : p = pre_block_num node + 1 := by
    unfold pointers_for at hp
    rw [if_neg (by omega)] at hp
    exact hp
  have hat : pointers bm node 100 = node.block 100 := pointers_of_le _ _ (le_refl 100)
  have hne : node.block 100 ≠ 0 := by
    rw [← hat]
    exact (hfront 100 (le_refl 100)).mpr (by omega)
  have hsmall : (node.block 100).toNat < 32768 := by
    rw [← hat]
    exact (hwf.data_block _ (hheld.in_use 100 (by rwa [hat]))).2
  obtain ⟨table, htable⟩ : ∃ table, table = bm.read_block (node.block 100) heap := ⟨_, rfl⟩
  have htable' : ∀ q < 512, table q = bm.data (node.block 100) q := by
    intro q hq
    rw [htable, read_block_apply bm hsmall heap q, if_pos hq]
  have hpointers := pointers_eq_table hne htable'
  have hword : ∀ k, k < 128 → table.word k = pointers bm node (101 + k) := by
    intro k hk
    have hle : 101 + k ≤ 228 := by omega
    have hsub : 101 + k - 101 = k := by omega
    rw [hpointers, pointers_with_of_gt _ _ (by omega), table_pointers, if_pos hle, hsub]
  obtain ⟨bm₁, table₁, hentries, hreleases⟩ := free_entries_releases node
    (pre_block_num node - 100 - b) b bm table (by omega) hwf (hpointers ▸ hheld) (by
      intro k hlo hhi
      rw [hword k (by omega)]
      exact (hfront (101 + k) (by omega)).mpr (by omega))
  have hrange : 101 + b + (pre_block_num node - 100 - b) = p := by omega
  rw [hrange, ← hpointers] at hreleases
  rw [free_indirect_blocks_eq hlarge, ← htable, hentries, Except.ok_bind]
  by_cases hzero : b = 0
  · subst hzero
    have hheld₁ := hreleases.held hheld
    have hat₁ : pointers_with node (table_pointers table₁) 100 = node.block 100 :=
      pointers_with_of_le _ _ (le_refl 100)
    obtain ⟨bm₂, hfree, hone⟩ := Releases.one hreleases.wf hheld₁ (i := 100) (by rwa [hat₁])
    rw [hat₁] at hfree
    rw [← pointers_with_set_block node _ (le_refl 100)] at hone
    have hdisjoint : Disjoint (Finset.Ico (101 + 0) p) {100} := by simp
    have hunion : Finset.Ico (101 + 0) p ∪ {100} = Finset.Ico 100 p := by
      ext j
      simp only [Finset.mem_union, Finset.mem_singleton, Finset.mem_Ico]
      omega
    have hall := hreleases.trans hheld hdisjoint hone
    rw [hunion] at hall
    have hnone : (node.set_block 100 0).block 100 = 0 := Inode.block_set_block_same node (le_refl 100) 0
    have hfinal : pointers bm₂ (node.set_block 100 0) =
        pointers_with (node.set_block 100 0) (table_pointers table₁) := by
      apply pointers_with_congr
      intro j hj
      rw [entries_on_disk, if_pos hnone,
        ← pointers_with_of_gt (node.set_block 100 0) (table_pointers table₁) hj]
      by_cases hin : j < p
      · exact (hall.cleared j (by simp; omega)).symm
      · rw [hall.outside j (by simp; omega), hfront.eq_zero (by omega) (by omega)]
    refine ⟨bm₂, (node.set_block 100 0).blocks, ?_, fun _ => hnone, ?_⟩
    · simp only [↓reduceIte, hfree, Except.ok_bind]
      rfl
    · rw [if_pos rfl]
      change Trims 100 p bm (pointers bm node) bm₂ (pointers bm₂ (node.set_block 100 0))
      rw [hfinal]
      exact hall.trims hwf hfront
  · have hat₁ : pointers_with node (table_pointers table₁) 100 = node.block 100 :=
      pointers_with_of_le _ _ (le_refl 100)
    have hfinal : pointers (bm₁.write_block (node.block 100) table₁) node =
        pointers_with node (table_pointers table₁) :=
      pointers_of_table (fun _ q hq => data_write_block_same bm₁ hsmall table₁ hq) (fun h => absurd h hne)
    have htrims := hreleases.trims hwf fun j hj => hfront j (by omega)
    refine ⟨bm₁.write_block (node.block 100) table₁, node.blocks, ?_, fun h => absurd h hzero, ?_⟩
    · simp only [hzero, ↓reduceIte]
      rfl
    · rw [if_neg hzero]
      change Trims (101 + b) p bm (pointers bm node) _ (pointers (bm₁.write_block (node.block 100) table₁) node)
      rw [hfinal]
      refine ⟨htrims.wf.write_block _ _, htrims.pointers, htrims.in_use, ?_, ?_, htrims.failed, htrims.free⟩
      · intro id hid hall
        rw [data_write_block_ne _ (by rwa [hat] at hid)]
        exact htrims.frame id hid hall
      · intro j hj hj'
        rw [data_write_block_ne]
        · exact htrims.zeroed j hj hj'
        · intro heq
          have := hheld.injective j 100 hj' (heq.trans hat.symm)
          omega

/-- With an entry missing it ends in a fault. -/
theorem free_indirect_blocks_fault {bm : BlockManager} {node : Inode} (heap : Mem) {p b : Nat}
    (hwf : bm.WF) (hheld : Held bm (pointers bm node)) (hfront : PrefixFrom 100 (pointers bm node) p)
    (hlarge : 100 < pre_block_num node) (hp : p < pointers_for (pre_block_num node))
    (hb : b < pre_block_num node - 100)
    (htable : 0 < b → ∀ i < 128, (bm.data (node.block 100)).word i = pointers bm node (101 + i)) :
    ∃ fault, free_indirect_blocks bm heap node b = .error fault := by
  have hpre : p ≤ pre_block_num node := by
    unfold pointers_for at hp
    rw [if_neg (by omega)] at hp
    omega
  have hat : pointers bm node 100 = node.block 100 := pointers_of_le _ _ (le_refl 100)
  have hsmall : (node.block 100).toNat < 32768 := by
    by_cases hzero : node.block 100 = 0
    · rw [hzero]
      decide
    · rw [← hat] at hzero ⊢
      exact (hwf.data_block _ (hheld.in_use 100 hzero)).2
  obtain ⟨table, htable₀⟩ : ∃ table, table = bm.read_block (node.block 100) heap := ⟨_, rfl⟩
  have htable' : ∀ q < 512, table q = bm.data (node.block 100) q := by
    intro q hq
    rw [htable₀, read_block_apply bm hsmall heap q, if_pos hq]
  rw [free_indirect_blocks_eq hlarge, ← htable₀]
  -- a table that agrees with the pointers runs into the missing entry
  have hfault : pointers bm node = pointers_with node (table_pointers table) →
      ∃ fault, free_entries (pre_block_num node - 100 - b) b bm table = .error fault := by
    intro hpointers
    apply free_entries_fault node _ _ _ _ hwf (hpointers ▸ hheld)
    refine ⟨pre_block_num node - 101, by omega, by omega, ?_⟩
    by_cases hin : pre_block_num node - 101 < 128
    · right
      have hle : pre_block_num node ≤ 228 := by omega
      have hzero : pointers bm node (pre_block_num node) = 0 := hfront.eq_zero (by omega) hpre
      rw [hpointers, pointers_with_of_gt _ _ (by omega), table_pointers, if_pos hle] at hzero
      exact hzero
    · left
      omega
  by_cases hzero : node.block 100 = 0
  · by_cases hb0 : b = 0
    · cases hentries : free_entries (pre_block_num node - 100 - b) b bm table with
      | error fault =>
        rw [Except.error_bind]
        exact ⟨_, rfl⟩
      | ok result =>
        obtain ⟨bm₁, table₁⟩ := result
        have hnot := free_entries_zero _ _ _ _ _ _ hwf.not_inUse_zero hentries
        rw [Except.ok_bind, hb0]
        simp only [↓reduceIte, hzero, free_block_of_not_inUse (show (0 : blockid_t).toNat < 32768 by decide) hnot,
          Except.error_bind]
        exact ⟨_, rfl⟩
    · have hpointers : pointers bm node = pointers_with node (table_pointers table) := by
        apply pointers_with_congr
        intro j hj
        rw [entries_on_disk, if_pos hzero, table_pointers]
        split
        · next hle =>
          have hword : table.word (j - 101) = (bm.data (node.block 100)).word (j - 101) :=
            Mem.word_congr fun q hq => htable' q (by omega)
          rw [hword, htable (by omega) (j - 101) (by omega)]
          exact (pointers_of_no_indirect bm hzero (by omega)).symm
        · rfl
      obtain ⟨fault, hfault⟩ := hfault hpointers
      rw [hfault, Except.error_bind]
      exact ⟨_, rfl⟩
  · obtain ⟨fault, hfault⟩ := hfault (pointers_eq_table hzero htable')
    rw [hfault, Except.error_bind]
    exact ⟨_, rfl⟩

/-- With nothing to free it only writes the table back. -/
theorem free_indirect_blocks_keep {bm : BlockManager} {node : Inode} (heap : Mem) {b : Nat}
    (hwf : bm.WF) (hheld : Held bm (pointers bm node)) (hlarge : 100 < pre_block_num node)
    (hb : pre_block_num node - 100 ≤ b) :
    ∃ bm', free_indirect_blocks bm heap node b = .ok (bm', node) ∧ bm'.WF ∧
      pointers bm' node = pointers bm node ∧ (∀ id, bm'.InUse id ↔ bm.InUse id) ∧
      (∀ id, id ≠ pointers bm node 100 → bm'.data id = bm.data id) ∧
      bm'.failed_allocs = bm.failed_allocs ∧ bm'.free_count = bm.free_count := by
  have hat : pointers bm node 100 = node.block 100 := pointers_of_le _ _ (le_refl 100)
  have hnone : pre_block_num node - 100 - b = 0 := by omega
  have hb0 : b ≠ 0 := by omega
  obtain ⟨table, htable⟩ : ∃ table, table = bm.read_block (node.block 100) heap := ⟨_, rfl⟩
  refine ⟨bm.write_block (node.block 100) table, ?_, hwf.write_block _ _, ?_, fun _ => Iff.rfl, ?_, rfl, rfl⟩
  · rw [free_indirect_blocks_eq hlarge, ← htable, hnone, free_entries, Except.ok_bind]
    simp only [hb0, ↓reduceIte]
    rfl
  · by_cases hzero : node.block 100 = 0
    · exact pointers_congr (fun _ _ => rfl) (fun h => absurd hzero h)
    · have hsmall : (node.block 100).toNat < 32768 := by
        rw [← hat] at hzero ⊢
        exact (hwf.data_block _ (hheld.in_use 100 hzero)).2
      have htable' : ∀ q < 512, table q = bm.data (node.block 100) q := by
        intro q hq
        rw [htable, read_block_apply bm hsmall heap q, if_pos hq]
      rw [pointers_eq_table hzero htable']
      exact pointers_of_table (fun _ q hq => data_write_block_same bm hsmall table hq)
        (fun h => absurd h hzero)
  · intro id hid
    exact data_write_block_ne _ (by rwa [hat] at hid) _

end chfs.InodeManager
