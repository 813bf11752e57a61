import Chfs.Blocks.Fill
import Chfs.Model.Inode

namespace chfs

/-- How many blocks `n` bytes take. -/
def blocks_for (n : Nat) : Nat := (n + 511) / 512

/-- How many pointers it takes to name `k` blocks: behind the direct blocks, the
    indirect block needs one too. -/
def pointers_for (k : Nat) : Nat := if k ≤ 100 then k else k + 1

/-- The position of the pointer to block `k` of a file. -/
def slot_position (k : Nat) : Nat := if k < 100 then k else k + 1

/-- The pointers of an inode together with those of its indirect table. -/
def pointers_with (node : Inode) (entries : Pointers) : Pointers :=
  fun j => if j ≤ 100 then node.block j else entries j

/-- The entries of an indirect table as pointers. -/
def table_pointers (table : Mem) : Pointers := fun j => if j ≤ 228 then table.word (j - 101) else 0

/-- The entries of the indirect table of an inode, as they stand on disk. -/
def entries_on_disk (bm : BlockManager) (node : Inode) : Pointers :=
  fun j => if node.block 100 = 0 then 0 else table_pointers (bm.data (node.block 100)) j

/-- All pointers of an inode: direct, indirect block, entries of the indirect block. -/
def pointers (bm : BlockManager) (node : Inode) : Pointers :=
  pointers_with node (entries_on_disk bm node)

theorem pointers_with_of_le (node : Inode) (entries : Pointers) {i : Nat} (hi : i ≤ 100) :
    pointers_with node entries i = node.block i := if_pos hi

theorem pointers_with_of_gt (node : Inode) (entries : Pointers) {i : Nat} (hi : 100 < i) :
    pointers_with node entries i = entries i := if_neg (by omega)

theorem pointers_of_le (bm : BlockManager) (node : Inode) {i : Nat} (hi : i ≤ 100) :
    pointers bm node i = node.block i := if_pos hi

/-- Without an indirect block there are no entries. -/
theorem pointers_of_no_indirect (bm : BlockManager) {node : Inode} (hzero : node.block 100 = 0)
    {i : Nat} (hi : 100 < i) : pointers bm node i = 0 := by
  rw [pointers, pointers_with_of_gt node _ hi, entries_on_disk, if_pos hzero]

theorem pointers_of_large (bm : BlockManager) (node : Inode) {i : Nat} (hi : 228 < i) :
    pointers bm node i = 0 := by
  have hnot : ¬ i ≤ 228 := by omega
  rw [pointers, pointers_with_of_gt node _ (by omega), entries_on_disk]
  simp [table_pointers, hnot]

theorem pointers_with_congr {node : Inode} {entries entries' : Pointers}
    (h : ∀ j, 100 < j → entries j = entries' j) :
    pointers_with node entries = pointers_with node entries' := by
  funext j
  unfold pointers_with
  split
  · rfl
  · exact h j (by omega)

theorem pointers_with_set_block (node : Inode) (entries : Pointers) {i : Nat} (hi : i ≤ 100)
    (id : blockid_t) :
    pointers_with (node.set_block i id) entries = Function.update (pointers_with node entries) i id := by
  funext j
  by_cases hj : j = i
  · subst hj
    simp only [pointers_with, hi, ↓reduceIte, Function.update_self, Inode.block_set_block_same]
  · simp only [pointers_with, Function.update_of_ne hj, Inode.block_set_block_ne node hj]

theorem pointers_with_setWord (node : Inode) (table : Mem) {i : Nat} (hi : i < 128) (id : blockid_t) :
    pointers_with node (table_pointers (table.setWord i id)) =
      Function.update (pointers_with node (table_pointers table)) (101 + i) id := by
  funext j
  by_cases hj : j = 101 + i
  · subst hj
    have hle : 101 + i ≤ 228 := by omega
    have hsub : 101 + i - 101 = i := by omega
    rw [pointers_with_of_gt _ _ (by omega), table_pointers, if_pos hle, hsub,
      Mem.word_setWord_same, Function.update_self]
  · rw [Function.update_of_ne hj]
    by_cases hdirect : j ≤ 100
    · rw [pointers_with_of_le _ _ hdirect, pointers_with_of_le _ _ hdirect]
    · rw [pointers_with_of_gt _ _ (by omega), pointers_with_of_gt _ _ (by omega)]
      unfold table_pointers
      split
      · exact Mem.word_setWord_ne table id (by omega)
      · rfl

/-- Tables that agree within a block have the same entries. -/
theorem table_pointers_congr {table table' : Mem} (h : ∀ p < 512, table p = table' p) :
    ∀ j, 100 < j → table_pointers table j = table_pointers table' j := by
  intro j hj
  unfold table_pointers
  split
  · exact Mem.word_congr fun p hp => h p (by omega)
  · rfl

/-- The pointers of an inode depend on its blocks and on its indirect block only. -/
theorem pointers_congr {bm bm' : BlockManager} {node node' : Inode}
    (hblocks : ∀ j, j ≤ 100 → node'.block j = node.block j)
    (hdata : node.block 100 ≠ 0 → bm'.data (node.block 100) = bm.data (node.block 100)) :
    pointers bm' node' = pointers bm node := by
  funext j
  by_cases hj : j ≤ 100
  · rw [pointers_of_le _ _ hj, pointers_of_le _ _ hj, hblocks j hj]
  · rw [pointers, pointers, pointers_with_of_gt _ _ (by omega), pointers_with_of_gt _ _ (by omega),
      entries_on_disk, entries_on_disk, hblocks 100 (le_refl 100)]
    split
    · rfl
    · next hne => rw [hdata hne]

/-- Once a table is written to the indirect block, the pointers are the table's. -/
theorem pointers_of_table {bm : BlockManager} {node : Inode} {table : Mem}
    (hdata : node.block 100 ≠ 0 → ∀ p < 512, bm.data (node.block 100) p = table p)
    (hnone : node.block 100 = 0 → ∀ j, 100 < j → table_pointers table j = 0) :
    pointers bm node = pointers_with node (table_pointers table) := by
  apply pointers_with_congr
  intro j hj
  unfold entries_on_disk
  split
  · next hzero => exact (hnone hzero j hj).symm
  · next hne => exact table_pointers_congr (hdata hne) j hj

theorem slot_position_lt_pointers_for {i k : Nat} (hi : i < k) : slot_position i < pointers_for k := by
  unfold slot_position pointers_for
  split <;> split <;> omega

/-- Every position but that of the indirect block is one of a block of the file. -/
theorem exists_slot_position {j k : Nat} (hj : j < pointers_for k) (hne : j ≠ 100) :
    ∃ i < k, slot_position i = j := by
  unfold pointers_for at hj
  by_cases hlt : j < 100
  · refine ⟨j, ?_, if_pos hlt⟩
    split at hj <;> omega
  · refine ⟨j - 1, ?_, ?_⟩
    · split at hj <;> omega
    · unfold slot_position
      rw [if_neg (by omega)]
      omega

end chfs
