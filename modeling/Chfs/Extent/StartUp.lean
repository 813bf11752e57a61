import Chfs.Extent.Fresh

namespace chfs.InodeManager

variable {garbage : UInt32} {env : Env}

/-- The constructor returns, and the root directory at inum 1 is the only live inode. -/
def StartsWithRoot (garbage : UInt32) (env : Env) : Prop :=
  ∃ im root, InodeManager.new garbage env = .ok im ∧ im.get_inode 1 = some root ∧
    root.type.toInt32.toUInt32 = FileType.T_DIR.code ∧ ∀ inum, inum ≠ 1 → im.get_inode inum = none

/-- Only from these values on does the search begin at inum 1. Of the values that are one
    short of a multiple of `INODE_NUM` the last one wraps around to inum 0. -/
theorem to_alloc_eq_one_iff :
    to_alloc garbage 1 = 1 ↔ garbage = 0 ∨ garbage.toNat % INODE_NUM = INODE_NUM - 1 ∧ garbage.toNat ≠ 2 ^ 32 - 1 := by
  have hlt := garbage.toNat_lt
  have hsum : (UInt32.ofNat 1 + garbage).toNat = (1 + garbage.toNat) % 2 ^ 32 := UInt32.toNat_add ..
  have hnum : (UInt32.ofNat INODE_NUM).toNat = 1024 := rfl
  have hone : (1 : UInt32).toNat = 1 := rfl
  rw [← UInt32.toNat_inj, hone, ← UInt32.toNat_inj, INODE_NUM_eq, to_alloc]
  by_cases hle : UInt32.ofNat INODE_NUM ≤ UInt32.ofNat 1 + garbage
  · rw [if_pos hle, UInt32.toNat_add, UInt32.toNat_mod, hnum, hsum, hone]
    rw [UInt32.le_iff_toNat_le, hnum, hsum] at hle
    have hzero : (0 : UInt32).toNat = 0 := rfl
    omega
  · rw [if_neg hle, hsum]
    rw [UInt32.le_iff_toNat_le, hnum, hsum] at hle
    have hzero : (0 : UInt32).toNat = 0 := rfl
    omega

/-- So the constructor yields the root directory exactly when its memory held one of them. -/
theorem starts_with_root_iff (garbage : UInt32) (env : Env) :
    StartsWithRoot garbage env ↔
      garbage = 0 ∨ garbage.toNat % INODE_NUM = INODE_NUM - 1 ∧ garbage.toNat ≠ 2 ^ 32 - 1 := by
  rw [← to_alloc_eq_one_iff]
  rcases InodeManager.new_eq garbage env with ⟨hexit, hne⟩ | ⟨hone, im, hok, hfresh⟩
  · refine ⟨?_, fun hone => absurd hone hne⟩
    rintro ⟨im, _, hok, _⟩
    rw [hexit] at hok
    cases hok
  · refine ⟨fun _ => hone, fun _ => ?_⟩
    obtain ⟨root, hroot, htype, _⟩ := hfresh.root
    refine ⟨im, root, hok, hroot, ?_, hfresh.others⟩
    rw [htype]
    rfl

/-- With a 1 in that field the root directory would get inum 2, and the program exits. -/
theorem exits_at_start : InodeManager.new 1 still = .error .exited ∧ ¬ StartsWithRoot 1 still := by
  have hne : to_alloc 1 1 ≠ 1 := by decide
  rcases InodeManager.new_eq 1 still with ⟨hexit, _⟩ | ⟨hone, _⟩
  · refine ⟨hexit, ?_⟩
    rintro ⟨im, _, hok, _⟩
    rw [hexit] at hok
    cases hok
  · exact absurd hone hne

end chfs.InodeManager
