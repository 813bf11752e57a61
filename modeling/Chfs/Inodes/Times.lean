import Chfs.Inodes.Accessed
import Chfs.ReadFile
import Chfs.RemoveFile

namespace chfs

namespace Env

/-- Later on the clock is further along. -/
def Later (env env' : Env) : Prop := ∃ k, ∀ n, env'.clock n = env.clock (n + k)

theorem Later.refl (env : Env) : Later env env := ⟨0, fun _ => rfl⟩

theorem Later.trans {env env' env'' : Env} (h : Later env env') (h' : Later env' env'') : Later env env'' := by
  obtain ⟨k, hk⟩ := h
  obtain ⟨k', hk'⟩ := h'
  exact ⟨k' + k, fun n => by rw [hk', hk, Nat.add_assoc]⟩

theorem Later.of_clock {env env' : Env} (h : env'.clock = env.clock) :
    Later env env' := ⟨0, fun n => by rw [h, Nat.add_zero]⟩

/-- The clock never goes back and fits into an `unsigned int`. -/
def Ticks (env : Env) : Prop := Monotone env.clock ∧ ∀ n, env.clock n < 2 ^ 32

theorem Ticks.later {env env' : Env} (h : env.Ticks) (hlater : Later env env') : env'.Ticks := by
  obtain ⟨k, hk⟩ := hlater
  refine ⟨fun i j hij => ?_, fun n => by rw [hk]; exact h.2 _⟩
  rw [hk, hk]
  exact h.1 (Nat.add_le_add_right hij k)

end Env

/-- The inode was changed and written at readings of the clock that are still to come. -/
def Stamped (env : Env) (node : Inode) : Prop :=
  ∃ i j, i ≤ j ∧ node.ctime = UInt32.ofNat (env.clock i) ∧ node.mtime = UInt32.ofNat (env.clock j)

namespace Stamped

variable {env env' : Env} {node node' : Inode}

theorem of_later (hlater : Env.Later env env') (h : Stamped env' node) : Stamped env node := by
  obtain ⟨k, hk⟩ := hlater
  obtain ⟨i, j, hij, hctime, hmtime⟩ := h
  exact ⟨i + k, j + k, by omega, by rw [hctime, hk], by rw [hmtime, hk]⟩

theorem congr (h : Stamped env node) (hmtime : node'.mtime = node.mtime) (hctime : node'.ctime = node.ctime) :
    Stamped env node' := by
  rw [Stamped, hmtime, hctime]
  exact h

theorem toNat_eq {env : Env} (hticks : env.Ticks) (i : Nat) : (UInt32.ofNat (env.clock i)).toNat = env.clock i := by
  rw [UInt32.toNat_ofNat']
  exact Nat.mod_eq_of_lt (hticks.2 i)

theorem ctime_le_mtime (h : Stamped env node) (hticks : env.Ticks) : node.ctime ≤ node.mtime := by
  obtain ⟨i, j, hij, hctime, hmtime⟩ := h
  rw [UInt32.le_iff_toNat_le, hctime, hmtime, toNat_eq hticks, toNat_eq hticks]
  exact hticks.1 hij

/-- Both times are at or after the present one. -/
theorem now_le (h : Stamped env node) (hticks : env.Ticks) :
    env.clock 0 ≤ node.mtime.toNat ∧ env.clock 0 ≤ node.ctime.toNat := by
  obtain ⟨i, j, _, hctime, hmtime⟩ := h
  rw [hctime, hmtime, toNat_eq hticks, toNat_eq hticks]
  exact ⟨hticks.1 (Nat.zero_le j), hticks.1 (Nat.zero_le i)⟩

end Stamped

namespace InodeManager

variable {im im' : InodeManager} {inum : UInt32} {node node' : Inode}

/-- A new inode is stamped. -/
theorem alloc_inode_stamped {type : UInt32} (hinum : inum.toNat ≤ 1024) (h : im.alloc_inode type = (inum, im'))
    (hdead : im.get_inode inum = none) (hlive : im'.get_inode inum = some node) : Stamped im.env node := by
  unfold alloc_inode at h
  dsimp only at h
  split at h
  · cases h
    have hstored := (get_inode_put_inode im.time.2 hinum
      ⟨type.toUInt16.toInt16, 0, im.time.1, im.time.1, im.time.1, fun _ => 0⟩).symm.trans hlive
    split at hstored
    · cases hstored
    · cases hstored
      exact ⟨0, 0, le_refl 0, rfl, rfl⟩
  · cases h
    exact absurd (hdead.symm.trans hlive) (by simp)

theorem alloc_inode_later (im : InodeManager) (type : UInt32) : Env.Later im.env (im.alloc_inode type).2.env := by
  refine ⟨1, fun n => ?_⟩
  unfold alloc_inode
  dsimp only
  split <;> rfl

/-- Reading a file looks at the clock once at most. -/
theorem read_file_later {out : Option (Mem × Nat)} (h : im.read_file inum = .ok (out, im')) :
    Env.Later im.env im'.env := by
  cases hnode : im.get_inode inum with
  | none =>
    rw [read_file_dead hnode] at h
    cases h
    exact .refl _
  | some node =>
    obtain ⟨bm, _, rfl⟩ := read_file_eq hnode h
    exact ⟨1, fun _ => rfl⟩

/-- Freeing blocks takes no look at the clock. -/
theorem free_unused_clock {pre : Nat} {used : Int} (h : free_unused im node pre used = .ok (im', node')) :
    im'.env.clock = im.env.clock := by
  unfold free_unused at h
  split at h
  · cases h
  · obtain ⟨⟨i, bm, node₁⟩, _, h⟩ := Except.bind_eq_ok_iff.mp h
    dsimp only at h
    split at h
    · obtain ⟨⟨bm', node₂⟩, _, h⟩ := Except.bind_eq_ok_iff.mp h
      cases h
      rfl
    · cases h
      rfl

/-- Writing a live file stores its inode with the next three readings of the clock. -/
theorem write_file_eq {buf : Mem} {size : Int} (hlive : im.get_inode inum = some node)
    (h : im.write_file inum buf size = .ok im') :
    ∃ im₁ stored, im' = put_inode im₁ inum stored ∧ (∀ n, im₁.env.clock n = im.env.clock (n + 3)) ∧
      stored.ctime = UInt32.ofNat (im.env.clock 1) ∧ stored.mtime = UInt32.ofNat (im.env.clock 2) := by
  unfold write_file at h
  simp only [hlive] at h
  obtain ⟨⟨im₁, node₁⟩, hfree, h⟩ := Except.bind_eq_ok_iff.mp h
  have hclock := free_unused_clock hfree
  change im₁.env.clock = im.env.clock at hclock
  cases h
  refine ⟨im₁.time.2.time.2.time.2, _, rfl, fun n => ?_, ?_, ?_⟩
  · rw [← hclock]
    rfl
  · rw [← hclock]
    rfl
  · rw [← hclock]
    rfl

theorem write_file_stamped {buf : Mem} {size : Int} (hlive : im.get_inode inum = some node)
    (h : im.write_file inum buf size = .ok im') (hlive' : im'.get_inode inum = some node') : Stamped im.env node' := by
  obtain ⟨im₁, stored, rfl, _, hctime, hmtime⟩ := write_file_eq hlive h
  have hstored := (get_inode_put_inode im₁ (live_le hlive) stored).symm.trans hlive'
  split at hstored
  · cases hstored
  · cases hstored
    exact ⟨1, 2, by omega, hctime, hmtime⟩

theorem write_file_later {buf : Mem} {size : Int} (h : im.write_file inum buf size = .ok im') :
    Env.Later im.env im'.env := by
  cases hnode : im.get_inode inum with
  | none =>
    unfold write_file at h
    simp only [hnode] at h
    cases h
    exact .refl _
  | some node =>
    obtain ⟨im₁, stored, rfl, hclock, _⟩ := write_file_eq hnode h
    exact ⟨3, hclock⟩

theorem env_free_inode (im : InodeManager) (inum : UInt32) : (im.free_inode inum).env = im.env := by
  unfold free_inode
  split
  · rfl
  · split <;> rfl

theorem remove_file_clock (h : im.remove_file inum = .ok im') : im'.env.clock = im.env.clock := by
  cases hnode : im.get_inode inum with
  | none =>
    rw [remove_file_dead hnode] at h
    cases h
    rfl
  | some node =>
    have hinum := live_le hnode
    have hsmall : ¬ INODE_NUM < inum.toNat := by
      simp
      omega
    unfold remove_file at h
    simp only [hsmall, ↓reduceIte, hnode] at h
    obtain ⟨⟨free_size, bm⟩, _, h⟩ := Except.bind_eq_ok_iff.mp h
    dsimp only at h
    split at h
    · obtain ⟨⟨table, count⟩, _, h⟩ := Except.bind_eq_ok_iff.mp h
      obtain ⟨⟨free_size', bm'⟩, _, h⟩ := Except.bind_eq_ok_iff.mp h
      obtain ⟨bm'', _, h⟩ := Except.bind_eq_ok_iff.mp h
      cases h
      rw [env_free_inode]
      rfl
    · cases h
      rw [env_free_inode]

end InodeManager

end chfs
