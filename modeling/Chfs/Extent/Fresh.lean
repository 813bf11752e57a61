import Chfs.Extent.Run
import Chfs.Inodes.Sequential

namespace chfs

open BlockManager InodeManager

/-- The root directory is the only inode, and it is empty. -/
structure Fresh (im : InodeManager) : Prop where
  wf : im.bm.WF
  root : ∃ node, im.get_inode 1 = some node ∧ node.type = 1 ∧ node.size = 0 ∧ ∀ j, node.block j = 0
  others : ∀ inum, inum ≠ 1 → im.get_inode inum = none
  no_block : ∀ id, ¬ im.bm.InUse id
  blank : ∀ id, id ≠ IBLOCK 1 → im.bm.data id = Mem.zero
  last_alloced : im.last_alloced = 0
  failed_blocks : im.bm.failed_allocs = 0
  failed_inodes : im.failed_allocs = 0

/-- On a blank disk there are no inodes. -/
theorem InodeManager.get_inode_blank {im : InodeManager} (hblank : im.bm = BlockManager.new) (inum : UInt32) :
    im.get_inode inum = none := by
  by_cases hinum : inum.toNat ≤ 1024
  · have hdata : im.bm.data (IBLOCK inum) = Mem.zero := by
      rw [hblank]
      exact Disk.data_new _
    rw [im.get_inode_eq hinum, if_pos]
    rw [hdata]
    rfl
  · exact im.get_inode_large (by omega)

/-- The constructor yields a fresh file system whatever it found in memory, unless it exits. -/
theorem InodeManager.new_eq (garbage : UInt32) (env : Env) :
    InodeManager.new garbage env = .error .exited ∧ to_alloc garbage 1 ≠ 1 ∨
      to_alloc garbage 1 = 1 ∧ ∃ im, InodeManager.new garbage env = .ok im ∧ Fresh im := by
  obtain ⟨im, him⟩ : ∃ im : InodeManager,
      im = { bm := BlockManager.new, last_alloced := garbage, env, failed_allocs := 0 } := ⟨_, rfl⟩
  have hlast : im.last_alloced = garbage := by rw [him]
  have hempty : ∀ inum, im.get_inode inum = none := get_inode_blank (by rw [him])
  obtain ⟨stored, env', halloc, _, _, htype, hsize, hblocks⟩ := alloc_inode_eq (i := 1)
    FileType.T_DIR.code (le_refl 1) (by omega) (hempty (to_alloc im.last_alloced 1)) (by omega)
  have hroot : FileType.T_DIR.code.toUInt16.toInt16 = 1 := by decide
  rw [hroot] at htype
  unfold InodeManager.new
  rw [← him]
  dsimp only
  rw [halloc, hlast]
  by_cases hone : to_alloc garbage 1 = 1
  · right
    have hbound : (1 : UInt32).toNat ≤ 1024 := by decide
    refine ⟨hone, _, by simp only [hone, ne_eq, not_true_eq_false, ↓reduceIte]; rfl,
      ?_, ⟨stored, ?_, htype, hsize, hblocks⟩, ?_, ?_, ?_, rfl, ?_, ?_⟩
    · have hwf : im.bm.WF := by rw [him]; exact wf_new
      exact hwf.write_block _ _
    · exact get_inode_put_inode_same { im with env := env' } hbound (by rw [htype]; decide)
    · intro inum hinum
      exact (get_inode_put_inode_ne { im with env := env' } hbound hinum stored).trans (hempty inum)
    · intro id huse
      rw [him] at huse
      cases huse
    · intro id hid
      have hdata : im.bm.data id = Mem.zero := by
        rw [him]
        exact Disk.data_new id
      exact (data_put_inode { im with env := env' } hid stored).trans hdata
    · rw [him]
      rfl
    · rw [him]
      rfl
  · left
    exact ⟨if_pos hone, hone⟩

theorem InodeManager.fresh_new {garbage : UInt32} {env : Env} {im : InodeManager}
    (hnew : InodeManager.new garbage env = .ok im) : Fresh im := by
  rcases InodeManager.new_eq garbage env with ⟨hexit, _⟩ | ⟨_, im', hok, hfresh⟩
  · rw [hexit] at hnew
    cases hnew
  · rw [hok] at hnew
    cases hnew
    exact hfresh

/-- It has looked at the clock once. -/
theorem InodeManager.env_new {garbage : UInt32} {env : Env} {im : InodeManager}
    (hnew : InodeManager.new garbage env = .ok im) : im.env = env.time.2 := by
  have halloc : ∀ (im : InodeManager) (type : UInt32), (im.alloc_inode type).2.env = im.env.time.2 := by
    intro im type
    unfold alloc_inode
    dsimp only
    split <;> rfl
  unfold InodeManager.new at hnew
  dsimp only at hnew
  split at hnew
  · cases hnew
  · cases hnew
    exact halloc _ _

theorem Fresh.owned {im : InodeManager} (h : Fresh im) : Owned im := by
  obtain ⟨root, hroot, _, hsize, hblocks⟩ := h.root
  have hnone : ∀ j, pointers im.bm root j = 0 := by
    intro j
    by_cases hj : j ≤ 100
    · rw [pointers_of_le _ _ hj, hblocks]
    · exact pointers_of_no_indirect _ (hblocks 100) (by omega)
  have honly : ∀ inum node, im.get_inode inum = some node → inum = 1 ∧ node = root := by
    intro inum node hlive
    have hinum : inum = 1 := by
      by_contra hne
      rw [h.others inum hne] at hlive
      cases hlive
    subst hinum
    rw [hroot] at hlive
    cases hlive
    exact ⟨rfl, rfl⟩
  refine ⟨h.wf, ?_, ?_, h.others 0 (by decide), ?_⟩
  · intro inum node hlive
    obtain ⟨rfl, rfl⟩ := honly inum node hlive
    refine ⟨0, ⟨?_, ?_⟩, ?_, Nat.zero_le _⟩
    · intro j hj
      exact absurd (hnone j) hj
    · intro j k hj
      exact absurd (hnone j) hj
    · intro j
      simp [hnone j]
  · intro inum other node node' hlive hlive' hne
    exact absurd ((honly inum node hlive).1.trans (honly other node' hlive').1.symm) hne
  · rw [h.last_alloced]
    decide

theorem Fresh.free_count {im : InodeManager} (h : Fresh im) : im.bm.free_count = 31732 := by
  have hall : im.bm.free_blocks = Finset.Ico 1036 32768 :=
    Finset.filter_true_of_mem fun i _ => h.no_block (UInt32.ofNat i)
  rw [BlockManager.free_count, hall, Nat.card_Ico]

theorem Fresh.sequential {im : InodeManager} (h : Fresh im) : Sequential im 1 := by
  refine ⟨?_, .inr ⟨rfl, by rw [h.last_alloced]; rfl⟩, by omega⟩
  intro inum
  by_cases hone : inum = 1
  · obtain ⟨root, hroot, _⟩ := h.root
    rw [hone, hroot]
    simp
  · have hval : inum.toNat ≠ 1 := fun hval => hone (UInt32.toNat_inj.mp hval)
    rw [h.others inum hone]
    simp
    omega

theorem InodeManager.Created.free_count {im im' : InodeManager} {type inum : UInt32} (h : Created im type inum im') :
    im'.bm.free_count = im.bm.free_count := by
  simp only [BlockManager.free_count, free_blocks, h.in_use]

namespace ExtentServer

theorem fresh_new {garbage : UInt32} {env : Env} {es : ExtentServer}
    (hnew : ExtentServer.new garbage env = .ok es) : Fresh es.im ∧ es.longest_put = 0 := by
  obtain ⟨im, him, hes⟩ := Except.bind_eq_ok_iff.mp hnew
  cases hes
  exact ⟨InodeManager.fresh_new him, rfl⟩

/-- On memory that holds zeros the constructor succeeds. -/
theorem new_zero (env : Env) : ∃ es, ExtentServer.new 0 env = .ok es := by
  rcases InodeManager.new_eq 0 env with ⟨_, hne⟩ | ⟨_, im, hok, _⟩
  · exact absurd (by decide) hne
  · exact ⟨{ im, longest_put := 0 }, by rw [ExtentServer.new, hok]; rfl⟩

/-- Every state that a run leads to satisfies the ownership invariant. -/
theorem ShortRun.owned {start es : ExtentServer} {history : List (ExtentOp × ExtentReply)}
    (hstart : Owned start.im) (hrun : ShortRun start history es) : Owned es.im :=
  hrun.invariant (P := fun es => Owned es.im) hstart fun _ _ _ _ howned hshort hstep =>
    (step_done howned hshort hstep).owned howned hshort

theorem FittingRun.short {start es : ExtentServer} {history : List (ExtentOp × ExtentReply)}
    (hrun : FittingRun start history es) : ShortRun start history es :=
  hrun.weaken fun _ _ => ExtentOp.Fits.short

/-- The first file created on a new server gets inum 2. -/
theorem create_fresh {start : ExtentServer} (hstart : Fresh start.im) (type : FileType) :
    ∃ im', start.create type.code = (.OK, 2, { start with im := im' }) ∧ Created start.im type.code 2 im' := by
  obtain ⟨inum, im', halloc, hinum, hcreated⟩ := hstart.sequential.next (by omega) type.code
  obtain rfl : inum = 2 := UInt32.toNat_inj.mp hinum
  exact ⟨im', by rw [create, halloc]; rfl, hcreated⟩

/-- With room for the largest file no allocation of a `put` fails. -/
theorem put_with_room {es es' : ExtentServer} {id : extentid_t} {buf : List UInt8} {reply : ExtentReply}
    (howned : Owned es.im) (hlen : buf.length < 2 ^ 31) (hroom : 229 ≤ es.im.bm.free_count)
    (hput : es.step (.put id buf) = .ok (reply, es')) :
    es'.im.bm.failed_allocs = es.im.bm.failed_allocs ∧ es.im.bm.free_count ≤ es'.im.bm.free_count + 229 := by
  have hshort : (ExtentOp.put id buf).Short := hlen
  cases step_done howned hshort hput with
  | put_dead _ => exact ⟨rfl, Nat.le_add_right _ _⟩
  | @put _ _ _ _ _ im' _ _ _ hdone =>
    have hfailed := hdone.written.failed
    have hfree := hdone.written.free
    unfold filled target at hfree
    unfold target at hfailed
    constructor
    · change im'.bm.failed_allocs = _
      omega
    · change _ ≤ im'.bm.free_count + 229
      omega

end ExtentServer

/-- Surroundings in which no time passes and all memory holds zeros. -/
def still : Env := { clock := fun _ => 0, heap := fun _ => Mem.zero }

end chfs
