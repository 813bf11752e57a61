import Chfs.Extent.DiskFull
import Chfs.Extent.WholeFiles

namespace chfs

open BlockManager InodeManager

namespace InodeManager

variable {im im' : InodeManager} {inum : UInt32} {type : FileType}

/-- `alloc_inode` finds a free inode as long as there is one. -/
structure AllocatesFree (im : InodeManager) (type : FileType) : Prop where
  zero : (im.alloc_inode type.code).1 = 0 →
    ∀ inum : UInt32, 1 ≤ inum.toNat → inum.toNat ≤ INODE_NUM → im.get_inode inum ≠ none
  free : (∃ inum : UInt32, 1 ≤ inum.toNat ∧ inum.toNat ≤ INODE_NUM ∧ im.get_inode inum = none) →
    ∃ inum im', im.alloc_inode type.code = (inum, im') ∧ 1 ≤ inum.toNat ∧ inum.toNat ≤ INODE_NUM ∧
      im.get_inode inum = none ∧ im'.get_inode inum ≠ none

/-- The last inode is the only free one, and the search starts too early to come past it. -/
structure OnlyLastFree (im : InodeManager) : Prop where
  last : im.get_inode (UInt32.ofNat INODE_NUM) = none
  others : ∀ inum : UInt32, 1 ≤ inum.toNat → inum.toNat < INODE_NUM → im.get_inode inum ≠ none
  cursor : im.last_alloced.toNat < INODE_NUM - 1

/-- The search comes past every inum, but past the last one only when it starts at it or
    just before. -/
theorem visited_iff {last : UInt32} (hlast : last.toNat ≤ 1024) (inum : UInt32) :
    Visited last inum ↔ 1 ≤ inum.toNat ∧ inum.toNat ≤ 1024 ∧ (inum.toNat = 1024 → 1023 ≤ last.toNat) := by
  constructor
  · rintro ⟨i, hlo, hhi, rfl⟩
    refine ⟨(to_alloc_bounds hlast hlo hhi).1, (to_alloc_bounds hlast hlo hhi).2, ?_⟩
    rw [to_alloc_toNat hlast hhi]
    split <;> omega
  · rintro ⟨hlo, hhi, hend⟩
    -- the round that comes past it: before the search wraps around, or after it
    have hround : ∃ i, 1 ≤ i ∧ i ≤ 1024 ∧
        (if 1024 ≤ i + last.toNat then (i + last.toNat) % 1024 + 1 else i + last.toNat) = inum.toNat := by
      by_cases hahead : last.toNat < inum.toNat ∧ inum.toNat < 1024
      · refine ⟨inum.toNat - last.toNat, by omega, by omega, ?_⟩
        rw [if_neg (by omega)]
        omega
      · by_cases hfar : last.toNat = 1024
        · by_cases hfirst : inum.toNat = 1
          · refine ⟨1024, by omega, by omega, ?_⟩
            rw [if_pos (by omega)]
            omega
          · refine ⟨inum.toNat - 1, by omega, by omega, ?_⟩
            rw [if_pos (by omega)]
            omega
        · refine ⟨1023 + inum.toNat - last.toNat, by omega, by omega, ?_⟩
          rw [if_pos (by omega)]
          omega
    obtain ⟨i, hi, hi', hat⟩ := hround
    exact ⟨i, hi, hi', UInt32.toNat_inj.mp ((to_alloc_toNat hlast hi').trans hat)⟩

/-- A created inode of one of the types is live. -/
theorem Created.live (h : Created im type.code inum im') : im'.get_inode inum ≠ none := by
  obtain ⟨node, hstored, htype, _⟩ := h.stored
  rw [hstored, htype, if_neg type.stored_code.2]
  simp

/-- It does not find it. -/
theorem OnlyLastFree.alloc_inode (h : OnlyLastFree im) (hlast : im.last_alloced.toNat ≤ 1024) (type : UInt32) :
    ∃ env, im.alloc_inode type = (0, { im with env, failed_allocs := im.failed_allocs + 1 }) := by
  apply alloc_inode_none
  intro inum hvisit
  obtain ⟨hlo, hhi, hreach⟩ := (visited_iff hlast inum).mp hvisit
  have hcursor : im.last_alloced.toNat < 1023 := h.cursor
  have hlt : inum.toNat < 1024 := by omega
  exact h.others inum hlo hlt

/-- The search fails to find a free inode only when the last one is the only one and the
    search does not come past it. -/
theorem allocatesFree_iff_of_bounds (hlast : im.last_alloced.toNat ≤ 1024) :
    AllocatesFree im type ↔ ¬ OnlyLastFree im := by
  have hvisited := visited_iff hlast
  constructor
  · intro halloc honly
    obtain ⟨env, hrun⟩ := honly.alloc_inode hlast type.code
    exact halloc.zero (by rw [hrun]) _ (by decide) (by decide) honly.last
  · intro hnot
    rcases alloc_inode_cases hlast type.code with ⟨first, im', hrun, hcreated⟩ | ⟨hlive, env, hrun⟩
    · have hbounds := hcreated.bounds
      refine ⟨?_, fun _ => ⟨first, im', hrun, hbounds.1, hbounds.2, hcreated.dead, hcreated.live⟩⟩
      intro hzero
      rw [hrun] at hzero
      rw [show first = 0 from hzero] at hbounds
      exact absurd hbounds.1 (by decide)
    · have hall : ∀ inum : UInt32, 1 ≤ inum.toNat → inum.toNat ≤ INODE_NUM → im.get_inode inum ≠ none := by
        intro inum hlo hhi hdead
        have hhi : inum.toNat ≤ 1024 := hhi
        by_cases hend : inum.toNat = 1024 ∧ im.last_alloced.toNat < 1023
        · have hinum : inum = UInt32.ofNat INODE_NUM := UInt32.toNat_inj.mp hend.1
          refine hnot ⟨hinum ▸ hdead, ?_, hend.2⟩
          intro other hother hother'
          have hother' : other.toNat < 1024 := hother'
          exact hlive other ((hvisited other).mpr ⟨hother, by omega, by omega⟩)
        · exact hlive inum ((hvisited inum).mpr ⟨hlo, hhi, by omega⟩) hdead
      refine ⟨fun _ => hall, ?_⟩
      rintro ⟨inum, hlo, hhi, hdead⟩
      exact absurd hdead (hall inum hlo hhi)

end InodeManager

/-- The requests that create inodes of the three types and remove inodes. -/
def ExtentOp.CreatesOrRemoves : ExtentOp → Prop
  | .create type => ∃ t : FileType, type = t.code
  | .remove _ => True
  | _ => False

theorem ExtentOp.CreatesOrRemoves.fits {op : ExtentOp} (h : op.CreatesOrRemoves) : op.Fits := by
  cases op with
  | put _ _ => exact False.elim h
  | _ => trivial

namespace ExtentServer

variable {start es es' : ExtentServer} {type : FileType}

/-- In every state that creations and removals lead to, `alloc_inode` finds a free inode
    unless the last one is the only one and the one created last lies before its
    predecessor. -/
theorem allocatesFree_iff {garbage : UInt32} {env : Env} {history : List (ExtentOp × ExtentReply)}
    (hnew : ExtentServer.new garbage env = .ok start)
    (hrun : Trace step (fun _ op => op.CreatesOrRemoves) start history es) :
    AllocatesFree es.im type ↔ ¬ OnlyLastFree es.im := by
  have hfitting : FittingRun start history es := hrun.weaken fun _ _ hop => hop.fits
  exact allocatesFree_iff_of_bounds (ShortRun.owned (fresh_new hnew).1.owned hfitting.short).last_alloced

/-- The next file gets the next inode. -/
theorem create_next {n : Nat} (howned : Owned es.im) (hwhole : AllWhole es.im) (hsequential : Sequential es.im n)
    (hn : n < 1024)
    (type : FileType) :
    ∃ (inum : UInt32) (es' : ExtentServer), inum.toNat = n + 1 ∧
      es.step (.create type.code) = .ok (.create .OK inum.toUInt64, es') ∧ Owned es'.im ∧ AllWhole es'.im ∧
      Sequential es'.im (n + 1) := by
  obtain ⟨inum, im', halloc, hinum, hcreated⟩ := hsequential.next hn type.code
  have hcreate : es.create type.code = (.OK, inum.toUInt64, { es with im := im' }) := by
    rw [create, halloc]
  have hdone : StepDone es (.create type.code) (.create .OK inum.toUInt64) { es with im := im' } := .created hcreated
  refine ⟨inum, { es with im := im' }, hinum, ?_, hcreated.owned howned, hdone.all_whole howned hwhole trivial,
    hsequential.created hcreated hinum type.stored_code.2⟩
  rw [step, hcreate]

/-- Creating one file after another uses the inodes up. -/
theorem create_all (hstart : Fresh start.im) {n : Nat} (hn : n ≤ 1023) :
    ∃ es, start.run (List.replicate n (.create FileType.T_FILE.code)) = .ok es ∧ Owned es.im ∧ AllWhole es.im ∧
      Sequential es.im (n + 1) := by
  induction n with
  | zero => exact ⟨start, rfl, hstart.owned, AllWhole.fresh hstart, (filling_fresh hstart).sequential⟩
  | succ n ih =>
    obtain ⟨es, hrun, howned, hwhole, hsequential⟩ := ih (by omega)
    obtain ⟨inum, es', _, hcreate, howned', hwhole', hsequential'⟩ :=
      create_next howned hwhole hsequential (by omega) .T_FILE
    refine ⟨es', ?_, howned', hwhole', hsequential'⟩
    rw [List.replicate_succ', run_append, hrun, Except.ok_bind, run, hcreate]
    rfl

/-- Removing a whole file frees its inode and no other. -/
theorem remove_frees {id : extentid_t} {node : Inode} (howned : Owned es.im) (hwhole : AllWhole es.im)
    (hlive : es.im.get_inode (inum_of id) = some node) :
    ∃ es', es.step (.remove id) = .ok (.remove .OK, es') ∧ Owned es'.im ∧ AllWhole es'.im ∧
      es'.im.last_alloced = es.im.last_alloced ∧
      ∀ inum, es'.im.get_inode inum = none ↔ inum = inum_of id ∨ es.im.get_inode inum = none := by
  obtain ⟨p, hlayout, hp⟩ := hwhole _ node hlive
  obtain ⟨im', hrun, hremove⟩ := remove_done hlive howned.wf hlayout (Whole.can_remove hlayout hp)
  have hdone : StepDone es (.remove id) (.remove .OK) { es with im := im' } :=
    .remove hlive hlayout (Whole.can_remove hlayout hp) hremove
  refine ⟨{ es with im := im' }, by rw [step, hrun]; rfl, hremove.owned howned hlive,
    hdone.all_whole howned hwhole trivial, hremove.last_alloced, ?_⟩
  intro inum
  rw [hremove.inodes]
  by_cases heq : inum = inum_of id
  · simp [heq]
  · simp [heq]

/-- A file and a directory are created and the file is removed. Its inode is free again, and is not the last one. -/
theorem allocatesFree_iff_removed :
    ∃ start es, ExtentServer.new 0 still = .ok start ∧
      Trace step (fun _ op => op.CreatesOrRemoves) start [(.remove 2, .remove .OK),
        (.create FileType.T_DIR.code, .create .OK 3), (.create FileType.T_FILE.code, .create .OK 2)] es ∧
      es.im.get_inode 2 = none ∧ AllocatesFree es.im .T_FILE := by
  obtain ⟨start, hnew⟩ := new_zero still
  have hfresh := (fresh_new hnew).1
  obtain ⟨two, es₁, htwo, hcreate₁, howned₁, hwhole₁, hsequential₁⟩ :=
    create_next hfresh.owned (AllWhole.fresh hfresh) (filling_fresh hfresh).sequential (by omega) .T_FILE
  obtain ⟨three, es₂, hthree, hcreate₂, howned₂, hwhole₂, hsequential₂⟩ :=
    create_next howned₁ hwhole₁ hsequential₁ (by omega) .T_DIR
  obtain rfl : two = 2 := UInt32.toNat_inj.mp htwo
  obtain rfl : three = 3 := UInt32.toNat_inj.mp hthree
  have hlive : es₂.im.get_inode (inum_of 2) ≠ none := by
    rw [Ne, hsequential₂.live]
    decide
  obtain ⟨node, hnode⟩ := Option.ne_none_iff_exists'.mp hlive
  obtain ⟨es, hremove, _, _, _, hdead⟩ := remove_frees howned₂ hwhole₂ hnode
  have hrun : Trace step (fun _ op => op.CreatesOrRemoves) start [(.remove 2, .remove .OK),
      (.create FileType.T_DIR.code, .create .OK 3), (.create FileType.T_FILE.code, .create .OK 2)] es :=
    .cons (.cons (.cons .nil ⟨_, rfl⟩ hcreate₁) ⟨_, rfl⟩ hcreate₂) trivial hremove
  have hfree : es.im.get_inode 2 = none := (hdead 2).mpr (.inl rfl)
  exact ⟨start, es, hnew, hrun, hfree,
    (allocatesFree_iff hnew hrun).mpr fun honly => honly.others 2 (by decide) (by decide) hfree⟩

/-- With every inode in use, removing and creating inode 5 and then removing the last one
    leaves a free inode that `alloc_inode` does not find. -/
theorem last_inode_is_not_found :
    ∃ start es, ExtentServer.new 0 still = .ok start ∧
      start.run (List.replicate 1023 (.create FileType.T_FILE.code) ++
        [.remove 5, .create FileType.T_FILE.code, .remove 1024]) = .ok es ∧
      es.im.get_inode 1024 = none ∧ (es.im.alloc_inode FileType.T_FILE.code).1 = 0 ∧
      ¬ AllocatesFree es.im .T_FILE := by
  obtain ⟨start, hnew⟩ := new_zero still
  obtain ⟨es₁, hrun₁, howned₁, hwhole₁, hsequential⟩ := create_all (fresh_new hnew).1 (le_refl 1023)
  have hfull : ∀ inum : UInt32, 1 ≤ inum.toNat → inum.toNat ≤ 1024 → es₁.im.get_inode inum ≠ none := by
    intro inum hlo hhi hdead
    exact (hsequential.live inum).mp hdead ⟨hlo, hhi⟩
  obtain ⟨five, hfive⟩ := Option.ne_none_iff_exists'.mp (hfull (inum_of 5) (by decide) (by decide))
  obtain ⟨es₂, hrun₂, howned₂, hwhole₂, _, hdead₂⟩ := remove_frees howned₁ hwhole₁ hfive
  -- the inode created next is 5 again
  obtain ⟨inum, im₃, halloc, hcreated⟩ := alloc_inode_done howned₂.last_alloced FileType.T_FILE.code
    ((visited_iff howned₂.last_alloced _).mpr ⟨by decide, by decide, fun hend => absurd hend (by decide)⟩)
    ((hdead₂ _).mpr (.inl rfl))
  obtain rfl : inum = inum_of 5 := by
    rcases (hdead₂ inum).mp hcreated.dead with heq | hdead
    · exact heq
    · exact absurd hdead (hfull inum hcreated.bounds.1 hcreated.bounds.2)
  obtain ⟨es₃, hes₃⟩ : ∃ es₃ : ExtentServer, es₃ = { es₂ with im := im₃ } := ⟨_, rfl⟩
  have him₃ : im₃ = es₃.im := by rw [hes₃]
  have hrun₃ : es₂.step (.create FileType.T_FILE.code) = .ok (.create .OK (inum_of 5).toUInt64, es₃) := by
    rw [step, create, halloc, hes₃]
  have hdone₃ : StepDone es₂ (.create FileType.T_FILE.code) (.create .OK (inum_of 5).toUInt64) es₃ := by
    rw [hes₃]
    exact .created hcreated
  have hwhole₃ := hdone₃.all_whole howned₂ hwhole₂ trivial
  rw [him₃] at hcreated
  have howned₃ := hcreated.owned howned₂
  have hfull₃ : ∀ inum : UInt32, 1 ≤ inum.toNat → inum.toNat ≤ 1024 → es₃.im.get_inode inum ≠ none := by
    intro inum hlo hhi
    by_cases heq : inum = inum_of 5
    · rw [heq]
      exact hcreated.live
    · rw [hcreated.others inum heq]
      intro hdead
      rcases (hdead₂ inum).mp hdead with heq' | hdead
      · exact heq heq'
      · exact hfull inum hlo hhi hdead
  obtain ⟨last, hlast⟩ := Option.ne_none_iff_exists'.mp (hfull₃ (inum_of 1024) (by decide) (by decide))
  obtain ⟨es₄, hrun₄, howned₄, _, hcursor, hdead₄⟩ := remove_frees howned₃ hwhole₃ hlast
  have honly : OnlyLastFree es₄.im := by
    refine ⟨(hdead₄ _).mpr (.inl rfl), ?_, ?_⟩
    · intro inum hlo hhi hdead
      have hhi : inum.toNat < 1024 := hhi
      rcases (hdead₄ inum).mp hdead with heq | hdead
      · have hval : inum.toNat = 1024 := by rw [heq]; rfl
        omega
      · exact hfull₃ inum hlo (by omega) hdead
    · rw [hcursor, hcreated.last_alloced]
      decide
  have hnot : ¬ AllocatesFree es₄.im .T_FILE := fun halloc =>
    (allocatesFree_iff_of_bounds howned₄.last_alloced).mp halloc honly
  refine ⟨start, es₄, hnew, ?_, honly.last, ?_, hnot⟩
  · rw [run_append, hrun₁, Except.ok_bind]
    simp only [run, hrun₂, hrun₃, hrun₄, Except.ok_bind]
  · obtain ⟨env, hrun⟩ := honly.alloc_inode howned₄.last_alloced FileType.T_FILE.code
    rw [hrun]

end ExtentServer

end chfs
