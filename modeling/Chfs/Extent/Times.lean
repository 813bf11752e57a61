import Chfs.Extent.Reaches
import Chfs.Inodes.Times

namespace chfs

open BlockManager InodeManager

/-- The inums whose inodes a request stamps. -/
def ExtentOp.stamps : ExtentOp → ExtentReply → Set UInt32
  | .create _, .create _ id => {inum_of id}
  | .put id _, _ => {inum_of id}
  | _, _ => ∅

/-- The constructor stamps the inode of the root directory. -/
theorem InodeManager.new_stamped {garbage : UInt32} {env : Env} {im : InodeManager}
    (hnew : InodeManager.new garbage env = .ok im) {inum : UInt32} {node : Inode}
    (hlive : im.get_inode inum = some node) : Stamped env node := by
  have hinum : inum = 1 := by
    by_contra hne
    rw [(InodeManager.fresh_new hnew).others inum hne] at hlive
    cases hlive
  subst hinum
  obtain ⟨im₀, him₀⟩ : ∃ im₀ : InodeManager,
      im₀ = { bm := BlockManager.new, last_alloced := garbage, env, failed_allocs := 0 } := ⟨_, rfl⟩
  obtain ⟨root_dir, im₁, halloc⟩ : ∃ root_dir im₁, im₀.alloc_inode FileType.T_DIR.code = (root_dir, im₁) := ⟨_, _, rfl⟩
  unfold InodeManager.new at hnew
  rw [← him₀] at hnew
  dsimp only at hnew
  rw [halloc] at hnew
  by_cases hroot : root_dir = 1
  · rw [if_neg (not_not.mpr hroot)] at hnew
    cases hnew
    rw [hroot] at halloc
    have hstamped := alloc_inode_stamped (by decide) halloc (get_inode_blank (by rw [him₀]) 1) hlive
    rwa [him₀] at hstamped
  · rw [if_pos hroot] at hnew
    cases hnew

namespace ExtentServer

variable {es es' es'' : ExtentServer} {op : ExtentOp} {reply : ExtentReply} {id : extentid_t} {buf : List UInt8}
  {ret : Status} {touched touched' : Set UInt32} {node node' : Inode} {inum : UInt32}

/-- A request takes the clock further. -/
theorem later_of_step (h : es.step op = .ok (reply, es')) : Env.Later es.im.env es'.im.env := by
  cases op with
  | create type =>
    cases h
    exact alloc_inode_later es.im type
  | put id buf =>
    obtain ⟨⟨ret, es₁⟩, hput, hret⟩ := Except.bind_eq_ok_iff.mp h
    cases hret
    obtain ⟨im', hwrite, hret⟩ := Except.bind_eq_ok_iff.mp hput
    cases hret
    have hlater := write_file_later hwrite
    exact hlater
  | get id =>
    obtain ⟨⟨ret, buf, es₁⟩, hget, hret⟩ := Except.bind_eq_ok_iff.mp h
    cases hret
    obtain ⟨⟨out, im'⟩, hread, hret⟩ := Except.bind_eq_ok_iff.mp hget
    have hlater := read_file_later hread
    cases out <;> cases hret <;> exact hlater
  | getattr id =>
    cases h
    exact .refl _
  | remove id =>
    obtain ⟨⟨ret, es₁⟩, hremove, hret⟩ := Except.bind_eq_ok_iff.mp h
    cases hret
    obtain ⟨im', hfile, hret⟩ := Except.bind_eq_ok_iff.mp hremove
    cases hret
    exact .of_clock (remove_file_clock hfile)

/-- A `put` stamps the inode, if there is one. -/
theorem put_stamped (hput : es.put id buf = .ok (ret, es')) (hlive' : es'.im.get_inode (inum_of id) = some node') :
    Stamped es.im.env node' := by
  cases hnode : es.im.get_inode (inum_of id) with
  | none =>
    rw [put_dead hnode] at hput
    cases hput
    exact absurd (hlive'.symm.trans hnode) (by simp)
  | some node =>
    obtain ⟨im', hwrite, hret⟩ := Except.bind_eq_ok_iff.mp hput
    cases hret
    change es.im.malloc.2.write_file _ _ _ = _ at hwrite
    have hbefore : es.im.malloc.2.get_inode (inum_of id) = some node := hnode
    have hstamped : Stamped es.im.malloc.2.env node' := write_file_stamped hbefore hwrite hlive'
    exact hstamped

/-- And there is one if there was one before. -/
theorem put_live (howned : Owned es.im) (hlen : buf.length < 2 ^ 31) (hput : es.put id buf = .ok (ret, es'))
    (hlive : es.im.get_inode (inum_of id) ≠ none) : ∃ node', es'.im.get_inode (inum_of id) = some node' := by
  have hstep : es.step (.put id buf) = .ok (.put ret, es') := by
    rw [step, hput]
    rfl
  have hshort : (ExtentOp.put id buf).Short := hlen
  cases step_done howned hshort hstep with
  | put_dead hdead => exact absurd hdead hlive
  | put _ _ _ hdone => exact ⟨_, hdone.live⟩

/-- On the way from the first server to the second no inodes but the `touched` ones are
    stamped, none gets other times or another type, and no other inode comes to life. -/
structure Passes (touched : Set UInt32) (es es' : ExtentServer) : Prop where
  longest : es.longest_put ≤ es'.longest_put
  later : Env.Later es.im.env es'.im.env
  owned : Owned es.im → es'.longest_put < 2 ^ 31 → Owned es'.im
  inodes : Owned es.im → es'.longest_put < 2 ^ 31 → ∀ inum node', es'.im.get_inode inum = some node' →
    (inum ∈ touched ∧ Stamped es.im.env node') ∨
      ∃ node, es.im.get_inode inum = some node ∧ node'.type = node.type ∧ node'.mtime = node.mtime ∧
        node'.ctime = node.ctime

namespace Passes

theorem refl (es : ExtentServer) : Passes ∅ es es where
  longest := le_refl _
  later := .refl _
  owned := fun howned _ => howned
  inodes := fun _ _ _ node' hlive => .inr ⟨node', hlive, rfl, rfl, rfl⟩

theorem trans (h : Passes touched es es') (h' : Passes touched' es' es'') : Passes (touched ∪ touched') es es'' where
  longest := h.longest.trans h'.longest
  later := h.later.trans h'.later
  owned := fun howned hlong => h'.owned (h.owned howned (h'.longest.trans_lt hlong)) hlong
  inodes := by
    intro howned hlong inum node'' hlive
    have hlong' := h'.longest.trans_lt hlong
    rcases h'.inodes (h.owned howned hlong') hlong inum node'' hlive with ⟨hmem, hstamped⟩ |
      ⟨node', hlive', ht', hm', hc'⟩
    · exact .inl ⟨.inr hmem, hstamped.of_later h.later⟩
    · rcases h.inodes howned hlong' inum node' hlive' with ⟨hmem, hstamped⟩ | ⟨node, hlive, ht, hm, hc⟩
      · exact .inl ⟨.inl hmem, hstamped.congr hm' hc'⟩
      · exact .inr ⟨node, hlive, ht'.trans ht, hm'.trans hm, hc'.trans hc⟩

theorem mono (h : Passes touched es es') (hsub : touched ⊆ touched') : Passes touched' es es' where
  longest := h.longest
  later := h.later
  owned := h.owned
  inodes := by
    intro howned hlong inum node' hlive
    exact (h.inodes howned hlong inum node' hlive).imp_left fun hstamped => ⟨hsub hstamped.1, hstamped.2⟩

end Passes

/-- Where every other inode is the same after a step, it may only touch the one. -/
theorem passes_of_others (hstep : es.step op = .ok (reply, es'))
    (hinodes : Owned es.im → op.Short → ∀ inum node', es'.im.get_inode inum = some node' →
      (inum ∈ touched ∧ Stamped es.im.env node') ∨
        ∃ node, es.im.get_inode inum = some node ∧ node'.type = node.type ∧ node'.mtime = node.mtime ∧
          node'.ctime = node.ctime) :
    Passes touched es es' := by
  obtain ⟨hle, hput⟩ := longest_of_step hstep
  have hshort : es'.longest_put < 2 ^ 31 → op.Short := by
    intro hlong
    cases op with
    | put id buf => exact (hput id buf rfl).trans_lt hlong
    | _ => trivial
  refine ⟨hle, later_of_step hstep, ?_, ?_⟩
  · intro howned hlong
    exact (step_done howned (hshort hlong) hstep).owned howned (hshort hlong)
  · intro howned hlong
    exact hinodes howned (hshort hlong)

/-- A request touches the inode it creates or writes. -/
theorem passes_of_step (hstep : es.step op = .ok (reply, es')) : Passes (op.stamps reply) es es' := by
  refine passes_of_others hstep ?_
  intro howned hshort inum node' hlive'
  cases step_done howned hshort hstep with
  | @created type first im' hcreated =>
    by_cases heq : inum = first
    · left
      have hid : inum_of first.toUInt64 = first := inum_of_toUInt64 (by have := hcreated.bounds.2; omega)
      subst heq
      have hcreate : es.im.alloc_inode type = (inum, im') := by
        simp only [step, create, Except.ok.injEq, Prod.mk.injEq, ExtentReply.create.injEq, true_and] at hstep
        obtain ⟨hinum, him⟩ := hstep
        exact Prod.ext (UInt32.toUInt64_inj.mp hinum) (congrArg ExtentServer.im him)
      exact ⟨by rw [ExtentOp.stamps, hid]; rfl, alloc_inode_stamped hcreated.bounds.2 hcreate hcreated.dead hlive'⟩
    · right
      have hsame := hcreated.others inum heq
      exact ⟨node', hsame ▸ hlive', rfl, rfl, rfl⟩
  | not_created _ => exact .inr ⟨node', hlive', rfl, rfl, rfl⟩
  | put_dead _ => exact .inr ⟨node', hlive', rfl, rfl, rfl⟩
  | @put id buf node _ p im' _ _ _ hdone =>
    by_cases heq : inum = inum_of id
    · left
      subst heq
      obtain ⟨⟨ret, es₁⟩, hput, hret⟩ := Except.bind_eq_ok_iff.mp hstep
      cases hret
      exact ⟨rfl, put_stamped hput hlive'⟩
    · right
      exact ⟨node', (hdone.others inum heq).symm.trans hlive', rfl, rfl, rfl⟩
  | get_dead _ => exact .inr ⟨node', hlive', rfl, rfl, rfl⟩
  | @get id node p im' hlive _ _ _ =>
    right
    obtain ⟨⟨ret, buf, es₁⟩, hget, hret⟩ := Except.bind_eq_ok_iff.mp hstep
    cases hret
    obtain ⟨haccessed, _⟩ := get_accessed hlive hget
    by_cases heq : inum = inum_of id
    · subst heq
      obtain ⟨before, now, hbefore, hafter⟩ := haccessed.inode
      rw [hafter] at hlive'
      cases hlive'
      exact ⟨before, hbefore, rfl, rfl, rfl⟩
    · exact ⟨node', (haccessed.others inum heq).symm.trans hlive', rfl, rfl, rfl⟩
  | getattr => exact .inr ⟨node', hlive', rfl, rfl, rfl⟩
  | remove_dead _ => exact .inr ⟨node', hlive', rfl, rfl, rfl⟩
  | @remove id node p im' _ _ _ hdone =>
    right
    have hinodes := hdone.inodes
    rw [hinodes] at hlive'
    split at hlive'
    · cases hlive'
    · exact ⟨node', hlive', rfl, rfl, rfl⟩

namespace Passes

theorem of_get (h : es.get id = .ok (ret, buf, es')) : Passes ∅ es es' := by
  have hstep : es.step (.get id) = .ok (.get ret buf, es') := by
    rw [step, h]
    rfl
  exact passes_of_step hstep

theorem of_put (h : es.put id buf = .ok (ret, es')) : Passes {inum_of id} es es' := by
  have hstep : es.step (.put id buf) = .ok (.put ret, es') := by
    rw [step, h]
    rfl
  exact passes_of_step hstep

theorem of_remove (h : es.remove id = .ok (ret, es')) : Passes ∅ es es' := by
  have hstep : es.step (.remove id) = .ok (.remove ret, es') := by
    rw [step, h]
    rfl
  exact passes_of_step hstep

theorem of_create {type : UInt32} (h : es.create type = (ret, id, es')) : Passes {inum_of id} es es' := by
  have hstep : es.step (.create type) = .ok (.create ret id, es') := by
    rw [step, h]
  exact passes_of_step hstep

/-- If every inode was changed no later than it was written, this stays so. -/
theorem ordered (h : Passes touched es es') (howned : Owned es.im) (hlong : es'.longest_put < 2 ^ 31)
    (hticks : es.im.env.Ticks) (hordered : ∀ inum node, es.im.get_inode inum = some node → node.ctime ≤ node.mtime) :
    ∀ inum node', es'.im.get_inode inum = some node' → node'.ctime ≤ node'.mtime := by
  intro inum node' hlive'
  rcases h.inodes howned hlong inum node' hlive' with ⟨_, hstamped⟩ | ⟨node, hlive, _, hmtime, hctime⟩
  · exact hstamped.ctime_le_mtime hticks
  · rw [hmtime, hctime]
    exact hordered inum node hlive

end Passes

end ExtentServer

end chfs
