import Chfs.Inodes.Accessed
import Chfs.Model.ExtentServer
import Chfs.Owned

namespace chfs

open BlockManager InodeManager

/-- The requests an extent server answers. -/
inductive ExtentOp where
  | create (type : UInt32)
  | put (id : extentid_t) (buf : List UInt8)
  | get (id : extentid_t)
  | getattr (id : extentid_t)
  | remove (id : extentid_t)

/-- Its answers. -/
inductive ExtentReply where
  | create (ret : Status) (id : extentid_t)
  | put (ret : Status)
  | get (ret : Status) (buf : List UInt8)
  | getattr (ret : Status) (a : Attr)
  | remove (ret : Status)

/-- The buffers that fit into one file. -/
def Fits (buf : List UInt8) : Prop := buf.length ≤ MAXFILE * BLOCK_SIZE

instance (buf : List UInt8) : Decidable (Fits buf) := inferInstanceAs (Decidable (_ ≤ _))

theorem fits_iff {buf : List UInt8} : Fits buf ↔ buf.length ≤ 116736 := by
  simp [Fits, MAXFILE]

/-- Each buffer stored fits into one file. -/
def ExtentOp.Fits : ExtentOp → Prop
  | .put _ buf => chfs.Fits buf
  | _ => True

/-- No buffer is too long for an `int`. -/
def ExtentOp.Short : ExtentOp → Prop
  | .put _ buf => buf.length < 2 ^ 31
  | _ => True

theorem ExtentOp.Fits.short {op : ExtentOp} (h : op.Fits) : op.Short := by
  cases op with
  | put id buf =>
    have h := fits_iff.mp h
    unfold ExtentOp.Short
    omega
  | _ => trivial

theorem int_of_size_of_lt {n : Nat} (hn : n < 2 ^ 31) : int_of_size n = n := by
  unfold int_of_size
  rw [Int.bmod_def]
  split <;> omega

namespace ExtentServer

def step (es : ExtentServer) : ExtentOp → Result (ExtentReply × ExtentServer)
  | .create type => .ok (.create (es.create type).1 (es.create type).2.1, (es.create type).2.2)
  | .put id buf => do
    let (ret, es) ← es.put id buf
    return (.put ret, es)
  | .get id => do
    let (ret, buf, es) ← es.get id
    return (.get ret buf, es)
  | .getattr id => .ok (.getattr (es.getattr id).1 (es.getattr id).2, es)
  | .remove id => do
    let (ret, es) ← es.remove id
    return (.remove ret, es)

/-- The runs in which every buffer fits into one file. -/
abbrev FittingRun (start : ExtentServer) : List (ExtentOp × ExtentReply) → ExtentServer → Prop :=
  Trace step (fun _ op => op.Fits) start

/-- The runs in which no buffer is too long for an `int`. -/
abbrev ShortRun (start : ExtentServer) : List (ExtentOp × ExtentReply) → ExtentServer → Prop :=
  Trace step (fun _ op => op.Short) start

/-- `create` allocates an inode, or returns 0. -/
theorem create_cases {es : ExtentServer} (howned : Owned es.im) (type : UInt32) :
    (∃ inum im', es.create type = (.OK, inum.toUInt64, { es with im := im' }) ∧
        Created es.im type inum im') ∨
      ((∀ inum, Visited es.im.last_alloced inum → es.im.get_inode inum ≠ none) ∧
        ∃ env, es.create type =
          (.OK, 0, { es with im := { es.im with env, failed_allocs := es.im.failed_allocs + 1 } })) := by
  rcases alloc_inode_cases howned.last_alloced type with ⟨inum, im', halloc, hcreated⟩ | ⟨hlive, env, halloc⟩
  · exact .inl ⟨inum, im', by rw [create, halloc], hcreated⟩
  · exact .inr ⟨hlive, env, by rw [create, halloc]; rfl⟩

/-- A `put` on an id that is not live changes nothing. -/
theorem put_dead {es : ExtentServer} {id : extentid_t} (hdead : es.im.get_inode (inum_of id) = none)
    (buf : List UInt8) :
    es.put id buf = .ok (.OK,
      { im := { es.im with env := es.im.malloc.2.env }, longest_put := max es.longest_put buf.length }) := by
  unfold put write_file
  have hdead' : es.im.malloc.2.get_inode (inum_of id) = none := hdead
  simp only [hdead']
  rfl

theorem put_done {es : ExtentServer} {id : extentid_t} (buf : List UInt8) {node : Inode} {p : Nat}
    (hlive : es.im.get_inode (inum_of id) = some node) (hwf : es.im.bm.WF) (hlayout : Layout es.im.bm node p)
    (hlen : buf.length < 2 ^ 31)
    (hok : CanShrink (pre_block_num node) (max 1 (blocks_for buf.length))
      (filled p (target buf.length) es.im.bm.free_count)) :
    ∃ im' node', es.put id buf =
        .ok (.OK, { im := im', longest_put := max es.longest_put buf.length }) ∧
      WriteDone (Mem.ofBytes (buf ++ [0]) (es.im.env.heap 0)) buf.length es.im (inum_of id) node p im' node' ∧
      ∃ k, im'.env.heap = fun i => es.im.env.heap (i + (k + 1)) := by
  have hlive' : es.im.malloc.2.get_inode (inum_of id) = some node := hlive
  obtain ⟨im', node', hrun, hdone⟩ := write_file_done buf.length
    (Mem.ofBytes (buf ++ [0]) (es.im.env.heap 0)) hlive' hwf hlayout hok
  obtain ⟨k, hk⟩ := hdone.memory
  refine ⟨im', node', ?_, ⟨hdone.live, hdone.type, hdone.size, hdone.others, hdone.last_alloced,
    hdone.failed_allocs, ⟨k + 1, hk⟩, hdone.written, hdone.frame⟩, k, hk⟩
  have hrun : es.im.malloc.2.write_file (inum_of id) (Mem.ofBytes (buf ++ [0]) es.im.malloc.1)
      (int_of_size buf.length) = .ok im' := by
    rw [int_of_size_of_lt hlen]
    exact hrun
  unfold put
  simp only [hrun, Except.ok_bind]
  rfl

theorem put_fault {es : ExtentServer} {id : extentid_t} (buf : List UInt8) {node : Inode} {p : Nat}
    (hlive : es.im.get_inode (inum_of id) = some node) (hwf : es.im.bm.WF) (hlayout : Layout es.im.bm node p)
    (hlen : buf.length < 2 ^ 31)
    (hnot : ¬ CanShrink (pre_block_num node) (max 1 (blocks_for buf.length))
      (filled p (target buf.length) es.im.bm.free_count)) :
    ∃ fault, es.put id buf = .error fault := by
  have hlive' : es.im.malloc.2.get_inode (inum_of id) = some node := hlive
  obtain ⟨fault, hfault⟩ := write_file_fault buf.length
    (Mem.ofBytes (buf ++ [0]) (es.im.env.heap 0)) hlive' hwf hlayout hnot
  have hfault : es.im.malloc.2.write_file (inum_of id) (Mem.ofBytes (buf ++ [0]) es.im.malloc.1)
      (int_of_size buf.length) = .error fault := by
    rw [int_of_size_of_lt hlen]
    exact hfault
  refine ⟨fault, ?_⟩
  unfold put
  simp only [hfault, Except.error_bind]

theorem get_dead {es : ExtentServer} {id : extentid_t} (hdead : es.im.get_inode (inum_of id) = none) :
    es.get id = .ok (.OK, [], es) := by
  unfold get
  rw [read_file_dead hdead]
  rfl

theorem get_done {es : ExtentServer} {id : extentid_t} {node : Inode} {p : Nat}
    (hlive : es.im.get_inode (inum_of id) = some node) (hwf : es.im.bm.WF) (hlayout : Layout es.im.bm node p)
    (hroom : pre_block_num node ≤ 228 ∨ (p ≤ 100 ∧ pre_block_num node * 512 < 2 ^ 31)) :
    ∃ im', es.get id = .ok (.OK, (file_bytes es.im.bm node (es.im.env.heap 0)).bytes node.size.toNat,
        { es with im := im' }) ∧
      Unchanged es.im im' := by
  obtain ⟨buf, im', hrun, hunchanged, hbytes⟩ := read_file_done hlive hwf hlayout hroom
  refine ⟨im', ?_, hunchanged⟩
  have heq : buf.bytes node.size.toNat = (file_bytes es.im.bm node (es.im.env.heap 0)).bytes node.size.toNat :=
    List.map_congr_left fun q hq => hbytes q (List.mem_range.mp hq)
  unfold get
  rw [hrun, ← heq]
  rfl

theorem get_fault {es : ExtentServer} {id : extentid_t} {node : Inode} {p : Nat}
    (hlive : es.im.get_inode (inum_of id) = some node) (hwf : es.im.bm.WF) (hlayout : Layout es.im.bm node p)
    (hroom : ¬(pre_block_num node ≤ 228 ∨ (p ≤ 100 ∧ pre_block_num node * 512 < 2 ^ 31))) :
    ∃ fault, es.get id = .error fault := by
  obtain ⟨fault, hfault⟩ := read_file_fault hlive hwf hlayout hroom
  refine ⟨fault, ?_⟩
  unfold get
  rw [hfault, Except.error_bind]

/-- A `get` changes at most the access time of the inode. -/
theorem get_accessed {es es' : ExtentServer} {id : extentid_t} {node : Inode} {ret : Status} {buf : List UInt8}
    (hlive : es.im.get_inode (inum_of id) = some node) (h : es.get id = .ok (ret, buf, es')) :
    Accessed es.im (inum_of id) es'.im ∧ es'.longest_put = es.longest_put := by
  obtain ⟨⟨out, im'⟩, hread, h⟩ := Except.bind_eq_ok_iff.mp h
  have haccessed := read_file_accessed hlive hread
  cases out with
  | none =>
    cases h
    exact ⟨haccessed, rfl⟩
  | some result =>
    cases h
    exact ⟨haccessed, rfl⟩

/-- Neither does a `remove`. -/
theorem remove_dead {es : ExtentServer} {id : extentid_t} (hdead : es.im.get_inode (inum_of id) = none) :
    es.remove id = .ok (.OK, es) := by
  unfold remove
  rw [remove_file_dead hdead]
  rfl

theorem remove_done {es : ExtentServer} {id : extentid_t} {node : Inode} {p : Nat}
    (hlive : es.im.get_inode (inum_of id) = some node) (hwf : es.im.bm.WF) (hlayout : Layout es.im.bm node p)
    (hok : CanRemove node.size.toNat p) :
    ∃ im', es.remove id = .ok (.OK, { es with im := im' }) ∧ RemoveDone es.im (inum_of id) node im' := by
  obtain ⟨im', hrun, hdone⟩ := remove_file_done hlive hwf hlayout hok
  refine ⟨im', ?_, hdone⟩
  unfold remove
  rw [hrun]
  rfl

theorem remove_fault {es : ExtentServer} {id : extentid_t} {node : Inode} {p : Nat}
    (hlive : es.im.get_inode (inum_of id) = some node) (hwf : es.im.bm.WF) (hlayout : Layout es.im.bm node p)
    (hnot : ¬ CanRemove node.size.toNat p) : ∃ fault, es.remove id = .error fault := by
  obtain ⟨fault, hfault⟩ := remove_file_fault hlive hwf hlayout hnot
  refine ⟨fault, ?_⟩
  unfold remove
  rw [hfault, Except.error_bind]

/-- The attributes come from the inode, and are 0 where there is none. -/
theorem getattr_eq (es : ExtentServer) (id : extentid_t) :
    es.getattr id = (.OK,
      match es.im.get_inode (inum_of id) with
      | none => Attr.zero
      | some node =>
        { type := node.type.toInt32.toUInt32, atime := node.atime, mtime := node.mtime,
          ctime := node.ctime, size := node.size }) := by
  unfold getattr get_attr
  split
  · next hlarge =>
    rw [get_inode_large _ (by simpa using hlarge)]
  · rfl

/-- Everything a step that returns can do, and when it does it. -/
inductive StepDone (es : ExtentServer) : ExtentOp → ExtentReply → ExtentServer → Prop where
  | created {type inum : UInt32} {im' : InodeManager} (hcreated : Created es.im type inum im') :
    StepDone es (.create type) (.create .OK inum.toUInt64) { es with im := im' }
  | not_created {type : UInt32} {env : Env}
      (hlive : ∀ inum, Visited es.im.last_alloced inum → es.im.get_inode inum ≠ none) :
    StepDone es (.create type) (.create .OK 0)
      { es with im := { es.im with env, failed_allocs := es.im.failed_allocs + 1 } }
  | put_dead {id : extentid_t} {buf : List UInt8} {env : Env} (hdead : es.im.get_inode (inum_of id) = none) :
    StepDone es (.put id buf) (.put .OK)
      { im := { es.im with env }, longest_put := max es.longest_put buf.length }
  | put {id : extentid_t} {buf : List UInt8} {node node' : Inode} {p : Nat} {im' : InodeManager}
      (hlive : es.im.get_inode (inum_of id) = some node) (hlayout : Layout es.im.bm node p)
      (hok : CanShrink (pre_block_num node) (max 1 (blocks_for buf.length))
        (filled p (target buf.length) es.im.bm.free_count))
      (hdone : WriteDone (Mem.ofBytes (buf ++ [0]) (es.im.env.heap 0)) buf.length es.im (inum_of id) node p
        im' node') :
    StepDone es (.put id buf) (.put .OK) { im := im', longest_put := max es.longest_put buf.length }
  | get_dead {id : extentid_t} (hdead : es.im.get_inode (inum_of id) = none) :
    StepDone es (.get id) (.get .OK []) es
  | get {id : extentid_t} {node : Inode} {p : Nat} {im' : InodeManager}
      (hlive : es.im.get_inode (inum_of id) = some node) (hlayout : Layout es.im.bm node p)
      (hroom : pre_block_num node ≤ 228 ∨ (p ≤ 100 ∧ pre_block_num node * 512 < 2 ^ 31))
      (hunchanged : Unchanged es.im im') :
    StepDone es (.get id)
      (.get .OK ((file_bytes es.im.bm node (es.im.env.heap 0)).bytes node.size.toNat)) { es with im := im' }
  | getattr {id : extentid_t} : StepDone es (.getattr id) (.getattr .OK (es.getattr id).2) es
  | remove_dead {id : extentid_t} (hdead : es.im.get_inode (inum_of id) = none) :
    StepDone es (.remove id) (.remove .OK) es
  | remove {id : extentid_t} {node : Inode} {p : Nat} {im' : InodeManager}
      (hlive : es.im.get_inode (inum_of id) = some node) (hlayout : Layout es.im.bm node p)
      (hok : CanRemove node.size.toNat p) (hdone : RemoveDone es.im (inum_of id) node im') :
    StepDone es (.remove id) (.remove .OK) { es with im := im' }

theorem step_done {es es' : ExtentServer} {op : ExtentOp} {reply : ExtentReply} (howned : Owned es.im)
    (hshort : op.Short) (hstep : es.step op = .ok (reply, es')) : StepDone es op reply es' := by
  cases op with
  | create type =>
    cases hstep
    rcases create_cases howned type with ⟨inum, im', hrun, hcreated⟩ | ⟨hlive, env, hrun⟩
    · rw [hrun]
      exact .created hcreated
    · rw [hrun]
      exact .not_created hlive
  | put id buf =>
    obtain ⟨⟨ret, es₁⟩, hput, hret⟩ := Except.bind_eq_ok_iff.mp hstep
    cases hret
    cases hnode : es.im.get_inode (inum_of id) with
    | none =>
      rw [put_dead hnode] at hput
      cases hput
      exact .put_dead hnode
    | some node =>
      obtain ⟨p, hlayout⟩ := howned.layout _ _ hnode
      by_cases hok : CanShrink (pre_block_num node) (max 1 (blocks_for buf.length))
          (filled p (target buf.length) es.im.bm.free_count)
      · obtain ⟨im', node', hrun, hdone, _⟩ := put_done buf hnode howned.wf hlayout hshort hok
        rw [hrun] at hput
        cases hput
        exact .put hnode hlayout hok hdone
      · obtain ⟨fault, hrun⟩ := put_fault buf hnode howned.wf hlayout hshort hok
        rw [hrun] at hput
        cases hput
  | get id =>
    obtain ⟨⟨ret, buf, es₁⟩, hget, hret⟩ := Except.bind_eq_ok_iff.mp hstep
    cases hret
    cases hnode : es.im.get_inode (inum_of id) with
    | none =>
      rw [get_dead hnode] at hget
      cases hget
      exact .get_dead hnode
    | some node =>
      obtain ⟨p, hlayout⟩ := howned.layout _ _ hnode
      by_cases hroom : pre_block_num node ≤ 228 ∨ (p ≤ 100 ∧ pre_block_num node * 512 < 2 ^ 31)
      · obtain ⟨im', hrun, hunchanged⟩ := get_done hnode howned.wf hlayout hroom
        rw [hrun] at hget
        cases hget
        exact .get hnode hlayout hroom hunchanged
      · obtain ⟨fault, hrun⟩ := get_fault hnode howned.wf hlayout hroom
        rw [hrun] at hget
        cases hget
  | getattr id =>
    cases hstep
    exact .getattr
  | remove id =>
    obtain ⟨⟨ret, es₁⟩, hremove, hret⟩ := Except.bind_eq_ok_iff.mp hstep
    cases hret
    cases hnode : es.im.get_inode (inum_of id) with
    | none =>
      rw [remove_dead hnode] at hremove
      cases hremove
      exact .remove_dead hnode
    | some node =>
      obtain ⟨p, hlayout⟩ := howned.layout _ _ hnode
      by_cases hok : CanRemove node.size.toNat p
      · obtain ⟨im', hrun, hdone⟩ := remove_done hnode howned.wf hlayout hok
        rw [hrun] at hremove
        cases hremove
        exact .remove hnode hlayout hok hdone
      · obtain ⟨fault, hrun⟩ := remove_fault hnode howned.wf hlayout hok
        rw [hrun] at hremove
        cases hremove

/-- A step keeps the invariant. -/
theorem StepDone.owned {es es' : ExtentServer} {op : ExtentOp} {reply : ExtentReply}
    (h : StepDone es op reply es') (howned : Owned es.im) (hshort : op.Short) : Owned es'.im := by
  cases h with
  | created hcreated => exact hcreated.owned howned
  | not_created _ => exact owned_failed howned _ _
  | put_dead _ => exact howned.of_unchanged (unchanged_env _ _)
  | put hlive _ _ hdone =>
    unfold ExtentOp.Short at hshort
    exact hdone.owned howned hlive (by omega)
  | get_dead _ => exact howned
  | get _ _ _ hunchanged => exact howned.of_unchanged hunchanged
  | getattr => exact howned
  | remove_dead _ => exact howned
  | remove hlive _ _ hdone => exact hdone.owned howned hlive

end ExtentServer

end chfs
