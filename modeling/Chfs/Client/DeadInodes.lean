import Chfs.Client.Unlinking
import Chfs.Client.FileSpec
import Chfs.Client.Failures
import Chfs.Model.Fuse

namespace chfs

open BlockManager InodeManager ExtentServer

/-- The calls for the data and the attributes of an inode. -/
inductive ClientOp.Uses : ClientOp → UInt64 → Prop where
  | read {ino size : UInt64} {off : Int64} : Uses (.read ino size off) ino
  | write {ino size : UInt64} {off : Int64} {data : Mem} : Uses (.write ino size off data) ino
  | setattr {ino size : UInt64} : Uses (.setattr ino size) ino
  | getfile {ino : UInt64} : Uses (.getfile ino) ino
  | getdir {ino : UInt64} : Uses (.getdir ino) ino

/-- The offsets in a call are not negative. -/
def ClientOp.Forward : ClientOp → Prop
  | .read _ _ off | .write _ _ off _ => 0 ≤ off.toInt
  | _ => True

namespace ChfsClient

variable {c c' : ChfsClient} {op : ClientOp} {reply : ClientReply} {ino : UInt64} {ret : Status}

/-- The call returns, with a status other than OK. -/
def Refuses (c : ChfsClient) (op : ClientOp) : Prop :=
  ∃ reply c', c.step op = .ok (reply, c') ∧ reply.ret ≠ .OK

theorem getfile_ok (c : ChfsClient) (ino : UInt64) (fin : FileInfo) : (c.getfile ino fin).1 = .OK := rfl

theorem getdir_ok (c : ChfsClient) (ino : UInt64) (din : DirInfo) : (c.getdir ino din).1 = .OK := rfl

/-- No such call has another status to return, whatever the inode. -/
theorem ret_of_uses (hop : op.Uses ino) (hstep : c.step op = .ok (reply, c')) : reply.ret = .OK := by
  cases hop with
  | read =>
    cases step_done hstep with
    | node hcreates _ => cases hcreates
    | read _ => rfl
  | write =>
    cases step_done hstep with
    | node hcreates _ => cases hcreates
    | write _ => rfl
  | setattr =>
    cases step_done hstep with
    | node hcreates _ => cases hcreates
    | setattr hdone => cases hdone <;> rfl
  | getfile =>
    cases hstep
    rfl
  | getdir =>
    cases hstep
    rfl

theorem not_refuses (hop : op.Uses ino) : ¬ Refuses c op := by
  rintro ⟨reply, c', hstep, hret⟩
  exact hret (ret_of_uses hop hstep)

/-- The attributes of any inode are reported as if it were there. -/
theorem fuse_getattr_ok (c : ChfsClient) (ino : UInt64) : (Fuse.getattr c ino).1 = .OK := by
  unfold Fuse.getattr
  dsimp only
  rw [getfile_ok, getdir_ok]
  split
  · rfl
  · split <;> rfl

/-- A `put` to a dead inode is acknowledged, and lost. -/
theorem put_of_dead {es : ExtentServer} {id : extentid_t} (hdead : es.im.get_inode (inum_of id) = none)
    (buf : List UInt8) :
    ∃ es', es.put id buf = .ok (.OK, es') ∧ es'.im.get_inode = es.im.get_inode :=
  ⟨_, put_dead hdead buf, rfl⟩

theorem write_dead {size : UInt64} {off : Int64} (hdead : c.ec.es.im.get_inode (inum_of ino) = none)
    (hoff : 0 ≤ off.toInt) (data : Mem) :
    ∃ c', c.step (.write ino size off data) = .ok (.write .OK size, c') ∧
      c'.ec.es.im.get_inode = c.ec.es.im.get_inode := by
  have htext := written_eq_splice [] size data hoff
  obtain ⟨es', hput, hinodes⟩ := put_of_dead hdead (splice [] off.toInt.toNat (data.bytes size.toNat))
  refine ⟨c.with_server es', ?_, hinodes⟩
  rw [step, write_of_get (get_dead hdead) htext hput]
  rfl

/-- On a dead inode such a call returns OK, and leaves it dead. -/
theorem dead_answers (hdead : c.ec.es.im.get_inode (inum_of ino) = none) (hop : op.Uses ino) (hforward : op.Forward) :
    ∃ reply c', c.step op = .ok (reply, c') ∧ reply.ret = .OK ∧ c'.ec.es.im.get_inode = c.ec.es.im.get_inode := by
  have hget := get_dead hdead
  cases hop with
  | @read _ size off =>
    have hoff : 0 ≤ off.toInt := hforward
    refine ⟨.read .OK [], c, ?_, rfl, rfl⟩
    rw [step, read_of_get hget, if_pos (by simpa using hoff)]
    rfl
  | @write _ size off data =>
    obtain ⟨c', hwrite, hinodes⟩ := write_dead hdead hforward data
    exact ⟨_, c', hwrite, rfl, hinodes⟩
  | @setattr _ size =>
    by_cases hsize : ([] : List UInt8).length = size.toNat
    · refine ⟨.setattr .OK, c, ?_, rfl, rfl⟩
      rw [step, setattr_of_get hget, if_pos hsize]
      rfl
    · obtain ⟨es', hput, hinodes⟩ := put_of_dead hdead (([] : List UInt8).take size.toNat)
      refine ⟨.setattr .OK, c.with_server es', ?_, rfl, hinodes⟩
      rw [step, setattr_of_get hget, if_neg hsize, hput]
      rfl
  | getfile => exact ⟨_, c, rfl, rfl, rfl⟩
  | getdir => exact ⟨_, c, rfl, rfl, rfl⟩

/-- No call for the data or the attributes of a dead inode is refused: unless the offset
    is negative, each returns OK. Nor is the kernel told that there is no such inode. -/
theorem dead_inode_not_refused (hdead : c.ec.es.im.get_inode (inum_of ino) = none) (hop : op.Uses ino) :
    ¬ Refuses c op ∧ (op.Forward → ∃ reply c', c.step op = .ok (reply, c') ∧ reply.ret = .OK) ∧
      (Fuse.getattr c ino).1 = .OK := by
  refine ⟨not_refuses hop, ?_, fuse_getattr_ok c ino⟩
  intro hforward
  obtain ⟨reply, c', hstep, hret, _⟩ := dead_answers hdead hop hforward
  exact ⟨reply, c', hstep, hret⟩

/-- Inum 2 is dead at the start. -/
theorem dead_inode_not_refused_start :
    ∃ start, ChfsClient.new 0 still 0 = .ok start ∧
      (¬ Refuses start (.getfile 2) ∧
        (ClientOp.Forward (.getfile 2) → ∃ reply c', start.step (.getfile 2) = .ok (reply, c') ∧ reply.ret = .OK) ∧
        (Fuse.getattr start 2).1 = .OK) := by
  obtain ⟨start, hnew⟩ := new_zero still 0
  have hdead : start.ec.es.im.get_inode (inum_of 2) = none := (fresh_client hnew).others 2 (by decide)
  exact ⟨start, hnew, dead_inode_not_refused hdead .getfile⟩

/-- A `write` to a file that has been unlinked is acknowledged. -/
theorem unlinked_file_is_written :
    ∃ start c c₁ c₂, ChfsClient.new 0 still 0 = .ok start ∧ start.step (.create 1 name_a) = .ok (.node .OK 2, c) ∧
      c.step (.unlink 1 name_a) = .ok (.unlink .OK, c₁) ∧ c₁.ec.es.im.get_inode (inum_of 2) = none ∧
      c₁.step (.write 2 1 0 fun _ => 104) = .ok (.write .OK 1, c₂) ∧ ¬ Refuses c₁ (.write 2 1 0 fun _ => 104) := by
  obtain ⟨start, hnew⟩ := new_zero still 0
  obtain ⟨c, hcreate, _, _, hrep⟩ := create_first_file hnew
  have hfile : node_files root_files 1 [] 2 name_a .T_FILE none (inum_of 2) = some (.T_FILE, []) := rfl
  obtain ⟨es', hunlink, _, _, hrep'⟩ := unlink_spec (lists_first hrep) find_first trivial hfile
  have hne : inum_of 2 ≠ inum_of 1 := by decide
  have hdead : es'.im.get_inode (inum_of 2) = none := by
    apply hrep'.dead _ trivial
    rw [unlinked_files, Function.update_of_ne hne, Function.update_self]
  have hoff : 0 ≤ (0 : Int64).toInt := by decide
  have hdead' : (c.with_server es').ec.es.im.get_inode (inum_of 2) = none := hdead
  obtain ⟨c₂, hwrite, _⟩ := write_dead hdead' hoff fun _ => 104
  have hremove : c.step (.unlink 1 name_a) = .ok (.unlink .OK, c.with_server es') := by
    rw [step, hunlink]
    rfl
  refine ⟨start, c, c.with_server es', c₂, hnew, hcreate, hremove, hdead, hwrite, not_refuses .write⟩

end ChfsClient

end chfs
