import Chfs.Fuse.Refines

namespace chfs

namespace Fuse

open ChfsClient

variable {fs : Nodes} {c : ChfsClient} {call : FuseCall} {name : CString}

/-- Requests for data within the first 2^31 bytes, with names that a directory could hold. -/
def Sendable (call : FuseCall) : Prop :=
  match call.request with
  | .create _ name | .mknod _ name | .mkdir _ name => name.bytes.length ≤ 116736
  | .symlink link _ name => name.bytes.length ≤ 116736 ∧ link.bytes.length < 2 ^ 31
  | .read _ _ off => 0 ≤ off.toInt
  | .write _ _ size off => 0 ≤ off.toInt ∧ off.toInt.toNat + size.toNat < 2 ^ 31
  | _ => True

theorem createhelper_returns (h : Shows fs c) (parent : UInt64) (e : EntryParam) (type : FileType) (ino : UInt64)
    (hname : name.bytes.length ≤ 116736) : ∃ r, fuseserver_createhelper c parent name e type ino = .ok r := by
  have hvalue : (value_bytes none).length < 2 ^ 31 := by decide
  unfold fuseserver_createhelper
  apply Except.bind_returns
  · by_cases hfile : type = .T_FILE
    · rw [if_pos hfile, create_eq]
      exact h.make_node_returns parent _ ino hname hvalue
    · rw [if_neg hfile, mkdir_eq]
      split
      · exact ⟨_, rfl⟩
      · exact h.make_node_returns parent _ ino hname hvalue
  · rintro ⟨ret, id, c₁⟩
    dsimp only
    split
    · exact ⟨_, rfl⟩
    · exact ⟨_, rfl⟩

/-- In a state in order every handler returns. -/
theorem step_returns (lib : Libfuse) (h : Shows fs c) (hcall : Ordinary c call) (hsend : Sendable call) :
    ∃ r, step lib c call = .ok r := by
  obtain ⟨request, g⟩ := call
  cases request with
  | getattr ino => exact ⟨_, rfl⟩
  | setattr ino st_size to_set =>
    change ∃ r, fuseserver_setattr c ino st_size to_set = .ok r
    unfold fuseserver_setattr
    by_cases hflag : FUSE_SET_ATTR_SIZE &&& to_set = 0
    · rw [if_neg (not_not.mpr hflag)]
      exact ⟨_, rfl⟩
    · obtain ⟨hdir, hlink⟩ := hcall hflag
      rw [if_pos hflag]
      apply Except.bind_returns (h.setattr_returns hdir hlink st_size.toUInt64)
      rintro ⟨ret, c₁⟩
      dsimp only
      repeat' split
      all_goals exact ⟨_, rfl⟩
  | statfs => exact ⟨_, rfl⟩
  | readdir ino size off =>
    change ∃ r, fuseserver_readdir lib c ino size off g = .ok r
    unfold fuseserver_readdir
    cases hdir : c.isdir ino with
    | false => exact ⟨_, rfl⟩
    | true =>
      rw [if_neg (by simp)]
      exact Except.bind_returns (h.readdir_returns hdir) fun r => ⟨_, rfl⟩
  | lookup parent name =>
    change ∃ r, fuseserver_lookup c parent name g = .ok r
    unfold fuseserver_lookup
    apply Except.bind_returns (h.lookup_returns parent name g.inum)
    rintro ⟨ret, found, ino, c₁⟩
    cases found <;> exact ⟨_, rfl⟩
  | create parent name =>
    change ∃ r, fuseserver_create c parent name g = .ok r
    unfold fuseserver_create
    apply Except.bind_returns (createhelper_returns h parent g.e .T_FILE g.inum hsend)
    rintro ⟨ret, e, c₁⟩
    cases ret <;> exact ⟨_, rfl⟩
  | mknod parent name =>
    change ∃ r, fuseserver_mknod c parent name g = .ok r
    unfold fuseserver_mknod
    apply Except.bind_returns (createhelper_returns h parent g.e .T_FILE g.inum hsend)
    rintro ⟨ret, e, c₁⟩
    cases ret <;> exact ⟨_, rfl⟩
  | mkdir parent name =>
    change ∃ r, fuseserver_mkdir c parent name g = .ok r
    unfold fuseserver_mkdir
    apply Except.bind_returns (createhelper_returns h parent g.e .T_DIR g.inum hsend)
    rintro ⟨ret, e, c₁⟩
    cases ret <;> exact ⟨_, rfl⟩
  | open_file ino => exact ⟨_, rfl⟩
  | read ino size off =>
    change ∃ r, fuseserver_read c ino size off = .ok r
    unfold fuseserver_read
    apply Except.bind_returns (h.read_returns hcall.1 hcall.2 size hsend)
    rintro ⟨ret, data, c₁⟩
    cases ret <;> exact ⟨_, rfl⟩
  | write ino buf size off =>
    change ∃ r, fuseserver_write c ino buf size off = .ok r
    unfold fuseserver_write
    apply Except.bind_returns (h.write_returns hcall.1 hcall.2 buf hsend.1 hsend.2)
    rintro ⟨ret, byte_written, c₁⟩
    cases ret <;> exact ⟨_, rfl⟩
  | unlink parent name =>
    change ∃ r, fuseserver_unlink c parent name = .ok r
    unfold fuseserver_unlink
    apply Except.bind_returns (h.unlink_returns parent name)
    rintro ⟨ret, c₁⟩
    cases ret <;> exact ⟨_, rfl⟩
  | symlink link parent name =>
    change ∃ r, fuseserver_symlink c link parent name g = .ok r
    unfold fuseserver_symlink
    apply Except.bind_returns
    · rw [create_symbolic_link_eq]
      exact h.make_node_returns parent _ g.inum hsend.1 hsend.2
    · rintro ⟨ret, id, c₁⟩
      dsimp only
      repeat' split
      all_goals exact ⟨_, rfl⟩
  | readlink ino =>
    change ∃ r, fuseserver_readlink c ino = .ok r
    unfold fuseserver_readlink
    apply Except.bind_returns (h.parse_symbolic_link_returns ino)
    rintro ⟨ret, data, c₁⟩
    cases ret <;> exact ⟨_, rfl⟩

end Fuse

end chfs
