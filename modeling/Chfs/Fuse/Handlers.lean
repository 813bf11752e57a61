import Chfs.Client.Returns

namespace chfs

namespace ChfsClient

variable {c c' : ChfsClient} {parent ino id : UInt64} {name : CString} {type : FileType} {value : Option CString}
  {ret : Status} {found : Bool}

/-- What `lookup` finds does not depend on what `ino_out` held before. -/
theorem lookup_uninit (h : c.lookup parent name false ino = .ok (ret, found, id, c')) :
    ∃ id₀, c.lookup parent name false 0 = .ok (ret, found, id₀, c') ∧ (found = true → id₀ = id) := by
  cases lookup_done h with
  | not_dir hdir => exact ⟨0, lookup_not_dir hdir, fun hfound => by cases hfound⟩
  | unreadable hdir hget hparse => exact ⟨0, lookup_unreadable hdir hget hparse, fun hfound => by cases hfound⟩
  | bound hdir hget hparse hfind => exact ⟨_, lookup_bound hdir hget hparse hfind, fun _ => rfl⟩
  | unbound hdir hget hparse hfind => exact ⟨0, lookup_unbound hdir hget hparse hfind, fun hfound => by cases hfound⟩

/-- Neither does what the creating calls make. -/
theorem make_node_uninit (h : c.make_node parent name type value ino = .ok (ret, id, c')) :
    ∃ id₀, c.make_node parent name type value 0 = .ok (ret, id₀, c') ∧ (ret = .OK → id₀ = id) := by
  unfold make_node at h
  obtain ⟨⟨r, found, id₁, c₁⟩, hlookup, hrest⟩ := Except.bind_eq_ok_iff.mp h
  obtain ⟨id₀, hzero, hsame⟩ := lookup_uninit hlookup
  cases lookup_done hlookup with
  | not_dir _ =>
    cases hrest
    exact ⟨id₀, make_node_refused hzero, fun hret => by cases hret⟩
  | unreadable _ _ _ =>
    cases hrest
    exact ⟨id₀, make_node_refused hzero, fun hret => by cases hret⟩
  | bound _ _ _ _ =>
    cases hrest
    exact ⟨id₀, make_node_found hzero, fun hret => by cases hret⟩
  | unbound _ _ _ _ =>
    refine ⟨id, ?_, fun _ => rfl⟩
    rw [make_node, hzero]
    exact hrest

end ChfsClient

namespace Fuse

open ChfsClient

/-- The requests for a new node, the calls they become, and how their success is replied. -/
inductive Makes : FuseRequest → ClientOp → (EntryParam → FuseReply) → Prop where
  | create {parent : UInt64} {name : CString} : Makes (.create parent name) (.create parent name) .create
  | mknod {parent : UInt64} {name : CString} : Makes (.mknod parent name) (.create parent name) .entry
  | mkdir {parent : UInt64} {name : CString} : Makes (.mkdir parent name) (.mkdir parent name) .entry
  | symlink {link : CString} {parent : UInt64} {name : CString} :
    Makes (.symlink link parent name) (.create_symbolic_link parent link name) .entry

/-- The buffer of directory entries that `fuseserver_readdir` builds in the memory `heap`. -/
def dirbuf (lib : Libfuse) (heap : Mem) (entries : List Dirent) : Dirbuf :=
  entries.foldl (fun b e => dirbuf_add lib b (StdString.c_str e.name) e.inum) { p := heap, size := 0 }

/-- What a handler can do: at most one call of the client, and then one reply. -/
inductive StepDone (lib : Libfuse) (c : ChfsClient) : FuseCall → List FuseReply → ChfsClient → Prop where
  | getattr {ino : UInt64} {g : Garbage} : StepDone lib c ⟨.getattr ino, g⟩ [.attr (getattr c ino).2] c
  | resized {ino : UInt64} {st_size : Int64} {to_set : UInt32} {g : Garbage} {c' : ChfsClient}
      (hflag : FUSE_SET_ATTR_SIZE &&& to_set ≠ 0)
      (hstep : c.step (.setattr ino st_size.toUInt64) = .ok (.setattr .OK, c')) :
    StepDone lib c ⟨.setattr ino st_size to_set, g⟩ [.attr (getattr c' ino).2] c'
  | not_resized {ino : UInt64} {st_size : Int64} {to_set : UInt32} {g : Garbage}
      (hflag : FUSE_SET_ATTR_SIZE &&& to_set = 0) : StepDone lib c ⟨.setattr ino st_size to_set, g⟩ [.err .ENOSYS] c
  | statfs {g : Garbage} : StepDone lib c ⟨.statfs, g⟩ [.statfs 512 255] c
  | listed {ino size : UInt64} {off : Int64} {g : Garbage} {ret : Status} {entries : List Dirent} {c' : ChfsClient}
      (hdir : c.isdir ino = true) (hstep : c.step (.readdir ino) = .ok (.readdir ret entries, c')) :
    StepDone lib c ⟨.readdir ino size off, g⟩
      [reply_buf_limited (dirbuf lib g.heap entries).p (dirbuf lib g.heap entries).size off size] c'
  | not_listed {ino size : UInt64} {off : Int64} {g : Garbage} (hdir : c.isdir ino = false) :
    StepDone lib c ⟨.readdir ino size off, g⟩ [.err .ENOTDIR] c
  | found {parent ino : UInt64} {name : CString} {g : Garbage} {ret : Status} {c' : ChfsClient}
      (hstep : c.step (.lookup parent name) = .ok (.lookup ret true ino, c')) :
    StepDone lib c ⟨.lookup parent name, g⟩ [.entry { ino, generation := 0, attr := (getattr c' ino).2 }] c'
  | not_found {parent ino : UInt64} {name : CString} {g : Garbage} {ret : Status} {c' : ChfsClient}
      (hstep : c.step (.lookup parent name) = .ok (.lookup ret false ino, c')) :
    StepDone lib c ⟨.lookup parent name, g⟩ [.err .ENOENT] c'
  | made {request : FuseRequest} {op : ClientOp} {reply : EntryParam → FuseReply} {ino : UInt64} {g : Garbage}
      {c' : ChfsClient} (hmakes : Makes request op reply) (hstep : c.step op = .ok (.node .OK ino, c')) :
    StepDone lib c ⟨request, g⟩ [reply { ino, generation := 0, attr := (getattr c' ino).2 }] c'
  | not_made {request : FuseRequest} {op : ClientOp} {reply : EntryParam → FuseReply} {ino : UInt64} {g : Garbage}
      {ret : Status} {c' : ChfsClient} (hmakes : Makes request op reply) (hret : ret ≠ .OK)
      (hstep : c.step op = .ok (.node ret ino, c')) : StepDone lib c ⟨request, g⟩ [create_error ret] c'
  | open_file {ino : UInt64} {g : Garbage} : StepDone lib c ⟨.open_file ino, g⟩ [.open_file] c
  | read {ino size : UInt64} {off : Int64} {g : Garbage} {data : List UInt8} {c' : ChfsClient}
      (hstep : c.step (.read ino size off) = .ok (.read .OK data, c')) :
    StepDone lib c ⟨.read ino size off, g⟩ [.buf data] c'
  | write {ino size : UInt64} {off : Int64} {buf : Mem} {g : Garbage} {bytes_written : UInt64} {c' : ChfsClient}
      (hstep : c.step (.write ino size off buf) = .ok (.write .OK bytes_written, c')) :
    StepDone lib c ⟨.write ino buf size off, g⟩ [.write bytes_written] c'
  | unlink {parent : UInt64} {name : CString} {g : Garbage} {ret : Status} {c' : ChfsClient}
      (hstep : c.step (.unlink parent name) = .ok (.unlink ret, c')) :
    StepDone lib c ⟨.unlink parent name, g⟩
      [.err (if ret = .OK then .OK else if ret = .NOENT then .ENOENT else .ENOTEMPTY)] c'
  | readlink {ino : UInt64} {g : Garbage} {buf : List UInt8} {c' : ChfsClient}
      (hstep : c.step (.parse_symbolic_link ino) = .ok (.parse_symbolic_link .OK buf, c')) :
    StepDone lib c ⟨.readlink ino, g⟩ [.readlink (StdString.c_str buf).bytes] c'
  | not_link {ino : UInt64} {g : Garbage} {ret : Status} {buf : List UInt8} {c' : ChfsClient} (hret : ret ≠ .OK)
      (hstep : c.step (.parse_symbolic_link ino) = .ok (.parse_symbolic_link ret buf, c')) :
    StepDone lib c ⟨.readlink ino, g⟩ [.err .ENOENT] c'

variable {lib : Libfuse} {c c' : ChfsClient} {call : FuseCall} {replies : List FuseReply} {parent ino id : UInt64}
  {name : CString} {ret : Status} {e e' : EntryParam}

/-- The client call of `fuseserver_createhelper`, and the entry it fills in. -/
theorem createhelper_done {type : FileType} {op : ClientOp}
    (hop : op = if type = .T_FILE then .create parent name else .mkdir parent name)
    (h : fuseserver_createhelper c parent name e type ino = .ok (ret, e', c')) :
    ∃ id, c.step op = .ok (.node ret id, c') ∧
      (ret = .OK → e' = { ino := id, generation := 0, attr := (getattr c' id).2 }) := by
  unfold fuseserver_createhelper at h
  obtain ⟨⟨r, id, c₁⟩, hcall, h⟩ := Except.bind_eq_ok_iff.mp h
  dsimp only at h
  have hstep : ∃ id₀, c.step op = .ok (.node r id₀, c₁) ∧ (r = .OK → id₀ = id) := by
    by_cases hfile : type = .T_FILE
    · rw [if_pos hfile, create_eq] at hcall
      rw [if_pos hfile] at hop
      obtain ⟨id₀, hmake, hsame⟩ := make_node_uninit hcall
      exact ⟨id₀, hop ▸ creates_step .create hmake, hsame⟩
    · rw [if_neg hfile, mkdir_eq] at hcall
      rw [if_neg hfile] at hop
      by_cases hdots : Dots name
      · rw [if_pos hdots] at hcall
        cases hcall
        refine ⟨0, ?_, fun hret => by cases hret⟩
        rw [hop, ChfsClient.step, mkdir_eq, if_pos hdots]
        rfl
      · rw [if_neg hdots] at hcall
        obtain ⟨id₀, hmake, hsame⟩ := make_node_uninit hcall
        exact ⟨id₀, hop ▸ creates_step (.mkdir hdots) hmake, hsame⟩
  obtain ⟨id₀, hstep, hsame⟩ := hstep
  by_cases hr : r = .OK
  · subst hr
    rw [if_neg (by simp)] at h
    have hattr := fuse_getattr_ok c₁ id
    cases hsame rfl
    cases h
    rw [hattr]
    exact ⟨id, hstep, fun _ => rfl⟩
  · rw [if_pos hr] at h
    cases h
    exact ⟨id₀, hstep, fun hret => absurd hret hr⟩

/-- A handler that calls `fuseserver_createhelper` passes its result on. -/
theorem made_done {request : FuseRequest} {op : ClientOp} {reply : EntryParam → FuseReply} (type : FileType)
    {g : Garbage}
    (hmakes : Makes request op reply) (hop : op = if type = .T_FILE then .create parent name else .mkdir parent name)
    (h : (do
      let (ret, e, chfs) ← fuseserver_createhelper c parent name g.e type g.inum
      if ret = .OK then return ([reply e], chfs) else return ([create_error ret], chfs) : Result _) =
        .ok (replies, c')) :
    StepDone lib c ⟨request, g⟩ replies c' := by
  obtain ⟨⟨ret, e, c₁⟩, hhelper, h⟩ := Except.bind_eq_ok_iff.mp h
  dsimp only at h
  obtain ⟨id, hstep, he⟩ := createhelper_done hop hhelper
  by_cases hret : ret = .OK
  · rw [if_pos hret] at h
    cases h
    rw [he hret]
    exact .made hmakes (hret ▸ hstep)
  · rw [if_neg hret] at h
    cases h
    exact .not_made hmakes hret hstep

theorem setattr_ok {size : UInt64} (h : c.setattr ino size = .ok (ret, c')) : ret = .OK := by
  cases setattr_done h <;> rfl

theorem step_done (h : step lib c call = .ok (replies, c')) : StepDone lib c call replies c' := by
  obtain ⟨request, g⟩ := call
  cases request with
  | getattr ino =>
    have hattr := fuse_getattr_ok c ino
    simp only [step, fuseserver_getattr, hattr, ne_self_iff_false, ↓reduceIte] at h
    cases h
    exact .getattr
  | setattr ino st_size to_set =>
    change fuseserver_setattr c ino st_size to_set = _ at h
    unfold fuseserver_setattr at h
    by_cases hflag : FUSE_SET_ATTR_SIZE &&& to_set = 0
    · rw [if_neg (not_not.mpr hflag)] at h
      cases h
      exact .not_resized hflag
    · rw [if_pos hflag] at h
      obtain ⟨⟨ret, c₁⟩, hcall, h⟩ := Except.bind_eq_ok_iff.mp h
      have hattr := fuse_getattr_ok c₁ ino
      cases setattr_ok hcall
      simp only [hattr, ↓reduceIte] at h
      cases h
      refine .resized hflag ?_
      rw [ChfsClient.step, hcall]
      rfl
  | statfs =>
    cases h
    exact .statfs
  | readdir ino size off =>
    change fuseserver_readdir lib c ino size off g = _ at h
    unfold fuseserver_readdir at h
    cases hdir : c.isdir ino with
    | false =>
      rw [hdir] at h
      cases h
      exact .not_listed hdir
    | true =>
      rw [hdir, if_neg (by simp)] at h
      obtain ⟨⟨ret, entries, c₁⟩, hcall, h⟩ := Except.bind_eq_ok_iff.mp h
      cases h
      have hstep : c.step (.readdir ino) = .ok (.readdir ret entries, c') := by
        rw [ChfsClient.step, hcall]
        rfl
      exact .listed hdir hstep
  | lookup parent name =>
    change fuseserver_lookup c parent name g = _ at h
    unfold fuseserver_lookup at h
    obtain ⟨⟨ret, found, ino, c₁⟩, hcall, h⟩ := Except.bind_eq_ok_iff.mp h
    obtain ⟨id₀, hzero, hsame⟩ := lookup_uninit hcall
    have hstep : c.step (.lookup parent name) = .ok (.lookup ret found id₀, c₁) := by
      rw [ChfsClient.step, hzero]
      rfl
    cases found with
    | true =>
      cases hsame rfl
      cases h
      exact .found hstep
    | false =>
      cases h
      exact .not_found hstep
  | create parent name => exact made_done .T_FILE .create (if_pos rfl).symm h
  | mknod parent name => exact made_done .T_FILE .mknod (if_pos rfl).symm h
  | mkdir parent name => exact made_done .T_DIR .mkdir (if_neg (by simp)).symm h
  | open_file ino =>
    cases h
    exact .open_file
  | read ino size off =>
    change fuseserver_read c ino size off = _ at h
    unfold fuseserver_read at h
    obtain ⟨⟨ret, data, c₁⟩, hcall, h⟩ := Except.bind_eq_ok_iff.mp h
    cases (read_done hcall).1
    cases h
    refine .read ?_
    rw [ChfsClient.step, hcall]
    rfl
  | write ino buf size off =>
    change fuseserver_write c ino buf size off = _ at h
    unfold fuseserver_write at h
    obtain ⟨⟨ret, bytes_written, c₁⟩, hcall, h⟩ := Except.bind_eq_ok_iff.mp h
    cases (write_done hcall).1
    cases h
    refine .write ?_
    rw [ChfsClient.step, hcall]
    rfl
  | unlink parent name =>
    change fuseserver_unlink c parent name = _ at h
    unfold fuseserver_unlink at h
    obtain ⟨⟨ret, c₁⟩, hcall, h⟩ := Except.bind_eq_ok_iff.mp h
    have hstep := unlink_step.mpr hcall
    have hreply : replies = [.err (if ret = .OK then .OK else if ret = .NOENT then .ENOENT else .ENOTEMPTY)] ∧
      c' = c₁ := by
      cases ret <;> cases h <;> exact ⟨rfl, rfl⟩
    obtain ⟨rfl, rfl⟩ := hreply
    exact .unlink hstep
  | symlink link parent name =>
    change fuseserver_symlink c link parent name g = _ at h
    unfold fuseserver_symlink at h
    obtain ⟨⟨ret, id, c₁⟩, hcall, h⟩ := Except.bind_eq_ok_iff.mp h
    rw [create_symbolic_link_eq] at hcall
    obtain ⟨id₀, hmake, hsame⟩ := make_node_uninit hcall
    have hstep := creates_step .create_symbolic_link hmake
    by_cases hret : ret = .OK
    · have hattr := fuse_getattr_ok c₁ id
      cases hsame hret
      simp only [hret, hattr, ↓reduceIte] at h
      cases h
      exact .made .symlink (hret ▸ hstep)
    · have hreply : replies = [create_error ret] ∧ c' = c₁ := by
        unfold create_error
        cases ret <;> first | exact absurd rfl hret | (cases h; exact ⟨rfl, rfl⟩)
      obtain ⟨rfl, rfl⟩ := hreply
      exact .not_made .symlink hret hstep
  | readlink ino =>
    change fuseserver_readlink c ino = _ at h
    unfold fuseserver_readlink at h
    obtain ⟨⟨ret, buf, c₁⟩, hcall, h⟩ := Except.bind_eq_ok_iff.mp h
    have hstep : c.step (.parse_symbolic_link ino) = .ok (.parse_symbolic_link ret buf, c₁) := by
      rw [ChfsClient.step, hcall]
      rfl
    dsimp only at h
    by_cases hret : ret = .OK
    · rw [if_pos hret] at h
      cases h
      exact .readlink (hret ▸ hstep)
    · rw [if_neg hret] at h
      cases h
      exact .not_link hret hstep

end Fuse

end chfs
