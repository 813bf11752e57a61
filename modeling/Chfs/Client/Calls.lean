import Chfs.Client.Directory

namespace chfs

namespace ExtentServer

/-- Whatever a `get` does, it reports no error. -/
theorem get_cases (es : ExtentServer) (id : extentid_t) :
    (∃ fault, es.get id = .error fault) ∨ ∃ buf es', es.get id = .ok (.OK, buf, es') := by
  unfold get
  cases es.im.read_file (inum_of id) with
  | error fault => exact .inl ⟨fault, rfl⟩
  | ok result =>
    obtain ⟨out, im⟩ := result
    cases out with
    | none => exact .inr ⟨_, _, rfl⟩
    | some out => exact .inr ⟨_, _, rfl⟩

theorem put_cases (es : ExtentServer) (id : extentid_t) (buf : List UInt8) :
    (∃ fault, es.put id buf = .error fault) ∨
      ∃ es', es.put id buf = .ok (.OK, es') ∧ es'.longest_put = max es.longest_put buf.length := by
  unfold put
  dsimp only
  generalize es.im.malloc.2.write_file (inum_of id) _ _ = written
  cases written with
  | error fault => exact .inl ⟨fault, rfl⟩
  | ok im => exact .inr ⟨_, rfl, rfl⟩

theorem put_longest {es es' : ExtentServer} {id : extentid_t} {buf : List UInt8} {ret : Status}
    (h : es.put id buf = .ok (ret, es')) : es'.longest_put = max es.longest_put buf.length := by
  rcases es.put_cases id buf with ⟨fault, hcase⟩ | ⟨es₁, hcase, hlongest⟩
  · rw [hcase] at h
    cases h
  · rw [hcase] at h
    cases h
    exact hlongest

theorem remove_cases (es : ExtentServer) (id : extentid_t) :
    (∃ fault, es.remove id = .error fault) ∨ ∃ es', es.remove id = .ok (.OK, es') := by
  unfold remove
  cases es.im.remove_file (inum_of id) with
  | error fault => exact .inl ⟨fault, rfl⟩
  | ok im => exact .inr ⟨_, rfl⟩

/-- Whatever a `create` does, it reports no error. -/
theorem create_ok (es : ExtentServer) (type : UInt32) :
    es.create type = (.OK, (es.create type).2.1, (es.create type).2.2) := rfl

end ExtentServer

namespace ChfsClient

/-- The client on top of another state of its server. -/
def with_server (c : ChfsClient) (es : ExtentServer) : ChfsClient := { c with ec := { es } }

variable {c c' : ChfsClient} {es' : ExtentServer} {parent ino ino' : UInt64} {name : CString} {ret : Status}
  {found found' : Bool} {buf : List UInt8}

@[simp] theorem with_server_es (c : ChfsClient) (es : ExtentServer) : (c.with_server es).ec.es = es := rfl

@[simp] theorem with_server_stack (c : ChfsClient) (es : ExtentServer) : (c.with_server es).stack = c.stack := rfl

@[simp] theorem with_server_with_server (c : ChfsClient) (es es' : ExtentServer) :
    (c.with_server es).with_server es' = c.with_server es' := rfl

@[simp] theorem with_server_self (c : ChfsClient) : c.with_server c.ec.es = c := rfl

theorem ec_get {es : ExtentServer} {id : extentid_t} (h : es.get id = .ok (.OK, buf, es')) :
    (ExtentClient.mk es).get id = .ok (.OK, buf, { es := es' }) := by
  rw [ExtentClient.get, h]
  rfl

theorem ec_get_error {es : ExtentServer} {id : extentid_t} {fault : Fault} (h : es.get id = .error fault) :
    (ExtentClient.mk es).get id = .error fault := by
  rw [ExtentClient.get, h]
  rfl

theorem ec_put {es : ExtentServer} {id : extentid_t} (h : es.put id buf = .ok (.OK, es')) :
    (ExtentClient.mk es).put id buf = .ok (.OK, { es := es' }) := by
  rw [ExtentClient.put, h]
  rfl

theorem ec_put_error {es : ExtentServer} {id : extentid_t} {fault : Fault} (h : es.put id buf = .error fault) :
    (ExtentClient.mk es).put id buf = .error fault := by
  rw [ExtentClient.put, h]
  rfl

theorem ec_remove {es : ExtentServer} {id : extentid_t} (h : es.remove id = .ok (.OK, es')) :
    (ExtentClient.mk es).remove id = .ok (.OK, { es := es' }) := by
  rw [ExtentClient.remove, h]
  rfl

theorem ec_remove_error {es : ExtentServer} {id : extentid_t} {fault : Fault} (h : es.remove id = .error fault) :
    (ExtentClient.mk es).remove id = .error fault := by
  rw [ExtentClient.remove, h]
  rfl

theorem ec_getattr (ec : ExtentClient) (id : extentid_t) : (ec.getattr id).1 = .OK := rfl

/-- The three checks compare the type, for `getattr` reports no error. -/
theorem isfile_iff : c.isfile ino = true ↔ (c.ec.es.getattr ino).2.type = FileType.T_FILE.code :=
  decide_eq_true_iff

theorem isdir_iff : c.isdir ino = true ↔ (c.ec.es.getattr ino).2.type = FileType.T_DIR.code :=
  decide_eq_true_iff

theorem issymlink_iff : c.issymlink ino = true ↔ (c.ec.es.getattr ino).2.type = FileType.T_SYMBOLIC.code :=
  decide_eq_true_iff

theorem check_dir_inode_eq (c : ChfsClient) (parent : UInt64) :
    (c.check_dir_inode parent).1 = if c.isdir parent then .OK else .IOERR := by
  have hstatus : (c.check_dir_inode parent).1 =
      if (c.ec.es.getattr parent).2.type ≠ FileType.T_DIR.code then .IOERR else .OK := by
    exact apply_ite Prod.fst _ _ _
  rw [hstatus]
  cases hdir : c.isdir parent with
  | true => rw [if_neg (not_not.mpr (isdir_iff.mp hdir)), if_pos rfl]
  | false =>
    rw [if_pos fun htype => absurd (isdir_iff.mpr htype) (by simp [hdir]), if_neg Bool.false_ne_true]

/-- What `n2i` reads depends on the local variable, but not on the server. -/
theorem readdir_loop_with_server (c : ChfsClient) (es : ExtentServer) (buf : List UInt8) (n : Nat) :
    ∀ pos list, (c.with_server es).readdir_loop buf n pos list = c.readdir_loop buf n pos list := by
  induction n with
  | zero =>
    intro pos list
    rfl
  | succ n ih =>
    intro pos list
    simp only [readdir_loop, ih]
    rfl

@[simp] theorem parse_with_server (c : ChfsClient) (es : ExtentServer) (buf : List UInt8) :
    (c.with_server es).parse buf = c.parse buf := readdir_loop_with_server c es buf _ _ _

theorem readdir_not_dir (hdir : c.isdir parent = false) (list : List Dirent) :
    c.readdir parent list = .ok (.IOERR, list, c) := by
  unfold readdir
  have hcheck := check_dir_inode_eq c parent
  rw [hdir] at hcheck
  dsimp only
  rw [hcheck]
  rfl

theorem readdir_of_get (hdir : c.isdir parent = true) (hget : c.ec.es.get parent = .ok (.OK, buf, es')) :
    c.readdir parent [] = .ok ((c.parse buf).1, (c.parse buf).2, c.with_server es') := by
  unfold readdir
  have hcheck := check_dir_inode_eq c parent
  rw [hdir] at hcheck
  dsimp only
  rw [hcheck, ec_get hget, ← parse_with_server c es']
  rfl

theorem readdir_error {fault : Fault} (hdir : c.isdir parent = true) (hget : c.ec.es.get parent = .error fault) :
    c.readdir parent [] = .error fault := by
  unfold readdir
  have hcheck := check_dir_inode_eq c parent
  rw [hdir] at hcheck
  dsimp only
  rw [hcheck, ec_get_error hget]
  rfl

/-- What `readdir` can do. -/
inductive ReaddirDone (c : ChfsClient) (dir : UInt64) : Status → List Dirent → ChfsClient → Prop where
  | not_dir (hdir : c.isdir dir = false) : ReaddirDone c dir .IOERR [] c
  | read {buf : List UInt8} {es' : ExtentServer} (hdir : c.isdir dir = true)
      (hget : c.ec.es.get dir = .ok (.OK, buf, es')) :
    ReaddirDone c dir (c.parse buf).1 (c.parse buf).2 (c.with_server es')

theorem readdir_done {list : List Dirent} (h : c.readdir parent [] = .ok (ret, list, c')) :
    ReaddirDone c parent ret list c' := by
  cases hdir : c.isdir parent with
  | false =>
    rw [readdir_not_dir hdir] at h
    cases h
    exact .not_dir hdir
  | true =>
    rcases c.ec.es.get_cases parent with ⟨fault, hget⟩ | ⟨buf, es', hget⟩
    · rw [readdir_error hdir hget] at h
      cases h
    · rw [readdir_of_get hdir hget] at h
      cases h
      exact .read hdir hget

/-- What `lookup` can do. -/
inductive LookupDone (c : ChfsClient) (parent : UInt64) (name : CString) (found : Bool) (ino_out : UInt64) :
    Status → Bool → UInt64 → ChfsClient → Prop where
  | not_dir (hdir : c.isdir parent = false) : LookupDone c parent name found ino_out .IOERR found ino_out c
  | unreadable {buf : List UInt8} {es' : ExtentServer} (hdir : c.isdir parent = true)
      (hget : c.ec.es.get parent = .ok (.OK, buf, es')) (hparse : (c.parse buf).1 ≠ .OK) :
    LookupDone c parent name found ino_out .IOERR found ino_out (c.with_server es')
  | bound {buf : List UInt8} {es' : ExtentServer} {list : List Dirent} {e : Dirent} (hdir : c.isdir parent = true)
      (hget : c.ec.es.get parent = .ok (.OK, buf, es')) (hparse : c.parse buf = (.OK, list))
      (hfind : list.find? (fun elem => elem.name = name.bytes) = some e) :
    LookupDone c parent name found ino_out .OK true e.inum (c.with_server es')
  | unbound {buf : List UInt8} {es' : ExtentServer} {list : List Dirent} (hdir : c.isdir parent = true)
      (hget : c.ec.es.get parent = .ok (.OK, buf, es')) (hparse : c.parse buf = (.OK, list))
      (hfind : list.find? (fun elem => elem.name = name.bytes) = none) :
    LookupDone c parent name found ino_out .OK found ino_out (c.with_server es')

/-- A lookup that returns OK was in a directory. -/
theorem LookupDone.isdir {found' : Bool} (h : LookupDone c parent name found ino .OK found' ino' c') :
    c.isdir parent = true := by
  cases h with
  | bound hdir _ _ _ => exact hdir
  | unbound hdir _ _ _ => exact hdir

theorem lookup_not_dir (hdir : c.isdir parent = false) :
    c.lookup parent name found ino = .ok (.IOERR, found, ino, c) := by
  unfold lookup
  have hcheck := check_dir_inode_eq c parent
  rw [hdir] at hcheck
  dsimp only
  rw [hcheck]
  rfl

theorem lookup_error {fault : Fault} (hdir : c.isdir parent = true) (hget : c.ec.es.get parent = .error fault) :
    c.lookup parent name found ino = .error fault := by
  unfold lookup
  have hcheck := check_dir_inode_eq c parent
  rw [hdir] at hcheck
  dsimp only
  rw [hcheck, readdir_error hdir hget]
  rfl

theorem lookup_unreadable (hdir : c.isdir parent = true) (hget : c.ec.es.get parent = .ok (.OK, buf, es'))
    (hparse : (c.parse buf).1 ≠ .OK) :
    c.lookup parent name found ino = .ok (.IOERR, found, ino, c.with_server es') := by
  unfold lookup
  have hcheck := check_dir_inode_eq c parent
  rw [hdir] at hcheck
  dsimp only
  rw [hcheck, readdir_of_get hdir hget]
  simp [hparse]
  rfl

theorem lookup_bound {list : List Dirent} {e : Dirent} (hdir : c.isdir parent = true)
    (hget : c.ec.es.get parent = .ok (.OK, buf, es')) (hparse : c.parse buf = (.OK, list))
    (hfind : list.find? (fun elem => elem.name = name.bytes) = some e) :
    c.lookup parent name found ino = .ok (.OK, true, e.inum, c.with_server es') := by
  unfold lookup
  have hcheck := check_dir_inode_eq c parent
  rw [hdir] at hcheck
  dsimp only
  rw [hcheck, readdir_of_get hdir hget, hparse]
  simp [hfind]
  rfl

theorem lookup_unbound {list : List Dirent} (hdir : c.isdir parent = true)
    (hget : c.ec.es.get parent = .ok (.OK, buf, es')) (hparse : c.parse buf = (.OK, list))
    (hfind : list.find? (fun elem => elem.name = name.bytes) = none) :
    c.lookup parent name found ino = .ok (.OK, found, ino, c.with_server es') := by
  unfold lookup
  have hcheck := check_dir_inode_eq c parent
  rw [hdir] at hcheck
  dsimp only
  rw [hcheck, readdir_of_get hdir hget, hparse]
  simp [hfind]
  rfl

theorem lookup_done (h : c.lookup parent name found ino = .ok (ret, found', ino', c')) :
    LookupDone c parent name found ino ret found' ino' c' := by
  cases hdir : c.isdir parent with
  | false =>
    rw [lookup_not_dir hdir] at h
    cases h
    exact .not_dir hdir
  | true =>
    rcases c.ec.es.get_cases parent with ⟨fault, hget⟩ | ⟨buf, es', hget⟩
    · rw [lookup_error hdir hget] at h
      cases h
    · by_cases hparse : (c.parse buf).1 = .OK
      · have hparse : c.parse buf = (.OK, (c.parse buf).2) := Prod.ext hparse rfl
        cases hfind : (c.parse buf).2.find? (fun elem => elem.name = name.bytes) with
        | none =>
          rw [lookup_unbound hdir hget hparse hfind] at h
          cases h
          exact .unbound hdir hget hparse hfind
        | some e =>
          rw [lookup_bound hdir hget hparse hfind] at h
          cases h
          exact .bound hdir hget hparse hfind
      · rw [lookup_unreadable hdir hget hparse] at h
        cases h
        exact .unreadable hdir hget hparse

end ChfsClient

end chfs
