import Chfs.Client.FileCalls
import Chfs.Client.Operations
import Chfs.Extent.Reaches

namespace chfs

open BlockManager InodeManager

/-- The calls a client answers. -/
inductive ClientOp where
  | create (parent : UInt64) (name : CString)
  | mkdir (parent : UInt64) (name : CString)
  | create_symbolic_link (parent : UInt64) (true_file_path link_name : CString)
  | unlink (parent : UInt64) (name : CString)
  | lookup (parent : UInt64) (name : CString)
  | readdir (dir : UInt64)
  | read (ino size : UInt64) (off : Int64)
  | write (ino size : UInt64) (off : Int64) (data : Mem)
  | setattr (ino size : UInt64)
  | getfile (inum : UInt64)
  | getdir (inum : UInt64)
  | parse_symbolic_link (ino : UInt64)

/-- Its answers. -/
inductive ClientReply where
  | node (ret : Status) (ino_out : UInt64)
  | unlink (ret : Status)
  | lookup (ret : Status) (found : Bool) (ino_out : UInt64)
  | readdir (ret : Status) (list : List Dirent)
  | read (ret : Status) (data : List UInt8)
  | write (ret : Status) (bytes_written : UInt64)
  | setattr (ret : Status)
  | getfile (ret : Status) (fin : FileInfo)
  | getdir (ret : Status) (din : DirInfo)
  | parse_symbolic_link (ret : Status) (buf : List UInt8)

/-- The names in a call contain no separator. -/
def ClientOp.Named : ClientOp → Prop
  | .create _ name | .mkdir _ name | .create_symbolic_link _ _ name | .unlink _ name | .lookup _ name =>
    slash ∉ name.bytes
  | _ => True

namespace ChfsClient

/-- Variables for results start out empty: false, 0 or no entries. -/
def step (c : ChfsClient) : ClientOp → Result (ClientReply × ChfsClient)
  | .create parent name => do
    let (ret, ino_out, c) ← c.create parent name 0
    return (.node ret ino_out, c)
  | .mkdir parent name => do
    let (ret, ino_out, c) ← c.mkdir parent name 0
    return (.node ret ino_out, c)
  | .create_symbolic_link parent true_file_path link_name => do
    let (ret, ino, c) ← c.create_symbolic_link parent true_file_path link_name 0
    return (.node ret ino, c)
  | .unlink parent name => do
    let (ret, c) ← c.unlink parent name
    return (.unlink ret, c)
  | .lookup parent name => do
    let (ret, found, ino_out, c) ← c.lookup parent name false 0
    return (.lookup ret found ino_out, c)
  | .readdir dir => do
    let (ret, list, c) ← c.readdir dir []
    return (.readdir ret list, c)
  | .read ino size off => do
    let (ret, data, c) ← c.read ino size off
    return (.read ret data, c)
  | .write ino size off data => do
    let (ret, bytes_written, c) ← c.write ino size off data 0
    return (.write ret bytes_written, c)
  | .setattr ino size => do
    let (ret, c) ← c.setattr ino size
    return (.setattr ret, c)
  | .getfile inum =>
    let (ret, fin) := c.getfile inum { size := 0, atime := 0, mtime := 0, ctime := 0 }
    .ok (.getfile ret fin, c)
  | .getdir inum =>
    let (ret, din) := c.getdir inum { atime := 0, mtime := 0, ctime := 0 }
    .ok (.getdir ret din, c)
  | .parse_symbolic_link ino => do
    let (ret, buf, c) ← c.parse_symbolic_link [] ino
    return (.parse_symbolic_link ret buf, c)

/-- A call of one of the three creating functions. -/
inductive Creates : ClientOp → UInt64 → CString → FileType → Option CString → Prop where
  | create {parent : UInt64} {name : CString} : Creates (.create parent name) parent name .T_FILE none
  | mkdir {parent : UInt64} {name : CString} (hdots : ¬ Dots name) :
    Creates (.mkdir parent name) parent name .T_DIR none
  | create_symbolic_link {parent : UInt64} {true_file_path link_name : CString} :
    Creates (.create_symbolic_link parent true_file_path link_name) parent link_name .T_SYMBOLIC (some true_file_path)

variable {c c' : ChfsClient} {op : ClientOp} {reply : ClientReply} {parent ino ino' : UInt64} {name : CString}
  {type : FileType} {value : Option CString} {ret : Status} {found found' : Bool}

theorem Creates.step (h : Creates op parent name type value) (c : ChfsClient) :
    c.step op = (do
      let (ret, ino, c) ← c.make_node parent name type value 0
      return (.node ret ino, c)) := by
  cases h with
  | create => rw [ChfsClient.step, create_eq]
  | mkdir hdots => rw [ChfsClient.step, mkdir_eq, if_neg hdots]
  | create_symbolic_link => rw [ChfsClient.step, create_symbolic_link_eq]

theorem creates_step (hcreates : Creates op parent name type value)
    (hmake : c.make_node parent name type value 0 = .ok (ret, ino, c')) : c.step op = .ok (.node ret ino, c') := by
  rw [hcreates.step, hmake]
  rfl

theorem unlink_step : c.step (.unlink parent name) = .ok (.unlink ret, c') ↔ c.unlink parent name = .ok (ret, c') := by
  constructor
  · intro h
    obtain ⟨⟨ret', c₁⟩, hunlink, h⟩ := Except.bind_eq_ok_iff.mp h
    cases h
    exact hunlink
  · intro h
    rw [step, h]
    rfl

/-- What a step can do. -/
inductive StepDone (c : ChfsClient) : ClientOp → ClientReply → ChfsClient → Prop where
  | node {op : ClientOp} {parent ino : UInt64} {name : CString} {type : FileType} {value : Option CString}
      {ret : Status} {c' : ChfsClient} (hcreates : Creates op parent name type value)
      (hdone : NodeDone c parent name type value 0 ret ino c') : StepDone c op (.node ret ino) c'
  | dots {parent : UInt64} {name : CString} (hdots : Dots name) :
    StepDone c (.mkdir parent name) (.node .IOERR 0) c
  | unlink {parent : UInt64} {name : CString} {ret : Status} {c' : ChfsClient}
      (hdone : UnlinkDone c parent name ret c') : StepDone c (.unlink parent name) (.unlink ret) c'
  | lookup {parent ino : UInt64} {name : CString} {ret : Status} {found : Bool} {c' : ChfsClient}
      (hdone : LookupDone c parent name false 0 ret found ino c') :
    StepDone c (.lookup parent name) (.lookup ret found ino) c'
  | readdir {dir : UInt64} {ret : Status} {list : List Dirent} {c' : ChfsClient}
      (hdone : ReaddirDone c dir ret list c') : StepDone c (.readdir dir) (.readdir ret list) c'
  | read {ino size : UInt64} {off : Int64} {data : List UInt8} {c' : ChfsClient} (hdone : ReadDone c ino c') :
    StepDone c (.read ino size off) (.read .OK data) c'
  | write {ino size : UInt64} {off : Int64} {data : Mem} {c' : ChfsClient}
      (hdone : WriteDone c ino size off data c') : StepDone c (.write ino size off data) (.write .OK size) c'
  | setattr {ino size : UInt64} {ret : Status} {c' : ChfsClient} (hdone : SetattrDone c ino size ret c') :
    StepDone c (.setattr ino size) (.setattr ret) c'
  | getfile {inum : UInt64} {ret : Status} {fin : FileInfo} : StepDone c (.getfile inum) (.getfile ret fin) c
  | getdir {inum : UInt64} {ret : Status} {din : DirInfo} : StepDone c (.getdir inum) (.getdir ret din) c
  | parse_symbolic_link {ino : UInt64} {ret : Status} {buf : List UInt8} {c' : ChfsClient}
      (hdone : ReadDone c ino c') : StepDone c (.parse_symbolic_link ino) (.parse_symbolic_link ret buf) c'

theorem step_creates (hcreates : Creates op parent name type value) (h : c.step op = .ok (reply, c')) :
    StepDone c op reply c' := by
  rw [hcreates.step] at h
  obtain ⟨⟨ret, ino, c₁⟩, hnode, h⟩ := Except.bind_eq_ok_iff.mp h
  cases h
  exact .node hcreates (make_node_done hnode)

theorem step_done (h : c.step op = .ok (reply, c')) : StepDone c op reply c' := by
  cases op with
  | create parent name => exact step_creates .create h
  | mkdir parent name =>
    by_cases hdots : Dots name
    · rw [step, mkdir_eq, if_pos hdots] at h
      cases h
      exact .dots hdots
    · exact step_creates (.mkdir hdots) h
  | create_symbolic_link parent true_file_path link_name => exact step_creates .create_symbolic_link h
  | unlink parent name =>
    obtain ⟨⟨ret, c₁⟩, hcall, h⟩ := Except.bind_eq_ok_iff.mp h
    cases h
    exact .unlink (unlink_done hcall)
  | lookup parent name =>
    obtain ⟨⟨ret, found, ino, c₁⟩, hcall, h⟩ := Except.bind_eq_ok_iff.mp h
    cases h
    exact .lookup (lookup_done hcall)
  | readdir dir =>
    obtain ⟨⟨ret, list, c₁⟩, hcall, h⟩ := Except.bind_eq_ok_iff.mp h
    cases h
    exact .readdir (readdir_done hcall)
  | read ino size off =>
    obtain ⟨⟨ret, data, c₁⟩, hcall, h⟩ := Except.bind_eq_ok_iff.mp h
    cases h
    obtain ⟨rfl, hdone⟩ := read_done hcall
    exact .read hdone
  | write ino size off data =>
    obtain ⟨⟨ret, bytes_written, c₁⟩, hcall, h⟩ := Except.bind_eq_ok_iff.mp h
    cases h
    obtain ⟨rfl, rfl, hdone⟩ := write_done hcall
    exact .write hdone
  | setattr ino size =>
    obtain ⟨⟨ret, c₁⟩, hcall, h⟩ := Except.bind_eq_ok_iff.mp h
    cases h
    exact .setattr (setattr_done hcall)
  | getfile inum =>
    cases h
    exact .getfile
  | getdir inum =>
    cases h
    exact .getdir
  | parse_symbolic_link ino =>
    obtain ⟨⟨ret, buf, c₁⟩, hcall, h⟩ := Except.bind_eq_ok_iff.mp h
    cases h
    rcases parse_symbolic_link_done hcall with ⟨_, _, _, rfl⟩ | ⟨es', _, hget, _, rfl⟩
    · exact .parse_symbolic_link .idle
    · exact .parse_symbolic_link (.get hget)

section Reaches

open ExtentServer

theorem ReaddirDone.reaches {list : List Dirent} (h : ReaddirDone c parent ret list c') :
    c.ec.es.Reaches c'.ec.es := by
  cases h with
  | not_dir _ => exact .refl _
  | read _ hget => exact .of_get hget

theorem LookupDone.reaches (h : LookupDone c parent name found ino ret found' ino' c') :
    c.ec.es.Reaches c'.ec.es := by
  cases h with
  | not_dir _ => exact .refl _
  | unreadable _ hget _ => exact .of_get hget
  | bound _ hget _ _ => exact .of_get hget
  | unbound _ hget _ _ => exact .of_get hget

theorem ValuePut.reaches {es es' : ExtentServer} {id : extentid_t} (h : ValuePut es id value es') : es.Reaches es' := by
  cases h with
  | none => exact .refl _
  | some hput => exact .of_put hput

theorem NodeDone.reaches (h : NodeDone c parent name type value ino ret ino' c') : c.ec.es.Reaches c'.ec.es := by
  cases h with
  | refused hlookup => exact hlookup.reaches
  | bound hlookup => exact hlookup.reaches
  | @made _ _ c₁ es₂ es₃ es₄ es₅ _ hlookup hcreate hget hvalue hput =>
    have hcreated : c₁.ec.es.Reaches es₂ := by
      have hreaches := Reaches.of_create c₁.ec.es type
      rwa [hcreate] at hreaches
    exact ((hlookup.reaches.trans hcreated).trans (.of_get hget)).trans (hvalue.reaches.trans (.of_put hput))

theorem UnlinkDone.reaches (h : UnlinkDone c parent name ret c') : c.ec.es.Reaches c'.ec.es := by
  cases h with
  | refused hlookup => exact hlookup.reaches
  | unbound hlookup => exact hlookup.reaches
  | not_file hlookup _ => exact hlookup.reaches
  | unreadable hlookup _ hremove hread _ => exact (hlookup.reaches.trans (.of_remove hremove)).trans hread.reaches
  | unlinked hlookup _ hremove hread hput =>
    exact ((hlookup.reaches.trans (.of_remove hremove)).trans hread.reaches).trans (.of_put hput)

theorem ReadDone.reaches (h : ReadDone c ino c') : c.ec.es.Reaches c'.ec.es := by
  cases h with
  | idle => exact .refl _
  | get hget => exact .of_get hget

theorem StepDone.reaches (h : StepDone c op reply c') : c.ec.es.Reaches c'.ec.es := by
  cases h with
  | node _ hdone => exact hdone.reaches
  | unlink hdone => exact hdone.reaches
  | lookup hdone => exact hdone.reaches
  | readdir hdone => exact hdone.reaches
  | read hdone => exact hdone.reaches
  | parse_symbolic_link hdone => exact hdone.reaches
  | write hdone =>
    obtain ⟨hget, _, hput⟩ := hdone
    exact (Reaches.of_get hget).trans (.of_put hput)
  | setattr hdone =>
    cases hdone with
    | same hget _ => exact .of_get hget
    | put hget _ hput => exact (Reaches.of_get hget).trans (.of_put hput)
  | _ => exact .refl _

/-- A run of a client is a run of its server. -/
theorem run_reaches {allowed : ChfsClient → ClientOp → Prop} {start : ChfsClient}
    {history : List (ClientOp × ClientReply)} (h : Trace step allowed start history c) :
    start.ec.es.Reaches c.ec.es := by
  refine h.invariant (P := fun c => start.ec.es.Reaches c.ec.es) (.refl _) ?_
  intro c op reply c' hreaches _ hstep
  exact hreaches.trans (step_done hstep).reaches

end Reaches

end ChfsClient

end chfs
