import Chfs.Client.Run

namespace chfs

open BlockManager InodeManager

theorem Files.type_code_eq_iff {files : Files} {id : extentid_t} {type : FileType} :
    files.type_code id = type.code ↔ ∃ bytes, files (inum_of id) = some (type, bytes) := by
  unfold Files.type_code
  cases files (inum_of id) with
  | none =>
    constructor
    · intro h
      exact absurd h.symm type.code_ne_zero
    · rintro ⟨bytes, h⟩
      cases h
  | some file =>
    obtain ⟨type', bytes⟩ := file
    constructor
    · intro h
      exact ⟨bytes, by rw [FileType.code_inj h]⟩
    · rintro ⟨bytes', h⟩
      cases h
      rfl

theorem Files.content_eq {files : Files} {id : extentid_t} {type : FileType} {bytes : List UInt8}
    (h : files (inum_of id) = some (type, bytes)) : files.content id = bytes := by
  rw [Files.content, h]

/-- What a whole file holds fits into a file. -/
theorem Stores.fits {im : InodeManager} {inum : UInt32} {type : FileType} {bytes : List UInt8}
    (h : Stores im inum type bytes) : Fits bytes := by
  obtain ⟨node, _, _, hsize, hwhole, _⟩ := h.live
  have hk := hwhole.blocks_le
  rw [fits_iff, ← hsize]
  unfold blocks_for at hk
  omega

theorem Stores.ne_none {im : InodeManager} {inum : UInt32} {type : FileType} {bytes : List UInt8}
    (h : Stores im inum type bytes) : im.get_inode inum ≠ none := by
  obtain ⟨node, hlive, _⟩ := h.live
  rw [hlive]
  exact Option.some_ne_none node

namespace ExtentServer

variable {known : Set UInt32} {es es' : ExtentServer} {files : Files} {id : extentid_t} {buf : List UInt8}
  {ret : Status}

/-- Known or not, a `get` that returns changes no file. -/
theorem get_only_reads (howned : Owned es.im) (hget : es.get id = .ok (ret, buf, es')) : OnlyReads es es' := by
  have hstep : es.step (.get id) = .ok (.get ret buf, es') := by
    rw [step, hget]
    rfl
  have hshort : (ExtentOp.get id).Short := trivial
  cases step_done howned hshort hstep with
  | get_dead _ => exact .refl es
  | get _ _ _ hunchanged => exact ⟨hunchanged, rfl⟩

theorem get_content (h : RepresentsOn known es.im files) (hid : inum_of id ∈ known)
    (hget : es.get id = .ok (ret, buf, es')) : buf = files.content id := by
  obtain ⟨es₁, hrun, _⟩ := get_spec h hid
  rw [hrun] at hget
  cases hget
  rfl

theorem put_on (h : RepresentsOn known es.im files) (hid : inum_of id ∈ known) (hlen : buf.length < 2 ^ 31)
    (hput : es.put id buf = .ok (ret, es')) : PutDone known files es id buf es' := by
  obtain ⟨es₁, hrun, hdone⟩ := put_spec h hid hlen
  rw [hrun] at hput
  cases hput
  exact hdone

end ExtentServer

open ExtentServer

namespace ChfsClient

variable {known : Set UInt32} {c c' : ChfsClient} {es es' : ExtentServer} {files : Files} {parent ino ino' id : UInt64}
  {name : CString} {type : FileType} {value : Option CString} {text : List UInt8} {ret : Status} {found found' : Bool}
  {list : List Dirent}

theorem getattr_type (h : RepresentsOn known c.ec.es.im files) (hid : inum_of ino ∈ known) :
    (c.ec.es.getattr ino).2.type = files.type_code ino := by
  obtain ⟨a, hgetattr, htype, _⟩ := getattr_spec h hid
  rw [hgetattr]
  exact htype

theorem isdir_iff_known (h : RepresentsOn known c.ec.es.im files) (hid : inum_of ino ∈ known) :
    c.isdir ino = true ↔ ∃ text, files (inum_of ino) = some (.T_DIR, text) := by
  rw [isdir_iff, getattr_type h hid, Files.type_code_eq_iff]

theorem isfile_iff_known (h : RepresentsOn known c.ec.es.im files) (hid : inum_of ino ∈ known) :
    c.isfile ino = true ↔ ∃ text, files (inum_of ino) = some (.T_FILE, text) := by
  rw [isfile_iff, getattr_type h hid, Files.type_code_eq_iff]

theorem issymlink_iff_known (h : RepresentsOn known c.ec.es.im files) (hid : inum_of ino ∈ known) :
    c.issymlink ino = true ↔ ∃ text, files (inum_of ino) = some (.T_SYMBOLIC, text) := by
  rw [issymlink_iff, getattr_type h hid, Files.type_code_eq_iff]

/-- A lookup changes no file. -/
theorem LookupDone.only_reads (hdone : LookupDone c parent name found ino ret found' ino' c')
    (howned : Owned c.ec.es.im) : OnlyReads c.ec.es c'.ec.es := by
  cases hdone with
  | not_dir _ => exact .refl _
  | unreadable _ hget _ => exact get_only_reads howned hget
  | bound _ hget _ _ => exact get_only_reads howned hget
  | unbound _ hget _ _ => exact get_only_reads howned hget

theorem ReaddirDone.only_reads (hdone : ReaddirDone c parent ret list c') (howned : Owned c.ec.es.im) :
    OnlyReads c.ec.es c'.ec.es := by
  cases hdone with
  | not_dir _ => exact .refl _
  | read _ hget => exact get_only_reads howned hget

theorem ReadDone.only_reads (hdone : ReadDone c ino c') (howned : Owned c.ec.es.im) :
    OnlyReads c.ec.es c'.ec.es := by
  cases hdone with
  | idle => exact .refl _
  | get hget => exact get_only_reads howned hget

/-- The directory `parent` is known, and its text is that of the entries. -/
structure Lists (known : Set UInt32) (files : Files) (c : ChfsClient) (parent : UInt64) (text : List UInt8)
    (list : List Dirent) : Prop where
  represents : RepresentsOn known c.ec.es.im files
  mem : inum_of parent ∈ known
  file : files (inum_of parent) = some (.T_DIR, text)
  parse : c.parse text = (.OK, list)

namespace Lists

theorem isdir (h : Lists known files c parent text list) : c.isdir parent = true :=
  (isdir_iff_known h.represents h.mem).mpr ⟨text, h.file⟩

theorem stores (h : Lists known files c parent text list) : Stores c.ec.es.im (inum_of parent) .T_DIR text :=
  h.represents.stored _ h.mem _ _ h.file

theorem only_reads (h : Lists known files c parent text list) (hreads : OnlyReads c.ec.es es') :
    Lists known files (c.with_server es') parent text list :=
  ⟨hreads.represents h.represents, h.mem, h.file, by rw [parse_with_server, h.parse]⟩

theorem get (h : Lists known files c parent text list) :
    ∃ es', c.ec.es.get parent = .ok (.OK, text, es') ∧ OnlyReads c.ec.es es' := by
  obtain ⟨es', hget, hreads⟩ := get_spec h.represents h.mem
  rw [Files.content_eq h.file] at hget
  exact ⟨es', hget, hreads⟩

/-- `readdir` lists the entries. -/
theorem readdir (h : Lists known files c parent text list) :
    ∃ es', c.readdir parent [] = .ok (.OK, list, c.with_server es') ∧ OnlyReads c.ec.es es' := by
  obtain ⟨es', hget, hreads⟩ := h.get
  refine ⟨es', ?_, hreads⟩
  rw [readdir_of_get h.isdir hget, h.parse]

/-- It does nothing else. -/
theorem of_readdir (h : Lists known files c parent text list) {entries : List Dirent}
    (hdone : ReaddirDone c parent ret entries c') : ret = .OK ∧ entries = list ∧ OnlyReads c.ec.es c'.ec.es := by
  have hreads := hdone.only_reads h.represents.owned
  cases hdone with
  | not_dir hnot =>
    rw [h.isdir] at hnot
    cases hnot
  | read _ hget =>
    have hbuf := get_content h.represents h.mem hget
    rw [Files.content_eq h.file] at hbuf
    rw [hbuf, h.parse]
    exact ⟨rfl, rfl, hreads⟩

/-- `lookup` finds the first entry of a name. -/
theorem lookup_some (h : Lists known files c parent text list) (found : Bool) (ino : UInt64) {e : Dirent}
    (hfind : list.find? (fun elem => elem.name = name.bytes) = some e) :
    ∃ es', c.lookup parent name found ino = .ok (.OK, true, e.inum, c.with_server es') ∧ OnlyReads c.ec.es es' := by
  obtain ⟨es', hget, hreads⟩ := h.get
  exact ⟨es', lookup_bound h.isdir hget h.parse hfind, hreads⟩

theorem lookup_none (h : Lists known files c parent text list) (found : Bool) (ino : UInt64)
    (hfind : list.find? (fun elem => elem.name = name.bytes) = none) :
    ∃ es', c.lookup parent name found ino = .ok (.OK, found, ino, c.with_server es') ∧ OnlyReads c.ec.es es' := by
  obtain ⟨es', hget, hreads⟩ := h.get
  exact ⟨es', lookup_unbound h.isdir hget h.parse hfind, hreads⟩

end Lists

/-- `lookup` finds the name in the directory. -/
def Bound (c : ChfsClient) (parent : UInt64) (name : CString) : Prop :=
  ∃ ino c', c.lookup parent name false 0 = .ok (.OK, true, ino, c')

theorem Lists.bound_iff (h : Lists known files c parent text list) :
    Bound c parent name ↔ ∃ e ∈ list, e.name = name.bytes := by
  constructor
  · rintro ⟨ino, c', hlookup⟩
    cases hfind : list.find? (fun elem => elem.name = name.bytes) with
    | none =>
      obtain ⟨es', hnone, _⟩ := h.lookup_none false 0 hfind
      rw [hnone] at hlookup
      cases hlookup
    | some e => exact ⟨e, List.mem_of_find?_eq_some hfind, by simpa using List.find?_some hfind⟩
  · rintro ⟨e, he, hname⟩
    have hsome : (list.find? (fun elem => elem.name = name.bytes)).isSome := by
      rw [List.find?_isSome]
      exact ⟨e, he, by simpa using hname⟩
    obtain ⟨found, hfind⟩ := Option.isSome_iff_exists.mp hsome
    obtain ⟨es', hlookup, _⟩ := h.lookup_some false 0 hfind
    exact ⟨_, _, hlookup⟩

theorem Lists.find_none (h : Lists known files c parent text list) (hunbound : ¬ Bound c parent name) :
    list.find? (fun elem => elem.name = name.bytes) = none := by
  rw [List.find?_eq_none]
  intro e he
  simp only [decide_eq_true_eq]
  intro hname
  exact hunbound (h.bound_iff.mpr ⟨e, he, hname⟩)

theorem Lists.not_bound (h : Lists known files c parent text list)
    (hfind : list.find? (fun elem => elem.name = name.bytes) = none) : ¬ Bound c parent name := by
  rw [h.bound_iff]
  rintro ⟨e, he, hname⟩
  exact absurd hname (by simpa using List.find?_eq_none.mp hfind e he)

end ChfsClient

end chfs
