import Chfs.Client.DeadInodes
import Chfs.Client.NameMap

namespace chfs

open InodeManager ExtentServer

namespace ChfsClient

variable {fs : Nodes} {c c' : ChfsClient} {parent ino size : UInt64} {off : Int64} {name : CString} {type : FileType}
  {value : Option CString} {data : List UInt8} {ret : Status}

theorem Shows.of_unchanged (h : Shows fs c) (hunchanged : Unchanged c.ec.es.im c'.ec.es.im) : Shows fs c' :=
  ⟨representsOn_univ.mp (h.represents_on.of_unchanged hunchanged), h.names⟩

/-- What is neither a directory nor a link is a file, or dead. -/
theorem Shows.file_or_gone (h : Shows fs c) (hdir : c.isdir ino = false) (hlink : c.issymlink ino = false) :
    fs (inum_of ino) = none ∨ c.isfile ino = true := by
  cases hnode : fs (inum_of ino) with
  | none => exact .inl rfl
  | some node =>
    right
    cases node with
    | file content => exact h.isfile_iff.mpr ⟨content, hnode⟩
    | dir entries =>
      rw [h.isdir_iff.mpr ⟨entries, hnode⟩] at hdir
      cases hdir
    | link path =>
      rw [h.issymlink_iff.mpr ⟨path, hnode⟩] at hlink
      cases hlink

theorem Shows.dead (h : Shows fs c) (hgone : fs (inum_of ino) = none) : c.ec.es.im.get_inode (inum_of ino) = none := by
  apply h.represents.dead
  rw [Nodes.files, hgone]
  rfl

/-- A dead inode reads as an empty file, -/
theorem read_gone (hdead : c.ec.es.im.get_inode (inum_of ino) = none)
    (hread : c.read ino size off = .ok (ret, data, c')) :
    0 ≤ off.toInt ∧ data = [] ∧ c' = c := by
  have hget := get_dead hdead
  have hoff := nonneg_of_read (Nat.zero_le _) hget hread
  rw [read_of_get hget, if_pos (by simpa using hoff)] at hread
  cases hread
  exact ⟨hoff, rfl, rfl⟩

/-- and what is written to it, -/
theorem write_gone {buf : Mem} {bytes_written : UInt64} (h : Shows fs c)
    (hdead : c.ec.es.im.get_inode (inum_of ino) = none)
    (hwrite : c.write ino size off buf 0 = .ok (ret, bytes_written, c')) : 0 ≤ off.toInt ∧ Shows fs c' := by
  obtain ⟨_, _, hdone⟩ := write_done hwrite
  cases hdone with
  | put hget hwritten hput =>
    rw [get_dead hdead] at hget
    cases hget
    rw [put_dead hdead] at hput
    cases hput
    exact ⟨nonneg_of_written (Nat.zero_le _) hwritten, h.of_unchanged (unchanged_env _ _)⟩

/-- or the size it is set to, is lost. -/
theorem setattr_gone (h : Shows fs c) (hdead : c.ec.es.im.get_inode (inum_of ino) = none)
    (hset : c.setattr ino size = .ok (ret, c')) : Shows fs c' := by
  cases setattr_done hset with
  | same hget _ =>
    rw [get_dead hdead] at hget
    cases hget
    exact h
  | put hget _ hput =>
    rw [get_dead hdead] at hget
    cases hget
    rw [put_dead hdead] at hput
    cases hput
    exact h.of_unchanged (unchanged_env _ _)

theorem make_node_refused {found : Bool} {ino₁ : UInt64}
    (hlookup : c.lookup parent name false ino = .ok (.IOERR, found, ino₁, c')) :
    c.make_node parent name type value ino = .ok (.IOERR, ino₁, c') := by
  rw [make_node, hlookup]
  rfl

theorem unlink_not_dir (hdir : c.isdir parent = false) : c.unlink parent name = .ok (.IOERR, c) := by
  have hcheck := check_dir_inode_eq c parent
  rw [hdir] at hcheck
  unfold unlink
  dsimp only
  rw [hcheck]
  rfl

namespace Shows

theorem lookup_returns (h : Shows fs c) (parent : UInt64) (name : CString) (ino : UInt64) :
    ∃ r, c.lookup parent name false ino = .ok r := by
  cases hdir : c.isdir parent with
  | false => exact ⟨_, lookup_not_dir hdir⟩
  | true =>
    obtain ⟨entries, hentries⟩ := h.isdir_iff.mp hdir
    cases hfind : entries.find? (fun elem => elem.name = name.bytes) with
    | none =>
      obtain ⟨es', hlookup, _⟩ := (h.lists hentries).lookup_none false ino hfind
      exact ⟨_, hlookup⟩
    | some e =>
      obtain ⟨es', hlookup, _⟩ := (h.lists hentries).lookup_some false ino hfind
      exact ⟨_, hlookup⟩

theorem make_node_returns (h : Shows fs c) (parent : UInt64) (type : FileType) (ino : UInt64)
    (hname : name.bytes.length ≤ 116736) (hvalue : (value_bytes value).length < 2 ^ 31) :
    ∃ r, c.make_node parent name type value ino = .ok r := by
  cases hdir : c.isdir parent with
  | false => exact ⟨_, make_node_refused (lookup_not_dir hdir)⟩
  | true =>
    obtain ⟨entries, hentries⟩ := h.isdir_iff.mp hdir
    have hlists := h.lists hentries
    cases hfind : entries.find? (fun elem => elem.name = name.bytes) with
    | none =>
      obtain ⟨id, c', hmake, _⟩ := make_node_spec hlists type value ino hfind hname hvalue
      exact ⟨_, hmake⟩
    | some e =>
      obtain ⟨es', hlookup, _⟩ := hlists.lookup_some false ino hfind
      exact ⟨_, make_node_found hlookup⟩

theorem unlink_returns (h : Shows fs c) (parent : UInt64) (name : CString) : ∃ r, c.unlink parent name = .ok r := by
  cases hdir : c.isdir parent with
  | false => exact ⟨_, unlink_not_dir hdir⟩
  | true =>
    obtain ⟨entries, hentries⟩ := h.isdir_iff.mp hdir
    obtain ⟨ret, c', hstep, _⟩ := unlink_answers h hentries name
    exact ⟨_, unlink_step.mp hstep⟩

theorem readdir_returns (h : Shows fs c) (hdir : c.isdir ino = true) : ∃ r, c.readdir ino [] = .ok r := by
  obtain ⟨entries, hentries⟩ := h.isdir_iff.mp hdir
  obtain ⟨es', hread, _⟩ := (h.lists hentries).readdir
  exact ⟨_, hread⟩

theorem read_returns (h : Shows fs c) (hdir : c.isdir ino = false) (hlink : c.issymlink ino = false) (size : UInt64)
    (hoff : 0 ≤ off.toInt) : ∃ r, c.read ino size off = .ok r := by
  rcases h.file_or_gone hdir hlink with hgone | hfile
  · have hforward : (ClientOp.read ino size off).Forward := hoff
    obtain ⟨_, _, hstep, _⟩ := dead_answers (h.dead hgone) .read hforward
    obtain ⟨r, hread, _⟩ := Except.bind_eq_ok_iff.mp hstep
    exact ⟨r, hread⟩
  · obtain ⟨content, hcontent⟩ := h.isfile_iff.mp hfile
    obtain ⟨es', hread, _⟩ := read_spec h.represents_on trivial (Nodes.files_file.mpr hcontent) hoff size
    exact ⟨_, hread⟩

theorem length_splice_lt {text data : List UInt8} {off : Nat} (htext : text.length < 2 ^ 31)
    (hdata : off + data.length < 2 ^ 31) :
    (splice text off data).length < 2 ^ 31 := by
  simp only [splice, List.length_append, List.length_take, List.length_replicate, List.length_drop]
  omega

theorem write_returns (h : Shows fs c) (hdir : c.isdir ino = false) (hlink : c.issymlink ino = false) (buf : Mem)
    (hoff : 0 ≤ off.toInt) (hend : off.toInt.toNat + size.toNat < 2 ^ 31) :
    ∃ r, c.write ino size off buf 0 = .ok r := by
  rcases h.file_or_gone hdir hlink with hgone | hfile
  · have hforward : (ClientOp.write ino size off buf).Forward := hoff
    obtain ⟨_, _, hstep, _⟩ := dead_answers (h.dead hgone) .write hforward
    obtain ⟨r, hwrite, _⟩ := Except.bind_eq_ok_iff.mp hstep
    exact ⟨r, hwrite⟩
  · obtain ⟨content, hcontent⟩ := h.isfile_iff.mp hfile
    have hstored := Nodes.files_file.mpr hcontent
    have hbound := fits_iff.mp (h.represents.stored _ _ _ hstored).fits
    have hlength : (splice content off.toInt.toNat (buf.bytes size.toNat)).length < 2 ^ 31 :=
      length_splice_lt (by omega) (by rwa [Mem.length_bytes])
    obtain ⟨es', hwrite, _⟩ := write_spec h.represents_on trivial hstored hoff hlength
    exact ⟨_, hwrite⟩

theorem setattr_returns (h : Shows fs c) (hdir : c.isdir ino = false) (hlink : c.issymlink ino = false)
    (size : UInt64) :
    ∃ r, c.setattr ino size = .ok r := by
  rcases h.file_or_gone hdir hlink with hgone | hfile
  · have hforward : (ClientOp.setattr ino size).Forward := trivial
    obtain ⟨_, _, hstep, _⟩ := dead_answers (h.dead hgone) .setattr hforward
    obtain ⟨r, hset, _⟩ := Except.bind_eq_ok_iff.mp hstep
    exact ⟨r, hset⟩
  · obtain ⟨content, hcontent⟩ := h.isfile_iff.mp hfile
    obtain ⟨es', hset, _⟩ := setattr_spec h.represents_on trivial (Nodes.files_file.mpr hcontent) size
    exact ⟨_, hset⟩

theorem parse_symbolic_link_returns (h : Shows fs c) (ino : UInt64) : ∃ r, c.parse_symbolic_link [] ino = .ok r := by
  have hmem : inum_of ino ∈ Set.univ := trivial
  obtain ⟨es', hget, _⟩ := get_spec h.represents_on hmem
  unfold parse_symbolic_link
  rw [ec_get hget]
  cases c.issymlink ino with
  | false => exact ⟨_, rfl⟩
  | true => exact ⟨_, rfl⟩

end Shows

end ChfsClient

end chfs
