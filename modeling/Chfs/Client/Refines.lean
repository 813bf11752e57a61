import Chfs.Client.History
import Chfs.Client.Start
import Chfs.Client.Unlinking

namespace chfs

open BlockManager InodeManager ExtentServer

namespace Nodes

variable {fs : Nodes} {inum : UInt32} {text : List UInt8}

theorem files_dir :
    fs.files inum = some (.T_DIR, text) ↔ ∃ entries, fs inum = some (.dir entries) ∧ dir_text entries = text := by
  unfold files
  cases fs inum with
  | none => simp
  | some node => cases node <;> simp [Node.stored]

theorem files_file : fs.files inum = some (.T_FILE, text) ↔ fs inum = some (.file text) := by
  unfold files
  cases fs inum with
  | none => simp
  | some node => cases node <;> simp [Node.stored]

theorem files_link : fs.files inum = some (.T_SYMBOLIC, text) ↔ fs inum = some (.link text) := by
  unfold files
  cases fs inum with
  | none => simp
  | some node => cases node <;> simp [Node.stored]

theorem files_update (fs : Nodes) (inum : UInt32) (node : Option Node) :
    files (Function.update fs inum node) = Function.update fs.files inum (node.map Node.stored) := by
  funext other
  by_cases heq : other = inum
  · rw [heq, files, Function.update_self, Function.update_self]
  · rw [files, Function.update_of_ne heq, Function.update_of_ne heq]
    rfl

end Nodes

namespace ChfsClient

variable {fs fs' : Nodes} {c c' start : ChfsClient} {op : ClientOp} {reply : ClientReply}
  {history : List (ClientOp × ClientReply)} {parent ino ino' id : UInt64} {name : CString} {type : FileType}
  {value : Option CString} {ret : Status} {found found' : Bool} {list entries : List Dirent}

/-- The client's server holds this file system, each directory as the encoding of its entries. -/
structure Shows (fs : Nodes) (c : ChfsClient) : Prop where
  represents : Represents c.ec.es.im fs.files
  names : ∀ dir, ∀ e ∈ fs.entries dir, slash ∉ e.name

namespace Shows

theorem represents_on (h : Shows fs c) : RepresentsOn Set.univ c.ec.es.im fs.files := representsOn_univ.mpr h.represents

theorem of_reads (h : Shows fs c) (hreads : OnlyReads c.ec.es c'.ec.es) : Shows fs c' :=
  ⟨representsOn_univ.mp (hreads.represents h.represents_on), h.names⟩

theorem isdir_iff (h : Shows fs c) : c.isdir ino = true ↔ ∃ entries, fs (inum_of ino) = some (.dir entries) := by
  rw [isdir_iff_known h.represents_on trivial]
  simp only [Nodes.files_dir]
  constructor
  · rintro ⟨_, entries, hdir, _⟩
    exact ⟨entries, hdir⟩
  · rintro ⟨entries, hdir⟩
    exact ⟨_, entries, hdir, rfl⟩

theorem isfile_iff (h : Shows fs c) : c.isfile ino = true ↔ ∃ text, fs (inum_of ino) = some (.file text) := by
  rw [isfile_iff_known h.represents_on trivial]
  simp only [Nodes.files_file]

theorem issymlink_iff (h : Shows fs c) : c.issymlink ino = true ↔ ∃ path, fs (inum_of ino) = some (.link path) := by
  rw [issymlink_iff_known h.represents_on trivial]
  simp only [Nodes.files_link]

theorem lists (h : Shows fs c) (hdir : fs (inum_of parent) = some (.dir entries)) :
    Lists Set.univ fs.files c parent (dir_text entries) entries := by
  have hnames := h.names (inum_of parent)
  rw [Nodes.entries_eq hdir] at hnames
  exact ⟨h.represents_on, trivial, Nodes.files_dir.mpr ⟨entries, hdir, rfl⟩, parse_dir_text c hnames⟩

/-- What is parsed is the list of entries. -/
theorem parsed (h : Shows fs c) (hdir : c.isdir parent = true) {buf : List UInt8} {es' : ExtentServer}
    (hget : c.ec.es.get parent = .ok (.OK, buf, es')) :
    ∃ entries, fs (inum_of parent) = some (.dir entries) ∧ c.parse buf = (.OK, entries) := by
  obtain ⟨entries, hentries⟩ := h.isdir_iff.mp hdir
  have hlists := h.lists hentries
  have hbuf := get_content hlists.represents hlists.mem hget
  rw [Files.content_eq hlists.file] at hbuf
  exact ⟨entries, hentries, by rw [hbuf, hlists.parse]⟩

theorem refused (h : Shows fs c) (hlookup : LookupDone c parent name found ino .IOERR found' ino' c') :
    (∀ entries, fs (inum_of parent) ≠ some (.dir entries)) ∧ found' = found ∧ ino' = ino := by
  cases hlookup with
  | not_dir hdir =>
    refine ⟨?_, rfl, rfl⟩
    intro entries hentries
    rw [h.isdir_iff.mpr ⟨entries, hentries⟩] at hdir
    cases hdir
  | unreadable hdir hget hparse =>
    obtain ⟨entries, _, hok⟩ := h.parsed hdir hget
    rw [hok] at hparse
    exact absurd rfl hparse

theorem bound (h : Shows fs c) (hlookup : LookupDone c parent name false ino .OK true ino' c') :
    ∃ entries e, fs (inum_of parent) = some (.dir entries) ∧
      entries.find? (fun elem => elem.name = name.bytes) = some e ∧ ino' = e.inum := by
  cases hlookup with
  | bound hdir hget hparse hfind =>
    obtain ⟨entries, hentries, hok⟩ := h.parsed hdir hget
    rw [hok] at hparse
    cases hparse
    exact ⟨_, _, hentries, hfind, rfl⟩

theorem unbound (h : Shows fs c) (hlookup : LookupDone c parent name false ino .OK false ino' c') :
    ∃ entries, fs (inum_of parent) = some (.dir entries) ∧
      entries.find? (fun elem => elem.name = name.bytes) = none ∧ ino' = ino := by
  cases hlookup with
  | unbound hdir hget hparse hfind =>
    obtain ⟨entries, hentries, hok⟩ := h.parsed hdir hget
    rw [hok] at hparse
    cases hparse
    exact ⟨_, hentries, hfind, rfl⟩

end Shows

theorem of_find_some {e : Dirent} (h : entries.find? (fun elem => elem.name = name.bytes) = some e) :
    e ∈ entries ∧ e.name = name.bytes :=
  ⟨List.mem_of_find?_eq_some h, by simpa using List.find?_some h⟩

theorem of_find_none (h : entries.find? (fun elem => elem.name = name.bytes) = none) :
    ∀ e ∈ entries, e.name ≠ name.bytes := by
  intro e he
  simpa using List.find?_eq_none.mp h e he

theorem lookup_refines (h : Shows fs c) (hdone : LookupDone c parent name false 0 ret found ino c') :
    fs.Step (.lookup parent name) (.lookup ret found ino) fs ∧ Shows fs c' := by
  refine ⟨?_, h.of_reads (hdone.only_reads h.represents.owned)⟩
  cases ret with
  | OK =>
    cases found with
    | true =>
      obtain ⟨entries, e, hdir, hfind, rfl⟩ := h.bound hdone
      obtain ⟨hmem, hname⟩ := of_find_some hfind
      exact .found hdir hmem hname
    | false =>
      obtain ⟨entries, hdir, hfind, rfl⟩ := h.unbound hdone
      exact .not_found hdir (of_find_none hfind)
  | IOERR =>
    obtain ⟨hdir, rfl, rfl⟩ := h.refused hdone
    exact .not_looked hdir
  | _ => cases hdone

theorem readdir_refines (h : Shows fs c) (hdone : ReaddirDone c parent ret list c') :
    fs.Step (.readdir parent) (.readdir ret list) fs ∧ Shows fs c' := by
  refine ⟨?_, h.of_reads (hdone.only_reads h.represents.owned)⟩
  cases hdone with
  | not_dir hdir =>
    refine .not_listed ?_
    intro entries hentries
    rw [h.isdir_iff.mpr ⟨entries, hentries⟩] at hdir
    cases hdir
  | read hdir hget =>
    obtain ⟨entries, hentries, hok⟩ := h.parsed hdir hget
    rw [hok]
    exact .listed hentries

/-- The stored files after a creation. -/
theorem files_bind (hcreates : Creates op parent name type value) {inum : UInt32} (hinum : inum_of id = inum)
    (hid : id = inum.toUInt64) :
    (fs.bind (inum_of parent) entries { inum := id, name := name.bytes } (.made type value)).files =
      node_files fs.files parent (dir_text entries) inum name type value := by
  have hmade : (Node.made type value).stored = (type, value_bytes value) := by
    cases hcreates <;> rfl
  rw [Nodes.bind, Nodes.files_update, Nodes.files_update, node_files, Option.map_some, Option.map_some, hmade, hinum,
    ← hid, dir_text_new]
  rfl

theorem make_refines (h : Shows fs c) (hcreates : Creates op parent name type value) (hname : slash ∉ name.bytes)
    (hmake : c.make_node parent name type value 0 = .ok (ret, id, c')) (hclean : c'.ec.es.Clean) :
    ∃ fs', fs.Step op (.node ret id) fs' ∧ Shows fs' c' := by
  cases hret : ret with
  | OK =>
    subst hret
    obtain ⟨text, list, inum, hlists, hfind, hid, hinum, hdead, hafter⟩ :=
      make_node_ok h.represents_on trivial hname hmake hclean
    obtain ⟨entries, hdir, rfl⟩ := Nodes.files_dir.mp hlists.file
    have hlist : list = entries := by
      have hparse := hlists.parse
      rw [(h.lists hdir).parse] at hparse
      cases hparse
      rfl
    subst hlist
    have hfresh : fs (inum_of id) = none := by
      have hnone := h.represents.dead_iff.mp (hinum.symm ▸ hdead)
      simpa [Nodes.files] using hnone
    have hstep : fs.Step op (.node .OK id) _ := .made hcreates hdir (of_find_none hfind) hfresh
    have hnamed : op.Named := by
      cases hcreates <;> exact hname
    refine ⟨_, hstep, ?_, hstep.names hnamed h.names⟩
    rw [files_bind hcreates hinum hid]
    exact representsOn_univ.mp (hafter.represents.mono fun _ _ => Set.mem_insert_of_mem _ trivial)
  | IOERR =>
    subst hret
    cases make_node_done hmake with
    | refused hlookup =>
      obtain ⟨hdir, _, rfl⟩ := h.refused hlookup
      exact ⟨fs, .not_made hcreates hdir, h.of_reads (hlookup.only_reads h.represents.owned)⟩
  | EXIST =>
    subst hret
    cases make_node_done hmake with
    | bound hlookup =>
      obtain ⟨entries, e, hdir, hfind, rfl⟩ := h.bound hlookup
      obtain ⟨hmem, hentry⟩ := of_find_some hfind
      exact ⟨fs, .exist hcreates hdir hmem hentry, h.of_reads (hlookup.only_reads h.represents.owned)⟩
  | _ =>
    subst hret
    cases make_node_done hmake

theorem unlink_refines (h : Shows fs c) (hname : slash ∉ name.bytes) (hunlink : c.unlink parent name = .ok (ret, c')) :
    ∃ fs', fs.Step (.unlink parent name) (.unlink ret) fs' ∧ Shows fs' c' := by
  cases unlink_done hunlink with
  | refused hlookup =>
    obtain ⟨hdir, _, _⟩ := h.refused hlookup
    exact ⟨fs, .not_unlinked hdir, h.of_reads (hlookup.only_reads h.represents.owned)⟩
  | unbound hlookup =>
    obtain ⟨entries, hdir, hfind, _⟩ := h.unbound hlookup
    exact ⟨fs, .no_entry hdir (of_find_none hfind), h.of_reads (hlookup.only_reads h.represents.owned)⟩
  | not_file hlookup hfile =>
    obtain ⟨entries, e, hdir, hfind, rfl⟩ := h.bound hlookup
    obtain ⟨hmem, hentry⟩ := of_find_some hfind
    have h' := h.of_reads (hlookup.only_reads h.represents.owned)
    refine ⟨fs, .no_file hdir hmem hentry ?_, h'⟩
    intro text htext
    rw [h'.isfile_iff.mpr ⟨text, htext⟩] at hfile
    cases hfile
  | unreadable hlookup hfile hremove hread hret =>
    obtain ⟨entries, e, hdir, _, _⟩ := h.bound hlookup
    exact absurd (((h.lists hdir).after_remove hlookup hfile hremove).of_readdir hread).1 hret
  | @unlinked _ c₁ _ _ _ _ hlookup hfile _ _ _ =>
    obtain ⟨entries, e, hdir, hfind, rfl⟩ := h.bound hlookup
    obtain ⟨hmem, hentry⟩ := of_find_some hfind
    have h₁ : Shows fs c₁ := h.of_reads (hlookup.only_reads h.represents.owned)
    obtain ⟨text, htext⟩ := h₁.isfile_iff.mp hfile
    obtain ⟨es', hrun, _, _, hrep⟩ := unlink_spec (h.lists hdir) hfind trivial (Nodes.files_file.mpr htext)
    rw [hunlink] at hrun
    cases hrun
    have hstep : fs.Step (.unlink parent name) (.unlink .OK) _ := .unlinked hdir hmem hentry htext
    refine ⟨_, hstep, ?_, hstep.names hname h.names⟩
    rw [Nodes.unbind, Nodes.files_update, Nodes.files_update, hentry]
    exact representsOn_univ.mp hrep

/-- Only at an offset that is not negative is anything written, -/
theorem nonneg_of_written {text text' : List UInt8} {size : UInt64} {off : Int64} {data : Mem}
    (hbound : text.length ≤ 116736) (h : written text size off data = some text') : 0 ≤ off.toInt := by
  by_contra hneg
  have hlarge := toNat_of_neg (not_le.mp hneg)
  have hhole : ¬ (text.length : Int) < off.toInt := by omega
  have hbehind : ¬ off.toUInt64.toNat ≤ text.length := by omega
  unfold written at h
  rw [if_neg hhole, StdString.replace, if_neg hbehind] at h
  cases h

/-- or read. -/
theorem nonneg_of_read {text data : List UInt8} {size : UInt64} {off : Int64} {es' : ExtentServer}
    (hbound : text.length ≤ 116736) (hget : c.ec.es.get ino = .ok (.OK, text, es'))
    (h : c.read ino size off = .ok (ret, data, c')) : 0 ≤ off.toInt := by
  by_contra hneg
  have hlarge := toNat_of_neg (not_le.mp hneg)
  have hinside : ¬ (text.length : Int) ≤ off.toInt := by omega
  have hbehind : ¬ off.toUInt64.toNat ≤ text.length := by omega
  rw [read_of_get hget, if_neg hinside] at h
  dsimp only at h
  split at h
  · rw [StdString.substr, if_neg hbehind] at h
    cases h
  · rw [StdString.substr, if_neg hbehind] at h
    cases h

/-- What the callers of a file see after its content has changed. -/
theorem Shows.write (h : Shows fs c) {text text' : List UInt8} (hfile : fs (inum_of ino) = some (.file text))
    (hrep : RepresentsOn Set.univ c'.ec.es.im (Function.update fs.files (inum_of ino) (some (.T_FILE, text')))) :
    Shows (Function.update fs (inum_of ino) (some (.file text'))) c' := by
  refine ⟨?_, ?_⟩
  · rw [Nodes.files_update]
    exact representsOn_univ.mp hrep
  · intro dir
    rw [Nodes.entries_write hfile]
    exact h.names dir

theorem read_refines (h : Shows fs c) {size : UInt64} {off : Int64} {data : List UInt8} (hfile : c.isfile ino = true)
    (hread : c.read ino size off = .ok (ret, data, c')) :
    ∃ fs', fs.Step (.read ino size off) (.read ret data) fs' ∧ Shows fs' c' := by
  obtain ⟨text, htext⟩ := h.isfile_iff.mp hfile
  have hstored := Nodes.files_file.mpr htext
  have hbound := fits_iff.mp (h.represents.stored _ _ _ hstored).fits
  have hmem : inum_of ino ∈ Set.univ := trivial
  obtain ⟨es₁, hget, _⟩ := get_spec h.represents_on hmem
  rw [Files.content_eq hstored] at hget
  have hoff := nonneg_of_read hbound hget hread
  obtain ⟨es', hrun, hreads⟩ := read_spec h.represents_on trivial hstored hoff size
  rw [hread] at hrun
  cases hrun
  exact ⟨fs, .read htext hoff, h.of_reads hreads⟩

theorem write_refines (h : Shows fs c) {size : UInt64} {off : Int64} {data : Mem} (hfile : c.isfile ino = true)
    {bytes_written : UInt64} (hwrite : c.write ino size off data 0 = .ok (ret, bytes_written, c'))
    (hclean : c'.ec.es.Clean) :
    ∃ fs', fs.Step (.write ino size off data) (.write ret bytes_written) fs' ∧ Shows fs' c' := by
  obtain ⟨text, htext⟩ := h.isfile_iff.mp hfile
  have hstored := Nodes.files_file.mpr htext
  have hbound := fits_iff.mp (h.represents.stored _ _ _ hstored).fits
  obtain ⟨rfl, rfl, hdone⟩ := write_done hwrite
  cases hdone with
  | @put buf text' es₁ es₂ hget hwritten hput =>
    have hmem : inum_of ino ∈ Set.univ := trivial
    have hbuf := get_content h.represents_on hmem hget
    rw [Files.content_eq hstored] at hbuf
    subst hbuf
    have hoff := nonneg_of_written hbound hwritten
    rw [written_eq_splice buf bytes_written data hoff] at hwritten
    cases hwritten
    have hlongest := put_longest hput
    have hlong : es₂.longest_put < 2 ^ 31 := hclean.longest_lt
    have hle : (splice buf off.toInt.toNat (data.bytes bytes_written.toNat)).length ≤ es₂.longest_put :=
      hlongest ▸ le_max_right _ _
    have hspec : ∃ es', c.write ino bytes_written off data 0 = .ok (.OK, bytes_written, c.with_server es') ∧ _ :=
      write_spec h.represents_on hmem hstored hoff (hle.trans_lt hlong)
    obtain ⟨es', hrun, htally, _, hrep⟩ := hspec
    rw [hwrite] at hrun
    cases hrun
    have hfits : Fits (splice buf off.toInt.toNat (data.bytes bytes_written.toNat)) :=
      hle.trans (clean_iff.mp hclean).2.2
    exact ⟨_, .write htext hoff, h.write htext (hrep (hclean.untroubled htally) hfits)⟩

theorem setattr_refines (h : Shows fs c) {size : UInt64} (hfile : c.isfile ino = true)
    (hset : c.setattr ino size = .ok (ret, c')) :
    ∃ fs', fs.Step (.setattr ino size) (.setattr ret) fs' ∧ Shows fs' c' := by
  obtain ⟨text, htext⟩ := h.isfile_iff.mp hfile
  have hstored := Nodes.files_file.mpr htext
  obtain ⟨es', hrun, _, _, hrep⟩ := setattr_spec h.represents_on trivial hstored size
  rw [hset] at hrun
  cases hrun
  exact ⟨_, .setattr htext, h.write htext hrep⟩

theorem link_refines (h : Shows fs c) {path : List UInt8}
    (hparse : c.parse_symbolic_link [] ino = .ok (ret, path, c')) :
    fs.Step (.parse_symbolic_link ino) (.parse_symbolic_link ret path) fs ∧ Shows fs c' := by
  rcases parse_symbolic_link_done hparse with ⟨hnot, rfl, rfl, rfl⟩ | ⟨es', hlink, hget, rfl, rfl⟩
  · refine ⟨.no_link ?_, h⟩
    intro path hpath
    rw [h.issymlink_iff.mpr ⟨path, hpath⟩] at hnot
    cases hnot
  · obtain ⟨path', hpath⟩ := h.issymlink_iff.mp hlink
    have hmem : inum_of ino ∈ Set.univ := trivial
    have hbuf := get_content h.represents_on hmem hget
    rw [Files.content_eq (Nodes.files_link.mpr hpath)] at hbuf
    subst hbuf
    exact ⟨.link hpath, h.of_reads (get_only_reads h.represents.owned hget)⟩

theorem getfile_refines (h : Shows fs c) (inum : UInt64) (fin : FileInfo) :
    fs.Step (.getfile inum) (.getfile (c.getfile inum fin).1 (c.getfile inum fin).2) fs := by
  have hmem : inum_of inum ∈ Set.univ := trivial
  obtain ⟨a, hattr, _, hsize⟩ := getattr_spec h.represents_on hmem
  have hget : c.ec.getattr inum = (.OK, a) := hattr
  rw [getfile, hget]
  refine .getfile ?_
  rw [← hsize]
  exact UInt32.toNat_toUInt64 a.size

theorem getdir_refines (fs : Nodes) (c : ChfsClient) (inum : UInt64) (din : DirInfo) :
    fs.Step (.getdir inum) (.getdir (c.getdir inum din).1 (c.getdir inum din).2) fs := by
  have hget : c.ec.getattr inum = (.OK, (c.ec.es.getattr inum).2) := Prod.ext (ec_getattr c.ec inum) rfl
  rw [getdir, hget]
  exact .getdir

/-- Each call that comes out without failures is a step of the file system shown. -/
theorem step_refines (h : Shows fs c) (hop : Ordinary c op) (hstep : c.step op = .ok (reply, c'))
    (hclean : c'.ec.es.Clean) :
    ∃ fs', fs.Step op reply fs' ∧ Shows fs' c' := by
  cases op with
  | create parent name =>
    obtain ⟨⟨ret, id, c₁⟩, hcall, heq⟩ := Except.bind_eq_ok_iff.mp hstep
    cases heq
    rw [create_eq] at hcall
    exact make_refines h .create hop.1 hcall hclean
  | mkdir parent name =>
    obtain ⟨⟨ret, id, c₁⟩, hcall, heq⟩ := Except.bind_eq_ok_iff.mp hstep
    cases heq
    rw [mkdir_eq] at hcall
    by_cases hdots : Dots name
    · rw [if_pos hdots] at hcall
      cases hcall
      exact ⟨fs, .dots hdots, h⟩
    · rw [if_neg hdots] at hcall
      exact make_refines h (.mkdir hdots) hop.1 hcall hclean
  | create_symbolic_link parent true_file_path name =>
    obtain ⟨⟨ret, id, c₁⟩, hcall, heq⟩ := Except.bind_eq_ok_iff.mp hstep
    cases heq
    rw [create_symbolic_link_eq] at hcall
    exact make_refines h .create_symbolic_link hop.1 hcall hclean
  | unlink parent name =>
    obtain ⟨⟨ret, c₁⟩, hcall, heq⟩ := Except.bind_eq_ok_iff.mp hstep
    cases heq
    exact unlink_refines h hop.1 hcall
  | lookup parent name =>
    obtain ⟨⟨ret, found, ino, c₁⟩, hcall, heq⟩ := Except.bind_eq_ok_iff.mp hstep
    cases heq
    exact ⟨fs, lookup_refines h (lookup_done hcall)⟩
  | readdir dir =>
    obtain ⟨⟨ret, list, c₁⟩, hcall, heq⟩ := Except.bind_eq_ok_iff.mp hstep
    cases heq
    exact ⟨fs, readdir_refines h (readdir_done hcall)⟩
  | read ino size off =>
    obtain ⟨⟨ret, data, c₁⟩, hcall, heq⟩ := Except.bind_eq_ok_iff.mp hstep
    cases heq
    exact read_refines h hop.2 hcall
  | write ino size off data =>
    obtain ⟨⟨ret, bytes_written, c₁⟩, hcall, heq⟩ := Except.bind_eq_ok_iff.mp hstep
    cases heq
    exact write_refines h hop.2 hcall hclean
  | setattr ino size =>
    obtain ⟨⟨ret, c₁⟩, hcall, heq⟩ := Except.bind_eq_ok_iff.mp hstep
    cases heq
    exact setattr_refines h hop.2 hcall
  | getfile inum =>
    cases hstep
    exact ⟨fs, getfile_refines h inum { size := 0, atime := 0, mtime := 0, ctime := 0 }, h⟩
  | getdir inum =>
    cases hstep
    exact ⟨fs, getdir_refines fs c inum { atime := 0, mtime := 0, ctime := 0 }, h⟩
  | parse_symbolic_link ino =>
    obtain ⟨⟨ret, path, c₁⟩, hcall, heq⟩ := Except.bind_eq_ok_iff.mp hstep
    cases heq
    exact ⟨fs, link_refines h hcall⟩

theorem shows_start (hstart : Fresh start.ec.es.im) : Shows .root start := by
  have hfiles : Nodes.root.files = root_files := by
    funext inum
    unfold Nodes.files Nodes.root root_files
    split <;> rfl
  refine ⟨?_, ?_⟩
  · rw [hfiles]
    exact representsOn_univ.mp (lists_root hstart).represents
  · intro dir e he
    obtain ⟨list, hlist, hmem⟩ := Nodes.mem_entries_iff.mp he
    unfold Nodes.root at hlist
    split at hlist <;> cases hlist
    exact absurd hmem List.not_mem_nil

/-- Each run without failures is a run of the file system shown. -/
theorem run_refines (hstart : Fresh start.ec.es.im) (hrun : Trace step Ordinary start history c)
    (hclean : c.ec.es.Clean) :
    ∃ fs, Runs Nodes.Step .root history fs ∧ Shows fs c := by
  refine Trace.simulates (fun c fs => Shows fs c) (fun c => c.ec.es.Clean) (shows_start hstart) ?_ ?_ hrun hclean
  · intro c fs op reply c' h hop hstep hclean
    exact step_refines h hop hstep hclean
  · intro history c op reply c' hearlier hstep hclean
    have hdone := step_done hstep
    have hlong := hclean.longest_lt
    have hle := hdone.reaches.longest_le
    exact hdone.reaches.clean ((run_reaches hearlier).owned hstart.owned (by omega)) hclean

end ChfsClient

end chfs
