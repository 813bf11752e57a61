import Chfs.Fuse.Dirbuf

namespace chfs

open ExtentServer

namespace ChfsClient

variable {fs : Nodes} {c : ChfsClient} {ino : UInt64}

/-- What `getattr` makes of the attributes the server knows. -/
theorem fuse_getattr_eq {a : Attr} (hattr : c.ec.getattr ino = (.OK, a)) :
    let st := (Fuse.getattr c ino).2
    st.st_ino = ino ∧
      if c.isfile ino then st.st_mode = S_IFREG ||| 0o666 ∧ st.st_nlink = 1 ∧ st.st_size = a.size.toUInt64
      else if c.isdir ino then st.st_mode = S_IFDIR ||| 0o777 ∧ st.st_nlink = 2 ∧ st.st_size = 0
      else st.st_mode = S_IFLNK ||| 0o777 ∧ st.st_nlink = 1 ∧ st.st_size = a.size.toUInt64 := by
  simp only [Fuse.getattr, getfile, getdir, hattr, ne_self_iff_false, ↓reduceIte]
  by_cases hfile : c.isfile ino = true
  · simp [hfile]
  · by_cases hdir : c.isdir ino = true
    · simp [hfile, hdir]
    · simp [hfile, hdir]

theorem Shows.stats (h : Shows fs c) (ino : UInt64) : fs.Stats ino (Fuse.getattr c ino).2 := by
  have hmem : inum_of ino ∈ Set.univ := trivial
  obtain ⟨a, hattr, _, hsize⟩ := getattr_spec h.represents_on hmem
  obtain ⟨hino, hst⟩ := fuse_getattr_eq hattr
  have hlength : a.size.toUInt64.toNat = (fs.files.content ino).length := (UInt32.toNat_toUInt64 a.size).trans hsize
  have hfile : c.isfile ino = true ↔ _ := h.isfile_iff
  have hdir : c.isdir ino = true ↔ _ := h.isdir_iff
  cases hnode : fs (inum_of ino) with
  | none =>
    have hcontent : fs.files.content ino = [] := by
      rw [Files.content, Nodes.files, hnode]
      rfl
    rw [if_neg (by simp [hfile, hnode]), if_neg (by simp [hdir, hnode])] at hst
    obtain ⟨hmode, hnlink, hsize⟩ := hst
    exact ⟨hino, by rw [hmode, hnode]; rfl, by rw [hnlink, hnode]; rfl, by rw [hsize, hlength, hcontent, hnode]; rfl⟩
  | some node =>
    have hcontent : fs.files.content ino = node.stored.2 := by
      rw [Files.content, Nodes.files, hnode]
      rfl
    cases node with
    | file content =>
      rw [if_pos (hfile.mpr ⟨content, hnode⟩)] at hst
      obtain ⟨hmode, hnlink, hsize⟩ := hst
      exact ⟨hino, by rw [hmode, hnode]; rfl, by rw [hnlink, hnode]; rfl, by rw [hsize, hlength, hcontent, hnode]; rfl⟩
    | dir entries =>
      rw [if_neg (by simp [hfile, hnode]), if_pos (hdir.mpr ⟨entries, hnode⟩)] at hst
      obtain ⟨hmode, hnlink, hsize⟩ := hst
      exact ⟨hino, by rw [hmode, hnode]; rfl, by rw [hnlink, hnode]; rfl, by rw [hsize, hnode]; rfl⟩
    | link path =>
      rw [if_neg (by simp [hfile, hnode]), if_neg (by simp [hdir, hnode])] at hst
      obtain ⟨hmode, hnlink, hsize⟩ := hst
      exact ⟨hino, by rw [hmode, hnode]; rfl, by rw [hnlink, hnode]; rfl, by rw [hsize, hlength, hcontent, hnode]; rfl⟩

end ChfsClient

namespace Fuse

open ChfsClient

variable {lib : Libfuse} {fs fs' : Nodes} {c c' start : ChfsClient} {call : FuseCall} {replies : List FuseReply}
  {history : List (FuseCall × List FuseReply)} {request : FuseRequest} {op : ClientOp} {reply : EntryParam → FuseReply}
  {parent ino id : UInt64} {name : CString} {type : FileType} {value : Option CString} {ret : Status}

/-- Requests with names without a separator, whose data is that of files. A file may have
    been unlinked, and its inode be dead. -/
def Ordinary (c : ChfsClient) (call : FuseCall) : Prop :=
  match call.request with
  | .lookup _ name | .create _ name | .mknod _ name | .unlink _ name | .mkdir _ name | .symlink _ _ name =>
    slash ∉ name.bytes
  | .read ino _ _ | .write ino _ _ _ => c.isdir ino = false ∧ c.issymlink ino = false
  | .setattr ino _ to_set => FUSE_SET_ATTR_SIZE &&& to_set ≠ 0 → c.isdir ino = false ∧ c.issymlink ino = false
  | _ => True

theorem Makes.creates (h : Makes request op reply) (hcreates : ChfsClient.Creates op parent name type value) :
    request.Creates parent name type value reply := by
  cases h with
  | create =>
    cases hcreates
    exact .create
  | mknod =>
    cases hcreates
    exact .mknod
  | mkdir =>
    cases hcreates with
    | mkdir hdots => exact .mkdir hdots
  | symlink =>
    cases hcreates
    exact .symlink

theorem Makes.ordinary {g : Garbage} (h : Makes request op reply) (hcall : Ordinary c ⟨request, g⟩) :
    ChfsClient.Ordinary c op := by
  cases h <;> exact ⟨hcall, trivial⟩

theorem Makes.dots (h : Makes request op reply) (hop : op = .mkdir parent name) : request = .mkdir parent name := by
  cases h <;> cases hop
  rfl

theorem client_refines {answer : ClientReply} (h : Shows fs c) (hstep : c.step op = .ok (answer, c'))
    (hclean : c'.ec.es.Clean)
    (hop : ChfsClient.Ordinary c op) : ∃ fs', fs.Step op answer fs' ∧ Shows fs' c' :=
  ChfsClient.step_refines h hop hstep hclean

/-- How the failure of a creating call is replied. -/
theorem not_made_refines (hmakes : Makes request op reply) (hret : ret ≠ .OK) (hstep : fs.Step op (.node ret id) fs') :
    fs.Answers lib request (create_error ret) fs' := by
  cases hstep with
  | made _ _ _ _ => exact absurd rfl hret
  | exist hcreates hdir hmem hname => exact .exist (hmakes.creates hcreates) hdir hmem hname
  | not_made hcreates hdir => exact .not_made (hmakes.creates hcreates) hdir
  | dots hdots => exact hmakes.dots rfl ▸ .dots hdots

theorem unlink_refines (hstep : fs.Step (.unlink parent name) (.unlink ret) fs') :
    fs.Answers lib (.unlink parent name)
      (.err (if ret = .OK then .OK else if ret = .NOENT then .ENOENT else .ENOTEMPTY)) fs' := by
  cases hstep with
  | unlinked hdir hmem hname hfile => exact .unlinked hdir hmem hname hfile
  | no_file hdir hmem hname hfile => exact .no_file hdir hmem hname hfile
  | no_entry hdir hunbound => exact .no_entry hdir hunbound
  | not_unlinked hdir => exact .no_dir hdir

/-- A listing is a page of the records of the directory. -/
theorem StepDone.page {ino size : UInt64} {off : Int64} {g : Garbage} {entries : List Dirent}
    (hdone : StepDone lib c ⟨.readdir ino size off, g⟩ replies c') (hlib : lib.format.Sized) (h : Shows fs c)
    (hstrings : fs.Strings fun name => 0 ∉ name) (hentries : fs (inum_of ino) = some (.dir entries)) :
    replies = [.buf (((lib.format.layout 0 entries).drop off.toUInt64.toNat).take size.toNat)] ∧
      OnlyReads c.ec.es c'.ec.es := by
  have hdir := h.isdir_iff.mpr ⟨entries, hentries⟩
  have hnames := hstrings.names (inum_of ino)
  rw [Nodes.entries_eq hentries] at hnames
  cases hdone with
  | listed _ hstep =>
    obtain ⟨⟨ret, list, c₁⟩, hread, heq⟩ := Except.bind_eq_ok_iff.mp hstep
    cases heq
    have hreads := (readdir_done hread).only_reads h.represents.owned
    cases (readdir_refines h (readdir_done hread)).1 with
    | listed hlist =>
      rw [hentries] at hlist
      cases hlist
      rw [reply_buf_limited_eq, dirbuf_spec hlib g.heap hnames]
      exact ⟨rfl, hreads⟩
    | not_listed hnot => exact absurd hentries (hnot entries)
  | not_listed hnot =>
    rw [hdir] at hnot
    cases hnot
  | made hmakes _ => cases hmakes
  | not_made hmakes _ _ => cases hmakes

/-- Each request that comes out without failures is replied as the file system shown
    answers it. -/
theorem StepDone.refines (hdone : StepDone lib c call replies c') (hlib : lib.format.Sized) (h : Shows fs c)
    (hstrings : fs.Strings fun name => 0 ∉ name) (hcall : Ordinary c call) (hclean : c'.ec.es.Clean) :
    ∃ fs', fs.Serves lib call replies fs' ∧ Shows fs' c' := by
  cases hdone with
  | getattr => exact ⟨fs, ⟨_, rfl, .attr (h.stats _)⟩, h⟩
  | @resized ino st_size to_set g c' hflag hstep =>
    obtain ⟨⟨ret, c₁⟩, hset, heq⟩ := Except.bind_eq_ok_iff.mp hstep
    cases heq
    obtain ⟨hdir, hlink⟩ := hcall hflag
    rcases h.file_or_gone hdir hlink with hgone | hfile
    · have h' := setattr_gone h (h.dead hgone) hset
      exact ⟨fs, ⟨_, rfl, .resized_gone hflag hgone (h'.stats ino)⟩, h'⟩
    · obtain ⟨fs', hstep, h'⟩ := setattr_refines h hfile hset
      cases hstep with
      | setattr hcontent => exact ⟨_, ⟨_, rfl, .resized hflag hcontent rfl (h'.stats ino)⟩, h'⟩
  | not_resized hflag => exact ⟨fs, ⟨_, rfl, .not_resized hflag⟩, h⟩
  | statfs => exact ⟨fs, ⟨_, rfl, .statfs⟩, h⟩
  | listed hdir hstep =>
    obtain ⟨entries, hentries⟩ := h.isdir_iff.mp hdir
    obtain ⟨hpage, hreads⟩ := (StepDone.listed hdir hstep).page hlib h hstrings hentries
    rw [hpage]
    exact ⟨fs, ⟨_, rfl, .listed hentries⟩, h.of_reads hreads⟩
  | @not_listed ino _ _ _ hdir =>
    refine ⟨fs, ⟨_, rfl, .not_listed ?_⟩, h⟩
    intro entries hentries
    rw [h.isdir_iff.mpr ⟨entries, hentries⟩] at hdir
    cases hdir
  | found hstep =>
    obtain ⟨fs', hfound, h'⟩ := client_refines h hstep hclean ⟨hcall, trivial⟩
    cases hfound with
    | found hdir hmem hname => exact ⟨fs, ⟨_, rfl, .found hdir hmem hname (h'.stats _)⟩, h'⟩
  | not_found hstep =>
    obtain ⟨fs', hfound, h'⟩ := client_refines h hstep hclean ⟨hcall, trivial⟩
    refine ⟨fs', ?_, h'⟩
    cases hfound with
    | not_found hdir hunbound => exact ⟨_, rfl, .not_found (Nodes.entries_eq hdir ▸ hunbound)⟩
    | not_looked hdir =>
      refine ⟨_, rfl, .not_found ?_⟩
      intro e he
      obtain ⟨list, hlist, _⟩ := Nodes.mem_entries_iff.mp he
      exact absurd hlist (hdir list)
  | @made request op reply ino g c' hmakes hstep =>
    obtain ⟨fs', hmade, h'⟩ := client_refines h hstep hclean (hmakes.ordinary hcall)
    refine ⟨fs', ⟨_, rfl, ?_⟩, h'⟩
    cases hmade with
    | made hcreates hdir hunbound hfresh =>
      exact .made (hmakes.creates hcreates) hdir hunbound hfresh rfl (h'.stats ino)
  | not_made hmakes hret hstep =>
    obtain ⟨fs', hnot, h'⟩ := client_refines h hstep hclean (hmakes.ordinary hcall)
    exact ⟨fs', ⟨_, rfl, not_made_refines hmakes hret hnot⟩, h'⟩
  | open_file => exact ⟨fs, ⟨_, rfl, .open_file⟩, h⟩
  | @read ino size off g data c' hstep =>
    obtain ⟨⟨ret, data, c₁⟩, hread, heq⟩ := Except.bind_eq_ok_iff.mp hstep
    cases heq
    rcases h.file_or_gone hcall.1 hcall.2 with hgone | hfile
    · obtain ⟨hoff, rfl, rfl⟩ := read_gone (h.dead hgone) hread
      exact ⟨fs, ⟨_, rfl, .read_gone hgone hoff⟩, h⟩
    · obtain ⟨fs', hstep, h'⟩ := read_refines h hfile hread
      cases hstep with
      | read hcontent hoff => exact ⟨fs, ⟨_, rfl, .read hcontent hoff⟩, h'⟩
  | @write ino size off buf g bytes_written c' hstep =>
    obtain ⟨⟨ret, bytes_written, c₁⟩, hwrite, heq⟩ := Except.bind_eq_ok_iff.mp hstep
    cases heq
    obtain ⟨_, rfl, _⟩ := write_done hwrite
    rcases h.file_or_gone hcall.1 hcall.2 with hgone | hfile
    · obtain ⟨hoff, h'⟩ := write_gone h (h.dead hgone) hwrite
      exact ⟨fs, ⟨_, rfl, .written_gone hgone hoff⟩, h'⟩
    · obtain ⟨fs', hstep, h'⟩ := write_refines h hfile hwrite hclean
      cases hstep with
      | write hcontent hoff => exact ⟨_, ⟨_, rfl, .written hcontent hoff⟩, h'⟩
  | unlink hstep =>
    obtain ⟨fs', hunlink, h'⟩ := client_refines h hstep hclean ⟨hcall, trivial⟩
    exact ⟨fs', ⟨_, rfl, unlink_refines hunlink⟩, h'⟩
  | readlink hstep =>
    obtain ⟨fs', hlink, h'⟩ := client_refines h hstep hclean ⟨trivial, trivial⟩
    refine ⟨fs', ?_, h'⟩
    cases hlink with
    | link hpath =>
      rw [StdString.c_str_of_not_mem (hstrings.paths _ _ hpath)]
      exact ⟨_, rfl, .link hpath⟩
  | not_link hret hstep =>
    obtain ⟨fs', hlink, h'⟩ := client_refines h hstep hclean ⟨trivial, trivial⟩
    refine ⟨fs', ?_, h'⟩
    cases hlink with
    | link _ => exact absurd rfl hret
    | no_link hnot => exact ⟨_, rfl, .no_link hnot⟩

end Fuse

end chfs
