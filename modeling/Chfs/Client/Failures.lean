import Chfs.Client.Start
import Chfs.Client.Unlinking

namespace chfs

open BlockManager InodeManager ExtentServer

/-- The status an answer carries. -/
def ClientReply.ret : ClientReply → Status
  | node ret _ | unlink ret | lookup ret _ _ | readdir ret _ | read ret _ | write ret _ | setattr ret
  | getfile ret _ | getdir ret _ | parse_symbolic_link ret _ => ret

/-- The calls that change a directory. -/
inductive ClientOp.Changes : ClientOp → UInt64 → Prop where
  | create {parent : UInt64} {name : CString} : Changes (.create parent name) parent
  | mkdir {parent : UInt64} {name : CString} : Changes (.mkdir parent name) parent
  | create_symbolic_link {parent : UInt64} {true_file_path link_name : CString} :
    Changes (.create_symbolic_link parent true_file_path link_name) parent
  | unlink {parent : UInt64} {name : CString} : Changes (.unlink parent name) parent

namespace ChfsClient

variable {known : Set UInt32} {c c' start : ChfsClient} {op : ClientOp} {reply : ClientReply} {files : Files}
  {history : List (ClientOp × ClientReply)} {parent ino ino' id : UInt64} {name : CString} {ret : Status}
  {found found' : Bool}

/-- `readdir` answers with the status and the entries. -/
def Listing (c : ChfsClient) (dir : UInt64) (ret : Status) (list : List Dirent) : Prop :=
  ∃ c', c.readdir dir [] = .ok (ret, list, c')

theorem listing_iff (h : Represents c.ec.es.im files) (dir : UInt64) (ret : Status) (list : List Dirent) :
    c.Listing dir ret list ↔
      (ret, list) =
        if files.type_code dir = FileType.T_DIR.code then c.parse (files.content dir) else (.IOERR, []) := by
  have hrep := representsOn_univ.mpr h
  have hmem : inum_of dir ∈ Set.univ := trivial
  have htype := getattr_type hrep hmem
  by_cases hdir : files.type_code dir = FileType.T_DIR.code
  · obtain ⟨es', hget, _⟩ := get_spec hrep hmem
    have hread := readdir_of_get (isdir_iff.mpr (htype.trans hdir)) hget
    rw [if_pos hdir, Listing, hread]
    constructor
    · rintro ⟨_, heq⟩
      cases heq
      rfl
    · intro heq
      rw [← heq]
      exact ⟨_, rfl⟩
  · have hnot : c.isdir dir = false := by
      by_contra hne
      exact hdir (htype.symm.trans (isdir_iff.mp (by simpa using hne)))
    rw [if_neg hdir, Listing, readdir_not_dir hnot]
    constructor
    · rintro ⟨_, heq⟩
      cases heq
      rfl
    · intro heq
      cases heq
      exact ⟨_, rfl⟩

/-- Nothing differs but the access time of one inode. -/
structure SameButAtime (c c' : ChfsClient) (parent : UInt64) : Prop where
  live : ∀ inum, c'.ec.es.im.get_inode inum = none ↔ c.ec.es.im.get_inode inum = none
  others : ∀ inum, inum ≠ inum_of parent → c'.ec.es.im.get_inode inum = c.ec.es.im.get_inode inum
  parent : ∀ node, c.ec.es.im.get_inode (inum_of parent) = some node →
    ∃ now, c'.ec.es.im.get_inode (inum_of parent) = some { node with atime := now }
  content : ∀ id bytes, c'.ec.es.Reads id bytes ↔ c.ec.es.Reads id bytes
  listings : ∀ dir ret list, c'.Listing dir ret list ↔ c.Listing dir ret list
  in_use : ∀ id, c'.ec.es.im.bm.using_blocks id = some 1 ↔ c.ec.es.im.bm.using_blocks id = some 1

theorem SameButAtime.refl (c : ChfsClient) (parent : UInt64) : SameButAtime c c parent where
  live := fun _ => Iff.rfl
  others := fun _ _ => rfl
  parent := fun node hnode => ⟨node.atime, hnode⟩
  content := fun _ _ => Iff.rfl
  listings := fun _ _ _ => Iff.rfl
  in_use := fun _ => Iff.rfl

/-- A `get` of the parent is such a step. -/
theorem sameButAtime_of_get (h : Represents c.ec.es.im files) {buf : List UInt8} {es' : ExtentServer}
    (hget : c.ec.es.get parent = .ok (.OK, buf, es')) : SameButAtime c (c.with_server es') parent := by
  cases hlive : c.ec.es.im.get_inode (inum_of parent) with
  | none =>
    rw [get_dead hlive] at hget
    cases hget
    exact .refl c parent
  | some node =>
    obtain ⟨haccessed, _⟩ := get_accessed hlive hget
    have hreads := get_only_reads h.owned hget
    have h' : Represents (c.with_server es').ec.es.im files :=
      representsOn_univ.mp (hreads.represents (representsOn_univ.mpr h))
    refine ⟨haccessed.dead_iff, haccessed.others, ?_, ?_, ?_, haccessed.in_use⟩
    · intro file hfile
      obtain ⟨node', now, hnode', hafter⟩ := haccessed.inode
      rw [hnode'] at hfile
      cases hfile
      exact ⟨now, hafter⟩
    · intro id bytes
      rw [h'.reads_iff, h.reads_iff]
    · intro dir ret list
      rw [listing_iff h', listing_iff h, parse_with_server]

theorem LookupDone.same (hdone : LookupDone c parent name found ino ret found' ino' c')
    (h : Represents c.ec.es.im files) : SameButAtime c c' parent := by
  cases hdone with
  | not_dir _ => exact .refl c parent
  | unreadable _ hget _ => exact sameButAtime_of_get h hget
  | bound _ hget _ _ => exact sameButAtime_of_get h hget
  | unbound _ hget _ _ => exact sameButAtime_of_get h hget

/-- Once a file is unlinked, its directory can still be read. -/
theorem reread (h : Represents c.ec.es.im files) {c₁ : ChfsClient} {es₂ : ExtentServer} {list : List Dirent}
    (hlookup : LookupDone c parent name false 0 .OK true ino c₁) (hfile : c₁.isfile ino = true)
    (hremove : c₁.ec.es.remove ino = .ok (.OK, es₂)) (hread : ReaddirDone (c.with_server es₂) parent ret list c') :
    ret = .OK := by
  obtain ⟨text, entries, hlists⟩ := lists_of_lookup (representsOn_univ.mpr h) trivial hlookup
  exact ((hlists.after_remove hlookup hfile hremove).of_readdir hread).1

/-- In a state in order a call that changes a directory and does not return OK has
    changed nothing. -/
theorem same_of_failed (h : Represents c.ec.es.im files) (hop : op.Changes parent)
    (hstep : c.step op = .ok (reply, c')) (hfail : reply.ret = .EXIST ∨ reply.ret = .NOENT ∨ reply.ret = .IOERR) :
    SameButAtime c c' parent := by
  have hnot : reply.ret ≠ .OK := by
    rintro hok
    rw [hok] at hfail
    rcases hfail with hret | hret | hret <;> cases hret
  cases step_done hstep with
  | node hcreates hdone =>
    cases hdone with
    | refused hlookup =>
      cases hcreates <;> cases hop <;> exact hlookup.same h
    | bound hlookup =>
      cases hcreates <;> cases hop <;> exact hlookup.same h
    | made _ _ _ _ _ => exact absurd rfl hnot
  | dots _ => exact .refl c parent
  | unlink hdone =>
    cases hop
    cases hdone with
    | refused hlookup => exact hlookup.same h
    | unbound hlookup => exact hlookup.same h
    | not_file hlookup _ => exact hlookup.same h
    | unreadable hlookup hfile hremove hread hret => exact absurd (reread h hlookup hfile hremove hread) hret
    | unlinked _ _ _ _ _ => exact absurd rfl hnot
  | _ => cases hop

/-- A call of `create`, `mkdir`, `create_symbolic_link` or `unlink` that returns an error
    in a run without failures changes nothing but an access time. -/
theorem failed_call_changes_nothing {garbage : UInt32} {env : Env} {stack : UInt64}
    (hnew : ChfsClient.new garbage env stack = .ok start) (hrun : Trace step Ordinary start history c)
    (hclean : c.ec.es.Clean) (hop : op.Changes parent) (hstep : c.step op = .ok (reply, c'))
    (hfail : reply.ret = .EXIST ∨ reply.ret = .NOENT ∨ reply.ret = .IOERR) : SameButAtime c c' parent := by
  obtain ⟨files, hrep⟩ := run_represents (fresh_client hnew) hrun hclean
  exact same_of_failed hrep hop hstep hfail

theorem failed_call_changes_nothing_unlink :
    ∃ start c', ChfsClient.new 0 still 0 = .ok start ∧
      start.step (.unlink 1 ⟨[97], by decide⟩) = .ok (.unlink .NOENT, c') ∧
      SameButAtime start c' 1 := by
  obtain ⟨start, hnew⟩ := new_zero still 0
  obtain ⟨es', hunlink, _⟩ := unlink_unbound (lists_root (fresh_client hnew)) rfl
  have hstep : start.step (.unlink 1 ⟨[97], by decide⟩) = .ok (.unlink .NOENT, start.with_server es') := by
    rw [step, hunlink]
    rfl
  exact ⟨start, _, hnew, hstep,
    failed_call_changes_nothing hnew .nil (clean_new hnew) .unlink hstep (.inr (.inl rfl))⟩

end ChfsClient

end chfs
