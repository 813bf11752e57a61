import Chfs.Client.Codec
import Chfs.Client.Times

namespace chfs

open BlockManager InodeManager ExtentServer

namespace ExtentServer

variable {es es' : ExtentServer} {id : extentid_t} {buf : List UInt8} {ret : Status} {known : Set UInt32}
  {files : Files}

/-- A `put` that returns leaves the other files, known or not, and the type of its own. -/
theorem put_keeps (h : RepresentsOn known es.im files) (hlen : buf.length < 2 ^ 31)
    (hput : es.put id buf = .ok (ret, es')) :
    RepresentsOn (known \ {inum_of id}) es'.im files ∧ (es'.getattr id).2.type = (es.getattr id).2.type := by
  have hstep : es.step (.put id buf) = .ok (.put ret, es') := by
    rw [step, hput]
    rfl
  have hshort : (ExtentOp.put id buf).Short := hlen
  cases step_done h.owned hshort hstep with
  | put_dead hdead => exact ⟨(h.of_unchanged (unchanged_env _ _)).mono Set.sdiff_subset, rfl⟩
  | put hlive _ _ hdone =>
    refine ⟨h.forget (hdone.spares h.owned hlive) (hdone.owned h.owned hlive (by omega)), ?_⟩
    rw [getattr_eq, getattr_eq, hlive, hdone.live]
    simp only [hdone.type]

/-- And after a `remove` the inode is dead. -/
theorem remove_dead_after (howned : Owned es.im) (hremove : es.remove id = .ok (ret, es')) :
    es'.im.get_inode (inum_of id) = none := by
  have hstep : es.step (.remove id) = .ok (.remove ret, es') := by
    rw [step, hremove]
    rfl
  have hshort : (ExtentOp.remove id).Short := trivial
  cases step_done howned hshort hstep with
  | remove_dead hdead => exact hdead
  | remove _ _ _ hdone => rw [hdone.inodes, if_pos rfl]

end ExtentServer

namespace ChfsClient

variable {known known' touched : Set UInt32} {files files' : Files} {c c' start : ChfsClient} {op : ClientOp}
  {reply : ClientReply} {history : List (ClientOp × ClientReply)} {parent ino id : UInt64} {name : CString}
  {type : FileType} {value : Option CString} {text : List UInt8} {list : List Dirent}

/-- All directories are known, and their texts encode lists of entries. -/
structure Orderly (known : Set UInt32) (files : Files) (c : ChfsClient) : Prop where
  represents : RepresentsOn known c.ec.es.im files
  encoded : ∀ inum ∈ known, ∀ text, files inum = some (.T_DIR, text) →
    ∃ list : List Dirent, (∀ e ∈ list, slash ∉ e.name) ∧ text = dir_text list
  others : ∀ id, inum_of id ∉ known → c.isdir id = false

/-- There are an inode for the node and blocks for its value and its entry. -/
def CanMake (c : ChfsClient) (parent : UInt64) (name : CString) (value : Option CString) : Prop :=
  ∃ inum text, FirstFree c.ec.es.im inum ∧ c.ec.es.Reads parent text ∧ NodeRoom c.ec.es.im parent text inum name value ∧
    Fits (text ++ inum_name_pair inum.toUInt64 name.bytes) ∧ Fits (value_bytes value)

/-- A creating call finds what it needs. -/
def Roomy (c : ChfsClient) (op : ClientOp) : Prop :=
  ∀ parent name type value, Creates op parent name type value → c.isdir parent = true → ¬ Bound c parent name →
    CanMake c parent name value

theorem isdir_eq_false_of_dead (hdead : c.ec.es.im.get_inode (inum_of ino) = none) : c.isdir ino = false := by
  by_contra hnot
  have htype := isdir_iff.mp (by simpa using hnot)
  rw [ExtentServer.getattr_eq, hdead] at htype
  exact FileType.T_DIR.code_ne_zero htype.symm

theorem isfile_of_reads {es' : ExtentServer} (hreads : OnlyReads c.ec.es es') (hfile : c.isfile ino = true) :
    (c.with_server es').isfile ino = true := by
  rw [isfile_iff, ExtentServer.getattr_eq] at hfile
  cases hlive : c.ec.es.im.get_inode (inum_of ino) with
  | none =>
    rw [hlive] at hfile
    exact absurd hfile.symm FileType.T_FILE.code_ne_zero
  | some node =>
    rw [hlive] at hfile
    obtain ⟨node', hlive', htype, _⟩ := hreads.unchanged.live_after hlive
    rw [isfile_iff]
    change (es'.getattr ino).2.type = _
    rw [ExtentServer.getattr_eq, hlive']
    simp only [htype]
    exact hfile

namespace Orderly

theorem lists (h : Orderly known files c) (hdir : c.isdir parent = true) :
    ∃ list, Lists known files c parent (dir_text list) list := by
  have hmem : inum_of parent ∈ known := by
    by_contra hnot
    rw [h.others parent hnot] at hdir
    cases hdir
  obtain ⟨text, hfile⟩ := (isdir_iff_known h.represents hmem).mp hdir
  obtain ⟨list, hnames, rfl⟩ := h.encoded _ hmem text hfile
  exact ⟨list, h.represents, hmem, hfile, parse_dir_text c hnames⟩

/-- A step whose inodes are known afterwards, but for some that are no directories, brings
    no unknown directory. -/
theorem others_of_passes (h : Orderly known files c) (hpasses : Passes touched c.ec.es c'.ec.es)
    (hlong : c'.ec.es.longest_put < 2 ^ 31)
    (hlost : ∀ id, inum_of id ∉ known' → inum_of id ∈ known ∪ touched → c'.isdir id = false) :
    ∀ id, inum_of id ∉ known' → c'.isdir id = false := by
  intro id hid
  by_cases hmem : inum_of id ∈ known ∪ touched
  · exact hlost id hid hmem
  · have hnot : inum_of id ∉ known := fun hknown => hmem (.inl hknown)
    have hbefore := h.others id hnot
    cases hlive : c'.ec.es.im.get_inode (inum_of id) with
    | none => exact isdir_eq_false_of_dead hlive
    | some node' =>
      rcases hpasses.inodes h.represents.owned hlong _ node' hlive with ⟨htouched, _⟩ | ⟨node, hnode, htype, _⟩
      · exact absurd (Or.inr htouched) hmem
      · have hsame : (c'.ec.es.getattr id).2.type = (c.ec.es.getattr id).2.type := by
          rw [ExtentServer.getattr_eq, ExtentServer.getattr_eq, hlive, hnode]
          simp only [htype]
        by_contra hdir
        have htype' := isdir_iff.mp (by simpa using hdir)
        rw [hsame] at htype'
        rw [isdir_iff.mpr htype'] at hbefore
        cases hbefore

/-- A call that only reads. -/
theorem of_reads (h : Orderly known files c) (hreads : OnlyReads c.ec.es c'.ec.es) (hpasses : Passes ∅ c.ec.es c'.ec.es)
    (hlong : c'.ec.es.longest_put < 2 ^ 31) : Orderly known files c' where
  represents := hreads.represents h.represents
  encoded := h.encoded
  others := by
    refine h.others_of_passes hpasses hlong ?_
    intro id hid hmem
    exact absurd (hmem.resolve_right (Set.notMem_empty _)) hid

/-- A `put` of a file, which may fail. -/
theorem of_put (h : Orderly known files c) (hfile : c.isfile ino = true) {buf : List UInt8} {ret : Status}
    (hput : c.ec.es.put ino buf = .ok (ret, c'.ec.es)) (hlong : c'.ec.es.longest_put < 2 ^ 31) :
    Orderly (known \ {inum_of ino}) files c' := by
  have hlen : buf.length < 2 ^ 31 := by
    have hlongest := put_longest hput
    omega
  obtain ⟨hrep, htype⟩ := put_keeps h.represents hlen hput
  refine ⟨hrep, fun inum hinum => h.encoded inum hinum.1, h.others_of_passes (.of_put hput) hlong ?_⟩
  intro id hid hmem
  have heq : inum_of id = inum_of ino := by
    by_contra hne
    rcases hmem with hknown | htouched
    · exact hid ⟨hknown, hne⟩
    · exact hne htouched
  -- it is still a file
  have hnow : (c'.ec.es.getattr id).2.type = FileType.T_FILE.code := by
    rw [getattr, heq]
    exact htype.trans (isfile_iff.mp hfile)
  by_contra hdir
  have hdir' := isdir_iff.mp (by simpa using hdir)
  rw [hnow] at hdir'
  cases FileType.code_inj hdir'

/-- A call that reads a file and puts it. -/
theorem of_get_put (h : Orderly known files c) (hfile : c.isfile ino = true) {buf : List UInt8} {ret ret' : Status}
    {es' : ExtentServer} (hget : c.ec.es.get ino = .ok (ret, buf, es')) (hput : es'.put ino text = .ok (ret', c'.ec.es))
    (hlong : c'.ec.es.longest_put < 2 ^ 31) : ∃ known' files', Orderly known' files' c' := by
  have hreads := get_only_reads h.represents.owned hget
  have hlongest := put_longest hput
  have hlong' : (c.with_server es').ec.es.longest_put < 2 ^ 31 := by
    change es'.longest_put < 2 ^ 31
    omega
  have h₁ : Orderly known files (c.with_server es') := h.of_reads hreads (.of_get hget) hlong'
  exact ⟨_, _, h₁.of_put (isfile_of_reads hreads hfile) hput hlong⟩

/-- A creating call that finds what it needs. -/
theorem made (h : Orderly known files c) (hlists : Lists known files c parent (dir_text list) list)
    (hpasses : Passes {inum_of parent, inum_of id} c.ec.es c'.ec.es) (hlong : c'.ec.es.longest_put < 2 ^ 31)
    {inum : UInt32} (hinum : inum_of id = inum)
    (hafter : Lists (insert inum known) (node_files files parent (dir_text list) inum name type value) c' parent
      (dir_text list ++ inum_name_pair id name.bytes) (list ++ [({ inum := id, name := name.bytes } : Dirent)]))
    (hvalue : type = .T_DIR → value = none) :
    Orderly (insert inum known) (node_files files parent (dir_text list) inum name type value) c' where
  represents := hafter.represents
  encoded := by
    intro other hother text hfile
    by_cases hparent : other = inum_of parent
    · rw [hparent, hafter.file] at hfile
      cases hfile
      exact ⟨_, slash_not_mem_of_parse hafter.parse, dir_text_new _ _ _⟩
    · rw [node_files, Function.update_of_ne hparent] at hfile
      by_cases hnew : other = inum
      · rw [hnew, Function.update_self] at hfile
        cases hfile
        exact ⟨[], by simp, by rw [hvalue rfl]; rfl⟩
      · rw [Function.update_of_ne hnew] at hfile
        exact h.encoded other (hother.resolve_left hnew) text hfile
  others := by
    refine h.others_of_passes hpasses hlong ?_
    intro other hother hmem
    rcases hmem with hknown | hparent | hnew
    · exact absurd (Set.mem_insert_of_mem _ hknown) hother
    · rw [hparent] at hother
      exact absurd (Set.mem_insert_of_mem _ hlists.mem) hother
    · rw [Set.mem_singleton_iff.mp hnew, hinum] at hother
      exact absurd (Set.mem_insert _ _) hother

/-- An `unlink` that returns OK. -/
theorem unlinked (h : Orderly known files c) (hlists : Lists known files c parent (dir_text list) list)
    (hunlink : c.unlink parent name = .ok (.OK, c')) (hlong : c'.ec.es.longest_put < 2 ^ 31) :
    ∃ known' files', Orderly known' files' c' := by
  have hpasses : Passes {inum_of parent} c.ec.es c'.ec.es := (unlink_done hunlink).passes
  obtain ⟨e, es₁, es₂, es₃, _, hreads₁, _, hremove, hreads₂, hlists₃, hput⟩ := unlink_writes hlists hunlink
  have hle : (dir_text (without name list)).length ≤ (dir_text list).length := length_dir_text_le List.filter_sublist
  have hfits := hlists.stores.fits
  have hbound := fits_iff.mp hfits
  have hdone := put_on hlists₃.represents hlists₃.mem (hle.trans_lt (by omega)) hput
  have hblocks := hdone.blocks .T_DIR _ hlists₃.file hle
  have hrep := hdone.stored .T_DIR _ hlists₃.file hblocks (hle.trans hfits)
  have hgone : c'.ec.es.im.get_inode (inum_of e.inum) = none := by
    have hdead := remove_dead_after (hreads₁.represents h.represents).owned hremove
    have hne : inum_of e.inum ≠ inum_of parent := fun heq => hlists₃.mem.2 heq.symm
    rw [hdone.spares.inodes _ hne]
    exact hreads₂.unchanged.dead.mpr hdead
  refine ⟨_, _, hrep, ?_, h.others_of_passes hpasses hlong ?_⟩
  · intro inum hinum text hfile
    by_cases hparent : inum = inum_of parent
    · rw [hparent, Function.update_self] at hfile
      cases hfile
      exact ⟨_, fun e he => slash_not_mem_of_parse hlists.parse e (List.mem_of_mem_filter he), rfl⟩
    · rw [Function.update_of_ne hparent] at hfile
      exact h.encoded inum hinum.1 text hfile
  · intro id hid hmem
    have heq : inum_of id = inum_of e.inum := by
      by_contra hne
      rcases hmem with hknown | htouched
      · exact hid ⟨hknown, hne⟩
      · exact hid (htouched ▸ hlists₃.mem)
    exact isdir_eq_false_of_dead (heq ▸ hgone)

end Orderly

theorem made_none (hcreates : Creates op parent name type value) : type = .T_DIR → value = none := by
  cases hcreates with
  | create => exact fun _ => rfl
  | mkdir _ => exact fun _ => rfl
  | create_symbolic_link => rintro ⟨⟩

/-- A creating call that finds what it needs makes the inode and the entry. -/
theorem make_of_room (hlists : Lists known files c parent text list) (type : FileType)
    (hunbound : ¬ Bound c parent name)
    (hname : slash ∉ name.bytes) (hcan : CanMake c parent name value) :
    ∃ (inum : UInt32) (c' : ChfsClient), c.make_node parent name type value 0 = .ok (.OK, inum.toUInt64, c') ∧
      inum_of inum.toUInt64 = inum ∧ c.ec.es.im.get_inode inum = none ∧
      Lists (insert inum known) (node_files files parent text inum name type value) c' parent
        (text ++ inum_name_pair inum.toUInt64 name.bytes)
        (list ++ [({ inum := inum.toUInt64, name := name.bytes } : Dirent)]) := by
  obtain ⟨inum, text', hfirst, hreads, hspace, hfits, hvalue⟩ := hcan
  have htext := (reads_iff_known hlists.represents hlists.mem text').mp hreads
  rw [Files.content_eq hlists.file] at htext
  subst htext
  obtain ⟨c', hmake, _, _, hinum, hdead, hafter⟩ :=
    make_node_first hlists type 0 hunbound hname hfirst hspace hfits hvalue
  exact ⟨inum, c', hmake, hinum, hdead, hafter⟩

theorem orderly_make (h : Orderly known files c) (hcreates : Creates op parent name type value)
    (hname : slash ∉ name.bytes) (hroom : Roomy c op) (hmake : c.make_node parent name type value 0 = .ok (.OK, id, c'))
    (hdir : c.isdir parent = true) (hlong : c'.ec.es.longest_put < 2 ^ 31) :
    ∃ known' files', Orderly known' files' c' := by
  obtain ⟨list, hlists⟩ := h.lists hdir
  obtain ⟨hfind, _⟩ := make_node_writes hlists hmake
  have hunbound := hlists.not_bound hfind
  obtain ⟨inum, c'', hmake', hinum, _, hafter⟩ :=
    make_of_room hlists type hunbound hname (hroom parent name type value hcreates hdir hunbound)
  rw [hmake] at hmake'
  cases hmake'
  have hpasses : Passes {inum_of parent, inum_of inum.toUInt64} c.ec.es c'.ec.es := (make_node_done hmake).passes
  exact ⟨_, _, h.made hlists hpasses hlong hinum hafter (made_none hcreates)⟩

/-- One step of a run in which the creating calls find what they need. -/
theorem orderly_step (h : Orderly known files c) (hop : Ordinary c op) (hroom : Roomy c op)
    (hstep : c.step op = .ok (reply, c')) (hlong : c'.ec.es.longest_put < 2 ^ 31) :
    ∃ known' files', Orderly known' files' c' := by
  have howned := h.represents.owned
  cases step_done hstep with
  | @node _ parent ino name type value ret c' hcreates hnode =>
    have hmake : c.make_node parent name type value 0 = .ok (ret, ino, c') := by
      rw [hcreates.step] at hstep
      obtain ⟨⟨ret', ino', c₁⟩, hmake, hret⟩ := Except.bind_eq_ok_iff.mp hstep
      cases hret
      exact hmake
    cases hnode with
    | refused hlookup => exact ⟨_, _, h.of_reads (hlookup.only_reads howned) hlookup.passes hlong⟩
    | bound hlookup => exact ⟨_, _, h.of_reads (hlookup.only_reads howned) hlookup.passes hlong⟩
    | made hlookup _ _ _ _ =>
      have hname : slash ∉ name.bytes := by
        cases hcreates <;> exact hop.1
      exact orderly_make h hcreates hname hroom hmake hlookup.isdir hlong
  | dots _ => exact ⟨_, _, h⟩
  | @unlink parent name ret c' hdone =>
    have hunlink := unlink_step.mp hstep
    cases hdone with
    | refused hlookup => exact ⟨_, _, h.of_reads (hlookup.only_reads howned) hlookup.passes hlong⟩
    | unbound hlookup => exact ⟨_, _, h.of_reads (hlookup.only_reads howned) hlookup.passes hlong⟩
    | not_file hlookup _ => exact ⟨_, _, h.of_reads (hlookup.only_reads howned) hlookup.passes hlong⟩
    | unreadable hlookup hfile hremove hread hret =>
      obtain ⟨list, hlists⟩ := h.lists hlookup.isdir
      exact absurd ((hlists.after_remove hlookup hfile hremove).of_readdir hread).1 hret
    | unlinked hlookup _ _ _ _ =>
      obtain ⟨list, hlists⟩ := h.lists hlookup.isdir
      exact h.unlinked hlists hunlink hlong
  | lookup hdone => exact ⟨_, _, h.of_reads (hdone.only_reads howned) hdone.passes hlong⟩
  | readdir hdone => exact ⟨_, _, h.of_reads (hdone.only_reads howned) hdone.passes hlong⟩
  | read hdone => exact ⟨_, _, h.of_reads (hdone.only_reads howned) hdone.passes hlong⟩
  | parse_symbolic_link hdone => exact ⟨_, _, h.of_reads (hdone.only_reads howned) hdone.passes hlong⟩
  | write hdone =>
    cases hdone with
    | put hget _ hput => exact h.of_get_put hop.2 hget hput hlong
  | setattr hdone =>
    cases hdone with
    | same hget _ => exact ⟨_, _, h.of_reads (get_only_reads howned hget) (.of_get hget) hlong⟩
    | put hget _ hput => exact h.of_get_put hop.2 hget hput hlong
  | getfile => exact ⟨_, _, h⟩
  | getdir => exact ⟨_, _, h⟩

/-- So all directories are in order in every state such a run reaches. -/
theorem run_orderly (hstart : Fresh start.ec.es.im)
    (hrun : Trace step (fun c op => Ordinary c op ∧ Roomy c op) start history c)
    (hlong : c.ec.es.longest_put < 2 ^ 31) :
    ∃ known files, Orderly known files c := by
  have hfirst : Orderly Set.univ root_files start := by
    refine ⟨(lists_root hstart).represents, ?_, fun id hid => absurd trivial hid⟩
    intro inum _ text hfile
    unfold root_files at hfile
    split at hfile <;> cases hfile
    exact ⟨[], by simp, rfl⟩
  refine hrun.invariant (P := fun c => c.ec.es.longest_put < 2 ^ 31 → ∃ known files, Orderly known files c)
    (fun _ => ⟨_, _, hfirst⟩) ?_ hlong
  rintro c op reply c' hbefore ⟨hop, hroom⟩ hstep hlong
  have hle := (step_done hstep).passes.longest
  obtain ⟨known, files, h⟩ := hbefore (by omega)
  exact orderly_step h hop hroom hstep hlong

end ChfsClient

end chfs
