import Chfs.Client.FileSpec
import Chfs.Lib.EdgeTree

namespace chfs

/-- An inode as the callers see it. -/
inductive Node where
  | file (content : List UInt8)
  | dir (entries : List Dirent)
  | link (path : List UInt8)

/-- How an inode is stored. -/
def Node.stored : Node → FileType × List UInt8
  | file content => (.T_FILE, content)
  | dir entries => (.T_DIR, dir_text entries)
  | link path => (.T_SYMBOLIC, path)

/-- What a creating call makes. -/
def Node.made (type : FileType) (value : Option CString) : Node :=
  match type with
  | .T_FILE => file ((value.map CString.bytes).getD [])
  | .T_DIR => dir []
  | .T_SYMBOLIC => link ((value.map CString.bytes).getD [])

/-- The type an inode has on the disk. -/
def Node.type (node : Node) : FileType := node.stored.1

@[simp] theorem Node.type_made (type : FileType) (value : Option CString) : (Node.made type value).type = type := by
  cases type <;> rfl

/-- A file system as the callers see it. -/
abbrev Nodes := UInt32 → Option Node

namespace Nodes

/-- An empty root directory and nothing else. -/
def root : Nodes := fun inum => if inum = 1 then some (.dir []) else none

/-- How it is stored. -/
def files (fs : Nodes) : Files := fun inum => (fs inum).map Node.stored

/-- The new node of an entry is there, and the entry is the directory's last. -/
def bind (fs : Nodes) (dir : UInt32) (entries : List Dirent) (e : Dirent) (node : Node) : Nodes :=
  Function.update (Function.update fs (inum_of e.inum) (some node)) dir (some (.dir (entries ++ [e])))

/-- The node of an entry is gone, and all entries of its name. -/
def unbind (fs : Nodes) (dir : UInt32) (entries : List Dirent) (e : Dirent) : Nodes :=
  Function.update (Function.update fs (inum_of e.inum) none) dir
    (some (.dir (entries.filter fun cur => cur.name ≠ e.name)))

open ChfsClient

/-- What the calls do to a file system, and what they answer. -/
inductive Step (fs : Nodes) : ClientOp → ClientReply → Nodes → Prop where
  | made {op : ClientOp} {parent id : UInt64} {name : CString} {type : FileType} {value : Option CString}
      {entries : List Dirent} (hcreates : Creates op parent name type value)
      (hdir : fs (inum_of parent) = some (.dir entries)) (hunbound : ∀ e ∈ entries, e.name ≠ name.bytes)
      (hfresh : fs (inum_of id) = none) :
    Step fs op (.node .OK id) (fs.bind (inum_of parent) entries { inum := id, name := name.bytes } (.made type value))
  | exist {op : ClientOp} {parent : UInt64} {name : CString} {type : FileType} {value : Option CString}
      {entries : List Dirent} {e : Dirent} (hcreates : Creates op parent name type value)
      (hdir : fs (inum_of parent) = some (.dir entries)) (hmem : e ∈ entries) (hname : e.name = name.bytes) :
    Step fs op (.node .EXIST e.inum) fs
  | not_made {op : ClientOp} {parent : UInt64} {name : CString} {type : FileType} {value : Option CString}
      (hcreates : Creates op parent name type value) (hdir : ∀ entries, fs (inum_of parent) ≠ some (.dir entries)) :
    Step fs op (.node .IOERR 0) fs
  | dots {parent : UInt64} {name : CString} (hdots : Dots name) : Step fs (.mkdir parent name) (.node .IOERR 0) fs
  | unlinked {parent : UInt64} {name : CString} {entries : List Dirent} {e : Dirent} {content : List UInt8}
      (hdir : fs (inum_of parent) = some (.dir entries)) (hmem : e ∈ entries) (hname : e.name = name.bytes)
      (hfile : fs (inum_of e.inum) = some (.file content)) :
    Step fs (.unlink parent name) (.unlink .OK) (fs.unbind (inum_of parent) entries e)
  | no_file {parent : UInt64} {name : CString} {entries : List Dirent} {e : Dirent}
      (hdir : fs (inum_of parent) = some (.dir entries)) (hmem : e ∈ entries) (hname : e.name = name.bytes)
      (hfile : ∀ content, fs (inum_of e.inum) ≠ some (.file content)) :
      Step fs (.unlink parent name) (.unlink .IOERR) fs
  | no_entry {parent : UInt64} {name : CString} {entries : List Dirent}
      (hdir : fs (inum_of parent) = some (.dir entries)) (hunbound : ∀ e ∈ entries, e.name ≠ name.bytes) :
    Step fs (.unlink parent name) (.unlink .NOENT) fs
  | not_unlinked {parent : UInt64} {name : CString} (hdir : ∀ entries, fs (inum_of parent) ≠ some (.dir entries)) :
    Step fs (.unlink parent name) (.unlink .IOERR) fs
  | found {parent : UInt64} {name : CString} {entries : List Dirent} {e : Dirent}
      (hdir : fs (inum_of parent) = some (.dir entries)) (hmem : e ∈ entries) (hname : e.name = name.bytes) :
    Step fs (.lookup parent name) (.lookup .OK true e.inum) fs
  | not_found {parent : UInt64} {name : CString} {entries : List Dirent}
      (hdir : fs (inum_of parent) = some (.dir entries)) (hunbound : ∀ e ∈ entries, e.name ≠ name.bytes) :
    Step fs (.lookup parent name) (.lookup .OK false 0) fs
  | not_looked {parent : UInt64} {name : CString} (hdir : ∀ entries, fs (inum_of parent) ≠ some (.dir entries)) :
    Step fs (.lookup parent name) (.lookup .IOERR false 0) fs
  | listed {dir : UInt64} {entries : List Dirent} (hdir : fs (inum_of dir) = some (.dir entries)) :
    Step fs (.readdir dir) (.readdir .OK entries) fs
  | not_listed {dir : UInt64} (hdir : ∀ entries, fs (inum_of dir) ≠ some (.dir entries)) :
    Step fs (.readdir dir) (.readdir .IOERR []) fs
  | read {ino size : UInt64} {off : Int64} {content : List UInt8} (hfile : fs (inum_of ino) = some (.file content))
      (hoff : 0 ≤ off.toInt) :
    Step fs (.read ino size off) (.read .OK ((content.drop off.toInt.toNat).take size.toNat)) fs
  | write {ino size : UInt64} {off : Int64} {data : Mem} {content : List UInt8}
      (hfile : fs (inum_of ino) = some (.file content)) (hoff : 0 ≤ off.toInt) :
    Step fs (.write ino size off data) (.write .OK size)
      (Function.update fs (inum_of ino) (some (.file (splice content off.toInt.toNat (data.bytes size.toNat)))))
  | setattr {ino size : UInt64} {content : List UInt8} (hfile : fs (inum_of ino) = some (.file content)) :
    Step fs (.setattr ino size) (.setattr .OK)
      (Function.update fs (inum_of ino) (some (.file (content.take size.toNat))))
  | getfile {inum : UInt64} {fin : FileInfo} (hsize : fin.size.toNat = (fs.files.content inum).length) :
    Step fs (.getfile inum) (.getfile .OK fin) fs
  | getdir {inum : UInt64} {din : DirInfo} : Step fs (.getdir inum) (.getdir .OK din) fs
  | link {ino : UInt64} {path : List UInt8} (hlink : fs (inum_of ino) = some (.link path)) :
    Step fs (.parse_symbolic_link ino) (.parse_symbolic_link .OK path) fs
  | no_link {ino : UInt64} (hlink : ∀ path, fs (inum_of ino) ≠ some (.link path)) :
    Step fs (.parse_symbolic_link ino) (.parse_symbolic_link .IOERR []) fs

/-- The edges of the tree of names. -/
def Edge (fs : Nodes) (dir : UInt32) (e : Dirent) (inum : UInt32) : Prop :=
  ∃ entries, fs dir = some (.dir entries) ∧ e ∈ entries ∧ inum_of e.inum = inum

/-- The nodes form a tree, and no directory lists a name twice. -/
structure Formed (fs : Nodes) : Prop where
  tree : EdgeTree.IsTree {inum | fs inum ≠ none} fs.Edge 1
  root : ∃ entries, fs 1 = some (.dir entries)
  names : ∀ dir entries, fs dir = some (.dir entries) → (entries.map Dirent.name).Nodup

variable {fs fs' : Nodes} {dir : UInt32} {entries : List Dirent} {e : Dirent} {node : Node} {type : FileType}
  {value : Option CString}

/-- Two entries of a directory with one name are the same. -/
theorem Formed.eq_of_name (h : Formed fs) (hdir : fs dir = some (.dir entries)) {e' : Dirent} (he : e ∈ entries)
    (he' : e' ∈ entries) (hname : e.name = e'.name) : e = e' :=
  List.inj_on_of_nodup_map (h.names dir entries hdir) he he' hname

theorem formed_root : Formed root where
  tree := by
    have hnodes : {inum | root inum ≠ none} = {1} := by
      ext inum
      simp [root]
    rw [hnodes]
    refine EdgeTree.isTree_root 1 ?_
    rintro i e j ⟨entries, hdir, he, _⟩
    unfold root at hdir
    split at hdir
    · cases hdir
      exact absurd he List.not_mem_nil
    · cases hdir
  root := ⟨[], rfl⟩
  names := by
    intro dir entries hdir
    unfold root at hdir
    split at hdir
    · cases hdir
      exact List.nodup_nil
    · cases hdir

/-- A step that changes no directory keeps the tree. -/
theorem Formed.of_dirs (h : Formed fs) (hnodes : ∀ inum, fs' inum = none ↔ fs inum = none)
    (hdirs : ∀ inum entries, fs' inum = some (.dir entries) ↔ fs inum = some (.dir entries)) : Formed fs' where
  tree := by
    have hset : {inum | fs' inum ≠ none} = {inum | fs inum ≠ none} := by
      ext inum
      exact not_congr (hnodes inum)
    have hedge : fs'.Edge = fs.Edge := by
      funext i e j
      simp only [Edge, hdirs]
    rw [hset, hedge]
    exact h.tree
  root := by
    obtain ⟨entries, hroot⟩ := h.root
    exact ⟨entries, (hdirs 1 entries).mpr hroot⟩
  names := fun dir entries hdir => h.names dir entries ((hdirs dir entries).mp hdir)

/-- Rewriting a file changes no directory. -/
theorem Formed.write (h : Formed fs) {inum : UInt32} {content : List UInt8} (hfile : fs inum = some (.file content))
    (content' : List UInt8) : Formed (Function.update fs inum (some (.file content'))) := by
  refine h.of_dirs ?_ ?_
  · intro other
    by_cases heq : other = inum
    · rw [heq, Function.update_self, hfile]
      simp
    · rw [Function.update_of_ne heq]
  · intro other entries
    by_cases heq : other = inum
    · rw [heq, Function.update_self, hfile]
      simp
    · rw [Function.update_of_ne heq]

theorem made_entries (h : Node.made type value = .dir entries) : entries = [] := by
  cases type <;> cases h
  rfl

/-- A new node is a leaf under its directory. -/
theorem edge_bind (hdir : fs dir = some (.dir entries)) (hfresh : fs (inum_of e.inum) = none) {i j : UInt32}
    {b : Dirent} :
    (fs.bind dir entries e (.made type value)).Edge i b j ↔ fs.Edge i b j ∨ (i = dir ∧ b = e ∧ j = inum_of e.inum) := by
  have hne : inum_of e.inum ≠ dir := by
    intro heq
    rw [heq, hdir] at hfresh
    cases hfresh
  unfold Edge bind
  by_cases hi : i = dir
  · subst hi
    simp only [Function.update_self, hdir, Option.some.injEq, Node.dir.injEq]
    constructor
    · rintro ⟨_, rfl, hmem, rfl⟩
      rcases List.mem_append.mp hmem with hold | hnew
      · exact .inl ⟨entries, rfl, hold, rfl⟩
      · rw [List.mem_singleton.mp hnew]
        exact .inr ⟨trivial, rfl, rfl⟩
    · rintro (⟨_, rfl, hmem, rfl⟩ | ⟨_, rfl, rfl⟩)
      · exact ⟨_, rfl, List.mem_append_left _ hmem, rfl⟩
      · exact ⟨_, rfl, List.mem_append_right _ (List.mem_singleton_self b), rfl⟩
  · rw [Function.update_of_ne hi]
    by_cases hnew : i = inum_of e.inum
    · rw [hnew, Function.update_self, hfresh]
      constructor
      · rintro ⟨list, hmade, hmem, _⟩
        rw [made_entries (Option.some.inj hmade)] at hmem
        exact absurd hmem List.not_mem_nil
      · rintro (⟨_, hnone, _⟩ | ⟨heq, _⟩)
        · cases hnone
        · exact absurd heq hne
    · rw [Function.update_of_ne hnew]
      simp [hi]

theorem Formed.bind (h : Formed fs) (hdir : fs dir = some (.dir entries)) (hunbound : ∀ b ∈ entries, b.name ≠ e.name)
    (hfresh : fs (inum_of e.inum) = none) : Formed (fs.bind dir entries e (.made type value)) where
  tree := by
    have hset : {inum | fs.bind dir entries e (.made type value) inum ≠ none} =
        insert (inum_of e.inum) {inum | fs inum ≠ none} := by
      ext inum
      change fs.bind dir entries e (.made type value) inum ≠ none ↔ inum = inum_of e.inum ∨ fs inum ≠ none
      unfold Nodes.bind
      by_cases hold : inum = dir
      · rw [hold, Function.update_self, hdir]
        simp
      · rw [Function.update_of_ne hold]
        by_cases hnew : inum = inum_of e.inum
        · rw [hnew, Function.update_self]
          simp
        · rw [Function.update_of_ne hnew]
          simp [hnew]
    have hmem : dir ∈ {inum | fs inum ≠ none} := by
      change fs dir ≠ none
      rw [hdir]
      exact Option.some_ne_none _
    rw [hset]
    exact h.tree.add_leaf hmem (not_not.mpr hfresh) fun i b j => edge_bind hdir hfresh
  root := by
    obtain ⟨list, hroot⟩ := h.root
    by_cases heq : 1 = dir
    · rw [heq]
      exact ⟨_, Function.update_self ..⟩
    · refine ⟨list, ?_⟩
      have hne : 1 ≠ inum_of e.inum := by
        intro hone
        rw [← hone, hroot] at hfresh
        cases hfresh
      rw [Nodes.bind, Function.update_of_ne heq, Function.update_of_ne hne, hroot]
  names := by
    intro other list hother
    unfold Nodes.bind at hother
    by_cases hold : other = dir
    · rw [hold, Function.update_self] at hother
      cases hother
      rw [List.map_append, List.nodup_append]
      refine ⟨h.names dir entries hdir, List.nodup_singleton _, ?_⟩
      intro name hname name' hname'
      obtain ⟨b, hb, rfl⟩ := List.mem_map.mp hname
      rw [List.mem_singleton.mp hname']
      exact hunbound b hb
    · rw [Function.update_of_ne hold] at hother
      by_cases hnew : other = inum_of e.inum
      · rw [hnew, Function.update_self] at hother
        rw [made_entries (Option.some.inj hother)]
        exact List.nodup_nil
      · rw [Function.update_of_ne hnew] at hother
        exact h.names other list hother

/-- Unbinding takes away the edge to the file, and no other. -/
theorem edge_unbind (h : Formed fs) (hdir : fs dir = some (.dir entries)) (he : e ∈ entries) {content : List UInt8}
    (hfile : fs (inum_of e.inum) = some (.file content)) {i j : UInt32} {b : Dirent} :
    (fs.unbind dir entries e).Edge i b j ↔ fs.Edge i b j ∧ j ≠ inum_of e.inum := by
  have hne : inum_of e.inum ≠ dir := by
    intro heq
    rw [heq, hdir] at hfile
    cases hfile
  -- another edge to the file would be the same edge
  have hone : fs.Edge i b (inum_of e.inum) → i = dir ∧ b = e := fun hedge =>
    h.tree.one_edge _ _ _ _ _ hedge ⟨entries, hdir, he, rfl⟩
  unfold Edge unbind
  by_cases hi : i = dir
  · subst hi
    simp only [Function.update_self, hdir, Option.some.injEq, Node.dir.injEq]
    constructor
    · rintro ⟨_, rfl, hmem, rfl⟩
      obtain ⟨hb, hname⟩ := List.mem_filter.mp hmem
      refine ⟨⟨entries, rfl, hb, rfl⟩, ?_⟩
      intro heq
      obtain ⟨_, rfl⟩ := hone ⟨entries, hdir, hb, heq⟩
      simp at hname
    · rintro ⟨⟨_, rfl, hb, rfl⟩, hother⟩
      refine ⟨_, rfl, List.mem_filter.mpr ⟨hb, ?_⟩, rfl⟩
      have hname : b.name ≠ e.name := by
        intro hname
        rw [h.eq_of_name hdir hb he hname] at hother
        exact hother rfl
      simpa using hname
  · rw [Function.update_of_ne hi]
    by_cases hnew : i = inum_of e.inum
    · rw [hnew, Function.update_self, hfile]
      simp
    · rw [Function.update_of_ne hnew]
      constructor
      · rintro ⟨list, hlist, hb, rfl⟩
        refine ⟨⟨list, hlist, hb, rfl⟩, ?_⟩
        intro heq
        exact hi (hone ⟨list, hlist, hb, heq⟩).1
      · rintro ⟨hedge, _⟩
        exact hedge

theorem Formed.unbind (h : Formed fs) (hdir : fs dir = some (.dir entries)) (he : e ∈ entries) {content : List UInt8}
    (hfile : fs (inum_of e.inum) = some (.file content)) : Formed (fs.unbind dir entries e) where
  tree := by
    have hne : dir ≠ inum_of e.inum := by
      intro heq
      rw [← heq, hdir] at hfile
      cases hfile
    have hset : {inum | fs.unbind dir entries e inum ≠ none} = {inum | fs inum ≠ none} \ {inum_of e.inum} := by
      ext inum
      change fs.unbind dir entries e inum ≠ none ↔ fs inum ≠ none ∧ inum ≠ inum_of e.inum
      unfold Nodes.unbind
      by_cases hold : inum = dir
      · rw [hold, Function.update_self, hdir]
        simp [hne]
      · rw [Function.update_of_ne hold]
        by_cases hnew : inum = inum_of e.inum
        · rw [hnew, Function.update_self]
          simp
        · rw [Function.update_of_ne hnew]
          simp [hnew]
    have hroot : inum_of e.inum ≠ 1 := by
      intro heq
      obtain ⟨list, hlist⟩ := h.root
      rw [heq, hlist] at hfile
      cases hfile
    have hleaf : ∀ b j, ¬ fs.Edge (inum_of e.inum) b j := by
      rintro b j ⟨list, hlist, _⟩
      rw [hfile] at hlist
      cases hlist
    rw [hset]
    exact h.tree.remove_leaf hroot hleaf fun i b j => edge_unbind h hdir he hfile
  root := by
    obtain ⟨list, hroot⟩ := h.root
    by_cases heq : 1 = dir
    · rw [heq]
      exact ⟨_, Function.update_self ..⟩
    · refine ⟨list, ?_⟩
      have hne : 1 ≠ inum_of e.inum := by
        intro hone
        rw [← hone, hroot] at hfile
        cases hfile
      rw [Nodes.unbind, Function.update_of_ne heq, Function.update_of_ne hne, hroot]
  names := by
    intro other list hother
    unfold Nodes.unbind at hother
    by_cases hold : other = dir
    · rw [hold, Function.update_self] at hother
      cases hother
      exact (h.names dir entries hdir).sublist (List.filter_sublist.map _)
    · rw [Function.update_of_ne hold] at hother
      by_cases hnew : other = inum_of e.inum
      · rw [hnew, Function.update_self] at hother
        cases hother
      · rw [Function.update_of_ne hnew] at hother
        exact h.names other list hother

/-- Every step keeps a formed file system formed, -/
theorem Step.formed {op : ClientOp} {reply : ClientReply} (hstep : Step fs op reply fs') (h : Formed fs) :
    Formed fs' := by
  cases hstep with
  | made _ hdir hunbound hfresh => exact h.bind hdir hunbound hfresh
  | unlinked hdir hmem _ hfile => exact h.unbind hdir hmem hfile
  | write hfile _ => exact h.write hfile _
  | setattr hfile => exact h.write hfile _
  | _ => exact h

/-- and so does every run. -/
theorem run_formed {history : List (ClientOp × ClientReply)} (hrun : Runs Step root history fs) : Formed fs :=
  hrun.invariant formed_root fun _ _ _ _ h hstep => hstep.formed h

end Nodes

end chfs
