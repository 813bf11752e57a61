import Chfs.Client.History
import Chfs.Lib.Records
import Chfs.Model.Fuse

namespace chfs

/-- The records of a listing. -/
def Libfuse.format (lib : Libfuse) : RecordFormat Dirent where
  size e := lib.dirent_size e.name.length
  encode e next := lib.add_dirent e.name e.inum next

/-- The mode the kernel is told. -/
def Node.mode : Option Node → UInt32
  | some (file _) => S_IFREG ||| 0o666
  | some (dir _) => S_IFDIR ||| 0o777
  | _ => S_IFLNK ||| 0o777

/-- The number of names it is told. -/
def Node.nlink : Option Node → UInt64
  | some (dir _) => 2
  | _ => 1

/-- The size it is told. -/
def Node.size : Option Node → Nat
  | some (file content) => content.length
  | some (link path) => path.length
  | _ => 0

/-- The requests for a new node under a name, with how their success is replied. -/
inductive FuseRequest.Creates :
    FuseRequest → UInt64 → CString → FileType → Option CString → (EntryParam → FuseReply) → Prop where
  | create {parent : UInt64} {name : CString} : Creates (.create parent name) parent name .T_FILE none .create
  | mknod {parent : UInt64} {name : CString} : Creates (.mknod parent name) parent name .T_FILE none .entry
  | mkdir {parent : UInt64} {name : CString} (hdots : ¬ ChfsClient.Dots name) :
    Creates (.mkdir parent name) parent name .T_DIR none .entry
  | symlink {link : CString} {parent : UInt64} {name : CString} :
    Creates (.symlink link parent name) parent name .T_SYMBOLIC (some link) .entry

/-- The names it gives to new nodes have a property. -/
def FuseRequest.Names (request : FuseRequest) (P : List UInt8 → Prop) : Prop :=
  ∀ parent name type value reply, request.Creates parent name type value reply → P name.bytes

namespace Nodes

open ChfsClient

/-- What the kernel is told of an inode, but for its times. -/
structure Stats (fs : Nodes) (ino : UInt64) (st : Stat) : Prop where
  st_ino : st.st_ino = ino
  st_mode : st.st_mode = Node.mode (fs (inum_of ino))
  st_nlink : st.st_nlink = Node.nlink (fs (inum_of ino))
  st_size : st.st_size.toNat = Node.size (fs (inum_of ino))

/-- What the requests of the kernel do to a file system, and what they are replied. -/
inductive Answers (lib : Libfuse) (fs : Nodes) : FuseRequest → FuseReply → Nodes → Prop where
  | attr {ino : UInt64} {st : Stat} (hst : fs.Stats ino st) : Answers lib fs (.getattr ino) (.attr st) fs
  | found {parent : UInt64} {name : CString} {entries : List Dirent} {e : Dirent} {st : Stat}
      (hdir : fs (inum_of parent) = some (.dir entries)) (hmem : e ∈ entries) (hname : e.name = name.bytes)
      (hst : fs.Stats e.inum st) :
    Answers lib fs (.lookup parent name) (.entry { ino := e.inum, generation := 0, attr := st }) fs
  | not_found {parent : UInt64} {name : CString} (hunbound : ∀ e ∈ fs.entries (inum_of parent), e.name ≠ name.bytes) :
    Answers lib fs (.lookup parent name) (.err .ENOENT) fs
  | made {request : FuseRequest} {parent id : UInt64} {name : CString} {type : FileType} {value : Option CString}
      {reply : EntryParam → FuseReply} {entries : List Dirent} {fs' : Nodes} {st : Stat}
      (hcreates : request.Creates parent name type value reply) (hdir : fs (inum_of parent) = some (.dir entries))
      (hunbound : ∀ e ∈ entries, e.name ≠ name.bytes) (hfresh : fs (inum_of id) = none)
      (hafter : fs' = fs.bind (inum_of parent) entries { inum := id, name := name.bytes } (.made type value))
      (hst : fs'.Stats id st) : Answers lib fs request (reply { ino := id, generation := 0, attr := st }) fs'
  | exist {request : FuseRequest} {parent : UInt64} {name : CString} {type : FileType} {value : Option CString}
      {reply : EntryParam → FuseReply} {entries : List Dirent} {e : Dirent}
      (hcreates : request.Creates parent name type value reply) (hdir : fs (inum_of parent) = some (.dir entries))
      (hmem : e ∈ entries) (hname : e.name = name.bytes) : Answers lib fs request (.err .EEXIST) fs
  | not_made {request : FuseRequest} {parent : UInt64} {name : CString} {type : FileType} {value : Option CString}
      {reply : EntryParam → FuseReply} (hcreates : request.Creates parent name type value reply)
      (hdir : ∀ entries, fs (inum_of parent) ≠ some (.dir entries)) : Answers lib fs request (.err .ENOENT) fs
  | dots {parent : UInt64} {name : CString} (hdots : Dots name) : Answers lib fs (.mkdir parent name) (.err .ENOENT) fs
  | unlinked {parent : UInt64} {name : CString} {entries : List Dirent} {e : Dirent} {content : List UInt8}
      (hdir : fs (inum_of parent) = some (.dir entries)) (hmem : e ∈ entries) (hname : e.name = name.bytes)
      (hfile : fs (inum_of e.inum) = some (.file content)) :
    Answers lib fs (.unlink parent name) (.err .OK) (fs.unbind (inum_of parent) entries e)
  | no_file {parent : UInt64} {name : CString} {entries : List Dirent} {e : Dirent}
      (hdir : fs (inum_of parent) = some (.dir entries)) (hmem : e ∈ entries) (hname : e.name = name.bytes)
      (hfile : ∀ content, fs (inum_of e.inum) ≠ some (.file content)) :
    Answers lib fs (.unlink parent name) (.err .ENOTEMPTY) fs
  | no_entry {parent : UInt64} {name : CString} {entries : List Dirent}
      (hdir : fs (inum_of parent) = some (.dir entries)) (hunbound : ∀ e ∈ entries, e.name ≠ name.bytes) :
    Answers lib fs (.unlink parent name) (.err .ENOENT) fs
  | no_dir {parent : UInt64} {name : CString} (hdir : ∀ entries, fs (inum_of parent) ≠ some (.dir entries)) :
    Answers lib fs (.unlink parent name) (.err .ENOTEMPTY) fs
  | listed {ino size : UInt64} {off : Int64} {entries : List Dirent} (hdir : fs (inum_of ino) = some (.dir entries)) :
    Answers lib fs (.readdir ino size off)
      (.buf (((lib.format.layout 0 entries).drop off.toUInt64.toNat).take size.toNat)) fs
  | not_listed {ino size : UInt64} {off : Int64} (hdir : ∀ entries, fs (inum_of ino) ≠ some (.dir entries)) :
    Answers lib fs (.readdir ino size off) (.err .ENOTDIR) fs
  | read {ino size : UInt64} {off : Int64} {content : List UInt8} (hfile : fs (inum_of ino) = some (.file content))
      (hoff : 0 ≤ off.toInt) :
    Answers lib fs (.read ino size off) (.buf ((content.drop off.toInt.toNat).take size.toNat)) fs
  | read_gone {ino size : UInt64} {off : Int64} (hgone : fs (inum_of ino) = none) (hoff : 0 ≤ off.toInt) :
    Answers lib fs (.read ino size off) (.buf []) fs
  | written {ino size : UInt64} {off : Int64} {buf : Mem} {content : List UInt8}
      (hfile : fs (inum_of ino) = some (.file content)) (hoff : 0 ≤ off.toInt) :
    Answers lib fs (.write ino buf size off) (.write size)
      (Function.update fs (inum_of ino) (some (.file (splice content off.toInt.toNat (buf.bytes size.toNat)))))
  | written_gone {ino size : UInt64} {off : Int64} {buf : Mem} (hgone : fs (inum_of ino) = none)
      (hoff : 0 ≤ off.toInt) :
    Answers lib fs (.write ino buf size off) (.write size) fs
  | resized {ino : UInt64} {st_size : Int64} {to_set : UInt32} {content : List UInt8} {fs' : Nodes} {st : Stat}
      (hflag : FUSE_SET_ATTR_SIZE &&& to_set ≠ 0) (hfile : fs (inum_of ino) = some (.file content))
      (hafter : fs' = Function.update fs (inum_of ino) (some (.file (content.take st_size.toUInt64.toNat))))
      (hst : fs'.Stats ino st) : Answers lib fs (.setattr ino st_size to_set) (.attr st) fs'
  | resized_gone {ino : UInt64} {st_size : Int64} {to_set : UInt32} {st : Stat}
      (hflag : FUSE_SET_ATTR_SIZE &&& to_set ≠ 0) (hgone : fs (inum_of ino) = none) (hst : fs.Stats ino st) :
    Answers lib fs (.setattr ino st_size to_set) (.attr st) fs
  | not_resized {ino : UInt64} {st_size : Int64} {to_set : UInt32} (hflag : FUSE_SET_ATTR_SIZE &&& to_set = 0) :
    Answers lib fs (.setattr ino st_size to_set) (.err .ENOSYS) fs
  | link {ino : UInt64} {path : List UInt8} (hlink : fs (inum_of ino) = some (.link path)) :
    Answers lib fs (.readlink ino) (.readlink path) fs
  | no_link {ino : UInt64} (hlink : ∀ path, fs (inum_of ino) ≠ some (.link path)) :
    Answers lib fs (.readlink ino) (.err .ENOENT) fs
  | open_file {ino : UInt64} : Answers lib fs (.open_file ino) .open_file fs
  | statfs : Answers lib fs .statfs (.statfs 512 255) fs

/-- Each request is replied once. -/
def Serves (lib : Libfuse) (fs : Nodes) (call : FuseCall) (replies : List FuseReply) (fs' : Nodes) : Prop :=
  ∃ reply, replies = [reply] ∧ fs.Answers lib call.request reply fs'

/-- The names in the directories have a property, and the paths of the links no zero byte. -/
structure Strings (fs : Nodes) (P : List UInt8 → Prop) : Prop where
  names : ∀ dir, ∀ e ∈ fs.entries dir, P e.name
  paths : ∀ inum path, fs inum = some (.link path) → 0 ∉ path

variable {lib : Libfuse} {fs fs' : Nodes} {request : FuseRequest} {reply : FuseReply}
  {P : List UInt8 → Prop} {parent : UInt64} {name : CString} {type : FileType} {value : Option CString}

theorem strings_root (P : List UInt8 → Prop) : root.Strings P where
  names := by
    intro dir e he
    obtain ⟨entries, hdir, hmem⟩ := mem_entries_iff.mp he
    unfold root at hdir
    split at hdir
    · cases hdir
      exact absurd hmem List.not_mem_nil
    · cases hdir
  paths := by
    intro inum path hlink
    unfold root at hlink
    split at hlink <;> cases hlink

/-- A link stores a string of C. -/
theorem made_path {path : List UInt8} (h : Node.made type value = .link path) : 0 ∉ path := by
  cases type with
  | T_SYMBOLIC =>
    cases h
    cases value with
    | none => exact List.not_mem_nil
    | some target => exact target.no_nul
  | _ => cases h

theorem Strings.mono {Q : List UInt8 → Prop} (h : fs.Strings P) (hsub : ∀ name, P name → Q name) : fs.Strings Q :=
  ⟨fun dir e he => hsub _ (h.names dir e he), h.paths⟩

theorem Strings.write (h : fs.Strings P) {inum : UInt32} {content : List UInt8} (hfile : fs inum = some (.file content))
    (content' : List UInt8) : Strings (Function.update fs inum (some (.file content'))) P where
  names := by
    intro dir
    rw [entries_write hfile]
    exact h.names dir
  paths := by
    intro other path hlink
    by_cases heq : other = inum
    · rw [heq, Function.update_self] at hlink
      cases hlink
    · rw [Function.update_of_ne heq] at hlink
      exact h.paths other path hlink

theorem Strings.bind (h : fs.Strings P) {dir : UInt32} {entries : List Dirent} {e : Dirent}
    (hdir : fs dir = some (.dir entries)) (hfresh : fs (inum_of e.inum) = none) (hname : P e.name) :
    Strings (fs.bind dir entries e (.made type value)) P where
  names := by
    intro other b hb
    rw [entries_bind hdir hfresh] at hb
    split at hb
    · rcases List.mem_append.mp hb with hold | hnew
      · exact h.names other b hold
      · rw [List.mem_singleton.mp hnew]
        exact hname
    · exact h.names other b hb
  paths := by
    intro inum path hlink
    unfold Nodes.bind at hlink
    by_cases hold : inum = dir
    · rw [hold, Function.update_self] at hlink
      cases hlink
    · rw [Function.update_of_ne hold] at hlink
      by_cases hnew : inum = inum_of e.inum
      · rw [hnew, Function.update_self] at hlink
        exact made_path (Option.some.inj hlink)
      · rw [Function.update_of_ne hnew] at hlink
        exact h.paths inum path hlink

theorem Strings.unbind (h : fs.Strings P) {dir : UInt32} {entries : List Dirent} {e : Dirent} {content : List UInt8}
    (hdir : fs dir = some (.dir entries)) (hfile : fs (inum_of e.inum) = some (.file content)) :
    Strings (fs.unbind dir entries e) P where
  names := by
    intro other b hb
    rw [entries_unbind hdir hfile] at hb
    split at hb
    · exact h.names other b (List.mem_of_mem_filter hb)
    · exact h.names other b hb
  paths := by
    intro inum path hlink
    unfold Nodes.unbind at hlink
    by_cases hold : inum = dir
    · rw [hold, Function.update_self] at hlink
      cases hlink
    · rw [Function.update_of_ne hold] at hlink
      by_cases hnew : inum = inum_of e.inum
      · rw [hnew, Function.update_self] at hlink
        cases hlink
      · rw [Function.update_of_ne hnew] at hlink
        exact h.paths inum path hlink

/-- Every request keeps a formed file system formed, -/
theorem Answers.formed (h : fs.Answers lib request reply fs') (hformed : fs.Formed) : fs'.Formed := by
  cases h with
  | made _ hdir hunbound hfresh hafter _ => exact hafter ▸ hformed.bind hdir hunbound hfresh
  | unlinked hdir hmem _ hfile => exact hformed.unbind hdir hmem hfile
  | written hfile _ => exact hformed.write hfile _
  | resized _ hfile hafter _ => exact hafter ▸ hformed.write hfile _
  | _ => exact hformed

/-- and the names as they are asked for. -/
theorem Answers.strings (h : fs.Answers lib request reply fs') (hstrings : fs.Strings P)
    (hnames : request.Names P) : fs'.Strings P := by
  cases h with
  | made hcreates hdir _ hfresh hafter _ => exact hafter ▸ hstrings.bind hdir hfresh (hnames _ _ _ _ _ hcreates)
  | unlinked hdir _ _ hfile => exact hstrings.unbind hdir hfile
  | written hfile _ => exact hstrings.write hfile _
  | resized _ hfile hafter _ => exact hafter ▸ hstrings.write hfile _
  | _ => exact hstrings

end Nodes

end chfs
