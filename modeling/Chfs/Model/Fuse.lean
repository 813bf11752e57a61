import Chfs.Model.ChfsClient

namespace chfs

/-- The fields of `struct stat` that `getattr` fills in. -/
structure Stat where
  st_ino : UInt64
  st_mode : UInt32
  st_nlink : UInt64
  st_atime : UInt64
  st_mtime : UInt64
  st_ctime : UInt64
  st_size : UInt64
  deriving DecidableEq, Repr

def S_IFREG : UInt32 := 0x8000
def S_IFDIR : UInt32 := 0x4000
def S_IFLNK : UInt32 := 0xA000

/-- The error numbers the handlers reply with; `OK` is 0. -/
inductive Errno where
  | OK | ENOENT | EEXIST | ENOTDIR | ENOTEMPTY | ENOSYS
  deriving DecidableEq, Repr

/-- `struct fuse_entry_param`, without the timeouts, which are always 0. -/
structure EntryParam where
  ino : UInt64
  generation : UInt64
  attr : Stat
  deriving DecidableEq, Repr

/-- The calls `fuse_reply_...` a handler makes. -/
inductive FuseReply where
  | err (err : Errno)
  | attr (attr : Stat)
  | entry (e : EntryParam)
  | create (e : EntryParam)
  | buf (buf : List UInt8)
  | write (count : UInt64)
  | open_file
  | readlink (link : List UInt8)
  | statfs (f_bsize f_namemax : UInt64)
  deriving DecidableEq, Repr

/-- What the handlers use of libfuse: `fuse_dirent_size`, and the bytes `fuse_add_dirent`
    writes for a name, the number of its inode and the offset of the next entry. -/
structure Libfuse where
  dirent_size : Nat → Nat
  add_dirent : List UInt8 → UInt64 → Nat → List UInt8

/-- `struct dirbuf`. -/
structure Dirbuf where
  p : Mem
  size : Nat

/-- The requests of the kernel, with the arguments that the handlers look at. -/
inductive FuseRequest where
  | getattr (ino : UInt64)
  | setattr (ino : UInt64) (st_size : Int64) (to_set : UInt32)
  | statfs
  | readdir (ino size : UInt64) (off : Int64)
  | lookup (parent : UInt64) (name : CString)
  | create (parent : UInt64) (name : CString)
  | mknod (parent : UInt64) (name : CString)
  | open_file (ino : UInt64)
  | read (ino size : UInt64) (off : Int64)
  | write (ino : UInt64) (buf : Mem) (size : UInt64) (off : Int64)
  | unlink (parent : UInt64) (name : CString)
  | mkdir (parent : UInt64) (name : CString)
  | symlink (link : CString) (parent : UInt64) (name : CString)
  | readlink (ino : UInt64)

/-- What a handler finds in its uninitialised variables `inum` and `e`, and in the memory
    that `realloc` hands out. -/
structure Garbage where
  inum : UInt64
  e : EntryParam
  heap : Mem

/-- A request, and what its handler finds when it runs. -/
structure FuseCall where
  request : FuseRequest
  garbage : Garbage

/-- `FUSE_SET_ATTR_SIZE`. -/
def FUSE_SET_ATTR_SIZE : UInt32 := (1 : UInt32) <<< 3

namespace Fuse

/-- The attributes of an inode as the kernel wants them. Whatever is neither a
    file nor a directory is reported as a symbolic link. -/
def getattr (chfs : ChfsClient) (inum : UInt64) : Status × Stat :=
  let st : Stat :=
    { st_ino := inum, st_mode := 0, st_nlink := 0, st_atime := 0, st_mtime := 0, st_ctime := 0,
      st_size := 0 }
  let unset : FileInfo := { size := 0, atime := 0, mtime := 0, ctime := 0 }
  if chfs.isfile inum then
    let (ret, info) := chfs.getfile inum unset
    if ret ≠ .OK then (ret, st)
    else
      (.OK, { st with st_mode := S_IFREG ||| 0o666, st_nlink := 1, st_atime := info.atime,
                      st_mtime := info.mtime, st_ctime := info.ctime, st_size := info.size })
  else if chfs.isdir inum then
    let (ret, info) := chfs.getdir inum { atime := 0, mtime := 0, ctime := 0 }
    if ret ≠ .OK then (ret, st)
    else
      (.OK, { st with st_mode := S_IFDIR ||| 0o777, st_nlink := 2, st_atime := info.atime,
                      st_mtime := info.mtime, st_ctime := info.ctime })
  else
    let (ret, info) := chfs.getfile inum unset
    if ret ≠ .OK then (ret, st)
    else
      (.OK, { st with st_mode := S_IFLNK ||| 0o777, st_nlink := 1, st_atime := info.atime,
                      st_mtime := info.mtime, st_ctime := info.ctime, st_size := info.size })

def fuseserver_getattr (chfs : ChfsClient) (ino : UInt64) : List FuseReply :=
  let (ret, st) := getattr chfs ino
  if ret ≠ .OK then [.err .ENOENT] else [.attr st]

/-- Nothing is replied when the client does not return OK. -/
def fuseserver_setattr (chfs : ChfsClient) (ino : UInt64) (st_size : Int64) (to_set : UInt32) :
    Result (List FuseReply × ChfsClient) := do
  if FUSE_SET_ATTR_SIZE &&& to_set ≠ 0 then
    let (ret, chfs) ← chfs.setattr ino st_size.toUInt64
    if ret = .OK then
      let (ret_2, st) := getattr chfs ino
      if ret_2 = .OK then
        return ([.attr st], chfs)
      return ([], chfs)
    return ([], chfs)
  else
    return ([.err .ENOSYS], chfs)

def fuseserver_read (chfs : ChfsClient) (ino size : UInt64) (off : Int64) : Result (List FuseReply × ChfsClient) := do
  let (ret, data, chfs) ← chfs.read ino size off
  if ret = .OK then
    return ([.buf data], chfs)
  else
    return ([.err .ENOENT], chfs)

def fuseserver_write (chfs : ChfsClient) (ino : UInt64) (buf : Mem) (size : UInt64) (off : Int64) :
    Result (List FuseReply × ChfsClient) := do
  let (ret, byte_written, chfs) ← chfs.write ino size off buf 0
  if ret = .OK then
    return ([.write byte_written], chfs)
  else
    return ([.err .ENOENT], chfs)

/-- Creates a file, or a directory for any other type, and fills `e` in. -/
def fuseserver_createhelper (chfs : ChfsClient) (parent : UInt64) (name : CString) (e : EntryParam) (type : FileType)
    (inum : UInt64) : Result (Status × EntryParam × ChfsClient) := do
  let e := { e with generation := 0 }
  let create := if type = .T_FILE then chfs.create parent name inum else chfs.mkdir parent name inum
  let (ret, inum, chfs) ← create
  if ret ≠ .OK then
    return (ret, e, chfs)
  let (ret, attr) := getattr chfs inum
  return (ret, { e with ino := inum, attr }, chfs)

/-- What `create`, `mknod` and `mkdir` reply when the helper does not return OK. -/
def create_error (ret : Status) : FuseReply :=
  if ret = .EXIST then .err .EEXIST else .err .ENOENT

def fuseserver_create (chfs : ChfsClient) (parent : UInt64) (name : CString) (garbage : Garbage) :
    Result (List FuseReply × ChfsClient) := do
  let (ret, e, chfs) ← fuseserver_createhelper chfs parent name garbage.e .T_FILE garbage.inum
  if ret = .OK then
    return ([.create e], chfs)
  else
    return ([create_error ret], chfs)

def fuseserver_mknod (chfs : ChfsClient) (parent : UInt64) (name : CString) (garbage : Garbage) :
    Result (List FuseReply × ChfsClient) := do
  let (ret, e, chfs) ← fuseserver_createhelper chfs parent name garbage.e .T_FILE garbage.inum
  if ret = .OK then
    return ([.entry e], chfs)
  else
    return ([create_error ret], chfs)

def fuseserver_mkdir (chfs : ChfsClient) (parent : UInt64) (name : CString) (garbage : Garbage) :
    Result (List FuseReply × ChfsClient) := do
  let (ret, e, chfs) ← fuseserver_createhelper chfs parent name garbage.e .T_DIR garbage.inum
  if ret = .OK then
    return ([.entry e], chfs)
  else
    return ([create_error ret], chfs)

/-- The status of the lookup is not looked at. -/
def fuseserver_lookup (chfs : ChfsClient) (parent : UInt64) (name : CString) (garbage : Garbage) :
    Result (List FuseReply × ChfsClient) := do
  let e := { garbage.e with generation := 0 }
  let (_, found, ino, chfs) ← chfs.lookup parent name false garbage.inum
  if found then
    return ([.entry { e with ino, attr := (getattr chfs ino).2 }], chfs)
  else
    return ([.err .ENOENT], chfs)

/-- Appends an entry to the buffer, which grows by its size. -/
def dirbuf_add (lib : Libfuse) (b : Dirbuf) (name : CString) (ino : UInt64) : Dirbuf :=
  let oldsize := b.size
  let size := b.size + lib.dirent_size name.bytes.length
  let dirent := lib.add_dirent name.bytes ino size
  { p := Mem.memcpy b.p oldsize (Mem.ofBytes dirent Mem.zero) dirent.length, size }

def reply_buf_limited (buf : Mem) (bufsize : Nat) (off : Int64) (maxsize : UInt64) : FuseReply :=
  let off := off.toUInt64.toNat
  if off < bufsize then .buf ((buf.shift off).bytes (min (bufsize - off) maxsize.toNat)) else .buf []

/-- Builds the whole buffer for every page of it. The status of `readdir` is not looked at. -/
def fuseserver_readdir (lib : Libfuse) (chfs : ChfsClient) (ino size : UInt64) (off : Int64) (garbage : Garbage) :
    Result (List FuseReply × ChfsClient) := do
  if ¬ chfs.isdir ino then
    return ([.err .ENOTDIR], chfs)
  let (_, entries, chfs) ← chfs.readdir ino []
  let b := entries.foldl (fun b e => dirbuf_add lib b (StdString.c_str e.name) e.inum) { p := garbage.heap, size := 0 }
  return ([reply_buf_limited b.p b.size off size], chfs)

def fuseserver_unlink (chfs : ChfsClient) (parent : UInt64) (name : CString) :
    Result (List FuseReply × ChfsClient) := do
  let (r, chfs) ← chfs.unlink parent name
  if r = .OK then
    return ([.err .OK], chfs)
  else if r = .NOENT then
    return ([.err .ENOENT], chfs)
  else
    return ([.err .ENOTEMPTY], chfs)

/-- Nothing is replied when the attributes of the new inode are not to be had. -/
def fuseserver_symlink (chfs : ChfsClient) (link : CString) (parent : UInt64) (name : CString) (garbage : Garbage) :
    Result (List FuseReply × ChfsClient) := do
  let e := { garbage.e with generation := 0 }
  let (ret, inum, chfs) ← chfs.create_symbolic_link parent link name garbage.inum
  if ret = .OK then
    let (ret_2, attr) := getattr chfs inum
    if ret_2 = .OK then
      return ([.entry { e with ino := inum, attr }], chfs)
    return ([], chfs)
  else if ret = .EXIST then
    return ([.err .EEXIST], chfs)
  else
    return ([.err .ENOENT], chfs)

def fuseserver_readlink (chfs : ChfsClient) (ino : UInt64) : Result (List FuseReply × ChfsClient) := do
  let (ret, data, chfs) ← chfs.parse_symbolic_link [] ino
  if ret = .OK then
    return ([.readlink (StdString.c_str data).bytes], chfs)
  else
    return ([.err .ENOENT], chfs)

def fuseserver_open : List FuseReply := [.open_file]

def fuseserver_statfs : List FuseReply := [.statfs 512 255]

/-- The table `fuseserver_oper` of the handlers. -/
def step (lib : Libfuse) (chfs : ChfsClient) (call : FuseCall) : Result (List FuseReply × ChfsClient) :=
  match call.request with
  | .getattr ino => .ok (fuseserver_getattr chfs ino, chfs)
  | .setattr ino st_size to_set => fuseserver_setattr chfs ino st_size to_set
  | .statfs => .ok (fuseserver_statfs, chfs)
  | .readdir ino size off => fuseserver_readdir lib chfs ino size off call.garbage
  | .lookup parent name => fuseserver_lookup chfs parent name call.garbage
  | .create parent name => fuseserver_create chfs parent name call.garbage
  | .mknod parent name => fuseserver_mknod chfs parent name call.garbage
  | .open_file _ => .ok (fuseserver_open, chfs)
  | .read ino size off => fuseserver_read chfs ino size off
  | .write ino buf size off => fuseserver_write chfs ino buf size off
  | .unlink parent name => fuseserver_unlink chfs parent name
  | .mkdir parent name => fuseserver_mkdir chfs parent name call.garbage
  | .symlink link parent name => fuseserver_symlink chfs link parent name call.garbage
  | .readlink ino => fuseserver_readlink chfs ino

end Fuse

end chfs
