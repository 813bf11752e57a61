import Chfs.Lib.Decimal
import Chfs.Lib.StdString
import Chfs.Model.ExtentServer

namespace chfs

structure FileInfo where
  size : UInt64
  atime : UInt64
  mtime : UInt64
  ctime : UInt64
  deriving DecidableEq, Repr

structure DirInfo where
  atime : UInt64
  mtime : UInt64
  ctime : UInt64
  deriving DecidableEq, Repr

structure Dirent where
  name : List UInt8
  inum : UInt64
  deriving DecidableEq, Repr

/-- A call of `std::string` that may throw `std::out_of_range`. -/
def or_throw {α : Type} : Option α → Result α
  | some a => .ok a
  | none => .error .out_of_range

structure ChfsClient where
  ec : ExtentClient
  /-- What the uninitialised local of `n2i` holds. -/
  stack : UInt64

/-- The character `'/'`. -/
def slash : UInt8 := 47

namespace ChfsClient

def new (garbage : UInt32) (env : Env) (stack : UInt64) : Result ChfsClient := do
  let ec ← ExtentClient.new garbage env
  return { ec, stack }

def n2i (c : ChfsClient) (n : List UInt8) : UInt64 := Decimal.read c.stack n

def filename (inum : UInt64) : List UInt8 := Decimal.print inum.toNat

def isfile (c : ChfsClient) (inum : UInt64) : Bool :=
  let (ret, a) := c.ec.getattr inum
  if ret ≠ .OK then false else a.type = FileType.T_FILE.code

def isdir (c : ChfsClient) (inum : UInt64) : Bool :=
  let (ret, a) := c.ec.getattr inum
  if ret ≠ .OK then false else a.type = FileType.T_DIR.code

def issymlink (c : ChfsClient) (inum : UInt64) : Bool :=
  let (ret, a) := c.ec.getattr inum
  if ret ≠ .OK then false else a.type = FileType.T_SYMBOLIC.code

def getfile (c : ChfsClient) (inum : UInt64) (fin : FileInfo) : Status × FileInfo :=
  let (ret, a) := c.ec.getattr inum
  if ret ≠ .OK then (.IOERR, fin)
  else
    (.OK, { size := a.size.toUInt64, atime := a.atime.toUInt64, mtime := a.mtime.toUInt64,
            ctime := a.ctime.toUInt64 })

def getdir (c : ChfsClient) (inum : UInt64) (din : DirInfo) : Status × DirInfo :=
  let (ret, a) := c.ec.getattr inum
  if ret ≠ .OK then (.IOERR, din)
  else
    (.OK, { atime := a.atime.toUInt64, mtime := a.mtime.toUInt64, ctime := a.ctime.toUInt64 })

/-- Sets the length of a file. The two branches are as the source has them: a
    longer `size` takes the prefix, a shorter one resizes. -/
def setattr (c : ChfsClient) (ino : UInt64) (size : UInt64) : Result (Status × ChfsClient) := do
  let (ret, buf, ec) ← c.ec.get ino
  let c := { c with ec }
  if ret ≠ .OK then
    return (.IOERR, c)
  let prev_size := buf.length
  if prev_size = size.toNat then
    return (.OK, c)
  let buf ←
    if prev_size < size.toNat then or_throw (StdString.substr buf 0 size.toNat)
    else pure (StdString.resize buf size.toNat 0)
  let (ret, ec) ← c.ec.put ino buf
  let c := { c with ec }
  if ret ≠ .OK then
    return (.IOERR, c)
  return (.OK, c)

def check_dir_inode (c : ChfsClient) (parent : UInt64) : Status × Attr :=
  let (ret, a) := c.ec.getattr parent
  if ret ≠ .OK then (.IOERR, a)
  else if a.type ≠ FileType.T_DIR.code then (.IOERR, a)
  else (.OK, a)

/-- The loop of `readdir`, for at most `n` more entries from `pos` on. Each round
    advances `pos`, so `buf.length` rounds are always enough. -/
def readdir_loop (c : ChfsClient) (buf : List UInt8) :
    (n pos : Nat) → List Dirent → Status × List Dirent
  | 0, _, list => (.OK, list)
  | n + 1, pos, list =>
    if pos < buf.length then
      match StdString.find buf slash pos with
      | none => (.IOERR, list)
      | some slash_pos =>
        let inum_str := (buf.drop pos).take (slash_pos - pos)
        let pos := slash_pos + 1
        if buf.length ≤ pos then (.IOERR, list)
        else
          match StdString.find buf slash pos with
          | none => (.IOERR, list)
          | some slash_pos =>
            let name_str := (buf.drop pos).take (slash_pos - pos)
            let pos := slash_pos + 1
            readdir_loop c buf n pos (list ++ [{ inum := c.n2i inum_str, name := name_str }])
    else (.OK, list)

def readdir (c : ChfsClient) (dir : UInt64) (list : List Dirent) :
    Result (Status × List Dirent × ChfsClient) := do
  let (ret, _) := c.check_dir_inode dir
  if ret ≠ .OK then
    return (.IOERR, list, c)
  let (ret, buf, ec) ← c.ec.get dir
  let c := { c with ec }
  if ret ≠ .OK then
    return (.IOERR, list, c)
  let (r, list) := c.readdir_loop buf buf.length 0 list
  return (r, list, c)

/-- The answer is the status, `found` and `ino_out`. -/
def lookup (c : ChfsClient) (parent : UInt64) (name : CString) (found : Bool) (ino_out : UInt64) :
    Result (Status × Bool × UInt64 × ChfsClient) := do
  let (ret, _) := c.check_dir_inode parent
  if ret ≠ .OK then
    return (.IOERR, found, ino_out, c)
  let (ret, dirent_list, c) ← c.readdir parent []
  if ret ≠ .OK then
    return (.IOERR, found, ino_out, c)
  match dirent_list.find? (fun elem => elem.name = name.bytes) with
  | some elem => return (.OK, true, elem.inum, c)
  | none => return (.OK, found, ino_out, c)

/-- The text of one directory entry: `inum/name/`. -/
def inum_name_pair (inum : UInt64) (name : List UInt8) : List UInt8 :=
  filename inum ++ [slash] ++ name ++ [slash]

/-- What `create`, `mkdir` and `create_symbolic_link` have in common after their
    checks: look the name up, create an inode, store the `value` of a symbolic
    link and append the entry to the parent. -/
def make_node (c : ChfsClient) (parent : UInt64) (name : CString) (type : FileType)
    (value : Option CString) (ino_out : UInt64) : Result (Status × UInt64 × ChfsClient) := do
  let (ret, found, ino_out, c) ← c.lookup parent name false ino_out
  if ret ≠ .OK then
    return (.IOERR, ino_out, c)
  if found then
    return (.EXIST, ino_out, c)
  let (ret, ino_out, ec) := c.ec.create type.code
  let c := { c with ec }
  if ret ≠ .OK then
    return (.IOERR, ino_out, c)
  let (ret, buf, ec) ← c.ec.get parent
  let c := { c with ec }
  if ret ≠ .OK then
    return (.IOERR, ino_out, c)
  let buf := buf ++ inum_name_pair ino_out name.bytes
  let c ←
    match value with
    | none => pure c
    | some true_file_path => do
      -- a failure here is only reported on the console
      let (_, ec) ← c.ec.put ino_out true_file_path.bytes
      pure { c with ec }
  let (ret, ec) ← c.ec.put parent buf
  let c := { c with ec }
  if ret ≠ .OK then
    return (.IOERR, ino_out, c)
  return (.OK, ino_out, c)

def create (c : ChfsClient) (parent : UInt64) (name : CString) (ino_out : UInt64) :
    Result (Status × UInt64 × ChfsClient) := do
  let (ret, _) := c.check_dir_inode parent
  if ret ≠ .OK then
    return (.IOERR, ino_out, c)
  c.make_node parent name .T_FILE none ino_out

def mkdir (c : ChfsClient) (parent : UInt64) (name : CString) (ino_out : UInt64) :
    Result (Status × UInt64 × ChfsClient) := do
  let (ret, _) := c.check_dir_inode parent
  if ret ≠ .OK then
    return (.IOERR, ino_out, c)
  -- "." and ".."
  if name.bytes = [46] ∨ name.bytes = [46, 46] then
    return (.IOERR, ino_out, c)
  c.make_node parent name .T_DIR none ino_out

def create_symbolic_link (c : ChfsClient) (parent : UInt64) (true_file_path link_name : CString)
    (ino : UInt64) : Result (Status × UInt64 × ChfsClient) := do
  let (ret, _) := c.check_dir_inode parent
  if ret ≠ .OK then
    return (.IOERR, ino, c)
  c.make_node parent link_name .T_SYMBOLIC (some true_file_path) ino

/-- `off` is an `off_t`, and `off + size` is computed in `size_t`. -/
def read (c : ChfsClient) (ino : UInt64) (size : UInt64) (off : Int64) :
    Result (Status × List UInt8 × ChfsClient) := do
  let (ret, _) := c.ec.getattr ino
  if ret ≠ .OK then
    return (.IOERR, [], c)
  let (ret, buf, ec) ← c.ec.get ino
  let c := { c with ec }
  if ret ≠ .OK then
    return (.IOERR, [], c)
  let length := buf.length
  if length ≤ off.toInt then
    return (.OK, [], c)
  let pos := off.toUInt64.toNat
  let data ←
    if length ≤ (off.toUInt64 + size).toNat then or_throw (StdString.substr buf pos (length - pos))
    else or_throw (StdString.substr buf pos size.toNat)
  return (.OK, data, c)

/-- The answer is the status and `bytes_written`. -/
def write (c : ChfsClient) (ino : UInt64) (size : UInt64) (off : Int64) (data : Mem)
    (bytes_written : UInt64) : Result (Status × UInt64 × ChfsClient) := do
  let (ret, _) := c.ec.getattr ino
  if ret ≠ .OK then
    return (.IOERR, bytes_written, c)
  let next_buf := data.bytes size.toNat
  let (ret, prev_buf, ec) ← c.ec.get ino
  let c := { c with ec }
  if ret ≠ .OK then
    return (.IOERR, bytes_written, c)
  let bytes_written := size
  let prev_buf :=
    if (prev_buf.length : Int) < off.toInt then StdString.resize prev_buf off.toUInt64.toNat 0
    else prev_buf
  let prev_buf ← or_throw (StdString.replace prev_buf off.toUInt64.toNat size.toNat next_buf)
  let (ret, ec) ← c.ec.put ino prev_buf
  let c := { c with ec }
  if ret ≠ .OK then
    return (.IOERR, bytes_written, c)
  return (.OK, bytes_written, c)

def unlink (c : ChfsClient) (parent : UInt64) (name : CString) : Result (Status × ChfsClient) := do
  let (ret, _) := c.check_dir_inode parent
  if ret ≠ .OK then
    return (.IOERR, c)
  let (ret, found, file_ino, c) ← c.lookup parent name false 0
  if ret ≠ .OK then
    return (.IOERR, c)
  if found = false then
    return (.NOENT, c)
  if ¬ c.isfile file_ino then
    return (.IOERR, c)
  let (ret, ec) ← c.ec.remove file_ino
  let c := { c with ec }
  if ret ≠ .OK then
    return (.IOERR, c)
  let (ret, list, c) ← c.readdir parent []
  if ret ≠ .OK then
    return (.IOERR, c)
  let kept := list.filter (fun cur => cur.name ≠ name.bytes)
  let new_buf := kept.flatMap (fun cur => inum_name_pair cur.inum cur.name)
  let (ret, ec) ← c.ec.put parent new_buf
  let c := { c with ec }
  if ret ≠ .OK then
    return (.IOERR, c)
  return (.OK, c)

def parse_symbolic_link (c : ChfsClient) (buf : List UInt8) (ino : UInt64) :
    Result (Status × List UInt8 × ChfsClient) := do
  if ¬ c.issymlink ino then
    return (.IOERR, buf, c)
  let (ret, data, ec) ← c.ec.get ino
  let c := { c with ec }
  if ret ≠ .OK then
    return (.IOERR, buf, c)
  return (.OK, data, c)

end ChfsClient

end chfs
