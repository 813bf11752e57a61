import Chfs.Model.InodeManager

namespace chfs

abbrev extentid_t := UInt64

structure ExtentServer where
  im : InodeManager
  /-- Ghost: the length of the longest buffer `put` was given. -/
  longest_put : Nat

/-- `id &= 0x7fffffff`, then passed on as a `uint32_t`. -/
def inum_of (id : extentid_t) : UInt32 := (id &&& 0x7fffffff).toUInt32

/-- `int size = buf.size()`. -/
def int_of_size (n : Nat) : Int := Int.bmod n (2 ^ 32)

namespace ExtentServer

def new (garbage : UInt32) (env : Env) : Result ExtentServer := do
  let im ← InodeManager.new garbage env
  return { im, longest_put := 0 }

def create (es : ExtentServer) (type : UInt32) : Status × extentid_t × ExtentServer :=
  let (id, im) := es.im.alloc_inode type
  (.OK, id.toUInt64, { es with im })

/-- `c_str()` points at the buffer, a terminating zero byte and unrelated memory. -/
def put (es : ExtentServer) (id : extentid_t) (buf : List UInt8) :
    Result (Status × ExtentServer) := do
  let (heap, im) := es.im.malloc
  let cbuf := Mem.ofBytes (buf ++ [0]) heap
  let im ← im.write_file (inum_of id) cbuf (int_of_size buf.length)
  return (.OK, { im, longest_put := max es.longest_put buf.length })

def get (es : ExtentServer) (id : extentid_t) : Result (Status × List UInt8 × ExtentServer) := do
  let (out, im) ← es.im.read_file (inum_of id)
  match out with
  | none => return (.OK, [], { es with im })
  | some (cbuf, size) => return (.OK, cbuf.bytes size, { es with im })

def getattr (es : ExtentServer) (id : extentid_t) : Status × Attr :=
  (.OK, es.im.get_attr (inum_of id) Attr.zero)

def remove (es : ExtentServer) (id : extentid_t) : Result (Status × ExtentServer) := do
  let im ← es.im.remove_file (inum_of id)
  return (.OK, { es with im })

end ExtentServer

/-- The extent client calls the server in its own process and passes every
    status on. -/
structure ExtentClient where
  es : ExtentServer

namespace ExtentClient

def new (garbage : UInt32) (env : Env) : Result ExtentClient := do
  let es ← ExtentServer.new garbage env
  return { es }

def create (ec : ExtentClient) (type : UInt32) : Status × extentid_t × ExtentClient :=
  let (ret, id, es) := ec.es.create type
  (ret, id, { es })

def get (ec : ExtentClient) (eid : extentid_t) : Result (Status × List UInt8 × ExtentClient) := do
  let (ret, buf, es) ← ec.es.get eid
  return (ret, buf, { es })

def getattr (ec : ExtentClient) (eid : extentid_t) : Status × Attr := ec.es.getattr eid

def put (ec : ExtentClient) (eid : extentid_t) (buf : List UInt8) :
    Result (Status × ExtentClient) := do
  let (ret, es) ← ec.es.put eid buf
  return (ret, { es })

def remove (ec : ExtentClient) (eid : extentid_t) : Result (Status × ExtentClient) := do
  let (ret, es) ← ec.es.remove eid
  return (ret, { es })

end ExtentClient

end chfs
