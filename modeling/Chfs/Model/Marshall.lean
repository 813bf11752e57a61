import Chfs.Lib.Codec
import Chfs.Lib.Memory
import Chfs.Model.Disk
import Chfs.Model.ExtentProtocol

namespace chfs

structure ReqHeader where
  xid : Int32
  proc : Int32
  clt_nonce : UInt32
  srv_nonce : UInt32
  xid_rep : Int32
  deriving DecidableEq, Repr

structure ReplyHeader where
  xid : Int32
  ret : Int32
  deriving DecidableEq, Repr

/-- `sizeof(rpc_sz_t)`: the size of the whole comes first, and is left to the channel. -/
def RPC_SZ : Nat := 4

/-- Room for the longer of the headers, without checksums. -/
def RPC_HEADER_SZ : Nat := max 20 8 + RPC_SZ

def DEFAULT_RPC_SZ : Nat := 1024

/-- A `marshall`. An `int` that would leave its range is a fault. -/
structure Marshall where
  _buf : Mem
  _capa : Nat
  _ind : Nat

/-- An `unmarshall`, with a buffer of `_sz` bytes. -/
structure Unmarshall where
  _buf : List UInt8
  _ind : Nat
  _ok : Bool

/-- How a type is marshalled: `put` is `<<` and `get` is `>>`. -/
abbrev Wire (α : Type) := Codec Marshall Unmarshall Fault α

namespace Marshall

def new (heap : Mem) : Marshall := { _buf := heap, _capa := DEFAULT_RPC_SZ, _ind := RPC_HEADER_SZ }

/-- What `_buf` and `_ind` are after some bytes have been copied to the head position. -/
def write (m : Marshall) (p : List UInt8) : Marshall :=
  { m with _buf := m._buf.memcpy m._ind (Mem.ofBytes p Mem.zero) p.length, _ind := m._ind + p.length }

/-- A new `_capa`. One that has become negative is a size that `realloc` has no memory for,
    and the assertion behind it fails. -/
def realloc (m : Marshall) (capa : Nat) : Result Marshall :=
  if capa < 2 ^ 31 then .ok { m with _capa := capa } else .error .assertion_failed

/-! The operations that `librpc.a` holds. -/

def rawbyte (m : Marshall) (x : UInt8) : Result Marshall := do
  let m ← (if m._ind < m._capa then .ok m else m.realloc (2 * m._capa))
  return m.write [x]

def rawbytes (m : Marshall) (p : List UInt8) : Result Marshall :=
  if m._ind + p.length < 2 ^ 31 then do
    let m ← (if m._ind + p.length ≤ m._capa then .ok m
      else m.realloc (if p.length < m._capa then 2 * m._capa else m._capa + p.length))
    return m.write p
  else .error .int_overflow

/-- The bytes of a word, as `<<` and `pack` write them. -/
def word (m : Marshall) (v : UInt32) : Result Marshall := do
  let m ← m.rawbyte (v >>> 24).toUInt8
  let m ← m.rawbyte (v >>> 16).toUInt8
  let m ← m.rawbyte (v >>> 8).toUInt8
  m.rawbyte v.toUInt8

def pack (m : Marshall) (i : Int32) : Result Marshall := m.word i.toUInt32

/-! The operations that the class holds. -/

def get_content (m : Marshall) : List UInt8 := (m._buf.shift RPC_HEADER_SZ).bytes (m._ind - RPC_HEADER_SZ)

def pack_req_header (m : Marshall) (h : ReqHeader) : Result Marshall := do
  let saved_sz := m._ind
  let m := { m with _ind := RPC_SZ }
  let m ← m.pack h.xid
  let m ← m.pack h.proc
  let m ← m.pack h.clt_nonce.toInt32
  let m ← m.pack h.srv_nonce.toInt32
  let m ← m.pack h.xid_rep
  return { m with _ind := saved_sz }

def pack_reply_header (m : Marshall) (h : ReplyHeader) : Result Marshall := do
  let saved_sz := m._ind
  let m := { m with _ind := RPC_SZ }
  let m ← m.pack h.xid
  let m ← m.pack h.ret
  return { m with _ind := saved_sz }

/-- The bytes of the buffer that are in use. -/
def take_buf (m : Marshall) : List UInt8 := m._buf.bytes m._ind

end Marshall

namespace Unmarshall

def new (b : List UInt8) : Unmarshall := { _buf := b, _ind := 0, _ok := true }

/-! The operations that `librpc.a` holds. -/

def okdone (u : Unmarshall) : Bool := u._ok && u._ind == u._buf.length

def rawbyte (u : Unmarshall) : UInt8 × Unmarshall :=
  if h : u._ind < u._buf.length then (u._buf[u._ind], { u with _ind := u._ind + 1 })
  else (0, { u with _ok := false })

/-- The end of the bytes is compared modulo 2^32. -/
def rawbytes (u : Unmarshall) (ss : List UInt8) (n : UInt32) : Result (Unmarshall × List UInt8) :=
  if u._buf.length < (u._ind + n.toNat) % 2 ^ 32 then .ok ({ u with _ok := false }, ss)
  else if u._ind + n.toNat ≤ u._buf.length then
    .ok ({ u with _ind := u._ind + n.toNat }, (u._buf.drop u._ind).take n.toNat)
  else .error .out_of_bounds

/-- The bytes of a word, as `>>` and `unpack` read them. -/
def word (u : Unmarshall) : UInt32 × Unmarshall :=
  let (b₃, u) := u.rawbyte
  let (b₂, u) := u.rawbyte
  let (b₁, u) := u.rawbyte
  let (b₀, u) := u.rawbyte
  (b₃.toUInt32 <<< 24 ||| b₂.toUInt32 <<< 16 ||| b₁.toUInt32 <<< 8 ||| b₀.toUInt32, u)

def unpack (u : Unmarshall) : Int32 × Unmarshall :=
  let (v, u) := u.word
  (v.toInt32, u)

/-! The operations that the class holds. -/

/-- The room for a header is left as `realloc` brings it. -/
def take_content (heap : Mem) (s : List UInt8) : Result Unmarshall :=
  if s.length + RPC_HEADER_SZ < 2 ^ 31 then
    .ok { _buf := heap.bytes RPC_HEADER_SZ ++ s, _ind := RPC_HEADER_SZ, _ok := true }
  else .error .int_overflow

def unpack_req_header (u : Unmarshall) : ReqHeader × Unmarshall :=
  let u := { u with _ind := RPC_SZ }
  let (xid, u) := u.unpack
  let (proc, u) := u.unpack
  let (clt_nonce, u) := u.unpack
  let (srv_nonce, u) := u.unpack
  let (xid_rep, u) := u.unpack
  ({ xid, proc, clt_nonce := clt_nonce.toUInt32, srv_nonce := srv_nonce.toUInt32, xid_rep },
    { u with _ind := RPC_HEADER_SZ })

def unpack_reply_header (u : Unmarshall) : ReplyHeader × Unmarshall :=
  let u := { u with _ind := RPC_SZ }
  let (xid, u) := u.unpack
  let (ret, u) := u.unpack
  ({ xid, ret }, { u with _ind := RPC_HEADER_SZ })

end Unmarshall

/-! The operators for the basic types, which `librpc.a` holds. -/

def uint : Wire UInt32 where
  put m v := m.word v
  get u _ := let (v, u) := u.word; .ok (u, v)

def int : Wire Int32 where
  put m v := m.word v.toUInt32
  get u _ := let (v, u) := u.word; .ok (u, v.toInt32)

def ull : Wire UInt64 where
  put m v := do
    let m ← m.word (v >>> 32).toUInt32
    m.word v.toUInt32
  get u _ :=
    let (high, u) := u.word
    let (low, u) := u.word
    .ok (u, high.toUInt64 <<< 32 ||| low.toUInt64)

/-- The size of a string is cut off to 32 bits. -/
def string : Wire (List UInt8) where
  put m s := do
    let m ← m.word (UInt32.ofNat s.length)
    m.rawbytes (s.take (s.length % 2 ^ 32))
  get u s :=
    let (n, u) := u.word
    if u._ok then u.rawbytes s n else .ok (u, s)

/-! The operators of the templates, for a type with operators `C`. `n` and `z` are what the
    variables of that name hold before they are read. -/

namespace vector

variable {α : Type} (C : Wire α)

/-- The loop over the elements. Its counter has 32 bits. -/
def put_loop (v : List α) : (fuel : Nat) → (i : UInt32) → Marshall → Result Marshall
  | 0, _, _ => .error .endless
  | fuel + 1, i, m =>
    if h : i.toNat < v.length then do
      let m ← C.put m v[i.toNat]
      put_loop v fuel (i + 1) m
    else .ok m

def put (m : Marshall) (v : List α) : Result Marshall := do
  let m ← uint.put m (UInt32.ofNat v.length)
  put_loop C v (v.length + 1) 0 m

def get (n : UInt32) (z : Nat → α) (u : Unmarshall) (v : List α) : Result (Unmarshall × List α) := do
  let (u, n) ← uint.get u n
  C.gets z (fun v z => v ++ [z]) n.toNat 0 u v

def wire (n : UInt32) (z : Nat → α) : Wire (List α) := { put := put C, get := get C n z }

end vector

namespace map

variable {α β : Type} [LinearOrder α] (A : Wire α) (B : Wire β)

/-- `d[a] = b`, for a map as the list of its pairs by ascending keys. -/
def assign (d : List (α × β)) (a : α) (b : β) : List (α × β) :=
  match d with
  | [] => [(a, b)]
  | (key, value) :: rest =>
    if a < key then (a, b) :: (key, value) :: rest
    else if a = key then (key, b) :: rest
    else (key, value) :: assign rest a b

def put (m : Marshall) (d : List (α × β)) : Result Marshall := do
  let m ← uint.put m (UInt32.ofNat d.length)
  (A.both B).puts m d

def get (n : UInt32) (ab : Nat → α × β) (u : Unmarshall) (_d : List (α × β)) : Result (Unmarshall × List (α × β)) := do
  let (u, n) ← uint.get u n
  (A.both B).gets ab (fun d ab => assign d ab.1 ab.2) n.toNat 0 u []

def wire (n : UInt32) (ab : Nat → α × β) : Wire (List (α × β)) := { put := put A B, get := get A B n ab }

end map

namespace Attr

/-- The operators of `extent_protocol::attr`. -/
def wire : Wire Attr where
  put m a := do
    let m ← uint.put m a.type
    let m ← uint.put m a.atime
    let m ← uint.put m a.mtime
    let m ← uint.put m a.ctime
    uint.put m a.size
  get u a := do
    let (u, type) ← uint.get u a.type
    let (u, atime) ← uint.get u a.atime
    let (u, mtime) ← uint.get u a.mtime
    let (u, ctime) ← uint.get u a.ctime
    let (u, size) ← uint.get u a.size
    return (u, { type, atime, mtime, ctime, size })

end Attr

end chfs
