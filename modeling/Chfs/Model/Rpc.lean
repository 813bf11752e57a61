import Chfs.Model.ExtentServer
import Chfs.Model.Marshall

namespace chfs

namespace rpc_const

def unmarshal_args_failure : Int32 := -2

end rpc_const

/-- The values of `extent_protocol::xxstatus`. -/
def Status.code : Status → Int32
  | OK => 0
  | RPCERR => 1
  | NOENT => 2
  | IOERR => 3
  | EXIST => 4

/-- `fn` of the handlers that `rpcs::reg` makes for a method `meth` of `sob`. `A` takes the
    arguments one after another; `a` and `r` are what the variables for them and for the
    result hold before. -/
def handler {σ α ρ : Type} (A : Wire α) (R : Wire ρ) (meth : σ → α → ρ → Result (Status × ρ × σ))
    (a : α) (r : ρ) (sob : σ) (args : Unmarshall) (ret : Marshall) : Result (Int32 × Marshall × σ) := do
  let (args, a) ← A.get args a
  if args.okdone then do
    let (b, r, sob) ← meth sob a r
    let ret ← R.put ret r
    return (b.code, ret, sob)
  else return (rpc_const.unmarshal_args_failure, ret, sob)

/-- `extent_protocol::rpc_numbers`. -/
inductive ExtentProc where
  | put | get | getattr | remove
  deriving DecidableEq, Repr

/-- What the variables of a handler hold before they are read into, or written. Strings are
    empty. -/
structure Stack where
  id : extentid_t
  a : Attr
  r : Int32

/-- A request on its way to its handler: the procedure and number in its header, what is
    left of it behind the header, and what is found in the variables of the handler and in
    the buffer for the reply. -/
structure Message where
  proc : ExtentProc
  xid : Int32
  args : Unmarshall
  sz : args._buf.length < 2 ^ 31
  stack : Stack
  heap : Mem

namespace ExtentServer

/-- The handlers that the main program of the extent server registers. The methods `put` and
    `remove` leave their result as it is. -/
def serve (stack : Stack) (es : ExtentServer) :
    ExtentProc → Unmarshall → Marshall → Result (Int32 × Marshall × ExtentServer)
  | .get => handler ull string (fun es id _ => es.get id) stack.id [] es
  | .getattr =>
    handler ull Attr.wire (fun es id _ => .ok ((es.getattr id).1, (es.getattr id).2, es)) stack.id stack.a es
  | .put =>
    handler (ull.both string) int (fun es (id, buf) r => do
      let (ret, es) ← es.put id buf
      return (ret, r, es)) (stack.id, []) stack.r es
  | .remove =>
    handler ull int (fun es id r => do
      let (ret, es) ← es.remove id
      return (ret, r, es)) stack.id stack.r es

/-- What `rpcs::dispatch` does with a request for a handler, while no other thread runs one:
    a negative number fails its assertion, and any other goes into the header of the reply. -/
def hear (es : ExtentServer) (m : Message) : Result (List UInt8 × ExtentServer) := do
  let (ret, rep, es) ← es.serve m.stack m.proc m.args (.new m.heap)
  if ret < 0 then .error .assertion_failed
  else do
    let rep ← rep.pack_reply_header { xid := m.xid, ret }
    return (rep.take_buf, es)

end ExtentServer

end chfs
