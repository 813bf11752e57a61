import Chfs.Extent.Known
import Chfs.Rpc.Containers
import Chfs.Rpc.Handler

namespace chfs

open Marshall Unmarshall InodeManager

section Replies

variable {ρ : Type} {R : Wire ρ} {encR : ρ → Option (List UInt8)} {fresh : ρ → Prop} {r : ρ} {content : List UInt8}
  {rep : Marshall} {heap : Mem}

theorem int_fills : int.Fills enc_int := by
  rw [int_eq]
  exact uint_fills.of signed

theorem Attr.fills : wire.Fills enc := by
  rw [wire_eq]
  exact (uint_fills.both (uint_fills.both (uint_fills.both (uint_fills.both uint_fills)))).of fields

/-- A short result can be marshalled, -/
theorem put_new (hR : R.Fills encR) (hr : encR r = some content) (hlength : content.length ≤ 1000) (heap : Mem) :
    ∃ rep, R.put (.new heap) r = .ok rep := by
  refine (hR _ _ _ hr (sound_new heap)).1 ?_
  rw [vector.room_new]
  omega

/-- and so can strings within a kilobyte of the limit. -/
theorem put_string_new {s : List UInt8} (hlength : s.length < 2 ^ 31 - 2 ^ 10) (heap : Mem) :
    ∃ rep, string.put (.new heap) s = .ok rep := by
  have hword := word_inside (m := .new heap) (UInt32.ofNat s.length) (show 24 + 4 ≤ 1024 by omega)
  change ∃ rep, (do
    let m ← (Marshall.new heap).word (UInt32.ofNat s.length)
    m.rawbytes (s.take (s.length % 2 ^ 32))) = .ok rep
  rw [hword, Except.ok_bind, Nat.mod_eq_of_lt (by omega), List.take_length]
  generalize hm : (Marshall.new heap).write (uint_bytes (UInt32.ofNat s.length)) = m
  have hind : m._ind = 28 := by
    rw [← hm]
    rfl
  have hcapa : m._capa = 1024 := by
    rw [← hm]
    rfl
  rw [Marshall.rawbytes, if_pos (by omega), hcapa, hind]
  split
  · exact ⟨_, rfl⟩
  · rw [realloc, if_pos (by split <;> omega)]
    exact ⟨_, rfl⟩

/-- What has been marshalled reaches the client behind the header. -/
theorem reply_sent (hR : R.Carries encR fresh) (hr : encR r = some content) (hput : R.put (.new heap) r = .ok rep)
    (xid b : Int32) :
    ∃ rep' u, rep.pack_reply_header ⟨xid, b⟩ = .ok rep' ∧
      (Unmarshall.new rep'.take_buf).unpack_reply_header = (⟨xid, b⟩, u) ∧ u.left = some content := by
  have hadds : (Marshall.new heap).Adds content rep := hR.writes _ _ _ _ hr hput
  have hcontent : rep.get_content = content := hadds.get_content (Nat.le_refl _)
  obtain ⟨rep', hpack, _, _, _, _, u, hunpack, hleft⟩ :=
    (headers_leave_content (hadds.1 (sound_new heap)) ⟨0, 0, 0, 0, 0⟩ ⟨xid, b⟩).2.1
  exact ⟨rep', u, hpack, hunpack, hcontent ▸ hleft⟩

end Replies

/-- What clients can ask for: no inode, and nothing longer than an `int` can count. -/
def ExtentOp.Remote (op : ExtentOp) : Prop := op.Short ∧ ∀ type, op ≠ .create type

variable {proc : ExtentProc} {bytes : List UInt8} {op : ExtentOp} {reply : ExtentReply} {m : Message}

theorem Carries.remote (h : Carries proc bytes op) : op.Remote := by
  cases h with
  | put hbytes =>
    obtain ⟨_, _, _, hstring, _⟩ := Codec.enc_both_eq_some.mp hbytes
    exact ⟨(enc_string_eq_some.mp hstring).1, nofun⟩
  | _ => exact ⟨trivial, nofun⟩

/-- A message that is answered asks for an operation, and the answer has its number, and the
    reply behind it. -/
inductive Explains : Message × List UInt8 → ExtentOp × ExtentReply → Prop where
  | done {m : Message} {answer bytes content : List UInt8} {op : ExtentOp} {reply : ExtentReply} {u : Unmarshall}
      (hcarries : Carries m.proc bytes op) (hleft : m.args.left = some bytes)
      (hheader : (Unmarshall.new answer).unpack_reply_header = (⟨m.xid, 0⟩, u)) (hcontent : u.left = some content)
      (hreplies : Replies reply content) : Explains (m, answer) (op, reply)

namespace ExtentServer

variable {es es' start : ExtentServer} {answer : List UInt8} {history : List (Message × List UInt8)}

/-- All requests are answered with OK. -/
theorem put_ok {id : extentid_t} {buf : List UInt8} {ret : Status} (h : es.put id buf = .ok (ret, es')) :
    ret = .OK := by
  obtain ⟨im, _, hret⟩ := Except.bind_eq_ok_iff.mp h
  cases hret
  rfl

theorem get_ok {id : extentid_t} {buf : List UInt8} {ret : Status} (h : es.get id = .ok (ret, buf, es')) :
    ret = .OK := by
  obtain ⟨⟨out, im⟩, _, hret⟩ := Except.bind_eq_ok_iff.mp h
  cases out <;> cases hret <;> rfl

theorem remove_ok {id : extentid_t} {ret : Status} (h : es.remove id = .ok (ret, es')) : ret = .OK := by
  obtain ⟨im, _, hret⟩ := Except.bind_eq_ok_iff.mp h
  cases hret
  rfl

/-- What is read back is no longer than an `int` can count. -/
theorem length_get (howned : Owned es.im) {id : extentid_t} {buf : List UInt8} {ret : Status}
    (h : es.get id = .ok (ret, buf, es')) :
    buf.length < 2 ^ 31 := by
  have hstep : es.step (.get id) = .ok (.get ret buf, es') := by
    rw [step, h]
    rfl
  have hshort : (ExtentOp.get id).Short := trivial
  cases step_done howned hshort hstep with
  | get_dead _ => decide
  | @get _ node p _ _ _ hroom _ =>
    rw [Mem.length_bytes]
    have hsize : node.size.toNat ≤ pre_block_num node * 512 := by
      rw [pre_block_num_eq]
      unfold blocks_for
      omega
    omega

/-- A message that is answered has had its operation done. -/
theorem hear_done (howned : Owned es.im) (h : es.hear m = .ok (answer, es')) :
    ∃ op reply, Explains (m, answer) (op, reply) ∧ es.step op = .ok (reply, es') := by
  obtain ⟨⟨b, rep, es₁⟩, hserve, hrest⟩ := Except.bind_eq_ok_iff.mp h
  dsimp only at hrest
  split at hrest
  · cases hrest
  next hpositive =>
  obtain ⟨rep', hpack, hlast⟩ := Except.bind_eq_ok_iff.mp hrest
  cases hlast
  obtain ⟨proc, xid, args, sz, stack, heap⟩ := m
  dsimp only at hserve hpack ⊢
  cases proc with
  | get =>
    rw [serve] at hserve
    cases handler_done ull_carries trivial sz ull_buf hserve with
    | refused => exact absurd (by decide) hpositive
    | @done id bytes status buf _ _ hbytes hleft hget hret =>
      cases get_ok hget
      have hcontent : enc_string buf = some _ := enc_string_eq_some.mpr ⟨length_get howned hget, rfl⟩
      obtain ⟨_, u, hpack', hheader, hcontent'⟩ := reply_sent string_carries hcontent hret xid 0
      cases hpack.symm.trans hpack'
      exact ⟨.get id, .get .OK buf, .done (.get hbytes) hleft hheader hcontent' (.get hcontent),
        by rw [step, hget]; rfl⟩
  | getattr =>
    rw [serve] at hserve
    cases handler_done ull_carries trivial sz ull_buf hserve with
    | refused => exact absurd (by decide) hpositive
    | @done id bytes status a _ _ hbytes hleft hgetattr hret =>
      cases hgetattr
      obtain ⟨_, u, hpack', hheader, hcontent⟩ := reply_sent Attr.carries rfl hret xid 0
      cases hpack.symm.trans hpack'
      exact ⟨.getattr id, .getattr .OK (es.getattr id).2,
        .done (.getattr hbytes) hleft hheader hcontent (.getattr rfl), rfl⟩
  | put =>
    rw [serve] at hserve
    have hargs := ull_carries.both string_carries
    have hbuf : ∀ {u a'}, (ull.both string).get args (stack.id, []) = .ok (u, a') → u._buf = args._buf := by
      intro u a' hget
      obtain ⟨⟨u₁, id⟩, hid, hget⟩ := Except.bind_eq_ok_iff.mp hget
      obtain ⟨⟨u₂, buf⟩, hstring, hlast⟩ := Except.bind_eq_ok_iff.mp hget
      cases hlast
      exact (string_buf hstring).trans (ull_buf hid)
    cases handler_done hargs ⟨trivial, trivial⟩ sz hbuf hserve with
    | refused => exact absurd (by decide) hpositive
    | @done args' bytes status r _ _ hbytes hleft hmeth hret =>
      obtain ⟨id, buf⟩ := args'
      obtain ⟨⟨ret, es₂⟩, hput, hlast⟩ := Except.bind_eq_ok_iff.mp hmeth
      cases hlast
      cases put_ok hput
      obtain ⟨_, u, hpack', hheader, hcontent⟩ := reply_sent int_carries rfl hret xid 0
      cases hpack.symm.trans hpack'
      exact ⟨.put id buf, .put .OK, .done (.put hbytes) hleft hheader hcontent (.put rfl), by rw [step, hput]; rfl⟩
  | remove =>
    rw [serve] at hserve
    cases handler_done ull_carries trivial sz ull_buf hserve with
    | refused => exact absurd (by decide) hpositive
    | @done id bytes status r _ _ hbytes hleft hmeth hret =>
      obtain ⟨⟨ret, es₂⟩, hremove, hlast⟩ := Except.bind_eq_ok_iff.mp hmeth
      cases hlast
      cases remove_ok hremove
      obtain ⟨_, u, hpack', hheader, hcontent⟩ := reply_sent int_carries rfl hret xid 0
      cases hpack.symm.trans hpack'
      exact ⟨.remove id, .remove .OK, .done (.remove hbytes) hleft hheader hcontent (.remove rfl),
        by rw [step, hremove]; rfl⟩

/-- A reply can be marshalled, unless it is too long a string. -/
def Marshallable (reply : ExtentReply) : Prop := ∀ ret buf, reply = .get ret buf → buf.length < 2 ^ 31 - 2 ^ 10

theorem hear_of_serve {rep rep' : Marshall}
    (hserve : es.serve m.stack m.proc m.args (.new m.heap) = .ok (Status.OK.code, rep, es'))
    (hpack : rep.pack_reply_header ⟨m.xid, 0⟩ = .ok rep') : es.hear m = .ok (rep'.take_buf, es') := by
  rw [hear, hserve, Except.ok_bind]
  change (do let rep ← rep.pack_reply_header ⟨m.xid, 0⟩; return (rep.take_buf, es')) = _
  rw [hpack]
  rfl

section Serve

variable {id : extentid_t} {buf : List UInt8} {stack : Stack} {args : Unmarshall} {ret rep : Marshall}

theorem serve_get (hbytes : enc_ull id = some bytes) (hleft : args.left = some bytes)
    (hget : es.get id = .ok (.OK, buf, es'))
    (hput : string.put ret buf = .ok rep) : es.serve stack .get args ret = .ok (Status.OK.code, rep, es') := by
  rw [serve]
  exact handler_returns ull_carries trivial hbytes hleft hget hput

theorem serve_getattr (hbytes : enc_ull id = some bytes) (hleft : args.left = some bytes)
    (hput : Attr.wire.put ret (es.getattr id).2 = .ok rep) :
    es.serve stack .getattr args ret = .ok (Status.OK.code, rep, es) := by
  rw [serve]
  exact handler_returns ull_carries trivial hbytes hleft rfl hput

theorem serve_put (hbytes : Codec.enc_both enc_ull enc_string (id, buf) = some bytes) (hleft : args.left = some bytes)
    (hrun : es.put id buf = .ok (.OK, es')) (hput : int.put ret stack.r = .ok rep) :
    es.serve stack .put args ret = .ok (Status.OK.code, rep, es') := by
  rw [serve]
  refine handler_returns (ull_carries.both string_carries) ⟨trivial, trivial⟩ hbytes hleft ?_ hput
  dsimp only
  rw [hrun]
  rfl

theorem serve_remove (hbytes : enc_ull id = some bytes) (hleft : args.left = some bytes)
    (hrun : es.remove id = .ok (.OK, es'))
    (hput : int.put ret stack.r = .ok rep) : es.serve stack .remove args ret = .ok (Status.OK.code, rep, es') := by
  rw [serve]
  refine handler_returns ull_carries trivial hbytes hleft ?_ hput
  dsimp only
  rw [hrun]
  rfl

end Serve

/-- A message that asks for an operation is answered, if the operation returns. -/
theorem hear_returns (hcarries : Carries m.proc bytes op) (hleft : m.args.left = some bytes)
    (hstep : es.step op = .ok (reply, es')) (hreply : Marshallable reply) :
    ∃ answer, es.hear m = .ok (answer, es') := by
  generalize hproc : m.proc = proc at hcarries
  cases hcarries with
  | @get id _ hbytes =>
    obtain ⟨⟨ret, buf, es₁⟩, hget, hlast⟩ := Except.bind_eq_ok_iff.mp hstep
    cases hlast
    cases get_ok hget
    have hlength := hreply _ buf rfl
    have hcontent : enc_string buf = some _ := enc_string_eq_some.mpr ⟨by omega, rfl⟩
    obtain ⟨rep, hput⟩ := put_string_new hlength m.heap
    obtain ⟨rep', u, hpack, _⟩ := reply_sent string_carries hcontent hput m.xid 0
    exact ⟨_, hear_of_serve (hproc ▸ serve_get hbytes hleft hget hput) hpack⟩
  | @getattr id _ hbytes =>
    cases hstep
    have hcontent : Attr.enc (es.getattr id).2 = some _ := rfl
    obtain ⟨rep, hput⟩ := put_new Attr.fills hcontent (by simp [uint_bytes]) m.heap
    obtain ⟨rep', u, hpack, _⟩ := reply_sent Attr.carries hcontent hput m.xid 0
    exact ⟨_, hear_of_serve (hproc ▸ serve_getattr hbytes hleft hput) hpack⟩
  | @put id buf _ hbytes =>
    obtain ⟨⟨ret, es₁⟩, hrun, hlast⟩ := Except.bind_eq_ok_iff.mp hstep
    cases hlast
    cases put_ok hrun
    have hcontent : enc_int m.stack.r = some _ := rfl
    obtain ⟨rep, hput⟩ := put_new int_fills hcontent (by simp [uint_bytes]) m.heap
    obtain ⟨rep', u, hpack, _⟩ := reply_sent int_carries hcontent hput m.xid 0
    exact ⟨_, hear_of_serve (hproc ▸ serve_put hbytes hleft hrun hput) hpack⟩
  | @remove id _ hbytes =>
    obtain ⟨⟨ret, es₁⟩, hrun, hlast⟩ := Except.bind_eq_ok_iff.mp hstep
    cases hlast
    cases remove_ok hrun
    have hcontent : enc_int m.stack.r = some _ := rfl
    obtain ⟨rep, hput⟩ := put_new int_fills hcontent (by simp [uint_bytes]) m.heap
    obtain ⟨rep', u, hpack, _⟩ := reply_sent int_carries hcontent hput m.xid 0
    exact ⟨_, hear_of_serve (hproc ▸ serve_remove hbytes hleft hrun hput) hpack⟩

/-- Only `create` brings an inode to life. -/
theorem StepDone.still_dead {inum : UInt32} (h : StepDone es op reply es') (hop : ∀ type, op ≠ .create type)
    (hdead : es.im.get_inode inum = none) : es'.im.get_inode inum = none := by
  cases h with
  | created _ => exact absurd rfl (hop _)
  | not_created _ => exact hdead
  | put_dead _ => exact hdead
  | @put id _ node _ _ _ hlive _ _ hdone =>
    have hne : inum ≠ inum_of id := by
      rintro rfl
      rw [hdead] at hlive
      cases hlive
    rw [hdone.others inum hne, hdead]
  | get_dead _ => exact hdead
  | get _ _ _ hunchanged => exact hunchanged.dead.mpr hdead
  | getattr => exact hdead
  | remove_dead _ => exact hdead
  | remove _ _ _ hdone =>
    rw [hdone.inodes]
    split
    · rfl
    · exact hdead

theorem remote_owned {ops : List (ExtentOp × ExtentReply)} (hstart : Owned start.im)
    (hrun : Trace step (fun _ op => op.Remote) start ops es) : Owned es.im :=
  ShortRun.owned hstart (hrun.weaken fun _ _ hop => hop.1)

theorem remote_dead {ops : List (ExtentOp × ExtentReply)} {inum : UInt32} (hstart : Owned start.im)
    (hdead : start.im.get_inode inum = none) (hrun : Trace step (fun _ op => op.Remote) start ops es) :
    es.im.get_inode inum = none := by
  have hboth := hrun.invariant (P := fun es => Owned es.im ∧ es.im.get_inode inum = none) ⟨hstart, hdead⟩ ?_
  · exact hboth.2
  · rintro es op reply es' ⟨howned, hdead⟩ hop hstep
    have hdone := step_done howned hop.1 hstep
    exact ⟨hdone.owned howned hop.1, hdone.still_dead hop.2 hdead⟩

/-- A run of answered messages is a run of the operations they ask for. -/
theorem run_explained (hstart : Owned start.im) (hrun : Trace hear (fun _ _ => True) start history es) :
    ∃ ops, List.Forall₂ Explains history ops ∧ Trace step (fun _ op => op.Remote) start ops es := by
  induction hrun with
  | nil => exact ⟨[], .nil, .nil⟩
  | cons _ _ hstep ih =>
    obtain ⟨ops, hexplains, hops⟩ := ih
    obtain ⟨op, reply, hlast, hdone⟩ := hear_done (remote_owned hstart hops) hstep
    have hremote : op.Remote := by
      cases hlast with
      | done hcarries _ _ _ _ => exact hcarries.remote
    exact ⟨(op, reply) :: ops, .cons hlast hexplains, .cons hops hremote hdone⟩

/-- Whatever messages reach the handlers of the extent server that runs on its own, one
    after another: it answers those whose bytes ask for an operation, with the number of the
    request and the reply of the operation, which is done once and in turn; any other
    message ends the server. Since nothing asks for `create`, it only ever has the root:
    other ids are empty. -/
theorem messages_are_operations {garbage : UInt32} {env : Env} (hnew : ExtentServer.new garbage env = .ok start)
    (hrun : Trace hear (fun _ _ => True) start history es) :
    (∃ ops, List.Forall₂ Explains history ops ∧ Trace step (fun _ op => op.Remote) start ops es) ∧ Owned es.im ∧
    (∀ id, inum_of id ≠ 1 → es.get id = .ok (.OK, [], es) ∧ es.getattr id = (.OK, Attr.zero)) ∧
    (∀ m op bytes reply es', Carries m.proc bytes op → m.args.left = some bytes → es.step op = .ok (reply, es') →
      Marshallable reply → ∃ answer, es.hear m = .ok (answer, es')) ∧
    ∀ m, (∀ op bytes, Carries m.proc bytes op → m.args.left ≠ some bytes) → ∃ fault, es.hear m = .error fault := by
  have hfresh := (fresh_new hnew).1
  obtain ⟨ops, hexplains, hops⟩ := run_explained hfresh.owned hrun
  have howned := remote_owned hfresh.owned hops
  refine ⟨⟨ops, hexplains, hops⟩, howned, ?_, ?_, ?_⟩
  · intro id hid
    have hdead := remote_dead hfresh.owned (hfresh.others _ hid) hops
    refine ⟨get_dead hdead, ?_⟩
    rw [getattr_eq, hdead]
  · intro m op bytes reply es' hcarries hleft hstep hreply
    exact hear_returns hcarries hleft hstep hreply
  · intro m hnot
    cases hhear : es.hear m with
    | error fault => exact ⟨fault, rfl⟩
    | ok heard =>
      obtain ⟨answer, es'⟩ := heard
      obtain ⟨op, reply, hlast, _⟩ := hear_done howned hhear
      cases hlast with
      | done hcarries hleft _ _ _ => exact absurd hleft (hnot _ _ hcarries)

/-- A request to put two bytes into the root, behind its header, -/
def put_message : Message where
  proc := .put
  xid := 7
  args :=
    { _buf := [0, 0, 0, 38, 0, 0, 0, 7, 0, 0, 96, 1, 0, 0, 0, 0, 0, 0, 0, 0, 0, 0, 0, 0,
        0, 0, 0, 0, 0, 0, 0, 1, 0, 0, 0, 2, 104, 105], _ind := 24, _ok := true }
  sz := by decide
  stack := { id := 0, a := Attr.zero, r := 0 }
  heap := Mem.zero

/-- and one to get them. -/
def get_message : Message where
  proc := .get
  xid := 8
  args :=
    { _buf := [0, 0, 0, 32, 0, 0, 0, 8, 0, 0, 96, 2, 0, 0, 0, 0, 0, 0, 0, 0, 0, 0, 0, 0,
        0, 0, 0, 0, 0, 0, 0, 1], _ind := 24, _ok := true }
  sz := by decide
  stack := { id := 0, a := Attr.zero, r := 0 }
  heap := Mem.zero

theorem messages_are_operations_put : ∃ start es es' answer answer', ExtentServer.new 0 still = .ok start ∧
    start.hear put_message = .ok (answer, es) ∧ es.hear get_message = .ok (answer', es') ∧
    (∃ ops, List.Forall₂ Explains [(get_message, answer'), (put_message, answer)] ops ∧
      Trace step (fun _ op => op.Remote) start ops es') ∧ Owned es'.im := by
  obtain ⟨start, hnew⟩ := new_zero still
  have hfresh := (fresh_new hnew).1
  obtain ⟨es, hrun, hdone⟩ := put_spec (representsOn_univ.mpr (Represents.fresh hfresh)) (Set.mem_univ (inum_of 1))
    (show [104, 105].length < 2 ^ 31 by decide)
  have hput : start.step (.put 1 [104, 105]) = .ok (.put .OK, es) := by
    rw [step, hrun]
    rfl
  have hasks : Carries put_message.proc [0, 0, 0, 0, 0, 0, 0, 1, 0, 0, 0, 2, 104, 105] (.put 1 [104, 105]) := .put rfl
  have hmarshallable : Marshallable (.put .OK) := by
    rintro _ _ ⟨⟩
  obtain ⟨answer, hhear⟩ := (messages_are_operations hnew .nil).2.2.2.1 put_message _ _ _ _ hasks
    (left_eq_some.mpr ⟨rfl, by decide, by decide, rfl⟩) hput hmarshallable
  have hhistory : Trace hear (fun _ _ => True) start [(put_message, answer)] es := .cons .nil trivial hhear
  obtain ⟨hfail, _⟩ := put_with_room hfresh.owned (by decide) (by rw [hfresh.free_count]; omega) hput
  have hstored := hdone.stored .T_DIR [] rfl hfail (by decide)
  obtain ⟨es', hget, _⟩ := get_spec hstored (Set.mem_univ (inum_of 1))
  rw [Files.content, Function.update_self] at hget
  have hget : es.step (.get 1) = .ok (.get .OK [104, 105], es') := by
    rw [step, hget]
    rfl
  have hasks : Carries get_message.proc [0, 0, 0, 0, 0, 0, 0, 1] (.get 1) := .get rfl
  have hmarshallable : Marshallable (.get .OK [104, 105]) := by
    rintro _ _ ⟨⟩
    decide
  obtain ⟨answer', hhear'⟩ := (messages_are_operations hnew hhistory).2.2.2.1 get_message _ _ _ _ hasks
    (left_eq_some.mpr ⟨rfl, by decide, by decide, rfl⟩) hget hmarshallable
  obtain ⟨hops, howned, _⟩ := messages_are_operations hnew (.cons hhistory trivial hhear')
  exact ⟨start, es, es', answer, answer', hnew, hhear, hhear', hops, howned⟩

end ExtentServer

end chfs
