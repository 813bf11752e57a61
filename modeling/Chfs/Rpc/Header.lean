import Chfs.Rpc.Operators

namespace chfs

variable {m : Marshall}

namespace Marshall

/-- A number goes where there is room for it without a new buffer. -/
theorem word_inside (v : UInt32) (h : m._ind + 4 ≤ m._capa) : m.word v = .ok (m.write (uint_bytes v)) := by
  have hbyte : ∀ (m : Marshall) (x : UInt8), m._ind < m._capa → m.rawbyte x = .ok (m.write [x]) := by
    intro m x hlt
    rw [rawbyte, if_pos hlt]
    rfl
  rw [word, hbyte _ _ (by omega), Except.ok_bind, hbyte _ _ (by simp; omega), Except.ok_bind,
    hbyte _ _ (by simp; omega), Except.ok_bind, hbyte _ _ (by simp; omega), write_append, write_append, write_append]
  rfl

/-- The numbers of a header, one after another. -/
def packs (m : Marshall) (numbers : List Int32) : Result Marshall :=
  numbers.foldlM pack m

theorem packs_inside (numbers : List Int32) :
    ∀ m : Marshall, m._ind + 4 * numbers.length ≤ m._capa →
      packs m numbers = .ok (m.write (numbers.flatMap fun i => uint_bytes i.toUInt32)) := by
  induction numbers with
  | nil =>
    intro m _
    exact congrArg Except.ok (write_nil m).symm
  | cons i numbers ih =>
    intro m hroom
    rw [List.length_cons] at hroom
    have hrest := ih (m.write (uint_bytes i.toUInt32)) (by change m._ind + 4 + 4 * numbers.length ≤ m._capa; omega)
    rw [packs, List.foldlM_cons, pack, word_inside _ (by omega), Except.ok_bind]
    rw [packs] at hrest
    rw [hrest, write_append, List.flatMap_cons]

theorem length_numbers (numbers : List Int32) :
    (numbers.flatMap fun i => uint_bytes i.toUInt32).length = 4 * numbers.length := by
  induction numbers with
  | nil => rfl
  | cons i numbers ih =>
    rw [List.flatMap_cons, List.length_append, ih, List.length_cons]
    change 4 + _ = _
    omega

theorem pack_req_header_eq (m : Marshall) (h : ReqHeader) : m.pack_req_header h = (do
    let m' ← packs { m with _ind := RPC_SZ } [h.xid, h.proc, h.clt_nonce.toInt32, h.srv_nonce.toInt32, h.xid_rep]
    return { m' with _ind := m._ind }) := by
  simp [pack_req_header, packs]

theorem pack_reply_header_eq (m : Marshall) (h : ReplyHeader) : m.pack_reply_header h = (do
    let m' ← packs { m with _ind := RPC_SZ } [h.xid, h.ret]
    return { m' with _ind := m._ind }) := by
  simp [pack_reply_header, packs]

/-- A header that is packed into the room left for it. -/
theorem packed (hm : m.Sound) (numbers : List Int32) (hroom : RPC_SZ + 4 * numbers.length ≤ RPC_HEADER_SZ) :
    ∃ m₁ m', packs { m with _ind := RPC_SZ } numbers = .ok m₁ ∧ m' = { m₁ with _ind := m._ind } ∧ m'.Sound ∧
      m'.get_content = m.get_content ∧ m'._buf.bytes RPC_SZ = m._buf.bytes RPC_SZ ∧
      ∃ room, m'.take_buf =
          m._buf.bytes RPC_SZ ++ ((numbers.flatMap fun i => uint_bytes i.toUInt32) ++ (room ++ m.get_content)) ∧
        room.length = RPC_HEADER_SZ - (RPC_SZ + 4 * numbers.length) := by
  obtain ⟨hheader, hinside, hfirst, hint⟩ := hm
  have hlength := length_numbers numbers
  refine ⟨_, _, packs_inside numbers { m with _ind := RPC_SZ } (by dsimp only; omega), rfl,
    ⟨hheader, hinside, hfirst, hint⟩, ?_⟩
  have htake := take_buf_write { m with _ind := RPC_SZ } (numbers.flatMap fun i => uint_bytes i.toUInt32)
  have hbehind := @write_behind { m with _ind := RPC_SZ } (numbers.flatMap fun i => uint_bytes i.toUInt32)
  dsimp only at hbehind
  rw [hlength] at hbehind
  generalize hwrite : ({ m with _ind := RPC_SZ } : Marshall).write
    (numbers.flatMap fun i => uint_bytes i.toUInt32) = m₁ at htake hbehind ⊢
  have hind : m₁._ind = RPC_SZ + 4 * numbers.length := by
    rw [← hwrite, write_ind, hlength]
  have hcontent : (m₁._buf.shift RPC_HEADER_SZ).bytes (m._ind - RPC_HEADER_SZ) = m.get_content := by
    refine List.map_congr_left ?_
    intro p _
    exact hbehind (by omega)
  rw [take_buf, hind] at htake
  obtain ⟨n, hn⟩ := Nat.exists_eq_add_of_le hroom
  have hall : m₁._buf.bytes RPC_HEADER_SZ =
      m._buf.bytes RPC_SZ ++ ((numbers.flatMap fun i => uint_bytes i.toUInt32) ++
        (m₁._buf.shift (RPC_SZ + 4 * numbers.length)).bytes n) := by
    rw [hn, Mem.bytes_add, ← List.append_assoc]
    exact congrArg (· ++ _) htake
  refine ⟨hcontent, ?_, (m₁._buf.shift (RPC_SZ + 4 * numbers.length)).bytes n, ?_, ?_⟩
  · have hfour := congrArg (List.take RPC_SZ) htake
    rw [Mem.bytes_add, List.take_left' (Mem.length_bytes _ _)] at hfour
    exact hfour.trans (List.take_left' (Mem.length_bytes _ _))
  · have htotal := take_buf_eq (m := { m₁ with _ind := m._ind }) hheader
    rw [htotal, get_content]
    dsimp only
    rw [hcontent, hall]
    simp only [List.append_assoc]
  · rw [Mem.length_bytes, hn, Nat.add_sub_cancel_left]

end Marshall

namespace Unmarshall

variable {buf first rest : List UInt8} {n : Nat}

theorem left_at (hbuf : buf = first ++ rest) (hn : first.length = n) (hint : buf.length < 2 ^ 31) :
    ({ _buf := buf, _ind := n, _ok := true } : Unmarshall).left = some rest := by
  refine left_eq_some.mpr ⟨rfl, ?_, hint, ?_⟩
  · rw [hbuf, List.length_append]
    dsimp only
    omega
  · rw [hbuf]
    exact List.drop_left' hn

theorem word_buf (u : Unmarshall) : u.word.2._buf = u._buf := by
  have hbyte : ∀ u : Unmarshall, u.rawbyte.2._buf = u._buf := by
    intro u
    unfold rawbyte
    split <;> rfl
  exact ((hbyte _).trans (hbyte _)).trans ((hbyte _).trans (hbyte _))

/-- Unpacking takes the number that is there. -/
theorem unpack_left {u : Unmarshall} {i : Int32} (h : u.left = some (uint_bytes i.toUInt32 ++ rest)) :
    ∃ u', u.unpack = (i, u') ∧ u'.left = some rest ∧ u'._buf = u._buf := by
  obtain ⟨u', hget, hleft⟩ := uint_carries.reads i.toUInt32 _ u 0 rest rfl trivial h
  have hword := uint_get.mp hget
  refine ⟨u', ?_, hleft, ?_⟩
  · rw [unpack, hword]
    rfl
  · have hbuf := word_buf u
    rwa [hword] at hbuf

end Unmarshall

open Marshall Unmarshall

/-- A string that is taken as the content is what is left to read. -/
theorem left_take_content (heap : Mem) {s : List UInt8} (hs : s.length + RPC_HEADER_SZ < 2 ^ 31) :
    ∃ u, take_content heap s = .ok u ∧ u.left = some s := by
  refine ⟨_, if_pos hs, left_at rfl (Mem.length_bytes heap RPC_HEADER_SZ) ?_⟩
  rw [List.length_append, Mem.length_bytes]
  omega

/-- Once the header has been taken off a message, its content is left. -/
theorem left_content {u : Unmarshall} {rest : List UInt8} (hm : m.Sound) (hbuf : u._buf = m.take_buf)
    (hleft : u.left = some rest) : ({ u with _ind := RPC_HEADER_SZ } : Unmarshall).left = some m.get_content := by
  have hlength : u._buf.length = m._ind := hbuf ▸ Mem.length_bytes _ _
  have hheader := hm.header
  have hinside := hm.inside
  have hint := hm.int
  refine left_eq_some.mpr ⟨(left_eq_some.mp hleft).1, ?_, ?_, ?_⟩
  · change RPC_HEADER_SZ ≤ u._buf.length
    omega
  · change u._buf.length < _
    omega
  · change u._buf.drop RPC_HEADER_SZ = _
    rw [hbuf, take_buf_eq hheader]
    exact List.drop_left' (Mem.length_bytes _ _)

/-- A header goes into the room left for it: the size of the message and the content stay as
    they are, and so do the first bytes, which the channel fills in. Whoever takes the message
    apart gets the header and has the content left, as does whoever takes the content alone. -/
theorem headers_leave_content (hm : m.Sound) (req : ReqHeader) (reply : ReplyHeader) :
    (∃ m', m.pack_req_header req = .ok m' ∧ m'.Sound ∧ m'._ind = m._ind ∧ m'.get_content = m.get_content ∧
      m'._buf.bytes RPC_SZ = m._buf.bytes RPC_SZ ∧
      ∃ u, (Unmarshall.new m'.take_buf).unpack_req_header = (req, u) ∧ u.left = some m.get_content) ∧
    (∃ m', m.pack_reply_header reply = .ok m' ∧ m'.Sound ∧ m'._ind = m._ind ∧ m'.get_content = m.get_content ∧
      m'._buf.bytes RPC_SZ = m._buf.bytes RPC_SZ ∧
      ∃ u, (Unmarshall.new m'.take_buf).unpack_reply_header = (reply, u) ∧ u.left = some m.get_content) ∧
    ∀ heap, ∃ u, take_content heap m.get_content = .ok u ∧ u.left = some m.get_content := by
  have hsz : (m._buf.bytes RPC_SZ).length = RPC_SZ := Mem.length_bytes _ _
  have hint : ∀ {m' : Marshall}, m'.Sound → m'.take_buf.length < 2 ^ 31 := by
    intro m' hm'
    have hinside := hm'.inside
    have hint := hm'.int
    rw [take_buf, Mem.length_bytes]
    omega
  refine ⟨?_, ?_, ?_⟩
  · obtain ⟨m₁, m', hpacks, hm', hsound, hcontent, hfirst, room, hbuf, _⟩ := packed hm
      [req.xid, req.proc, req.clt_nonce.toInt32, req.srv_nonce.toInt32, req.xid_rep] (Nat.le_refl _)
    simp only [List.flatMap_cons, List.flatMap_nil, List.append_nil, List.append_assoc] at hbuf
    obtain ⟨u₁, h₁, hleft₁, hsame₁⟩ := unpack_left (left_at hbuf hsz (hint hsound))
    obtain ⟨u₂, h₂, hleft₂, hsame₂⟩ := unpack_left hleft₁
    obtain ⟨u₃, h₃, hleft₃, hsame₃⟩ := unpack_left hleft₂
    obtain ⟨u₄, h₄, hleft₄, hsame₄⟩ := unpack_left hleft₃
    obtain ⟨u₅, h₅, hleft₅, hsame₅⟩ := unpack_left hleft₄
    have hall : u₅._buf = m'.take_buf := by rw [hsame₅, hsame₄, hsame₃, hsame₂, hsame₁]
    refine ⟨m', ?_, hsound, by rw [hm'], hcontent, hfirst, { u₅ with _ind := RPC_HEADER_SZ }, ?_, ?_⟩
    · rw [pack_req_header_eq, hpacks, hm']
      rfl
    · simp only [unpack_req_header, Unmarshall.new, h₁, h₂, h₃, h₄, h₅]
      rfl
    · rw [← hcontent]
      exact left_content hsound hall hleft₅
  · obtain ⟨m₁, m', hpacks, hm', hsound, hcontent, hfirst, room, hbuf, _⟩ := packed hm [reply.xid, reply.ret]
      (show RPC_SZ + 4 * 2 ≤ RPC_HEADER_SZ by decide)
    simp only [List.flatMap_cons, List.flatMap_nil, List.append_nil, List.append_assoc] at hbuf
    obtain ⟨u₁, h₁, hleft₁, hsame₁⟩ := unpack_left (left_at hbuf hsz (hint hsound))
    obtain ⟨u₂, h₂, hleft₂, hsame₂⟩ := unpack_left hleft₁
    have hall : u₂._buf = m'.take_buf := by rw [hsame₂, hsame₁]
    refine ⟨m', ?_, hsound, by rw [hm'], hcontent, hfirst, { u₂ with _ind := RPC_HEADER_SZ }, ?_, ?_⟩
    · rw [pack_reply_header_eq, hpacks, hm']
      rfl
    · simp only [unpack_reply_header, Unmarshall.new, h₁, h₂]
    · rw [← hcontent]
      exact left_content hsound hall hleft₂
  · intro heap
    refine left_take_content heap ?_
    have hinside := hm.inside
    have hheader := hm.header
    have hcapa := hm.int
    rw [length_get_content]
    omega

theorem headers_leave_content_number : ∃ m m' u, uint.put (Marshall.new Mem.zero) 0x2a07 = .ok m ∧
    m.pack_req_header ⟨1, 0x6001, 7, 0, 0⟩ = .ok m' ∧ m'.get_content = [0, 0, 0x2a, 7] ∧
    (Unmarshall.new m'.take_buf).unpack_req_header = (⟨1, 0x6001, 7, 0, 0⟩, u) ∧ u.left = some [0, 0, 0x2a, 7] := by
  have hput : uint.put (Marshall.new Mem.zero) 0x2a07 = .ok _ := word_inside 0x2a07 (by decide)
  have hadds : (Marshall.new Mem.zero).Adds (uint_bytes 0x2a07) _ := uint_carries.writes _ _ _ _ rfl hput
  have hcontent := hadds.get_content (Nat.le_refl _)
  obtain ⟨m', hpack, _, _, hsame, _, u, hunpack, hleft⟩ :=
    (headers_leave_content (hadds.1 (sound_new Mem.zero)) ⟨1, 0x6001, 7, 0, 0⟩ ⟨0, 0⟩).1
  rw [hcontent] at hsame hleft
  exact ⟨_, m', u, hput, hpack, hsame, hunpack, hleft⟩

end chfs
