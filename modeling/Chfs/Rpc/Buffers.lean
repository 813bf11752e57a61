import Chfs.Model.Marshall

namespace chfs

namespace Marshall

variable {m m' m₁ m₂ : Marshall} {p q : List UInt8} {capa : Nat}

/-- What a `marshall` keeps up. -/
structure Sound (m : Marshall) : Prop where
  header : RPC_HEADER_SZ ≤ m._ind
  inside : m._ind ≤ m._capa
  first : DEFAULT_RPC_SZ ≤ m._capa
  int : m._capa < 2 ^ 31

theorem sound_new (heap : Mem) : (new heap).Sound := by
  constructor <;> simp [new, RPC_HEADER_SZ, RPC_SZ, DEFAULT_RPC_SZ]

@[simp] theorem write_ind (m : Marshall) (p : List UInt8) : (m.write p)._ind = m._ind + p.length := rfl

@[simp] theorem write_capa (m : Marshall) (p : List UInt8) : (m.write p)._capa = m._capa := rfl

theorem write_nil (m : Marshall) : m.write [] = m := by
  have hbuf : m._buf.memcpy m._ind (Mem.ofBytes [] Mem.zero) 0 = m._buf := by
    funext p
    exact Mem.memcpy_outside (by omega)
  change ({ m with _buf := m._buf.memcpy m._ind (Mem.ofBytes [] Mem.zero) 0 } : Marshall) = m
  rw [hbuf]

/-- What is written follows what is there, -/
theorem take_buf_write (m : Marshall) (p : List UInt8) : (m.write p).take_buf = m.take_buf ++ p :=
  Mem.bytes_memcpy_ofBytes m._buf Mem.zero m._ind p

/-- and nothing behind it changes. -/
theorem write_behind {i : Nat} (hi : m._ind + p.length ≤ i) : (m.write p)._buf i = m._buf i :=
  Mem.memcpy_outside (by omega)

/-- Bytes can be written in parts. -/
theorem write_append (m : Marshall) (p q : List UInt8) : (m.write p).write q = m.write (p ++ q) := by
  have hbuf : ((m.write p).write q)._buf = (m.write (p ++ q))._buf := by
    funext i
    simp only [write, Mem.memcpy, Mem.ofBytes, List.length_append, List.getElem_append]
    grind
  have hind : ((m.write p).write q)._ind = (m.write (p ++ q))._ind := by
    simp only [write_ind, List.length_append, Nat.add_assoc]
  exact congrArg₂ (fun buf ind => ({ m with _buf := buf, _ind := ind } : Marshall)) hbuf hind

/-- `m'` is `m` with some bytes behind its content. -/
def Adds (m : Marshall) (p : List UInt8) (m' : Marshall) : Prop :=
  (m.Sound → m'.Sound) ∧ ∃ capa, m' = { m.write p with _capa := capa }

theorem Adds.refl (m : Marshall) : m.Adds [] m :=
  ⟨id, m._capa, by rw [write_nil]⟩

theorem Adds.append (h : m.Adds p m₁) (h' : m₁.Adds q m₂) : m.Adds (p ++ q) m₂ := by
  obtain ⟨hsound, capa₁, rfl⟩ := h
  obtain ⟨hsound', capa₂, rfl⟩ := h'
  refine ⟨hsound' ∘ hsound, capa₂, ?_⟩
  rw [← write_append]
  rfl

theorem Adds.ind (h : m.Adds p m') : m'._ind = m._ind + p.length := by
  obtain ⟨_, capa, rfl⟩ := h
  rfl

theorem take_buf_eq (h : RPC_HEADER_SZ ≤ m._ind) : m.take_buf = m._buf.bytes RPC_HEADER_SZ ++ m.get_content := by
  obtain ⟨n, hn⟩ := Nat.exists_eq_add_of_le h
  rw [Marshall.take_buf, get_content, hn, Mem.bytes_add, Nat.add_sub_cancel_left]

/-- The content grows by what is written. -/
theorem Adds.get_content (h : m.Adds p m') (hheader : RPC_HEADER_SZ ≤ m._ind) :
    m'.get_content = m.get_content ++ p := by
  have hsame : m'._buf.bytes RPC_HEADER_SZ = m._buf.bytes RPC_HEADER_SZ := by
    obtain ⟨_, capa, rfl⟩ := h
    refine List.map_congr_left ?_
    intro i hi
    have hlt := List.mem_range.mp hi
    exact Mem.memcpy_outside (by omega)
  have hall : m'.take_buf = m.take_buf ++ p := by
    obtain ⟨_, capa, rfl⟩ := h
    exact take_buf_write m p
  have hind := h.ind
  rw [take_buf_eq hheader, take_buf_eq (by omega), hsame, List.append_assoc] at hall
  exact List.append_cancel_left hall

theorem length_get_content (m : Marshall) : m.get_content.length = m._ind - RPC_HEADER_SZ := Mem.length_bytes _ _

/-- The most that doubling makes of a capacity. -/
def limit (capa : Nat) : Nat := capa * 2 ^ (30 - capa.log2)

theorem limit_double (hpos : 0 < capa) (hint : 2 * capa < 2 ^ 31) : limit (2 * capa) = limit capa := by
  have hlog : (2 * capa).log2 = capa.log2 + 1 := by
    rw [Nat.log2_two_mul (by omega)]
  have hle : (2 * capa).log2 < 31 := (Nat.log2_lt (by omega)).mpr hint
  obtain ⟨k, hk⟩ : ∃ k, 30 - capa.log2 = k + 1 := ⟨29 - capa.log2, by omega⟩
  rw [limit, limit, hlog, hk, show 30 - (capa.log2 + 1) = k by omega, pow_succ']
  ring

theorem limit_last (hint : capa < 2 ^ 31) (hlast : 2 ^ 31 ≤ 2 * capa) : limit capa = capa := by
  have hlog : 30 ≤ capa.log2 := (Nat.le_log2 (by omega)).mpr (by omega)
  rw [limit, Nat.sub_eq_zero_of_le hlog, pow_zero, mul_one]

theorem le_limit (capa : Nat) : capa ≤ limit capa :=
  Nat.le_mul_of_pos_right _ (Nat.two_pow_pos _)

/-- The number of bytes that go in if they come one by one. -/
def room (m : Marshall) : Nat := limit m._capa - m._ind

theorem realloc_ok (h : m.realloc capa = .ok m') : capa < 2 ^ 31 ∧ m' = { m with _capa := capa } := by
  unfold realloc at h
  split at h
  · next hint =>
    cases h
    exact ⟨hint, rfl⟩
  · cases h

theorem rawbyte_adds {x : UInt8} (h : m.rawbyte x = .ok m') : m.Adds [x] m' := by
  unfold rawbyte at h
  obtain ⟨m₁, hgrown, hlast⟩ := Except.bind_eq_ok_iff.mp h
  cases hlast
  split at hgrown
  · next hlt =>
    cases hgrown
    refine ⟨fun hm => ⟨?_, hlt, hm.first, hm.int⟩, m._capa, rfl⟩
    exact hm.header.trans (Nat.le_add_right _ _)
  · next hge =>
    obtain ⟨hint, rfl⟩ := realloc_ok hgrown
    refine ⟨fun hm => ?_, 2 * m._capa, rfl⟩
    obtain ⟨hheader, hinside, hfirst, _⟩ := hm
    have hpos : 0 < DEFAULT_RPC_SZ := by decide
    exact ⟨hheader.trans (Nat.le_add_right _ _), show m._ind + 1 ≤ 2 * m._capa by omega,
      show _ ≤ 2 * m._capa by omega, hint⟩

theorem rawbytes_adds (h : m.rawbytes p = .ok m') : m.Adds p m' := by
  unfold rawbytes at h
  split at h
  · obtain ⟨m₁, hgrown, hlast⟩ := Except.bind_eq_ok_iff.mp h
    cases hlast
    split at hgrown
    · next hle =>
      cases hgrown
      refine ⟨fun hm => ⟨?_, hle, hm.first, hm.int⟩, m._capa, rfl⟩
      exact hm.header.trans (Nat.le_add_right _ _)
    · have hmore : m._ind ≤ m._capa →
        m._ind + p.length ≤ (if p.length < m._capa then 2 * m._capa else m._capa + p.length) ∧
          m._capa ≤ if p.length < m._capa then 2 * m._capa else m._capa + p.length := by
        intro hinside
        split <;> omega
      obtain ⟨hint, rfl⟩ := realloc_ok hgrown
      refine ⟨fun hm => ?_, _, rfl⟩
      obtain ⟨hinside', hcapa⟩ := hmore hm.inside
      exact ⟨hm.header.trans (Nat.le_add_right _ _), hinside', hm.first.trans hcapa, hint⟩
  · cases h

/-- A byte goes in exactly if there is room. -/
theorem rawbyte_fills {x : UInt8} (hm : m.Sound) :
    (1 ≤ m.room → ∃ m', m.rawbyte x = .ok m') ∧ ∀ m', m.rawbyte x = .ok m' → m'.room + 1 = m.room := by
  obtain ⟨hheader, hinside, hfirst, hint⟩ := hm
  have hpos : 0 < DEFAULT_RPC_SZ := by decide
  have hlimit := le_limit m._capa
  unfold rawbyte room
  by_cases hlt : m._ind < m._capa
  · rw [if_pos hlt]
    refine ⟨fun _ => ⟨_, rfl⟩, ?_⟩
    intro m' h
    cases h
    change limit m._capa - (m._ind + 1) + 1 = _
    omega
  · rw [if_neg hlt, realloc]
    by_cases hdouble : 2 * m._capa < 2 ^ 31
    · rw [if_pos hdouble]
      have hsame := limit_double (by omega) hdouble
      have hmore := le_limit (2 * m._capa)
      refine ⟨fun _ => ⟨_, rfl⟩, ?_⟩
      intro m' h
      cases h
      change limit (2 * m._capa) - (m._ind + 1) + 1 = _
      omega
    · rw [if_neg hdouble, limit_last hint (by omega)]
      refine ⟨fun h => by omega, ?_⟩
      intro m' h
      cases h

end Marshall

namespace Unmarshall

variable {u u' : Unmarshall} {p rest : List UInt8} {x : UInt8}

/-- What is left to read, unless reading has failed. The size is an `int`. -/
def left (u : Unmarshall) : Option (List UInt8) :=
  if u._ok ∧ u._ind ≤ u._buf.length ∧ u._buf.length < 2 ^ 31 then some (u._buf.drop u._ind) else none

theorem left_eq_some :
    u.left = some rest ↔ u._ok = true ∧ u._ind ≤ u._buf.length ∧ u._buf.length < 2 ^ 31 ∧
      u._buf.drop u._ind = rest := by
  unfold left
  split
  · next h =>
    rw [Option.some_inj]
    exact ⟨fun hrest => ⟨h.1, h.2.1, h.2.2, hrest⟩, fun hrest => hrest.2.2.2⟩
  · next h =>
    refine ⟨nofun, ?_⟩
    rintro ⟨hok, hle, hint, _⟩
    exact absurd ⟨hok, hle, hint⟩ h

/-- A buffer that has just been received is all left. -/
theorem left_new {b : List UInt8} (hint : b.length < 2 ^ 31) : (new b).left = some b :=
  left_eq_some.mpr ⟨rfl, Nat.zero_le _, hint, rfl⟩

/-- The bytes behind the head position, and what is left behind them. -/
theorem left_append : u.left = some (p ++ rest) ↔
    u._ind + p.length ≤ u._buf.length ∧ (u._buf.drop u._ind).take p.length = p ∧
      ({ u with _ind := u._ind + p.length } : Unmarshall).left = some rest := by
  rw [left_eq_some, left_eq_some]
  dsimp only
  constructor
  · rintro ⟨hok, hle, hint, hdrop⟩
    have hlength := congrArg List.length hdrop
    rw [List.length_drop, List.length_append] at hlength
    refine ⟨by omega, by rw [hdrop, List.take_left], hok, by omega, hint, ?_⟩
    rw [← List.drop_drop, hdrop, List.drop_left]
  · rintro ⟨hle, htake, hok, _, hint, hdrop⟩
    refine ⟨hok, by omega, hint, ?_⟩
    rw [← List.drop_drop] at hdrop
    rw [← hdrop, ← htake, List.length_take, List.length_drop, Nat.min_eq_left (by omega), List.take_append_drop]

theorem rawbyte_reads (h : u.left = some (x :: rest)) : ∃ u', u.rawbyte = (x, u') ∧ u'.left = some rest := by
  obtain ⟨hle, htake, hleft⟩ := (left_append (p := [x])).mp h
  have hlt : u._ind < u._buf.length := hle
  refine ⟨_, ?_, hleft⟩
  rw [rawbyte, dif_pos hlt]
  rw [List.drop_eq_getElem_cons hlt] at htake
  cases htake
  rfl

theorem rawbyte_strict (h : u.rawbyte = (x, u')) (hleft : u'.left = some rest) : u.left = some (x :: rest) := by
  unfold rawbyte at h
  split at h
  · next hlt =>
    cases h
    refine (left_append (p := [_])).mpr ⟨hlt, ?_, hleft⟩
    rw [List.drop_eq_getElem_cons hlt]
    rfl
  · cases h
    cases (left_eq_some.mp hleft).1

end Unmarshall

end chfs
