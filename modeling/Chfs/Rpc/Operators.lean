import Chfs.Lib.Words
import Chfs.Rpc.Buffers

namespace chfs

open Marshall Unmarshall

/-- The buffers as outputs and inputs. -/
def buffers : Medium Marshall Unmarshall UInt8 where
  Adds := Adds
  left := left
  adds_nil := .refl
  adds_append := .append

/-- A type whose values are marshalled as `enc` says, and read back. -/
abbrev Wire.Carries {α : Type} (type : Wire α) (enc : α → Option (List UInt8)) (fresh : α → Prop) : Prop :=
  Codec.Carries type buffers enc fresh

/-- Marshalling its values takes up what there is of room. -/
abbrev Wire.Fills {α : Type} (type : Wire α) (enc : α → Option (List UInt8)) : Prop :=
  Codec.Fills type enc Sound room

/-- A single byte. -/
def byte : Wire UInt8 where
  put m x := m.rawbyte x
  get u _ := let (x, u) := u.rawbyte; .ok (u, x)

def enc_byte (x : UInt8) : Option (List UInt8) := some [x]

theorem byte_carries : byte.Carries enc_byte fun _ => True where
  writes := by
    intro m x bytes m' hbytes hput
    cases hbytes
    exact rawbyte_adds hput
  reads := by
    intro x bytes u var rest hbytes _ hleft
    cases hbytes
    obtain ⟨u', hget, hleft'⟩ := rawbyte_reads hleft
    exact ⟨u', by simp only [byte, hget], hleft'⟩
  strict := by
    intro u var u' x rest _ hget hleft
    cases hget
    exact ⟨[_], rfl, rawbyte_strict rfl hleft⟩

theorem byte_fills : byte.Fills enc_byte := by
  intro m x bytes hbytes hm
  cases hbytes
  obtain ⟨hroom, htaken⟩ := rawbyte_fills (x := x) hm
  exact ⟨hroom, fun m' hput => ⟨(rawbyte_adds hput).1 hm, htaken m' hput⟩⟩

/-- The bytes of a number, the highest first. -/
def uint_bytes (v : UInt32) : List UInt8 := [(v >>> 24).toUInt8, (v >>> 16).toUInt8, (v >>> 8).toUInt8, v.toUInt8]

def enc_uint (v : UInt32) : Option (List UInt8) := some (uint_bytes v)

def enc_int (v : Int32) : Option (List UInt8) := enc_uint v.toUInt32

def enc_ull (v : UInt64) : Option (List UInt8) := some (uint_bytes (v >>> 32).toUInt32 ++ uint_bytes v.toUInt32)

/-- A string stands behind its size. -/
def enc_string (s : List UInt8) : Option (List UInt8) :=
  if s.length < 2 ^ 31 then some (uint_bytes (UInt32.ofNat s.length) ++ s) else none

theorem uint_eq : uint = (byte.both (byte.both (byte.both byte))).of Words.bytes := rfl

theorem uint_carries : uint.Carries enc_uint fun _ => True := by
  have h := (byte_carries.both (byte_carries.both (byte_carries.both byte_carries))).of Words.bytes
  rw [uint_eq]
  exact ⟨h.writes, fun v bytes u var rest hbytes _ =>
    h.reads v bytes u var rest hbytes ⟨trivial, trivial, trivial, trivial⟩,
    fun u var u' v rest _ => h.strict u var u' v rest ⟨trivial, trivial, trivial, trivial⟩⟩

theorem uint_fills : uint.Fills enc_uint :=
  (byte_fills.both (byte_fills.both (byte_fills.both byte_fills))).of Words.bytes

/-- The same bytes as a signed number. -/
def signed : UInt32 ≃ Int32 where
  toFun v := v.toInt32
  invFun v := v.toUInt32
  left_inv _ := rfl
  right_inv _ := rfl

theorem uint_get {u u' : Unmarshall} {var v : UInt32} : uint.get u var = .ok (u', v) ↔ u.word = (v, u') := by
  rcases hword : u.word with ⟨v', u₁⟩
  simp only [uint, hword]
  grind

theorem int_eq : int = uint.of signed := by
  have hget : int.get = (uint.of signed).get := by
    funext u var
    rcases hword : u.word with ⟨v, u'⟩
    simp only [int, uint, Codec.of, hword]
    rfl
  exact Codec.ext rfl hget

theorem ull_eq : ull = (uint.both uint).of Words.halves := by
  have hget : ull.get = ((uint.both uint).of Words.halves).get := by
    funext u var
    rcases hhigh : u.word with ⟨high, u₁⟩
    rcases hlow : u₁.word with ⟨low, u₂⟩
    simp only [ull, uint, Codec.of, Codec.both, hhigh, hlow, Except.ok_bind]
    rfl
  exact Codec.ext rfl hget

theorem int_carries : int.Carries enc_int fun _ => True := by
  rw [int_eq]
  exact uint_carries.of signed

theorem ull_carries : ull.Carries enc_ull fun _ => True := by
  have h := (uint_carries.both uint_carries).of Words.halves
  rw [ull_eq]
  exact ⟨h.writes, fun v bytes u var rest hbytes _ => h.reads v bytes u var rest hbytes ⟨trivial, trivial⟩,
    fun u var u' v rest _ => h.strict u var u' v rest ⟨trivial, trivial⟩⟩

theorem enc_string_eq_some {s bytes : List UInt8} :
    enc_string s = some bytes ↔ s.length < 2 ^ 31 ∧ bytes = uint_bytes (UInt32.ofNat s.length) ++ s := by
  unfold enc_string
  split
  · next hsize =>
    rw [Option.some_inj]
    exact ⟨fun h => ⟨hsize, h.symm⟩, fun h => h.2.symm⟩
  · next hsize => exact ⟨nofun, fun h => absurd h.1 hsize⟩

theorem toNat_size {n : Nat} (h : n < 2 ^ 31) : (UInt32.ofNat n).toNat = n := by
  rw [UInt32.toNat_ofNat']
  exact Nat.mod_eq_of_lt (by omega)

theorem string_carries : string.Carries enc_string fun _ => True where
  writes := by
    intro m s bytes m' hbytes hput
    obtain ⟨hsize, rfl⟩ := enc_string_eq_some.mp hbytes
    obtain ⟨m₁, hword, hrest⟩ := Except.bind_eq_ok_iff.mp hput
    rw [Nat.mod_eq_of_lt (by omega), List.take_length] at hrest
    exact (uint_carries.writes _ _ _ _ rfl hword).append (rawbytes_adds hrest)
  reads := by
    intro s bytes u var rest hbytes _ hleft
    obtain ⟨hsize, rfl⟩ := enc_string_eq_some.mp hbytes
    rw [List.append_assoc] at hleft
    obtain ⟨u₁, hget, hleft₁⟩ := uint_carries.reads _ _ u 0 _ rfl trivial hleft
    obtain ⟨hok, _, hint, _⟩ := left_eq_some.mp hleft₁
    obtain ⟨hle, htake, hleft₂⟩ := left_append.mp hleft₁
    have hword := uint_get.mp hget
    refine ⟨_, ?_, hleft₂⟩
    simp only [string, hword, hok, if_true, Unmarshall.rawbytes, toNat_size hsize]
    rw [if_neg, if_pos hle, htake]
    rw [Nat.mod_eq_of_lt (by omega)]
    omega
  strict := by
    intro u var u' s rest _ hget hleft
    change u'.left = some rest at hleft
    rcases hword : u.word with ⟨n, u₁⟩
    simp only [string, hword] at hget
    have huint : uint.get u 0 = .ok (u₁, n) := uint_get.mpr hword
    split at hget
    · next hok =>
      unfold Unmarshall.rawbytes at hget
      split at hget
      · cases hget
        cases (left_eq_some.mp hleft).1
      · split at hget
        · next hle =>
          cases hget
          have hsize : ((u₁._buf.drop u₁._ind).take n.toNat).length = n.toNat := by
            rw [List.length_take, List.length_drop]
            omega
          obtain ⟨_, _, hint, _⟩ := left_eq_some.mp hleft
          have hleft₁ : u₁.left = some ((u₁._buf.drop u₁._ind).take n.toNat ++ rest) := by
            rw [left_append, hsize]
            exact ⟨hle, rfl, hleft⟩
          obtain ⟨bytes, hbytes, hleft₂⟩ := uint_carries.strict _ _ _ _ _ trivial huint hleft₁
          cases hbytes
          refine ⟨_, enc_string_eq_some.mpr ⟨?_, rfl⟩, ?_⟩
          · dsimp only at hint
            omega
          · rw [hleft₂, hsize, UInt32.ofNat_toNat, List.append_assoc]
        · cases hget
    · next hnot =>
      cases hget
      exact absurd (left_eq_some.mp hleft).1 hnot

namespace Attr

/-- The fields in the order in which they are marshalled. -/
def fields : UInt32 × UInt32 × UInt32 × UInt32 × UInt32 ≃ Attr where
  toFun f := { type := f.1, atime := f.2.1, mtime := f.2.2.1, ctime := f.2.2.2.1, size := f.2.2.2.2 }
  invFun a := (a.type, a.atime, a.mtime, a.ctime, a.size)
  left_inv _ := rfl
  right_inv _ := rfl

def enc (a : Attr) : Option (List UInt8) :=
  some (uint_bytes a.type ++ (uint_bytes a.atime ++ (uint_bytes a.mtime ++ (uint_bytes a.ctime ++ uint_bytes a.size))))

theorem wire_eq : wire = (uint.both (uint.both (uint.both (uint.both uint)))).of fields := by
  refine Codec.ext rfl ?_
  funext u a
  simp [wire, Codec.of, Codec.both, fields]

theorem carries : wire.Carries enc fun _ => True := by
  have h := (uint_carries.both (uint_carries.both (uint_carries.both (uint_carries.both uint_carries)))).of fields
  rw [wire_eq]
  exact ⟨h.writes, fun a bytes u var rest hbytes _ =>
    h.reads a bytes u var rest hbytes ⟨trivial, trivial, trivial, trivial, trivial⟩,
    fun u var u' a rest _ => h.strict u var u' a rest ⟨trivial, trivial, trivial, trivial, trivial⟩⟩

end Attr

end chfs
