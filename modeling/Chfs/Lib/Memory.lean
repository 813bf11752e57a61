import Mathlib

/-- The bytes a `char` pointer points at, indexed by the offset from the
    pointer. Nothing bounds the offset: what lies behind an object is memory
    with some contents too. -/
abbrev Mem := Nat → UInt8

namespace Mem

/-- Memory cleared by `bzero`. -/
def zero : Mem := fun _ => 0

/-- Pointer addition. -/
def shift (m : Mem) (off : Nat) : Mem := fun p => m (off + p)

/-- The memory a byte string occupies, followed by `rest`. -/
def ofBytes (bytes : List UInt8) (rest : Mem) : Mem :=
  fun p => if h : p < bytes.length then bytes[p] else rest (p - bytes.length)

/-- The first `n` bytes as a byte string. -/
def bytes (m : Mem) (n : Nat) : List UInt8 := (List.range n).map m

/-- Copy `n` bytes of `src` to `dst + off`. -/
def memcpy (dst : Mem) (off : Nat) (src : Mem) (n : Nat) : Mem :=
  fun p => if off ≤ p ∧ p < off + n then src (p - off) else dst p

/-- The offset of the first zero byte, when it lies below `bound`. -/
def strlen (m : Mem) (bound : Nat) : Option Nat := (List.range bound).find? (fun p => m p = 0)

/-- Byte `k` of a 32-bit integer in little-endian order. -/
def byteOf (v : UInt32) (k : Nat) : UInt8 := UInt8.ofNat (v.toNat / 256 ^ k)

/-- Element `i` of the memory seen as an array of little-endian 32-bit integers. -/
def word (m : Mem) (i : Nat) : UInt32 :=
  UInt32.ofNat ((m (4 * i)).toNat + 256 * (m (4 * i + 1)).toNat +
    65536 * (m (4 * i + 2)).toNat + 16777216 * (m (4 * i + 3)).toNat)

/-- Assign to element `i` of the memory seen as an array of 32-bit integers. -/
def setWord (m : Mem) (i : Nat) (v : UInt32) : Mem :=
  fun p => if p / 4 = i then byteOf v (p % 4) else m p

@[simp] theorem zero_apply (p : Nat) : zero p = 0 := rfl

@[simp] theorem shift_apply (m : Mem) (off p : Nat) : m.shift off p = m (off + p) := rfl

@[simp] theorem length_bytes (m : Mem) (n : Nat) : (m.bytes n).length = n := by
  simp [bytes]

theorem getElem_bytes (m : Mem) (n p : Nat) (h : p < (m.bytes n).length) :
    (m.bytes n)[p] = m p := by
  simp [bytes]

theorem bytes_add (m : Mem) (off n : Nat) : m.bytes (off + n) = m.bytes off ++ (m.shift off).bytes n := by
  rw [bytes, List.range_add, List.map_append, List.map_map]
  rfl

theorem bytes_shift (m : Mem) {off n size : Nat} (h : off + n ≤ size) :
    (m.shift off).bytes n = ((m.bytes size).drop off).take n := by
  obtain ⟨rest, rfl⟩ := Nat.exists_eq_add_of_le h
  have hoff : (m.bytes off).length = off := length_bytes m off
  have hn : ((m.shift off).bytes n).length = n := length_bytes _ n
  rw [bytes_add, bytes_add, List.append_assoc, List.drop_left' hoff, List.take_left' hn]

theorem ofBytes_of_lt {bytes : List UInt8} {rest : Mem} {p : Nat} (h : p < bytes.length) :
    ofBytes bytes rest p = bytes[p] := by
  simp [ofBytes, h]

theorem memcpy_inside {dst src : Mem} {off n p : Nat} (hlo : off ≤ p) (hhi : p < off + n) :
    memcpy dst off src n p = src (p - off) := by
  simp [memcpy, hlo, hhi]

theorem memcpy_outside {dst src : Mem} {off n p : Nat} (h : ¬(off ≤ p ∧ p < off + n)) :
    memcpy dst off src n p = dst p := by
  simp [memcpy, h]

/-- Copying depends only on the bytes copied. -/
theorem memcpy_congr (dst : Mem) (off n : Nat) {src src' : Mem} (h : ∀ p < n, src p = src' p) :
    memcpy dst off src n = memcpy dst off src' n := by
  funext p
  unfold memcpy
  split
  · exact h _ (by omega)
  · rfl

/-- What is copied behind the first `off` bytes follows them. -/
theorem bytes_memcpy_ofBytes (m rest : Mem) (off : Nat) (data : List UInt8) :
    (memcpy m off (ofBytes data rest) data.length).bytes (off + data.length) = m.bytes off ++ data := by
  rw [bytes_add]
  congr 1
  · refine List.map_congr_left ?_
    intro p hp
    have hlt := List.mem_range.mp hp
    exact memcpy_outside (by omega)
  · refine List.ext_getElem (length_bytes _ _) ?_
    intro p hp hlt
    rw [getElem_bytes, shift_apply, memcpy_inside (Nat.le_add_right _ _) (by omega), Nat.add_sub_cancel_left,
      ofBytes_of_lt hlt]

/-- Reassembling the four bytes of an integer gives the integer back. -/
theorem word_of_bytes {m : Mem} {i : Nat} {v : UInt32}
    (h : ∀ k < 4, m (4 * i + k) = byteOf v k) : m.word i = v := by
  have h0 := h 0 (by decide)
  have h1 := h 1 (by decide)
  have h2 := h 2 (by decide)
  have h3 := h 3 (by decide)
  have hbound := v.toNat_lt
  apply UInt32.toNat_inj.mp
  simp only [byteOf, Nat.add_zero] at h0 h1 h2 h3
  simp only [word, h0, h1, h2, h3, UInt32.toNat_ofNat', UInt8.toNat_ofNat']
  omega

@[simp] theorem word_setWord_same (m : Mem) (i : Nat) (v : UInt32) : (m.setWord i v).word i = v := by
  apply word_of_bytes
  intro k hk
  have hdiv : (4 * i + k) / 4 = i := by omega
  have hmod : (4 * i + k) % 4 = k := by omega
  simp [setWord, hdiv, hmod]

/-- Words depend only on their own four bytes. -/
theorem word_congr {m m' : Mem} {i : Nat} (h : ∀ p, p / 4 = i → m p = m' p) :
    m.word i = m'.word i := by
  have h0 := h (4 * i) (by omega)
  have h1 := h (4 * i + 1) (by omega)
  have h2 := h (4 * i + 2) (by omega)
  have h3 := h (4 * i + 3) (by omega)
  simp only [word, h0, h1, h2, h3]

@[simp] theorem word_setWord_ne (m : Mem) {i j : Nat} (v : UInt32) (h : j ≠ i) :
    (m.setWord i v).word j = m.word j := by
  apply word_congr
  intro p hp
  have hne : p / 4 ≠ i := by omega
  simp [setWord, hne]

@[simp] theorem word_zero (i : Nat) : zero.word i = 0 := by
  simp [word]

theorem strlen_eq_none {m : Mem} {bound : Nat} :
    m.strlen bound = none ↔ ∀ p < bound, m p ≠ 0 := by
  simp [strlen]

/-- A zero byte at offset `p` bounds the length of the string. -/
theorem strlen_le {m : Mem} {bound p : Nat} (hp : p < bound) (hzero : m p = 0) :
    ∃ n, m.strlen bound = some n ∧ n ≤ p := by
  cases hlen : m.strlen bound with
  | none => exact absurd hzero (strlen_eq_none.mp hlen p hp)
  | some n =>
    refine ⟨n, rfl, ?_⟩
    by_contra hlt
    rw [strlen, List.range_eq_range', List.find?_range'_eq_some] at hlen
    have hnot := hlen.2.2 p (by omega) (by omega)
    simp [hzero] at hnot

end Mem
