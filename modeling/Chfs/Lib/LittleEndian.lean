import Mathlib

/-! Numbers as little-endian bytes. -/

namespace LittleEndian

/-- The lowest `k` bytes of a number. -/
def encode : (k : Nat) → Nat → List UInt8
  | 0, _ => []
  | k + 1, n => UInt8.ofNat n :: encode k (n / 256)

def decode : List UInt8 → Nat
  | [] => 0
  | byte :: bytes => byte.toNat + 256 * decode bytes

@[simp] theorem length_encode (k : Nat) : ∀ n, (encode k n).length = k := by
  induction k with
  | zero =>
    intro n
    rfl
  | succ k ih =>
    intro n
    rw [encode, List.length_cons, ih]

/-- A number that has room is read back. -/
theorem decode_encode (k : Nat) : ∀ n, n < 256 ^ k → decode (encode k n) = n := by
  induction k with
  | zero =>
    intro n hn
    rw [pow_zero] at hn
    rw [encode, decode]
    omega
  | succ k ih =>
    intro n hn
    have hhigh : n / 256 < 256 ^ k := by
      apply Nat.div_lt_of_lt_mul
      rwa [← pow_succ']
    rw [encode, decode, ih _ hhigh, UInt8.toNat_ofNat']
    omega

end LittleEndian
