import Chfs.Lib.Memory
import Chfs.Lib.Separated

/-- The strings a `const char *` can denote: they hold no zero byte. -/
structure CString where
  bytes : List UInt8
  no_nul : 0 ∉ bytes

/-! `std::string`, as the byte sequence it holds. -/

namespace StdString

/-- `s.find(c, pos)`, with `none` for `npos`. -/
def find (s : List UInt8) (c : UInt8) (pos : Nat) : Option Nat :=
  ((s.drop pos).findIdx? (· = c)).map (pos + ·)

/-- `s.substr(pos, n)`, which throws when `pos` lies behind the end. -/
def substr (s : List UInt8) (pos n : Nat) : Option (List UInt8) :=
  if pos ≤ s.length then some ((s.drop pos).take n) else none

/-- `s.replace(pos, n, t)`, which throws when `pos` lies behind the end. -/
def replace (s : List UInt8) (pos n : Nat) (t : List UInt8) : Option (List UInt8) :=
  if pos ≤ s.length then some (s.take pos ++ t ++ s.drop (pos + n)) else none

/-- `s.resize(n, c)`. -/
def resize (s : List UInt8) (n : Nat) (c : UInt8) : List UInt8 :=
  s.take n ++ List.replicate (n - s.length) c

/-- `s.c_str()`, for those who look for its end. -/
def c_str (s : List UInt8) : CString where
  bytes := s.takeWhile fun byte => byte ≠ 0
  no_nul := fun hmem => by simpa using List.mem_takeWhile_imp hmem

/-- The search finds the end of the token that starts at `pos`. -/
theorem find_eq_nextToken (s : List UInt8) (c : UInt8) (pos : Nat) :
    find s c pos = (Separated.nextToken c (s.drop pos)).map fun p => pos + p.1.length := by
  have hindex : ∀ t : List UInt8, t.findIdx? (· = c) = (Separated.nextToken c t).map fun p => p.1.length := by
    intro t
    induction t with
    | nil => rfl
    | cons x t ih =>
      rw [List.findIdx?_cons, Separated.nextToken]
      by_cases hx : x = c
      · simp [hx]
      · simp only [hx, decide_false, Bool.false_eq_true, ↓reduceIte, ih, Option.map_map]
        rfl
  rw [find, hindex, Option.map_map]
  rfl

theorem c_str_of_not_mem {s : List UInt8} (h : 0 ∉ s) : (c_str s).bytes = s := by
  refine List.takeWhile_eq_self_iff.mpr ?_
  intro byte hbyte
  have hne : byte ≠ 0 := fun hzero => h (hzero ▸ hbyte)
  simpa using hne

/-- A zero byte in memory ends the string that starts before it. -/
theorem c_str_bytes {m : Mem} {n size : Nat} (hn : n < size) (hbefore : ∀ p < n, m p ≠ 0) (hzero : m n = 0) :
    (c_str (m.bytes size)).bytes = m.bytes n := by
  obtain ⟨k, rfl⟩ := Nat.exists_eq_add_of_lt hn
  have hsplit : m.bytes (n + k + 1) = m.bytes n ++ 0 :: (m.shift (n + 1)).bytes k := by
    have hnext : m.bytes (n + 1) = m.bytes n ++ [0] := by
      rw [Mem.bytes_add, ← hzero]
      rfl
    rw [Nat.add_right_comm, Mem.bytes_add, hnext, List.append_assoc]
    rfl
  change (m.bytes (n + k + 1)).takeWhile (fun byte => byte ≠ 0) = m.bytes n
  rw [hsplit, List.takeWhile_append_of_pos]
  · simp
  · intro byte hbyte
    obtain ⟨p, hp, rfl⟩ := List.mem_map.mp hbyte
    simpa using hbefore p (List.mem_range.mp hp)

@[simp] theorem length_resize (s : List UInt8) (n : Nat) (c : UInt8) : (resize s n c).length = n := by
  simp only [resize, List.length_append, List.length_take, List.length_replicate]
  omega

end StdString
