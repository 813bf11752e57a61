import Mathlib

/-! Printing and reading unsigned integers the way `iostream` does. -/

namespace Decimal

/-- `isspace` in the C locale. -/
def isSpace (c : UInt8) : Bool := c = 32 ∨ (9 ≤ c ∧ c ≤ 13)

def isDigit (c : UInt8) : Bool := 48 ≤ c ∧ c ≤ 57

/-- The decimal digits of `n` as characters, the most significant first. -/
def print (n : Nat) : List UInt8 :=
  if n = 0 then [48] else (Nat.digits 10 n).reverse.map (fun d => UInt8.ofNat (48 + d))

/-- The number a sequence of digits denotes. -/
def value (digits : List UInt8) : Nat :=
  digits.foldl (fun v d => 10 * v + (d.toNat - 48)) 0

/-- `ist >> v` for an `unsigned long long v` that holds `old`. Leading blanks are
    skipped; when nothing is left, `v` is not assigned. A sign is accepted, a
    missing number reads as 0 and a number out of range as the largest one. -/
def read (old : UInt64) (s : List UInt8) : UInt64 :=
  match s.dropWhile isSpace with
  | [] => old
  | c :: cs =>
    let unsigned := if c = 45 ∨ c = 43 then cs else c :: cs
    let digits := unsigned.takeWhile isDigit
    if digits = [] then 0
    else if 2 ^ 64 ≤ value digits then UInt64.ofNat (2 ^ 64 - 1)
    else if c = 45 then - UInt64.ofNat (value digits)
    else UInt64.ofNat (value digits)

/-- A printed number is a nonempty sequence of digits. -/
theorem isDigit_of_mem_print {n : Nat} {c : UInt8} (hc : c ∈ print n) : isDigit c = true := by
  unfold print at hc
  split at hc
  · rw [List.mem_singleton.mp hc]
    rfl
  · obtain ⟨d, hd, rfl⟩ := List.mem_map.mp hc
    have hlt := Nat.digits_lt_base (by omega) (List.mem_reverse.mp hd)
    have hval : (UInt8.ofNat (48 + d)).toNat = 48 + d := by
      rw [UInt8.toNat_ofNat']
      omega
    simp only [isDigit, decide_eq_true_eq, UInt8.le_iff_toNat_le, hval]
    constructor
    · exact Nat.le_add_right 48 d
    · change 48 + d ≤ 57
      omega

theorem print_ne_nil (n : Nat) : print n ≠ [] := by
  unfold print
  split
  · exact List.cons_ne_nil _ _
  · next hn =>
    have hdigits : Nat.digits 10 n ≠ [] := Nat.digits_ne_nil_iff_ne_zero.mpr hn
    simpa using hdigits

theorem length_print_le {n k : Nat} (hk : 0 < k) (hn : n < 10 ^ k) : (print n).length ≤ k := by
  unfold print
  split
  · exact hk
  · rw [List.length_map, List.length_reverse]
    exact Nat.digits_length_le_iff (by omega) n |>.mpr hn

/-- The value of digits given with the least significant first. -/
theorem value_reverse {ds : List Nat} (hds : ∀ d ∈ ds, d < 10) :
    value (ds.reverse.map (fun d => UInt8.ofNat (48 + d))) = Nat.ofDigits 10 ds := by
  induction ds with
  | nil => rfl
  | cons d ds ih =>
    have hd := hds d List.mem_cons_self
    have hrest := ih fun d hmem => hds d (List.mem_cons_of_mem _ hmem)
    have hval : (UInt8.ofNat (48 + d)).toNat - 48 = d := by
      rw [UInt8.toNat_ofNat']
      omega
    rw [value] at hrest ⊢
    rw [List.reverse_cons, List.map_append, List.foldl_append, hrest, Nat.ofDigits_cons, List.map_singleton,
      List.foldl_cons, List.foldl_nil, hval]
    omega

@[simp] theorem value_print (n : Nat) : value (print n) = n := by
  unfold print
  split
  · next hn =>
    rw [hn]
    rfl
  · rw [value_reverse fun d hd => Nat.digits_lt_base (by omega) hd, Nat.ofDigits_digits]

/-- Reading a printed number gives the number back, whatever the variable held. -/
theorem read_print (old v : UInt64) : read old (print v.toNat) = v := by
  obtain ⟨c, cs, hprint⟩ := List.exists_cons_of_ne_nil (print_ne_nil v.toNat)
  have hdigits : ∀ d ∈ c :: cs, isDigit d = true := by
    intro d hd
    rw [← hprint] at hd
    exact isDigit_of_mem_print hd
  have hc := hdigits c List.mem_cons_self
  simp only [isDigit, decide_eq_true_eq] at hc
  -- a digit is neither a blank nor a sign
  have hspace : isSpace c = false := by
    simp only [isSpace, decide_eq_false_iff_not]
    rintro (rfl | ⟨_, hle⟩)
    · exact absurd hc.1 (by decide)
    · have hle : (48 : UInt8) ≤ 13 := UInt8.le_trans hc.1 hle
      exact absurd hle (by decide)
  have hminus : c ≠ 45 := by
    rintro rfl
    exact absurd hc.1 (by decide)
  have hplus : c ≠ 43 := by
    rintro rfl
    exact absurd hc.1 (by decide)
  have hvalue := value_print v.toNat
  have hsmall : ¬ 2 ^ 64 ≤ v.toNat := by
    have := v.toNat_lt
    omega
  rw [hprint] at hvalue ⊢
  have hdrop : (c :: cs).dropWhile isSpace = c :: cs := List.dropWhile_cons_of_neg (by simp [hspace])
  unfold read
  rw [hdrop]
  simp only [hminus, hplus, or_self, ↓reduceIte, List.takeWhile_eq_self_iff.mpr hdigits, hvalue, hsmall,
    List.cons_ne_nil]
  exact UInt64.ofNat_toNat

end Decimal
