import Mathlib

/-! Sequences of tokens in which each token is followed by a separator. -/

namespace Separated

variable {α : Type}

section Tokens

variable [DecidableEq α]

/-- The token before the first separator, and what follows that separator. -/
def nextToken (sep : α) : List α → Option (List α × List α)
  | [] => none
  | x :: xs =>
    if x = sep then some ([], xs)
    else (nextToken sep xs).map (fun (token, rest) => (x :: token, rest))

theorem nextToken_append {sep : α} {token : List α} (htoken : sep ∉ token) (rest : List α) :
    nextToken sep (token ++ sep :: rest) = some (token, rest) := by
  induction token with
  | nil => simp [nextToken]
  | cons x token ih =>
    rw [List.mem_cons, not_or] at htoken
    rw [List.cons_append, nextToken, if_neg (Ne.symm htoken.1), ih htoken.2]
    rfl

theorem nextToken_eq_some {sep : α} {s token rest : List α} (h : nextToken sep s = some (token, rest)) :
    s = token ++ sep :: rest ∧ sep ∉ token := by
  induction s generalizing token with
  | nil => cases h
  | cons x s ih =>
    rw [nextToken] at h
    split at h
    · next hx =>
      cases h
      exact ⟨by rw [hx]; rfl, List.not_mem_nil⟩
    · next hx =>
      obtain ⟨⟨token', rest'⟩, hnext, heq⟩ := Option.map_eq_some_iff.mp h
      cases heq
      obtain ⟨rfl, hnot⟩ := ih hnext
      exact ⟨rfl, by simp [hnot, Ne.symm hx]⟩

end Tokens

/-- Texts of pairs, each half followed by a separator. -/
def pairs (sep : α) (ps : List (List α × List α)) : List α :=
  ps.flatMap fun p => p.1 ++ sep :: (p.2 ++ [sep])

@[simp] theorem pairs_nil (sep : α) : pairs sep [] = [] := rfl

theorem pairs_cons (sep : α) (p : List α × List α) (ps : List (List α × List α)) :
    pairs sep (p :: ps) = p.1 ++ sep :: (p.2 ++ sep :: pairs sep ps) := by
  simp [pairs]

theorem pairs_append (sep : α) (ps qs : List (List α × List α)) :
    pairs sep (ps ++ qs) = pairs sep ps ++ pairs sep qs := List.flatMap_append

/-- No half contains the separator. -/
def Free (sep : α) (ps : List (List α × List α)) : Prop := ∀ p ∈ ps, sep ∉ p.1 ∧ sep ∉ p.2

/-- The texts that consist of pairs. -/
def IsPairs (sep : α) (s : List α) : Prop := ∃ ps, Free sep ps ∧ s = pairs sep ps

/-- The text does not begin with a pair. -/
def NoPair (sep : α) (s : List α) : Prop :=
  ∀ p : List α × List α, sep ∉ p.1 → sep ∉ p.2 → ∀ rest, s ≠ p.1 ++ sep :: (p.2 ++ sep :: rest)

theorem free_nil (sep : α) : Free sep [] := fun _ hp => absurd hp List.not_mem_nil

theorem Free.tail {sep : α} {p : List α × List α} {ps : List (List α × List α)} (h : Free sep (p :: ps)) :
    Free sep ps :=
  fun q hq => h q (List.mem_cons_of_mem _ hq)

theorem noPair_nil (sep : α) : NoPair sep [] := by
  intro p _ _ rest h
  simp at h

theorem noPair_of_none [DecidableEq α] {sep : α} {s : List α} (h : nextToken sep s = none) : NoPair sep s := by
  rintro p hfirst _ rest rfl
  rw [nextToken_append hfirst] at h
  cases h

theorem noPair_of_second_none [DecidableEq α] {sep : α} {s token rest : List α}
    (h : nextToken sep s = some (token, rest)) (hsecond : nextToken sep rest = none) : NoPair sep s := by
  rintro p hfirst hsecond' rest' rfl
  rw [nextToken_append hfirst] at h
  cases h
  rw [nextToken_append hsecond'] at hsecond
  cases hsecond

/-- Pairs followed by something else are read in one way only. -/
theorem prefix_of_noPair [DecidableEq α] {sep : α} {qs : List (List α × List α)} (hqs : Free sep qs)
    {tail rest : List α}
    (hrest : NoPair sep rest) : ∀ {ps}, Free sep ps → pairs sep qs ++ tail = pairs sep ps ++ rest → qs <+: ps := by
  induction qs with
  | nil =>
    intro ps _ _
    exact List.nil_prefix
  | cons q qs ih =>
    intro ps hps h
    obtain ⟨hfirst, hsecond⟩ := hqs q List.mem_cons_self
    rw [pairs_cons, List.append_assoc, List.cons_append, List.append_assoc, List.cons_append] at h
    cases ps with
    | nil => exact absurd h.symm (hrest q hfirst hsecond _)
    | cons p ps =>
      obtain ⟨hfirst', hsecond'⟩ := hps p List.mem_cons_self
      rw [pairs_cons, List.append_assoc, List.cons_append, List.append_assoc, List.cons_append] at h
      have hnext := congrArg (nextToken sep) h
      rw [nextToken_append hfirst, nextToken_append hfirst', Option.some.injEq, Prod.mk.injEq] at hnext
      have hnext' := congrArg (nextToken sep) hnext.2
      rw [nextToken_append hsecond, nextToken_append hsecond', Option.some.injEq, Prod.mk.injEq] at hnext'
      have hsame : q = p := Prod.ext hnext.1 hnext'.1
      rw [hsame, List.cons_prefix_cons]
      exact ⟨rfl, ih hqs.tail hps.tail hnext'.2⟩

/-- So what stands before something else is the longest text of pairs there. -/
theorem length_le_of_noPair [DecidableEq α] {sep : α} {ps qs : List (List α × List α)} (hps : Free sep ps)
    (hqs : Free sep qs) {rest : List α} (hrest : NoPair sep rest) (h : pairs sep qs <+: pairs sep ps ++ rest) :
    (pairs sep qs).length ≤ (pairs sep ps).length := by
  obtain ⟨tail, htail⟩ := h
  obtain ⟨more, rfl⟩ := prefix_of_noPair hqs hrest hps htail
  rw [pairs_append, List.length_append]
  omega

theorem isPairs_append_iff [DecidableEq α] {sep : α} {ps : List (List α × List α)} (hps : Free sep ps) {rest : List α}
    (hrest : NoPair sep rest) : IsPairs sep (pairs sep ps ++ rest) ↔ rest = [] := by
  constructor
  · rintro ⟨qs, hqs, h⟩
    have hle := length_le_of_noPair hps hqs hrest (h ▸ List.prefix_refl _)
    have hlength := congrArg List.length h
    rw [List.length_append] at hlength
    exact List.eq_nil_of_length_eq_zero (by omega)
  · rintro rfl
    exact ⟨ps, hps, List.append_nil _⟩

end Separated
