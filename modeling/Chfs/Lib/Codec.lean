import Chfs.Lib.Trace

/-! How values are written to an output, and read from an input again. A value is read into a
    variable, which holds something before. -/

@[ext] structure Codec (ω ι ε α : Type) where
  put : ω → α → Except ε ω
  get : ι → α → Except ε (ι × α)

/-- Outputs that elements can be added to, and inputs with what is left of them, unless
    reading has failed. -/
structure Medium (ω ι β : Type) where
  Adds : ω → List β → ω → Prop
  left : ι → Option (List β)
  adds_nil : ∀ out, Adds out [] out
  adds_append : ∀ {out out₁ out₂ xs ys}, Adds out xs out₁ → Adds out₁ ys out₂ → Adds out (xs ++ ys) out₂

namespace Codec

variable {ω ι ε α β γ δ : Type}

/-- What is written, where writing comes to an end. -/
def Writes (codec : Codec ω ι ε α) (medium : Medium ω ι β) (enc : α → Option (List β)) : Prop :=
  ∀ out a bytes out', enc a = some bytes → codec.put out a = .ok out' → medium.Adds out bytes out'

/-- It is read back, -/
def Reads (codec : Codec ω ι ε α) (medium : Medium ω ι β) (enc : α → Option (List β)) (fresh : α → Prop) : Prop :=
  ∀ a bytes input var rest, enc a = some bytes → fresh var → medium.left input = some (bytes ++ rest) →
    ∃ input', codec.get input var = .ok (input', a) ∧ medium.left input' = some rest

/-- and nothing else is, without a failure. -/
def Strict (codec : Codec ω ι ε α) (medium : Medium ω ι β) (enc : α → Option (List β)) (fresh : α → Prop) : Prop :=
  ∀ input var input' a rest, fresh var → codec.get input var = .ok (input', a) → medium.left input' = some rest →
    ∃ bytes, enc a = some bytes ∧ medium.left input = some (bytes ++ rest)

/-- The codec carries the values that have an encoding. -/
structure Carries (codec : Codec ω ι ε α) (medium : Medium ω ι β) (enc : α → Option (List β))
    (fresh : α → Prop) : Prop where
  writes : codec.Writes medium enc
  reads : codec.Reads medium enc fresh
  strict : codec.Strict medium enc fresh

/-- Writing comes to an end exactly where there is room, and takes it up. -/
def Fills (codec : Codec ω ι ε α) (enc : α → Option (List β)) (sound : ω → Prop) (room : ω → Nat) : Prop :=
  ∀ out a bytes, enc a = some bytes → sound out →
    (bytes.length ≤ room out → ∃ out', codec.put out a = .ok out') ∧
      ∀ out', codec.put out a = .ok out' → sound out' ∧ room out' + bytes.length = room out

/-- One value after another. -/
def both (first : Codec ω ι ε α) (second : Codec ω ι ε γ) : Codec ω ι ε (α × γ) where
  put out pair := do
    let out ← first.put out pair.1
    second.put out pair.2
  get input var := do
    let (input, a) ← first.get input var.1
    let (input, c) ← second.get input var.2
    return (input, a, c)

def enc_both (enc : α → Option (List β)) (enc' : γ → Option (List β)) (pair : α × γ) : Option (List β) := do
  return (← enc pair.1) ++ (← enc' pair.2)

/-- The same for another type of values. -/
def of (codec : Codec ω ι ε α) (e : α ≃ γ) : Codec ω ι ε γ where
  put out c := codec.put out (e.symm c)
  get input var := do
    let (input, a) ← codec.get input (e.symm var)
    return (input, e a)

/-- All values of a list. -/
def puts (codec : Codec ω ι ε α) : ω → List α → Except ε ω
  | out, [] => .ok out
  | out, a :: as => do
    let out ← codec.put out a
    codec.puts out as

def enc_all (enc : α → Option (List β)) : List α → Option (List β)
  | [] => some []
  | a :: as => do return (← enc a) ++ (← enc_all enc as)

/-- Reads `n` values, the `i`-th into its variable, and adds each to what there is. -/
def gets (codec : Codec ω ι ε α) (vars : Nat → α) (add : δ → α → δ) : (n i : Nat) → ι → δ → Except ε (ι × δ)
  | 0, _, input, acc => .ok (input, acc)
  | n + 1, i, input, acc => do
    let (input, a) ← codec.get input (vars i)
    codec.gets vars add n (i + 1) input (add acc a)

variable {medium : Medium ω ι β} {first : Codec ω ι ε α} {second : Codec ω ι ε γ} {codec : Codec ω ι ε α}
  {enc : α → Option (List β)} {enc' : γ → Option (List β)} {fresh : α → Prop} {fresh' : γ → Prop}
  {sound : ω → Prop} {room : ω → Nat}

theorem enc_both_eq_some {a : α} {c : γ} {bytes : List β} :
    enc_both enc enc' (a, c) = some bytes ↔
      ∃ bytes₁ bytes₂, enc a = some bytes₁ ∧ enc' c = some bytes₂ ∧ bytes = bytes₁ ++ bytes₂ := by
  simp only [enc_both, Option.bind_eq_bind, Option.bind_eq_some_iff, Option.pure_def, Option.some_inj]
  constructor
  · rintro ⟨bytes₁, hfirst, bytes₂, hsecond, rfl⟩
    exact ⟨bytes₁, bytes₂, hfirst, hsecond, rfl⟩
  · rintro ⟨bytes₁, bytes₂, hfirst, hsecond, rfl⟩
    exact ⟨bytes₁, hfirst, bytes₂, hsecond, rfl⟩

theorem Carries.both (hfirst : first.Carries medium enc fresh) (hsecond : second.Carries medium enc' fresh') :
    (first.both second).Carries medium (enc_both enc enc') fun pair => fresh pair.1 ∧ fresh' pair.2 where
  writes := by
    rintro out ⟨a, c⟩ bytes out' hbytes hput
    obtain ⟨bytes₁, bytes₂, h₁, h₂, rfl⟩ := enc_both_eq_some.mp hbytes
    obtain ⟨out₁, hput₁, hput₂⟩ := Except.bind_eq_ok_iff.mp hput
    exact medium.adds_append (hfirst.writes _ _ _ _ h₁ hput₁) (hsecond.writes _ _ _ _ h₂ hput₂)
  reads := by
    rintro ⟨a, c⟩ bytes input var rest hbytes ⟨hvar, hvar'⟩ hleft
    obtain ⟨bytes₁, bytes₂, h₁, h₂, rfl⟩ := enc_both_eq_some.mp hbytes
    rw [List.append_assoc] at hleft
    obtain ⟨input₁, hget₁, hleft₁⟩ := hfirst.reads _ _ _ _ _ h₁ hvar hleft
    obtain ⟨input₂, hget₂, hleft₂⟩ := hsecond.reads _ _ _ _ _ h₂ hvar' hleft₁
    refine ⟨input₂, Except.bind_eq_ok_iff.mpr ⟨_, hget₁, ?_⟩, hleft₂⟩
    exact Except.bind_eq_ok_iff.mpr ⟨_, hget₂, rfl⟩
  strict := by
    rintro input var input' ⟨a, c⟩ rest ⟨hvar, hvar'⟩ hget hleft
    obtain ⟨⟨input₁, a₁⟩, hget₁, hget⟩ := Except.bind_eq_ok_iff.mp hget
    obtain ⟨⟨input₂, c₂⟩, hget₂, hlast⟩ := Except.bind_eq_ok_iff.mp hget
    cases hlast
    obtain ⟨bytes₂, h₂, hleft₂⟩ := hsecond.strict _ _ _ _ _ hvar' hget₂ hleft
    obtain ⟨bytes₁, h₁, hleft₁⟩ := hfirst.strict _ _ _ _ _ hvar hget₁ hleft₂
    exact ⟨bytes₁ ++ bytes₂, enc_both_eq_some.mpr ⟨bytes₁, bytes₂, h₁, h₂, rfl⟩, by rw [hleft₁, List.append_assoc]⟩

theorem Fills.both (hfirst : first.Fills enc sound room) (hsecond : second.Fills enc' sound room) :
    (first.both second).Fills (enc_both enc enc') sound room := by
  rintro out ⟨a, c⟩ bytes hbytes hsound
  obtain ⟨bytes₁, bytes₂, h₁, h₂, rfl⟩ := enc_both_eq_some.mp hbytes
  obtain ⟨hroom₁, hdone₁⟩ := hfirst out a bytes₁ h₁ hsound
  rw [List.length_append]
  constructor
  · intro hle
    obtain ⟨out₁, hput₁⟩ := hroom₁ (by omega)
    obtain ⟨hsound₁, htaken⟩ := hdone₁ out₁ hput₁
    obtain ⟨out₂, hput₂⟩ := (hsecond out₁ c bytes₂ h₂ hsound₁).1 (by omega)
    exact ⟨out₂, Except.bind_eq_ok_iff.mpr ⟨out₁, hput₁, hput₂⟩⟩
  · intro out' hput
    obtain ⟨out₁, hput₁, hput₂⟩ := Except.bind_eq_ok_iff.mp hput
    obtain ⟨hsound₁, htaken₁⟩ := hdone₁ out₁ hput₁
    obtain ⟨hsound₂, htaken₂⟩ := (hsecond out₁ c bytes₂ h₂ hsound₁).2 out' hput₂
    exact ⟨hsound₂, by omega⟩

theorem Carries.of (h : codec.Carries medium enc fresh) (e : α ≃ γ) :
    (codec.of e).Carries medium (fun c => enc (e.symm c)) fun c => fresh (e.symm c) where
  writes out c bytes out' hbytes hput := h.writes _ _ _ _ hbytes hput
  reads := by
    intro c bytes input var rest hbytes hvar hleft
    obtain ⟨input', hget, hleft'⟩ := h.reads _ _ _ _ _ hbytes hvar hleft
    refine ⟨input', Except.bind_eq_ok_iff.mpr ⟨_, hget, ?_⟩, hleft'⟩
    dsimp only
    rw [Equiv.apply_symm_apply]
    rfl
  strict := by
    intro input var input' c rest hvar hget hleft
    obtain ⟨⟨input₁, a⟩, hget₁, hlast⟩ := Except.bind_eq_ok_iff.mp hget
    cases hlast
    obtain ⟨bytes, hbytes, hleft₁⟩ := h.strict _ _ _ _ _ hvar hget₁ hleft
    exact ⟨bytes, (congrArg enc (e.symm_apply_apply a)).trans hbytes, hleft₁⟩

theorem Fills.of (h : codec.Fills enc sound room) (e : α ≃ γ) :
    (codec.of e).Fills (fun c => enc (e.symm c)) sound room :=
  fun out c bytes hbytes hsound => h out (e.symm c) bytes hbytes hsound

theorem enc_all_cons {a : α} {as : List α} {bytes : List β} :
    enc_all enc (a :: as) = some bytes ↔
      ∃ bytes₁ bytes₂, enc a = some bytes₁ ∧ enc_all enc as = some bytes₂ ∧ bytes = bytes₁ ++ bytes₂ := by
  simp only [enc_all, Option.bind_eq_bind, Option.bind_eq_some_iff, Option.pure_def, Option.some_inj]
  constructor
  · rintro ⟨bytes₁, hfirst, bytes₂, hsecond, rfl⟩
    exact ⟨bytes₁, bytes₂, hfirst, hsecond, rfl⟩
  · rintro ⟨bytes₁, bytes₂, hfirst, hsecond, rfl⟩
    exact ⟨bytes₁, hfirst, bytes₂, hsecond, rfl⟩

theorem exists_enc_all {as : List α} (h : ∀ a ∈ as, ∃ bytes, enc a = some bytes) :
    ∃ bytes, enc_all enc as = some bytes := by
  induction as with
  | nil => exact ⟨[], rfl⟩
  | cons a as ih =>
    obtain ⟨bytes₁, h₁⟩ := h a List.mem_cons_self
    obtain ⟨bytes₂, h₂⟩ := ih fun x hx => h x (List.mem_cons_of_mem _ hx)
    exact ⟨bytes₁ ++ bytes₂, enc_all_cons.mpr ⟨bytes₁, bytes₂, h₁, h₂, rfl⟩⟩

theorem Writes.puts (h : codec.Writes medium enc) (as : List α) :
    ∀ out bytes out', enc_all enc as = some bytes → codec.puts out as = .ok out' → medium.Adds out bytes out' := by
  induction as with
  | nil =>
    intro out bytes out' hbytes hputs
    cases hbytes
    cases hputs
    exact medium.adds_nil out
  | cons a as ih =>
    intro out bytes out' hbytes hputs
    obtain ⟨bytes₁, bytes₂, h₁, h₂, rfl⟩ := enc_all_cons.mp hbytes
    obtain ⟨out₁, hput, hrest⟩ := Except.bind_eq_ok_iff.mp hputs
    exact medium.adds_append (h _ _ _ _ h₁ hput) (ih _ _ _ h₂ hrest)

theorem Fills.puts (h : codec.Fills enc sound room) (as : List α) :
    ∀ out bytes, enc_all enc as = some bytes → sound out →
      (bytes.length ≤ room out → ∃ out', codec.puts out as = .ok out') ∧
        ∀ out', codec.puts out as = .ok out' → sound out' ∧ room out' + bytes.length = room out := by
  induction as with
  | nil =>
    intro out bytes hbytes hsound
    cases hbytes
    refine ⟨fun _ => ⟨out, rfl⟩, ?_⟩
    intro out' hputs
    cases hputs
    exact ⟨hsound, rfl⟩
  | cons a as ih =>
    intro out bytes hbytes hsound
    obtain ⟨bytes₁, bytes₂, h₁, h₂, rfl⟩ := enc_all_cons.mp hbytes
    obtain ⟨hroom₁, hdone₁⟩ := h out a bytes₁ h₁ hsound
    rw [List.length_append]
    constructor
    · intro hle
      obtain ⟨out₁, hput⟩ := hroom₁ (by omega)
      obtain ⟨hsound₁, htaken⟩ := hdone₁ out₁ hput
      obtain ⟨out₂, hputs⟩ := (ih out₁ bytes₂ h₂ hsound₁).1 (by omega)
      exact ⟨out₂, Except.bind_eq_ok_iff.mpr ⟨out₁, hput, hputs⟩⟩
    · intro out' hputs
      obtain ⟨out₁, hput, hrest⟩ := Except.bind_eq_ok_iff.mp hputs
      obtain ⟨hsound₁, htaken₁⟩ := hdone₁ out₁ hput
      obtain ⟨hsound₂, htaken₂⟩ := (ih out₁ bytes₂ h₂ hsound₁).2 out' hrest
      exact ⟨hsound₂, by omega⟩

variable {vars : Nat → α} {add : δ → α → δ}

/-- As many values as were written are read back. -/
theorem Reads.gets (h : codec.Reads medium enc fresh) (hvars : ∀ i, fresh (vars i)) (add : δ → α → δ) (as : List α) :
    ∀ bytes i input acc rest, enc_all enc as = some bytes → medium.left input = some (bytes ++ rest) →
      ∃ input', codec.gets vars add as.length i input acc = .ok (input', as.foldl add acc) ∧
        medium.left input' = some rest := by
  induction as with
  | nil =>
    intro bytes i input acc rest hbytes hleft
    cases hbytes
    exact ⟨input, rfl, hleft⟩
  | cons a as ih =>
    intro bytes i input acc rest hbytes hleft
    obtain ⟨bytes₁, bytes₂, h₁, h₂, rfl⟩ := enc_all_cons.mp hbytes
    rw [List.append_assoc] at hleft
    obtain ⟨input₁, hget, hleft₁⟩ := h _ _ _ _ _ h₁ (hvars i) hleft
    obtain ⟨input₂, hgets, hleft₂⟩ := ih bytes₂ (i + 1) input₁ (add acc a) rest h₂ hleft₁
    exact ⟨input₂, Except.bind_eq_ok_iff.mpr ⟨_, hget, hgets⟩, hleft₂⟩

theorem Strict.gets (h : codec.Strict medium enc fresh) (hvars : ∀ i, fresh (vars i)) (n : Nat) :
    ∀ i input acc input' acc' rest, codec.gets vars add n i input acc = .ok (input', acc') →
      medium.left input' = some rest →
      ∃ as bytes, as.length = n ∧ acc' = as.foldl add acc ∧ enc_all enc as = some bytes ∧
        medium.left input = some (bytes ++ rest) := by
  induction n with
  | zero =>
    intro i input acc input' acc' rest hgets hleft
    cases hgets
    exact ⟨[], [], rfl, rfl, rfl, hleft⟩
  | succ n ih =>
    intro i input acc input' acc' rest hgets hleft
    obtain ⟨⟨input₁, a⟩, hget, hgets⟩ := Except.bind_eq_ok_iff.mp hgets
    obtain ⟨as, bytes, hlength, hacc, hbytes, hleft₁⟩ := ih _ _ _ _ _ _ hgets hleft
    obtain ⟨bytes₁, h₁, hleft₂⟩ := h _ _ _ _ _ (hvars i) hget hleft₁
    refine ⟨a :: as, bytes₁ ++ bytes, by rw [List.length_cons, hlength], hacc, ?_, by rw [hleft₂, List.append_assoc]⟩
    exact enc_all_cons.mpr ⟨bytes₁, bytes, h₁, hbytes, rfl⟩

/-- Values that are told apart when they are read have encodings of their own. -/
theorem Reads.enc_inj (h : codec.Reads medium enc fresh) {var : α} (hvar : fresh var) {input : ι} {a a' : α}
    {bytes rest : List β} (hleft : medium.left input = some (bytes ++ rest)) (ha : enc a = some bytes)
    (ha' : enc a' = some bytes) : a = a' := by
  obtain ⟨input₁, hget, _⟩ := h _ _ _ _ _ ha hvar hleft
  obtain ⟨input₂, hget', _⟩ := h _ _ _ _ _ ha' hvar hleft
  rw [hget] at hget'
  cases hget'
  rfl

theorem length_le_of_ne_nil {as : List α} (hne : ∀ a ∈ as, enc a ≠ some []) :
    ∀ {bytes : List β}, enc_all enc as = some bytes → as.length ≤ bytes.length := by
  induction as with
  | nil => exact fun _ => Nat.zero_le _
  | cons a as ih =>
    intro bytes hbytes
    obtain ⟨bytes₁, bytes₂, h₁, h₂, rfl⟩ := enc_all_cons.mp hbytes
    have hrest := ih (fun x hx => hne x (List.mem_cons_of_mem _ hx)) h₂
    have hfirst : bytes₁.length ≠ 0 := by
      rw [ne_eq, List.length_eq_zero_iff]
      rintro rfl
      exact hne a List.mem_cons_self h₁
    rw [List.length_cons, List.length_append]
    omega

/-- Of different values at most one is written as nothing at all. -/
theorem length_le_of_inj {as : List α} (hnodup : as.Nodup)
    (hinj : ∀ a a', enc a = some [] → enc a' = some [] → a = a') :
    ∀ {bytes : List β}, enc_all enc as = some bytes → as.length ≤ bytes.length + 1 := by
  induction as with
  | nil => exact fun _ => Nat.zero_le _
  | cons a as ih =>
    intro bytes hbytes
    obtain ⟨hnot, hnodup⟩ := List.nodup_cons.mp hnodup
    obtain ⟨bytes₁, bytes₂, h₁, h₂, rfl⟩ := enc_all_cons.mp hbytes
    rw [List.length_cons, List.length_append]
    cases bytes₁ with
    | nil =>
      have hrest := length_le_of_ne_nil (fun x hx hempty => hnot (hinj x a hempty h₁ ▸ hx)) h₂
      rw [List.length_nil]
      omega
    | cons byte bytes₁ =>
      have hrest := ih hnodup h₂
      rw [List.length_cons]
      omega

end Codec
