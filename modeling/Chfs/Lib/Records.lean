import Mathlib

/-- A format of records of different sizes that are laid end to end. Each tells where the
    next one starts. -/
structure RecordFormat (α : Type) where
  size : α → Nat
  encode : α → Nat → List UInt8

namespace RecordFormat

variable {α : Type} (format : RecordFormat α)

/-- The size of some records together. -/
def total (records : List α) : Nat := (records.map format.size).sum

/-- The records, the first of which starts at `off`. -/
def layout : Nat → List α → List UInt8
  | _, [] => []
  | off, record :: rest => format.encode record (off + format.size record) ++ layout (off + format.size record) rest

/-- The records, each with the offset behind it. -/
def placed : Nat → List α → List (α × Nat)
  | _, [] => []
  | off, record :: rest => (record, off + format.size record) :: placed (off + format.size record) rest

/-- Takes up to `n` records from the front of the bytes, as long as there is a whole one. -/
def scan (decode : List UInt8 → Option (α × Nat × List UInt8)) : (n : Nat) → List UInt8 → List (α × Nat)
  | 0, _ => []
  | n + 1, bytes =>
    match decode bytes with
    | some (record, next, rest) => (record, next) :: scan decode n rest
    | none => []

/-- Each record takes as many bytes as its size says. -/
def Sized : Prop := ∀ record next, (format.encode record next).length = format.size record

/-- A decoder of the valid records at offsets below `bound`: it takes the record at the
    front, and refuses one that is cut off. -/
structure Decodes (valid : α → Prop) (bound : Nat) (decode : List UInt8 → Option (α × Nat × List UInt8)) : Prop where
  nil : decode [] = none
  pos : ∀ record, valid record → 0 < format.size record
  whole : ∀ record next rest, valid record → next < bound →
    decode (format.encode record next ++ rest) = some (record, next, rest)
  cut : ∀ record next n, valid record → next < bound → n < format.size record →
    decode ((format.encode record next).take n) = none

variable {format} {decode : List UInt8 → Option (α × Nat × List UInt8)} {valid : α → Prop} {bound off : Nat}

@[simp] theorem total_nil : format.total [] = 0 := rfl

@[simp] theorem total_cons (record : α) (records : List α) :
    format.total (record :: records) = format.size record + format.total records := by
  simp [total]

@[simp] theorem total_append (first second : List α) :
    format.total (first ++ second) = format.total first + format.total second := by
  simp [total]

theorem map_fst_placed (records : List α) : ∀ off, (format.placed off records).map Prod.fst = records := by
  induction records with
  | nil =>
    intro off
    rfl
  | cons record records ih =>
    intro off
    rw [placed, List.map_cons, ih]

theorem take_placed (records : List α) :
    ∀ off n, (format.placed off records).take n = format.placed off (records.take n) := by
  induction records with
  | nil =>
    intro off n
    rw [placed, List.take_nil, List.take_nil, placed]
  | cons record records ih =>
    intro off n
    cases n with
    | zero => rfl
    | succ n => rw [placed, List.take_succ_cons, List.take_succ_cons, placed, ih]

/-- The last record tells the offset behind all of them. -/
theorem last_placed (records : List α) :
    ∀ off, ((format.placed off records).map Prod.snd).getLastD off = off + format.total records := by
  induction records with
  | nil =>
    intro off
    rfl
  | cons record records ih =>
    intro off
    rw [placed, List.map_cons, List.getLastD_cons, ih, total_cons, Nat.add_assoc]

theorem length_layout (h : format.Sized) (records : List α) :
    ∀ off, (format.layout off records).length = format.total records := by
  induction records with
  | nil =>
    intro off
    rfl
  | cons record records ih =>
    intro off
    rw [layout, List.length_append, h, ih, total_cons]

theorem layout_append (first second : List α) :
    ∀ off, format.layout off (first ++ second) =
      format.layout off first ++ format.layout (off + format.total first) second := by
  induction first with
  | nil =>
    intro off
    rfl
  | cons record first ih =>
    intro off
    simp only [List.cons_append, layout, ih, total_cons, Nat.add_assoc, List.append_assoc]

/-- Behind the first records start the others. -/
theorem drop_layout (h : format.Sized) (first second : List α) (off : Nat) :
    (format.layout off (first ++ second)).drop (format.total first) =
    format.layout (off + format.total first) second := by
  rw [layout_append, ← length_layout h first off, List.drop_left]

theorem scan_of_none {bytes : List UInt8} (h : decode bytes = none) (fuel : Nat) : scan decode fuel bytes = [] := by
  cases fuel with
  | zero => rfl
  | succ fuel => rw [scan, h]

/-- Scanning `n` bytes of a layout finds the records that lie in them, up to the first
    that does not. -/
theorem scan_layout (h : format.Sized) (hdecode : format.Decodes valid bound decode) (records : List α) :
    ∀ off n fuel, (∀ record ∈ records, valid record) → off + format.total records < bound → n ≤ fuel →
      ∃ first second, records = first ++ second ∧ format.total first ≤ n ∧
        scan decode fuel ((format.layout off records).take n) = format.placed off first ∧
        ∀ record ∈ second.head?, n < format.total first + format.size record := by
  induction records with
  | nil =>
    intro off n fuel _ _ _
    refine ⟨[], [], rfl, Nat.zero_le _, ?_, by simp⟩
    rw [layout, List.take_nil]
    exact scan_of_none hdecode.nil fuel
  | cons record records ih =>
    intro off n fuel hvalid hbound hfuel
    have hrecord := hvalid record List.mem_cons_self
    have hlength := h record (off + format.size record)
    rw [total_cons] at hbound
    rw [layout]
    by_cases hn : n < format.size record
    · refine ⟨[], record :: records, rfl, Nat.zero_le _, ?_, by simpa using hn⟩
      rw [List.take_append_of_le_length (by omega)]
      exact scan_of_none (hdecode.cut record _ n hrecord (by omega) hn) fuel
    · have hpos := hdecode.pos record hrecord
      obtain ⟨fuel, rfl⟩ : ∃ less, fuel = less + 1 := ⟨fuel - 1, by omega⟩
      obtain ⟨first, second, hsplit, hfirst, hscan, hnext⟩ :=
        ih (off + format.size record) (n - format.size record) fuel
        (fun other hother => hvalid other (List.mem_cons_of_mem _ hother)) (by omega) (by omega)
      refine ⟨record :: first, second, congrArg (record :: ·) hsplit, ?_, ?_, ?_⟩
      · rw [total_cons]
        omega
      · rw [List.take_append, hlength, List.take_of_length_le (by omega), scan,
          hdecode.whole record _ _ hrecord (by omega), placed]
        exact congrArg _ hscan
      · intro other hother
        have := hnext other hother
        rw [total_cons]
        omega

/-- So does scanning a page of it, whose length bounds the number of records. -/
theorem scan_page (h : format.Sized) (hdecode : format.Decodes valid bound decode) (records : List α) (off n : Nat)
    (hvalid : ∀ record ∈ records, valid record) (hbound : off + format.total records < bound) :
    let page := (format.layout off records).take n
    ∃ first second, records = first ++ second ∧ scan decode page.length page = format.placed off first ∧
      ∀ record ∈ second.head?, n < format.total first + format.size record := by
  intro page
  have hlength : page.length = min n (format.total records) := by
    rw [List.length_take, length_layout h]
  have hpage : (format.layout off records).take page.length = page := by
    rw [hlength, ← length_layout h records off, ← List.take_eq_take_min]
  obtain ⟨first, second, hsplit, hfirst, hscan, hnext⟩ :=
    scan_layout h hdecode records off page.length page.length hvalid
    hbound le_rfl
  rw [hpage] at hscan
  refine ⟨first, second, hsplit, hscan, ?_⟩
  intro record hrecord
  have hlt := hnext record hrecord
  obtain ⟨rest, rfl⟩ := List.head?_eq_some_iff.mp hrecord
  rw [hsplit, total_append, total_cons] at hlength
  omega

end RecordFormat
