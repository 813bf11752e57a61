import Chfs.Model.ChfsClient

namespace chfs

open Separated

/-- The content of a directory with the given entries. -/
def dir_text (entries : List Dirent) : List UInt8 :=
  entries.flatMap fun e => ChfsClient.inum_name_pair e.inum e.name

namespace ChfsClient

variable {c : ChfsClient} {buf : List UInt8} {list : List Dirent}

/-- The entry a pair of tokens stands for. -/
def dirent_of (c : ChfsClient) (p : List UInt8 × List UInt8) : Dirent :=
  { inum := c.n2i p.1, name := p.2 }

/-- What `readdir` makes of the content of a directory. -/
def parse (c : ChfsClient) (buf : List UInt8) : Status × List Dirent := c.readdir_loop buf buf.length 0 []

theorem slash_not_mem_filename (inum : UInt64) : slash ∉ filename inum := by
  intro hmem
  exact absurd (Decimal.isDigit_of_mem_print hmem) (by decide)

@[simp] theorem n2i_filename (c : ChfsClient) (inum : UInt64) : c.n2i (filename inum) = inum :=
  Decimal.read_print c.stack inum

theorem inum_name_pair_eq (inum : UInt64) (name : List UInt8) :
    inum_name_pair inum name = pairs slash [(filename inum, name)] := by
  simp [inum_name_pair, pairs]

theorem dir_text_eq (entries : List Dirent) :
    dir_text entries = pairs slash (entries.map fun e => (filename e.inum, e.name)) := by
  simp [dir_text, inum_name_pair, pairs, List.flatMap_map]

/-- One round of the loop takes a pair of tokens. -/
theorem readdir_loop_cons (n : Nat) {pos : Nat} {p : List UInt8 × List UInt8} {rest : List UInt8}
    (hfirst : slash ∉ p.1) (hsecond : slash ∉ p.2)
    (hbuf : buf.drop pos = p.1 ++ slash :: (p.2 ++ slash :: rest)) :
    ∃ pos' > pos, c.readdir_loop buf (n + 1) pos list = c.readdir_loop buf n pos' (list ++ [c.dirent_of p]) ∧
      buf.drop pos' = rest := by
  have hlength := congrArg List.length hbuf
  simp only [List.length_drop, List.length_append, List.length_cons] at hlength
  have hskip : buf.drop (pos + p.1.length + 1) = p.2 ++ slash :: rest := by
    rw [Nat.add_assoc, ← List.drop_drop, hbuf]
    simp
  have hfind : StdString.find buf slash pos = some (pos + p.1.length) := by
    rw [StdString.find_eq_nextToken, hbuf, nextToken_append hfirst]
    rfl
  have hfind' : StdString.find buf slash (pos + p.1.length + 1) = some (pos + p.1.length + 1 + p.2.length) := by
    rw [StdString.find_eq_nextToken, hskip, nextToken_append hsecond]
    rfl
  refine ⟨pos + p.1.length + 1 + p.2.length + 1, by omega, ?_, ?_⟩
  · rw [readdir_loop, if_pos (by omega)]
    simp only [hfind]
    rw [if_neg (by omega)]
    simp only [hfind', hbuf, hskip, dirent_of]
    simp
  · rw [Nat.add_assoc (pos + p.1.length + 1), ← List.drop_drop, hskip]
    simp

/-- So the loop takes pairs as long as there are any, and it ends well when nothing is left. -/
theorem readdir_loop_spec : ∀ {n pos : Nat} (list : List Dirent), buf.length - pos ≤ n →
    ∃ ps rest, Free slash ps ∧ buf.drop pos = pairs slash ps ++ rest ∧ NoPair slash rest ∧
      c.readdir_loop buf n pos list = (if rest = [] then .OK else .IOERR, list ++ ps.map c.dirent_of) := by
  intro n
  induction n with
  | zero =>
    intro pos list hn
    refine ⟨[], [], free_nil slash, ?_, noPair_nil slash, by simp [readdir_loop]⟩
    simp only [pairs_nil, List.append_nil, List.drop_eq_nil_iff]
    omega
  | succ n ih =>
    intro pos list hn
    by_cases hpos : pos < buf.length
    · have hmore : buf.drop pos ≠ [] := by
        rw [ne_eq, List.drop_eq_nil_iff]
        omega
      cases hfirst : nextToken slash (buf.drop pos) with
      | none =>
        refine ⟨[], buf.drop pos, free_nil slash, rfl, noPair_of_none hfirst, ?_⟩
        rw [readdir_loop, if_pos hpos, StdString.find_eq_nextToken, hfirst, if_neg hmore]
        simp
      | some first =>
        obtain ⟨hbuf, hfree⟩ := nextToken_eq_some hfirst
        have hskip : buf.drop (pos + first.1.length + 1) = first.2 := by
          rw [Nat.add_assoc, ← List.drop_drop, hbuf]
          simp
        cases hsecond : nextToken slash first.2 with
        | none =>
          refine ⟨[], buf.drop pos, free_nil slash, rfl, noPair_of_second_none hfirst hsecond, ?_⟩
          rw [readdir_loop, if_pos hpos, StdString.find_eq_nextToken, hfirst, if_neg hmore]
          simp only [Option.map_some, StdString.find_eq_nextToken, hskip, hsecond, Option.map_none]
          -- the text may also end right behind the separator
          split <;> simp
        | some second =>
          obtain ⟨hbuf', hfree'⟩ := nextToken_eq_some hsecond
          have htext : buf.drop pos = first.1 ++ slash :: (second.1 ++ slash :: second.2) := by rw [hbuf, hbuf']
          obtain ⟨pos', hadvance, hstep, hrest⟩ :=
            @readdir_loop_cons c buf list n pos (first.1, second.1) second.2 hfree hfree' htext
          obtain ⟨ps, rest, hps, hdrop, hnone, hloop⟩ := ih (list ++ [c.dirent_of (first.1, second.1)])
            (show buf.length - pos' ≤ n by omega)
          refine ⟨(first.1, second.1) :: ps, rest, ?_, ?_, hnone, ?_⟩
          · intro p hp
            rcases List.mem_cons.mp hp with rfl | hp
            · exact ⟨hfree, hfree'⟩
            · exact hps p hp
          · rw [htext, pairs_cons, ← hrest, hdrop]
            simp
          · rw [hstep, hloop]
            simp
    · refine ⟨[], [], free_nil slash, ?_, noPair_nil slash, by simp [readdir_loop, hpos]⟩
      simp only [pairs_nil, List.append_nil, List.drop_eq_nil_iff]
      omega

/-- What `readdir` makes of a text: the entries of its longest part that consists of pairs,
    and OK when that is all of it. -/
theorem parse_spec (c : ChfsClient) (buf : List UInt8) :
    ∃ ps rest, Free slash ps ∧ buf = pairs slash ps ++ rest ∧ NoPair slash rest ∧
      c.parse buf = (if rest = [] then .OK else .IOERR, ps.map c.dirent_of) := by
  obtain ⟨ps, rest, hps, hbuf, hnone, hloop⟩ := @readdir_loop_spec c buf _ 0 [] (Nat.sub_le _ 0)
  exact ⟨ps, rest, hps, hbuf, hnone, hloop⟩

/-- `readdir` accepts the texts of pairs, and lists one entry for each of them. -/
theorem parse_eq_ok {entries : List Dirent} :
    c.parse buf = (.OK, entries) ↔ ∃ ps, Free slash ps ∧ buf = pairs slash ps ∧ entries = ps.map c.dirent_of := by
  obtain ⟨ps, rest, hps, hbuf, hnone, hparse⟩ := c.parse_spec buf
  rw [hparse]
  constructor
  · intro h
    by_cases hrest : rest = []
    · rw [if_pos hrest, Prod.mk.injEq] at h
      exact ⟨ps, hps, by rw [hbuf, hrest, List.append_nil], h.2.symm⟩
    · rw [if_neg hrest] at h
      cases h
  · rintro ⟨qs, hqs, hpairs, rfl⟩
    have hrest : rest = [] := (isPairs_append_iff hps hnone).mp ⟨qs, hqs, hbuf.symm.trans hpairs⟩
    have htext : pairs slash qs ++ [] = pairs slash ps ++ [] := by rw [← hrest, ← hbuf, hpairs, hrest, List.append_nil]
    have hle := prefix_of_noPair hqs (noPair_nil slash) hps htext
    have hge := prefix_of_noPair hps (noPair_nil slash) hqs htext.symm
    rw [if_pos hrest, hle.eq_of_length_le hge.length_le]

/-- Reading what was written gives the entries back. -/
theorem parse_dir_text (c : ChfsClient) {entries : List Dirent} (hfree : ∀ e ∈ entries, slash ∉ e.name) :
    c.parse (dir_text entries) = (.OK, entries) := by
  refine parse_eq_ok.mpr ⟨entries.map fun e => (filename e.inum, e.name), ?_, dir_text_eq entries, ?_⟩
  · intro p hp
    obtain ⟨e, he, rfl⟩ := List.mem_map.mp hp
    exact ⟨slash_not_mem_filename e.inum, hfree e he⟩
  · simp [dirent_of, Function.comp_def]

/-- A pair appended to what `readdir` accepts is one more entry at the end. -/
theorem parse_append {entries : List Dirent} (h : c.parse buf = (.OK, entries)) (inum : UInt64)
    {name : List UInt8} (hname : slash ∉ name) :
    c.parse (buf ++ inum_name_pair inum name) = (.OK, entries ++ [({ inum, name } : Dirent)]) := by
  obtain ⟨ps, hfree, rfl, rfl⟩ := parse_eq_ok.mp h
  refine parse_eq_ok.mpr ⟨ps ++ [(filename inum, name)], ?_, ?_, ?_⟩
  · intro p hp
    rcases List.mem_append.mp hp with hp | hp
    · exact hfree p hp
    · rw [List.mem_singleton.mp hp]
      exact ⟨slash_not_mem_filename inum, hname⟩
  · rw [pairs_append, inum_name_pair_eq]
  · simp [dirent_of]

/-- The names `readdir` lists contain no separator. -/
theorem slash_not_mem_of_parse {entries : List Dirent} (h : c.parse buf = (.OK, entries)) :
    ∀ e ∈ entries, slash ∉ e.name := by
  obtain ⟨ps, hfree, _, rfl⟩ := parse_eq_ok.mp h
  intro e he
  obtain ⟨p, hp, rfl⟩ := List.mem_map.mp he
  exact (hfree p hp).2

end ChfsClient

end chfs
