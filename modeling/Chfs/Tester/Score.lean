import Chfs.Client.Spec
import Chfs.Tester.Exchanges

namespace chfs

open BlockManager InodeManager ExtentServer

namespace Part1Tester

open ExtentClient

variable {ec : ExtentClient} {files : Files} {m : Nat}

theorem nth_id_lt {i : Nat} (hi : i < 2 ^ 30) : (nth_id i).toNat < 2 ^ 31 := by
  rw [nth_id, UInt64.toNat_ofNat']
  omega

theorem inum_of_nth_id_inj {i j : Nat} (hi : i < 2 ^ 30) (hj : j < 2 ^ 30)
    (h : inum_of (nth_id i) = inum_of (nth_id j)) :
    i = j := by
  have hval := congrArg UInt32.toNat h
  rw [nth_id, nth_id, inum_of_ofNat (by omega), inum_of_ofNat (by omega)] at hval
  omega

/-- As long as there are free inums, the files and directories created are of the type asked for. -/
theorem create_and_getattr_passes (n : Nat) : ∀ (m : Nat) (r : Rand) (ec : ExtentClient) (files : Files),
    ec.Keeps files → ec.es.im.ledger.Ahead m → 1 ≤ m → m + n ≤ 1023 →
      ∃ ec' files', create_and_getattr n r ec = (0, ec') ∧ ec'.Keeps files' ∧
        ec'.es.im.ledger.Ahead (m + n) ∧ ec'.es.im.ledger.free = ec.es.im.ledger.free := by
  induction n with
  | zero =>
    intro m r ec files h hahead _ _
    exact ⟨ec, files, rfl, h, hahead, rfl⟩
  | succ n ih =>
    intro m r ec files h hahead hlo hhi
    obtain ⟨inum, hnext, hinum⟩ := hahead.next hlo (by omega)
    obtain ⟨type, htype⟩ : ∃ type, type = if r 0 % 10 < 3 then FileType.T_DIR else FileType.T_FILE := ⟨_, rfl⟩
    obtain ⟨ec₁, hcreate, _, h₁, hledger⟩ := create_exchange h type hnext
    obtain ⟨hret, ha⟩ := getattr_exchange h₁ inum.toUInt64
    rw [Files.type_code, inum_of_toUInt64 (by omega), Function.update_self] at ha
    have hne : ¬ inum.toUInt64.toUInt32 = 0 := by
      rw [UInt32.toUInt32_toUInt64]
      rintro rfl
      cases hinum
    have hahead₁ := hahead.create hnext hinum type.code
    rw [← hledger] at hahead₁
    have hfree : ec₁.es.im.ledger.free = ec.es.im.ledger.free := by
      rw [hledger, Ledger.create, hnext]
    obtain ⟨ec', files', hrun, h', hahead', hfree'⟩ := ih (m + 1) (rand r).2 ec₁ _ h₁ hahead₁ (by omega) (by omega)
    refine ⟨ec', files', ?_, h', ?_, hfree'.trans hfree⟩
    · rw [create_and_getattr]
      dsimp only [rand]
      rw [← htype, hcreate]
      dsimp only
      rw [if_neg hne, if_neg (not_not.mpr hret), if_neg (not_not.mpr ha)]
      exact hrun
    · rwa [Nat.add_right_comm, Nat.add_assoc] at hahead'

/-- If the `extentid_t` is that of a file, it holds the digits of its number. -/
def Numbered (files : Files) (contents : Nat → Nat) (i : Nat) : Prop :=
  files.type_code (nth_id i) = FileType.T_FILE.code → files.content (nth_id i) = Decimal.print (contents i)

theorem file_block_count_print {k : Nat} (hk : k < 10000) : file_block_count (Decimal.print k).length = 1 := by
  have hpos := List.length_pos_iff.mpr (Decimal.print_ne_nil k)
  have hle : (Decimal.print k).length ≤ 4 := Decimal.length_print_le (by omega) hk
  rw [file_block_count_eq]
  unfold pointers_for blocks_for
  split <;> omega

/-- Storing a number takes at most one block. -/
theorem put_number {i k : Nat} {old : List UInt8} (h : ec.Keeps files) (hi : i < 50) (hk : k < 10000)
    (hfile : files (inum_of (nth_id i)) = some (.T_FILE, old)) (hfree : 1 ≤ ec.es.im.ledger.free) :
    ∃ ec', ec.put (nth_id i) (Decimal.print k) = .ok (.OK, ec') ∧
      ec'.Keeps (Function.update files (inum_of (nth_id i)) (some (.T_FILE, Decimal.print k))) ∧
      ec.es.im.ledger.put (nth_id i) (Decimal.print k).length = some ec'.es.im.ledger ∧
      ec.es.im.ledger.free ≤ ec'.es.im.ledger.free + 1 := by
  have hcount := file_block_count_print hk
  have hpos := List.length_pos_iff.mpr (Decimal.print_ne_nil k)
  have hle : (Decimal.print k).length ≤ 4 := Decimal.length_print_le (by omega) hk
  obtain ⟨held, hlive⟩ := ledger_files h hfile
  have hroom : ∀ l, ec.es.im.ledger.put (nth_id i) (Decimal.print k).length = some l → l =
      { ec.es.im.ledger with
        files := Function.update ec.es.im.ledger.files (inum_of (nth_id i)) (some ((Decimal.print k).length, 1))
        free := ec.es.im.ledger.free + held - 1 } := by
    intro l hput
    have heq := Ledger.put_with_room hlive hpos (by omega) (by omega) hput
    rwa [hcount] at heq
  have hfits : Fits (Decimal.print k) := fits_iff.mpr (by omega)
  obtain ⟨ec', hput, h', hledger⟩ := put_exchange h (nth_id_lt (show i < 2 ^ 30 by omega)) hfits
    (fun l hl => by rw [hroom l hl])
  rw [hfile, Option.map_some] at h'
  refine ⟨ec', hput, h', hledger, ?_⟩
  rw [hroom _ hledger]
  dsimp only
  omega

theorem put_numbers_passes (n : Nat) :
    ∀ (i : Nat) (r : Rand) (contents : Nat → Nat) (ec : ExtentClient) (files : Files),
    ec.Keeps files → ec.es.im.ledger.Ahead m → 1 < m → i + n ≤ 50 → n ≤ ec.es.im.ledger.free →
    (∀ j < i, Numbered files contents j) →
      ∃ contents' ec' files', put_numbers n i r contents ec = .ok (0, contents', ec') ∧ ec'.Keeps files' ∧
        ec'.es.im.ledger.Ahead m ∧ ec.es.im.ledger.free ≤ ec'.es.im.ledger.free + n ∧
        ∀ j < i + n, Numbered files' contents' j := by
  induction n with
  | zero =>
    intro i r contents ec files h hahead _ _ _ hnumbered
    exact ⟨contents, ec, files, rfl, h, hahead, le_refl _, hnumbered⟩
  | succ n ih =>
    intro i r contents ec files h hahead hm hi hfree hnumbered
    obtain ⟨hret, ha⟩ := getattr_exchange h (nth_id i)
    rw [put_numbers]
    dsimp only
    rw [if_neg (not_not.mpr hret), ha]
    by_cases hfile : files.type_code (nth_id i) = FileType.T_FILE.code
    · rw [if_pos hfile]
      obtain ⟨old, hold⟩ := Files.type_code_eq_iff.mp hfile
      obtain ⟨ec₁, hput, h₁, hledger, hfree₁⟩ := put_number h (by omega) (Nat.mod_lt (r 0) (by omega)) hold (by omega)
      have hnumbered₁ : ∀ j < i + 1, Numbered (Function.update files (inum_of (nth_id i))
          (some (.T_FILE, Decimal.print (r 0 % 10000)))) (Function.update contents i (r 0 % 10000)) j := by
        intro j hj htype
        by_cases heq : j = i
        · subst heq
          rw [Files.content, Function.update_self, Function.update_self]
        · have hne : inum_of (nth_id j) ≠ inum_of (nth_id i) :=
            fun hsame => heq (inum_of_nth_id_inj (by omega) (by omega) hsame)
          rw [Files.type_code, Function.update_of_ne hne] at htype
          rw [Files.content, Function.update_of_ne hne, Function.update_of_ne heq]
          exact hnumbered j (by omega) htype
      obtain ⟨contents', ec', files', hrun, h', hahead', hfree', hnumbered'⟩ := ih (i + 1) (rand r).2 _ ec₁ _ h₁
        (hahead.put hm hledger) hm (by omega) (by omega) hnumbered₁
      refine ⟨contents', ec', files', ?_, h', hahead', by omega, fun j hj => hnumbered' j (by omega)⟩
      dsimp only [rand] at hrun ⊢
      rw [hput, Except.ok_bind]
      exact hrun
    · rw [if_neg hfile]
      obtain ⟨contents', ec', files', hrun, h', hahead', hfree', hnumbered'⟩ := ih (i + 1) r contents ec files h
        hahead hm (by omega) (by omega) (by
          intro j hj htype
          by_cases heq : j = i
          · subst heq
            exact absurd htype hfile
          · exact hnumbered j (by omega) htype)
      exact ⟨contents', ec', files', hrun, h', hahead', by omega, fun j hj => hnumbered' j (by omega)⟩

theorem get_numbers_passes (n : Nat) : ∀ (i : Nat) (contents : Nat → Nat) (ec : ExtentClient),
    ec.Keeps files → (∀ j < i + n, Numbered files contents j) →
      ∃ ec', get_numbers n i contents ec = .ok (0, ec') ∧ ec'.Keeps files ∧
        ec'.es.im.ledger = ec.es.im.ledger := by
  induction n with
  | zero =>
    intro i contents ec h _
    exact ⟨ec, rfl, h, rfl⟩
  | succ n ih =>
    intro i contents ec h hnumbered
    have hrest : ∀ j < i + 1 + n, Numbered files contents j := fun j hj => hnumbered j (by omega)
    obtain ⟨hret, ha⟩ := getattr_exchange h (nth_id i)
    rw [get_numbers]
    dsimp only
    rw [if_neg (not_not.mpr hret), ha]
    by_cases hfile : files.type_code (nth_id i) = FileType.T_FILE.code
    · rw [if_pos hfile]
      obtain ⟨ec₁, hget, h₁, hledger⟩ := get_exchange h (nth_id i)
      obtain ⟨ec', hrun, h', hledger'⟩ := ih (i + 1) contents ec₁ h₁ hrest
      refine ⟨ec', ?_, h', hledger'.trans hledger⟩
      rw [hget, Except.ok_bind]
      dsimp only
      rw [if_neg (by simp), if_neg (not_not.mpr (hnumbered i (by omega) hfile))]
      exact hrun
    · rw [if_neg hfile]
      exact ih (i + 1) contents ec h hrest

theorem remove_and_getattr_passes (n : Nat) : ∀ (i : Nat) (ec : ExtentClient) (files : Files),
    ec.Keeps files → ec.es.im.ledger.Ahead m → 1 < m → i + n ≤ 50 →
      ∃ ec' files', remove_and_getattr n i ec = .ok (0, ec') ∧ ec'.Keeps files' ∧
        ec'.es.im.ledger.Ahead m ∧ ec.es.im.ledger.free ≤ ec'.es.im.ledger.free := by
  induction n with
  | zero =>
    intro i ec files h hahead _ _
    exact ⟨ec, files, rfl, h, hahead, le_refl _⟩
  | succ n ih =>
    intro i ec files h hahead hm hi
    obtain ⟨ec₁, hremove, h₁, hledger⟩ := remove_exchange h (nth_id_lt (show i < 2 ^ 30 by omega))
    have hgone := (getattr_exchange h₁ (nth_id i)).2
    rw [Files.type_code, Function.update_self] at hgone
    have hfree := (Ledger.remove_spares hledger).1
    obtain ⟨ec', files', hrun, h', hahead', hfree'⟩ := ih (i + 1) ec₁ _ h₁ (hahead.remove hm hledger) hm (by omega)
    refine ⟨ec', files', ?_, h', hahead', by omega⟩
    rw [remove_and_getattr, hremove, Except.ok_bind]
    dsimp only
    rw [if_neg (by simp), if_neg (not_not.mpr hgone)]
    exact hrun

/-- The positions that are filled hold letters, and no others change. -/
theorem fill_temp_spec (n : Nat) : ∀ (k : Nat) (r : Rand) (temp : Mem),
    (∀ p, k ≤ p → p < k + n → (fill_temp n k r temp).1 p ≠ 0) ∧
      ∀ p, ¬(k ≤ p ∧ p < k + n) → (fill_temp n k r temp).1 p = temp p := by
  induction n with
  | zero =>
    intro k r temp
    exact ⟨fun p hlo hhi => by omega, fun _ _ => rfl⟩
  | succ n ih =>
    intro k r temp
    obtain ⟨hletters, hrest⟩ := ih (k + 1) (rand r).2 (Function.update temp k (UInt8.ofNat (97 + r 0 % 26)))
    rw [fill_temp]
    dsimp only [rand] at hletters hrest ⊢
    refine ⟨fun p hlo hhi => ?_, fun p hout => ?_⟩
    · by_cases heq : p = k
      · rw [hrest p (by omega), heq, Function.update_self]
        intro hzero
        have hval := congrArg UInt8.toNat hzero
        rw [UInt8.toNat_ofNat'] at hval
        change _ = 0 at hval
        omega
      · exact hletters p (by omega) (by omega)
    · rw [hrest p (by omega), Function.update_of_ne (by omega)]

theorem length_large_text (r : Rand) : 5120 ≤ (large_text r).1.length ∧ (large_text r).1.length < 102400 := by
  obtain ⟨size, hsize⟩ : ∃ size, size = r 0 % (LARGE_FILE_SIZE_MAX - LARGE_FILE_SIZE_MIN) + LARGE_FILE_SIZE_MIN :=
    ⟨_, rfl⟩
  have hbounds : 5120 ≤ size ∧ size < 102400 := by
    rw [hsize]
    unfold LARGE_FILE_SIZE_MAX LARGE_FILE_SIZE_MIN
    omega
  obtain ⟨hletters, hrest⟩ := fill_temp_spec size 0 (rand r).2 Mem.zero
  have htext : (large_text r).1 = (fill_temp size 0 (rand r).2 Mem.zero).1.bytes size := by
    rw [large_text]
    dsimp only [rand]
    rw [← hsize]
    exact StdString.c_str_bytes (show size < LARGE_FILE_SIZE_MAX from hbounds.2)
      (fun p hp => hletters p (Nat.zero_le p) (by omega))
      (hrest size (by omega))
  rw [htext, Mem.length_bytes]
  exact hbounds

/-- It takes an indirect block and 200 others at most. -/
theorem file_block_count_large (r : Rand) :
    1 ≤ file_block_count (large_text r).1.length ∧ file_block_count (large_text r).1.length ≤ 201 := by
  have hlength := length_large_text r
  rw [file_block_count_eq]
  unfold pointers_for blocks_for
  split <;> omega

/-- The first `k` of the files listed hold their contents, and together with the blocks they
    have there is as much room as at first. -/
structure Large (id_list : Nat → extentid_t) (content : Nat → List UInt8) (k room : Nat) (ec : ExtentClient)
    (files : Files) :
    Prop where
  keeps : ec.Keeps files
  ids : ∀ i < k, (id_list i).toNat < 2 ^ 31
  distinct : ∀ i < k, ∀ j < k, inum_of (id_list i) = inum_of (id_list j) → i = j
  stored : ∀ i < k, files (inum_of (id_list i)) = some (.T_FILE, content i)
  held : ∀ i < k, ec.es.im.ledger.held (inum_of (id_list i)) ≤ 201
  room : room ≤ ec.es.im.ledger.free + ∑ i ∈ Finset.range k, ec.es.im.ledger.held (inum_of (id_list i))

variable {id_list : Nat → extentid_t} {content : Nat → List UInt8} {k room : Nat}

/-- A new file has no block. -/
theorem Large.create (h : Large id_list (fun _ => []) k room ec files) (hahead : ec.es.im.ledger.Ahead m) (hlo : 1 ≤ m)
    (hhi : m < 1023) :
    ∃ id ec' files', ec.create FileType.T_FILE.code = (.OK, id, ec') ∧ ec'.es.im.ledger.Ahead (m + 1) ∧
      Large (Function.update id_list k id) (fun _ => []) (k + 1) room ec' files' := by
  obtain ⟨inum, hnext, hinum⟩ := hahead.next hlo hhi
  obtain ⟨ec', hcreate, hnone, h', hledger⟩ := create_exchange h.keeps .T_FILE hnext
  have hahead' := hahead.create hnext hinum FileType.T_FILE.code
  rw [← hledger] at hahead'
  rw [Ledger.create, hnext] at hledger
  dsimp only at hledger
  have hid : inum_of inum.toUInt64 = inum := inum_of_toUInt64 (by omega)
  have hold : ∀ i < k, inum_of (id_list i) ≠ inum := by
    intro i hi heq
    have hstored := h.stored i hi
    rw [heq, hnone] at hstored
    cases hstored
  have hlist : ∀ i < k, Function.update id_list k inum.toUInt64 i = id_list i :=
    fun i hi => Function.update_of_ne (by omega) _ _
  have hheld : ∀ i < k, ec'.es.im.ledger.held (inum_of (id_list i)) = ec.es.im.ledger.held (inum_of (id_list i)) := by
    intro i hi
    apply Ledger.held_congr
    rw [hledger]
    exact Function.update_of_ne (hold i hi) _ _
  have hnew : ec'.es.im.ledger.held inum = 0 := by
    apply Ledger.held_of_files
    rw [hledger]
    exact Function.update_self _ _ _
  refine ⟨inum.toUInt64, ec', _, hcreate, hahead', h', ?_, ?_, ?_, ?_, ?_⟩
  · intro i hi
    by_cases heq : i = k
    · rw [heq, Function.update_self, UInt32.toNat_toUInt64]
      omega
    · rw [hlist i (by omega)]
      exact h.ids i (by omega)
  · intro i hi j hj hsame
    by_cases hik : i = k
    · by_cases hjk : j = k
      · omega
      · rw [hik, Function.update_self, hlist j (by omega), hid] at hsame
        exact absurd hsame.symm (hold j (by omega))
    · by_cases hjk : j = k
      · rw [hjk, Function.update_self, hlist i (by omega), hid] at hsame
        exact absurd hsame (hold i (by omega))
      · rw [hlist i (by omega), hlist j (by omega)] at hsame
        exact h.distinct i (by omega) j (by omega) hsame
  · intro i hi
    by_cases heq : i = k
    · rw [heq, Function.update_self, hid, Function.update_self]
    · rw [hlist i (by omega), Function.update_of_ne (hold i (by omega))]
      exact h.stored i (by omega)
  · intro i hi
    by_cases heq : i = k
    · rw [heq, Function.update_self, hid, hnew]
      omega
    · rw [hlist i (by omega), hheld i (by omega)]
      exact h.held i (by omega)
  · have hsum : ∑ i ∈ Finset.range k, ec'.es.im.ledger.held (inum_of (Function.update id_list k inum.toUInt64 i)) =
        ∑ i ∈ Finset.range k, ec.es.im.ledger.held (inum_of (id_list i)) := by
      apply Finset.sum_congr rfl
      intro i hi
      rw [hlist i (Finset.mem_range.mp hi), hheld i (Finset.mem_range.mp hi)]
    rw [Finset.sum_range_succ, hsum, Function.update_self, hid, hnew, hledger]
    exact h.room

/-- A text stored in one of them needs no more blocks than there are. -/
theorem Large.put (h : Large id_list content 50 room ec files) (hroom : 10251 ≤ room) {i : Nat} (hi : i < 50)
    (r : Rand) :
    ∃ ec' files', ec.put (id_list i) (large_text r).1 = .ok (.OK, ec') ∧
      Large id_list (Function.update content i (large_text r).1) 50 room ec' files' := by
  obtain ⟨text, htext⟩ : ∃ text, text = (large_text r).1 := ⟨_, rfl⟩
  have hlength := length_large_text r
  have hcount := file_block_count_large r
  rw [← htext] at hlength hcount ⊢
  obtain ⟨held, hlive⟩ := ledger_files h.keeps (h.stored i hi)
  have hheld : ec.es.im.ledger.held (inum_of (id_list i)) = held := Ledger.held_of_files hlive
  have hmem : i ∈ Finset.range 50 := Finset.mem_range.mpr hi
  -- the files have 201 blocks at most
  have hsum : ∑ j ∈ Finset.range 50, ec.es.im.ledger.held (inum_of (id_list j)) ≤ 50 * 201 := by
    have hle := Finset.sum_le_card_nsmul (Finset.range 50) (fun j => ec.es.im.ledger.held (inum_of (id_list j))) 201
      (fun j hj => h.held j (Finset.mem_range.mp hj))
    rwa [Finset.card_range, smul_eq_mul] at hle
  have hfree : 201 ≤ ec.es.im.ledger.free := by
    have hbudget := h.room
    omega
  have hput : ∀ l, ec.es.im.ledger.put (id_list i) text.length = some l → l =
      { ec.es.im.ledger with
        files := Function.update ec.es.im.ledger.files (inum_of (id_list i))
          (some (text.length, file_block_count text.length))
        free := ec.es.im.ledger.free + held - file_block_count text.length } :=
    fun l hl => Ledger.put_with_room hlive (by omega) (by omega) (by omega) hl
  have hfits : Fits text := fits_iff.mpr (by omega)
  obtain ⟨ec', hrun, h', hledger⟩ := put_exchange h.keeps (h.ids i hi) hfits (fun l hl => by rw [hput l hl])
  have hledger := hput _ hledger
  rw [h.stored i hi, Option.map_some] at h'
  have hother : ∀ j < 50, j ≠ i → inum_of (id_list j) ≠ inum_of (id_list i) :=
    fun j hj hne hsame => hne (h.distinct j hj i hi hsame)
  have hsame : ∀ j < 50, j ≠ i →
      ec'.es.im.ledger.held (inum_of (id_list j)) = ec.es.im.ledger.held (inum_of (id_list j)) := by
    intro j hj hne
    apply Ledger.held_congr
    rw [hledger]
    exact Function.update_of_ne (hother j hj hne) _ _
  have hnew : ec'.es.im.ledger.held (inum_of (id_list i)) = file_block_count text.length := by
    apply Ledger.held_of_files
    rw [hledger]
    exact Function.update_self _ _ _
  refine ⟨ec', _, hrun, h', h.ids, h.distinct, ?_, ?_, ?_⟩
  · intro j hj
    by_cases heq : j = i
    · rw [heq, Function.update_self, Function.update_self]
    · rw [Function.update_of_ne (hother j hj heq), Function.update_of_ne heq]
      exact h.stored j hj
  · intro j hj
    by_cases heq : j = i
    · rw [heq, hnew]
      exact hcount.2
    · rw [hsame j hj heq]
      exact h.held j hj
  · have hrest : ∑ j ∈ (Finset.range 50).erase i, ec'.es.im.ledger.held (inum_of (id_list j)) =
        ∑ j ∈ (Finset.range 50).erase i, ec.es.im.ledger.held (inum_of (id_list j)) := by
      apply Finset.sum_congr rfl
      intro j hj
      exact hsame j (Finset.mem_range.mp (Finset.mem_of_mem_erase hj)) (Finset.ne_of_mem_erase hj)
    have hbudget := h.room
    rw [← Finset.add_sum_erase _ _ hmem, hheld] at hbudget
    have hnow : ec'.es.im.ledger.free = ec.es.im.ledger.free + held - file_block_count text.length := by rw [hledger]
    rw [← Finset.add_sum_erase _ _ hmem, hrest, hnew, hnow]
    omega

theorem create_files_passes (n : Nat) : ∀ (k m : Nat) (id_list : Nat → extentid_t) (ec : ExtentClient) (files : Files),
    Large id_list (fun _ => []) k room ec files → ec.es.im.ledger.Ahead m → 1 ≤ m → m + n ≤ 1023 →
      ∃ id_list' ec' files', create_files n k id_list ec = (0, id_list', ec') ∧
        Large id_list' (fun _ => []) (k + n) room ec' files' := by
  induction n with
  | zero =>
    intro k m id_list ec files h _ _ _
    exact ⟨id_list, ec, files, rfl, h⟩
  | succ n ih =>
    intro k m id_list ec files h hahead hlo hhi
    obtain ⟨id, ec₁, files₁, hcreate, hahead₁, h₁⟩ := h.create hahead hlo (by omega)
    obtain ⟨id_list', ec', files', hrun, h'⟩ := ih (k + 1) (m + 1) _ ec₁ files₁ h₁ hahead₁ (by omega) (by omega)
    refine ⟨id_list', ec', files', ?_, ?_⟩
    · rw [create_files, hcreate]
      dsimp only
      rw [if_neg (by simp)]
      exact hrun
    · rwa [Nat.add_right_comm, Nat.add_assoc] at h'

theorem put_large_passes (hroom : 10251 ≤ room) (n : Nat) :
    ∀ (i : Nat) (r : Rand) (content : Nat → List UInt8) (ec : ExtentClient) (files : Files),
    Large id_list content 50 room ec files → i + n ≤ 50 →
      ∃ r' content' ec' files', put_large n i r id_list content ec = .ok (0, r', content', ec') ∧
        Large id_list content' 50 room ec' files' := by
  induction n with
  | zero =>
    intro i r content ec files h _
    exact ⟨r, content, ec, files, rfl, h⟩
  | succ n ih =>
    intro i r content ec files h hi
    obtain ⟨ec₁, files₁, hput, h₁⟩ := h.put hroom (show i < 50 by omega) r
    obtain ⟨r', content', ec', files', hrun, h'⟩ := ih (i + 1) (large_text r).2 _ ec₁ files₁ h₁ (by omega)
    refine ⟨r', content', ec', files', ?_, h'⟩
    rw [put_large]
    dsimp only
    rw [Function.update_self, hput, Except.ok_bind]
    dsimp only
    rw [if_neg (by simp)]
    exact hrun

theorem get_large_passes (n : Nat) :
    ∀ (i : Nat) (ec : ExtentClient), Large id_list content 50 room ec files → i + n ≤ 50 →
    ∃ ec', get_large n i id_list content ec = .ok (0, ec') ∧ Large id_list content 50 room ec' files := by
  induction n with
  | zero =>
    intro i ec h _
    exact ⟨ec, rfl, h⟩
  | succ n ih =>
    intro i ec h hi
    obtain ⟨ec₁, hget, h₁, hledger⟩ := get_exchange h.keeps (id_list i)
    rw [Files.content_eq (h.stored i (by omega))] at hget
    have hlarge : Large id_list content 50 room ec₁ files :=
      ⟨h₁, h.ids, h.distinct, h.stored, by rw [hledger]; exact h.held, by rw [hledger]; exact h.room⟩
    obtain ⟨ec', hrun, h'⟩ := ih (i + 1) ec₁ hlarge (by omega)
    refine ⟨ec', ?_, h'⟩
    rw [get_large, hget, Except.ok_bind]
    dsimp only
    rw [if_neg (by simp), if_neg (by simp)]
    exact hrun

theorem put_and_get_large_passes (hroom : 10251 ≤ room) (n : Nat) :
    ∀ (r : Rand) (content : Nat → List UInt8) (ec : ExtentClient) (files : Files),
      Large id_list content 50 room ec files →
      ∃ content' ec' files', put_and_get_large n r id_list content ec = .ok (0, ec') ∧
        Large id_list content' 50 room ec' files' := by
  induction n with
  | zero =>
    intro r content ec files h
    exact ⟨content, ec, files, rfl, h⟩
  | succ n ih =>
    intro r content ec files h
    obtain ⟨r₁, content₁, ec₁, files₁, hput, h₁⟩ := put_large_passes hroom FILE_NUM 0 r content ec files h (le_refl 50)
    obtain ⟨ec₂, hget, h₂⟩ := get_large_passes FILE_NUM 0 ec₁ h₁ (le_refl 50)
    obtain ⟨content', ec', files', hrun, h'⟩ := ih r₁ content₁ ec₂ files₁ h₂
    refine ⟨content', ec', files', ?_, h'⟩
    rw [put_and_get_large, hput, Except.ok_bind]
    dsimp only
    rw [if_neg (by simp), hget, Except.ok_bind]
    dsimp only
    rw [if_neg (by simp)]
    exact hrun

theorem remove_files_passes (n : Nat) : ∀ (i : Nat) (ec : ExtentClient) (files : Files), ec.Keeps files →
    (∀ j < i + n, (id_list j).toNat < 2 ^ 31) →
      ∃ ec' files', remove_files n i id_list ec = .ok (0, ec') ∧ ec'.Keeps files' := by
  induction n with
  | zero =>
    intro i ec files h _
    exact ⟨ec, files, rfl, h⟩
  | succ n ih =>
    intro i ec files h hids
    obtain ⟨ec₁, hremove, h₁, _⟩ := remove_exchange h (hids i (by omega))
    obtain ⟨ec', files', hrun, h'⟩ := ih (i + 1) ec₁ _ h₁ fun j hj => hids j (by omega)
    refine ⟨ec', files', ?_, h'⟩
    rw [remove_files, hremove, Except.ok_bind]
    dsimp only
    rw [if_neg (by simp)]
    exact hrun

theorem test_create_and_getattr_passes {t : Tester} (r : Rand) (h : t.ec.Keeps files)
    (hahead : t.ec.es.im.ledger.Ahead m) (hlo : 1 ≤ m) (hhi : m + 50 ≤ 1023) :
    ∃ t' files', test_create_and_getattr r t = (0, t') ∧ t'.total_score = t.total_score + 40 ∧
      t'.ec.Keeps files' ∧ t'.ec.es.im.ledger.Ahead (m + 50) ∧
      t'.ec.es.im.ledger.free = t.ec.es.im.ledger.free := by
  obtain ⟨ec', files', hrun, h', hahead', hfree⟩ := create_and_getattr_passes FILE_NUM m r t.ec files h hahead hlo hhi
  refine ⟨⟨ec', t.total_score + 40⟩, files', ?_, rfl, h', hahead', hfree⟩
  rw [test_create_and_getattr, hrun]
  rfl

theorem test_put_and_get_passes {t : Tester} (r : Rand) (contents : Nat → Nat) (h : t.ec.Keeps files)
    (hahead : t.ec.es.im.ledger.Ahead m) (hm : 1 < m) (hfree : 50 ≤ t.ec.es.im.ledger.free) :
    ∃ t' files', test_put_and_get r contents t = .ok (0, t') ∧ t'.total_score = t.total_score + 30 ∧
      t'.ec.Keeps files' ∧ t'.ec.es.im.ledger.Ahead m ∧
      t.ec.es.im.ledger.free ≤ t'.ec.es.im.ledger.free + 50 := by
  obtain ⟨contents', ec₁, files', hput, h₁, hahead₁, hfree₁, hnumbered⟩ :=
    put_numbers_passes FILE_NUM 0 r contents t.ec files h hahead hm (le_refl 50) hfree
      (fun j hj => absurd hj (Nat.not_lt_zero j))
  obtain ⟨ec', hget, h', hledger⟩ := get_numbers_passes FILE_NUM 0 contents' ec₁ h₁ hnumbered
  rw [← hledger] at hahead₁ hfree₁
  refine ⟨⟨ec', t.total_score + 30⟩, files', ?_, rfl, h', hahead₁, hfree₁⟩
  rw [test_put_and_get, hput, Except.ok_bind]
  dsimp only
  rw [if_neg (by simp), hget]
  rfl

theorem test_remove_passes {t : Tester} (h : t.ec.Keeps files) (hahead : t.ec.es.im.ledger.Ahead m) (hm : 1 < m) :
    ∃ t' files', test_remove t = .ok (0, t') ∧ t'.total_score = t.total_score + 20 ∧
      t'.ec.Keeps files' ∧ t'.ec.es.im.ledger.Ahead m ∧
      t.ec.es.im.ledger.free ≤ t'.ec.es.im.ledger.free := by
  obtain ⟨ec', files', hrun, h', hahead', hfree⟩ :=
    remove_and_getattr_passes FILE_NUM 0 t.ec files h hahead hm (le_refl 50)
  refine ⟨⟨ec', t.total_score + 20⟩, files', ?_, rfl, h', hahead', hfree⟩
  rw [test_remove, hrun]
  rfl

theorem test_indirect_passes {t : Tester} (r : Rand) (id_list : Nat → extentid_t) (h : t.ec.Keeps files)
    (hahead : t.ec.es.im.ledger.Ahead m) (hlo : 1 ≤ m) (hhi : m + 50 ≤ 1023) (hfree : 10251 ≤ t.ec.es.im.ledger.free) :
    ∃ t' files', test_indirect r id_list t = .ok (0, t') ∧ t'.total_score = t.total_score + 10 ∧
      t'.ec.Keeps files' := by
  have hstart : Large id_list (fun _ => []) 0 t.ec.es.im.ledger.free t.ec files :=
    ⟨h, by omega, by omega, by omega, by omega, Nat.le_add_right _ _⟩
  obtain ⟨id_list', ec₁, files₁, hcreate, h₁⟩ :=
    create_files_passes FILE_NUM 0 m id_list t.ec files hstart hahead hlo hhi
  obtain ⟨content', ec₂, files₂, hlarge, h₂⟩ := put_and_get_large_passes hfree 10 r _ ec₁ files₁ h₁
  obtain ⟨ec', files', hremove, h'⟩ := remove_files_passes FILE_NUM 0 ec₂ files₂ h₂.keeps h₂.ids
  refine ⟨⟨ec', t.total_score + 10⟩, files', ?_, rfl, h'⟩
  rw [test_indirect, hcreate]
  dsimp only
  rw [if_neg (by simp), hlarge, Except.ok_bind]
  dsimp only
  rw [if_neg (by simp), hremove]
  rfl

/-- The tester finds no fault, whatever the random numbers are, and it never runs out of
    blocks or inodes. -/
theorem tester_finds_no_fault {garbage : UInt32} {env : Env} (hnew : ExtentClient.new garbage env = .ok ec)
    (s : Surroundings) :
    ∃ t, main garbage env s = .ok t ∧ t.total_score = 100 ∧ t.ec.es.im.bm.failed_allocs = 0 ∧
      t.ec.es.im.failed_allocs = 0 := by
  obtain ⟨es, hserver, hec⟩ := Except.bind_eq_ok_iff.mp hnew
  cases hec
  have hfresh := (fresh_new hserver).1
  have hledger := ledger_fresh hfresh
  have hahead : es.im.ledger.Ahead 1 := by
    rw [hledger]
    refine ⟨?_, .inr ⟨rfl, rfl, nofun⟩⟩
    intro inum hinum
    refine if_neg ?_
    rintro rfl
    exact absurd hinum (by decide)
  have hfree : es.im.ledger.free = 31732 := by rw [hledger, Ledger.initial]
  change (Tester.mk ⟨es⟩ 0).ec.es.im.ledger.free = 31732 at hfree
  have hkeeps : (Tester.mk ⟨es⟩ 0).ec.Keeps (extent_files []) :=
    ⟨Represents.fresh hfresh, hfresh.failed_blocks, hfresh.failed_inodes⟩
  obtain ⟨t₁, files₁, hrun₁, hscore₁, h₁, hahead₁, hfree₁⟩ :=
    test_create_and_getattr_passes s.create hkeeps hahead (le_refl 1) (by omega)
  obtain ⟨t₂, files₂, hrun₂, hscore₂, h₂, hahead₂, hfree₂⟩ :=
    test_put_and_get_passes s.put s.contents h₁ hahead₁ (by omega) (by omega)
  obtain ⟨t₃, files₃, hrun₃, hscore₃, h₃, hahead₃, hfree₃⟩ := test_remove_passes h₂ hahead₂ (by omega)
  obtain ⟨t₄, files₄, hrun₄, hscore₄, h₄⟩ := test_indirect_passes s.indirect s.id_list h₃ hahead₃ (by omega) (by omega)
    (by omega)
  refine ⟨t₄, ?_, ?_, h₄.failed_blocks, h₄.failed_inodes⟩
  · rw [main, hnew, Except.ok_bind, hrun₁]
    dsimp only
    rw [if_neg (by simp), hrun₂, Except.ok_bind]
    dsimp only
    rw [if_neg (by simp), hrun₃, Except.ok_bind]
    dsimp only
    rw [if_neg (by simp), hrun₄]
    rfl
  · rw [hscore₄, hscore₃, hscore₂, hscore₁]

/-- Also if every number is 0, so that it tests directories only at first. -/
theorem tester_finds_no_fault_zero :
    ∃ t, main 0 still ⟨fun _ => 0, fun _ => 0, fun _ => 0, fun _ => 0, fun _ => 0⟩ = .ok t ∧
      t.total_score = 100 ∧ t.ec.es.im.bm.failed_allocs = 0 ∧ t.ec.es.im.failed_allocs = 0 := by
  obtain ⟨es, hserver⟩ := new_zero still
  have hnew : ExtentClient.new 0 still = .ok ⟨es⟩ := by
    rw [ExtentClient.new, hserver]
    rfl
  exact tester_finds_no_fault hnew _

end Part1Tester

end chfs
