import Chfs.Extent.Aborts

namespace chfs

open BlockManager InodeManager

/-- A buffer that takes every slot of an inode. -/
def full_buffer : List UInt8 := List.replicate (MAXFILE * BLOCK_SIZE) 0

@[simp] theorem length_full_buffer : full_buffer.length = 116736 := List.length_replicate

/-- The requests that create the file with inum `i + 2` and fill it. -/
def fill_round (i : Nat) : List ExtentOp :=
  [.create FileType.T_FILE.code, .put (UInt64.ofNat (i + 2)) full_buffer]

/-- The requests that fill the first `m` files. -/
def fill_disk (m : Nat) : List ExtentOp := (List.range m).flatMap fill_round

theorem fill_disk_succ (m : Nat) : fill_disk (m + 1) = fill_disk m ++ fill_round m := by
  rw [fill_disk, List.range_succ, List.flatMap_append]
  simp [fill_disk]

theorem inum_of_ofNat {n : Nat} (hn : n < 2 ^ 31) : (inum_of (UInt64.ofNat n)).toNat = n := by
  have hval : (UInt64.ofNat n).toNat = n := by
    rw [UInt64.toNat_ofNat']
    omega
  have hmask : n &&& 2147483647 = n % 2 ^ 31 := Nat.and_two_pow_sub_one_eq_mod n 31
  simp only [inum_of, UInt64.toNat_toUInt32, UInt64.toNat_and, hval]
  change (n &&& 2147483647) % 2 ^ 32 = n
  omega

namespace ExtentServer

variable {start es : ExtentServer}

/-- The server after filling `m` files. -/
structure Filling (es : ExtentServer) (m : Nat) : Prop where
  owned : Owned es.im
  sequential : Sequential es.im (m + 1)
  free : es.im.bm.free_count = 31732 - 229 * m

/-- One more file gets as many of the 229 blocks it needs as are left. -/
theorem Filling.next {m : Nat} (h : Filling es m) (hm : m < 1023) :
    ∃ es', es.run (fill_round m) = .ok es' ∧ Filling es' (m + 1) ∧
      ∃ node, es'.im.get_inode (inum_of (UInt64.ofNat (m + 2))) = some node ∧ node.size.toNat = 116736 ∧
        Layout es'.im.bm node (min 229 es.im.bm.free_count) := by
  obtain ⟨inum, im₁, halloc, hinum, hcreated⟩ := h.sequential.next (by omega) FileType.T_FILE.code
  have htype : FileType.T_FILE.code.toUInt16.toInt16 ≠ 0 := FileType.T_FILE.stored_code.2
  have howned₁ := hcreated.owned h.owned
  have hsequential₁ := h.sequential.created hcreated hinum htype
  have hid : inum_of (UInt64.ofNat (m + 2)) = inum :=
    UInt32.toNat_inj.mp ((inum_of_ofNat (by omega)).trans (by omega))
  have hfree₁ : im₁.bm.free_count = es.im.bm.free_count := hcreated.free_count
  obtain ⟨node, hnode, hnode_type, hsize, _⟩ := hcreated.stored
  have hlive : im₁.get_inode inum = some node := by rw [hnode, if_neg (by rwa [hnode_type])]
  obtain ⟨hlayout, _⟩ := hcreated.layout hlive
  have hpre : pre_block_num node = 1 := by rw [pre_block_num, if_pos hsize]
  have hlive' : ({ es with im := im₁ } : ExtentServer).im.get_inode (inum_of (UInt64.ofNat (m + 2))) =
      some node := by rw [hid]; exact hlive
  obtain ⟨im₂, node', hput, hdone, _⟩ := put_done full_buffer hlive' howned₁.wf hlayout
    (by rw [length_full_buffer]; omega) (.inl (by omega))
  rw [hid] at hdone
  have hsize' := hdone.size_toNat (by rw [length_full_buffer]; omega)
  rw [length_full_buffer] at hsize'
  have htarget : target full_buffer.length = 229 := by
    rw [length_full_buffer]
    decide
  have hreach : min (filled 0 (target full_buffer.length) im₁.bm.free_count)
      (pointers_for (max 1 (blocks_for full_buffer.length))) = min 229 es.im.bm.free_count := by
    have hroom : pointers_for (max 1 (blocks_for full_buffer.length)) = 229 := by
      rw [length_full_buffer]
      decide
    rw [htarget, hroom, hfree₁]
    unfold filled
    omega
  have hlayout' := hdone.layout (by rw [length_full_buffer]; omega)
  have hfree := hdone.written.free
  change im₂.bm.free_count + min (filled 0 (target full_buffer.length) im₁.bm.free_count)
    (pointers_for (max 1 (blocks_for full_buffer.length))) = im₁.bm.free_count + 0 at hfree
  rw [hreach] at hfree hlayout'
  refine ⟨{ im := im₂, longest_put := max es.longest_put full_buffer.length }, ?_, ⟨?_, ?_, ?_⟩, node', ?_, hsize',
    hlayout'⟩
  · have hcreate : es.create FileType.T_FILE.code = (.OK, inum.toUInt64, { es with im := im₁ }) := by
      rw [create, halloc]
    simp only [fill_round, run, step, hcreate, Except.ok_bind, hput]
    rfl
  · exact hdone.owned howned₁ hlive (by rw [length_full_buffer]; omega)
  · refine hsequential₁.keep ?_ hdone.last_alloced
    intro other
    by_cases heq : other = inum
    · subst heq
      rw [hdone.live]
      rw [hlive]
      simp
    · have hother := hdone.others other heq
      rw [hother]
  · change im₂.bm.free_count = _
    have hbefore := h.free
    omega
  · rw [hid]
    exact hdone.live

theorem filling_fresh (h : Fresh start.im) : Filling start 0 where
  owned := h.owned
  sequential := h.sequential
  free := by rw [h.free_count]

theorem fill_disk_runs (h : Fresh start.im) {m : Nat} (hm : m ≤ 1023) :
    ∃ es, start.run (fill_disk m) = .ok es ∧ Filling es m := by
  induction m with
  | zero => exact ⟨start, rfl, filling_fresh h⟩
  | succ m ih =>
    obtain ⟨es, hrun, hfilling⟩ := ih (by omega)
    obtain ⟨es', hround, hfilling', _⟩ := hfilling.next (by omega)
    refine ⟨es', ?_, hfilling'⟩
    rw [fill_disk_succ, run_append, hrun, Except.ok_bind, hround]

/-- The 139th file gets 130 blocks only: 100 direct blocks, the indirect block and 29
    entries. Making it empty runs into the assertion of `free_block`. -/
theorem shrink_on_full_disk (h : Fresh start.im) :
    start.run (fill_disk 139 ++ [.put (UInt64.ofNat 140) []]) = .error .assertion_failed := by
  obtain ⟨es, hrun, hfilling⟩ := fill_disk_runs h (m := 138) (by omega)
  obtain ⟨es', hround, hfilling', node, hlive, hsize, hlayout⟩ := hfilling.next (by omega)
  have hfree := hfilling.free
  have hp : min 229 es.im.bm.free_count = 130 := by omega
  rw [hp] at hlayout
  have hpre : pre_block_num node = 228 := by
    rw [pre_block_num_eq, hsize]
    decide
  have hnot : ¬ CanShrink (pre_block_num node) (max 1 (blocks_for ([] : List UInt8).length))
      (filled 130 (target ([] : List UInt8).length) es'.im.bm.free_count) := by
    rw [canShrink_filled, hpre]
    decide
  obtain ⟨fault, hput⟩ := put_fault [] hlive hfilling'.owned.wf hlayout (by simp) hnot
  have hassert := put_error hlive hfilling'.owned.wf hlayout (by omega) (by simp) hput
  subst hassert
  have hfill : start.run (fill_disk 139) = .ok es' := by
    rw [fill_disk_succ, run_append, hrun, Except.ok_bind, hround]
  rw [run_append, hfill, Except.ok_bind, run, step, hput]
  rfl

theorem fill_disk_fits (m : Nat) : ∀ op ∈ fill_disk m, op.Fits := by
  intro op hmem
  obtain ⟨i, _, hround⟩ := List.mem_flatMap.mp hmem
  rw [fill_round, List.mem_cons, List.mem_singleton] at hround
  rcases hround with rfl | rfl
  · trivial
  · exact fits_iff.mpr (by rw [length_full_buffer])

/-- A run of a new server never fails in the assertion of `free_block`, nor in any other
    way, exactly when each request on its way is safe. -/
theorem run_returns_iff {garbage : UInt32} {env : Env} {ops : List ExtentOp}
    (hnew : ExtentServer.new garbage env = .ok start) (hfits : ∀ op ∈ ops, op.Fits) :
    (∃ es, start.run ops = .ok es) ↔ start.SafeRun ops :=
  run_returns_iff_of_owned ops start (fresh_new hnew).1.owned
    (FittingRun.small_files (fresh_new hnew).1 .nil) hfits

theorem run_returns_iff_fill_disk :
    ∃ start, ExtentServer.new 0 still = .ok start ∧
      ((∃ es, start.run (fill_disk 139) = .ok es) ↔ start.SafeRun (fill_disk 139)) := by
  obtain ⟨start, hnew⟩ := new_zero still
  exact ⟨start, hnew, run_returns_iff hnew (fill_disk_fits 139)⟩

/-- The assertion does fail once the disk is full. -/
theorem full_disk_fails_assertion :
    ∃ start, ExtentServer.new 0 still = .ok start ∧
      (∀ op ∈ fill_disk 139 ++ [.put (UInt64.ofNat 140) []], op.Fits) ∧
      start.run (fill_disk 139 ++ [.put (UInt64.ofNat 140) []]) = .error .assertion_failed := by
  obtain ⟨start, hnew⟩ := new_zero still
  refine ⟨start, hnew, ?_, shrink_on_full_disk (fresh_new hnew).1⟩
  intro op hmem
  rcases List.mem_append.mp hmem with hfill | hlast
  · exact fill_disk_fits 139 op hfill
  · rw [List.mem_singleton] at hlast
    subst hlast
    exact fits_iff.mpr (Nat.zero_le _)

end ExtentServer

end chfs
