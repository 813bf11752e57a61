import Chfs.Extent.Ledger
import Chfs.Model.Part1Tester

namespace chfs

open BlockManager InodeManager ExtentServer

namespace Ledger

variable {l l' : Ledger} {m n : Nat} {id : extentid_t} {inum : UInt32}

/-- The inums behind `m` are free, and the search for one comes to `m + 1` first. -/
structure Ahead (l : Ledger) (m : Nat) : Prop where
  dead : ∀ inum : UInt32, m < inum.toNat → l.files inum = none
  last : l.last.toNat = m ∨ m = 1 ∧ l.last = 0 ∧ l.files 1 ≠ none

theorem Ahead.next (h : l.Ahead m) (hlo : 1 ≤ m) (hhi : m < 1023) :
    ∃ inum, l.next_inum = some inum ∧ inum.toNat = m + 1 := by
  -- the root is the only inode that the search may come past
  obtain ⟨i, hi, hat, hbefore⟩ : ∃ i, (i = 1 ∨ i = 2) ∧ (to_alloc l.last i).toNat = m + 1 ∧
      ∀ j, 1 ≤ j → j < i → (l.files (to_alloc l.last j)).isNone = false := by
    rcases h.last with hlast | ⟨rfl, hlast, hroot⟩
    · refine ⟨1, .inl rfl, ?_, by omega⟩
      rw [to_alloc_toNat (by omega) (by omega), if_neg (by omega)]
      omega
    · rw [hlast]
      refine ⟨2, .inr rfl, by decide, ?_⟩
      intro j hlo hhi
      have hone : j = 1 := by omega
      subst hone
      have hto : to_alloc 0 1 = 1 := by decide
      rw [hto]
      simpa [Option.isSome_iff_ne_none] using hroot
  refine ⟨to_alloc l.last i, ?_, hat⟩
  have hfind : (List.range' 1 INODE_NUM).find? (fun i => (l.files (to_alloc l.last i)).isNone) = some i := by
    rw [List.find?_range'_eq_some, List.mem_range'_1, INODE_NUM_eq]
    refine ⟨Option.isNone_iff_eq_none.mpr (h.dead _ (by omega)), by omega, ?_⟩
    intro j hj hlt
    rw [hbefore j hj hlt]
    rfl
  rw [next_inum, hfind]
  rfl

theorem Ahead.create (h : l.Ahead m) (hnext : l.next_inum = some inum) (hinum : inum.toNat = m + 1) (type : UInt32) :
    (l.create type).Ahead (m + 1) := by
  rw [Ledger.create, hnext]
  refine ⟨?_, .inl hinum⟩
  intro other hother
  have hne : other ≠ inum := by
    rintro rfl
    omega
  dsimp only
  rw [Function.update_of_ne hne]
  exact h.dead other (by omega)

/-- Requests that bring no inode to life and do not move the cursor change nothing of it. -/
theorem Ahead.keep (h : l.Ahead m) (hm : 1 < m) (hdead : ∀ inum, l.files inum = none → l'.files inum = none)
    (hlast : l'.last = l.last) : l'.Ahead m where
  dead := fun inum hinum => hdead inum (h.dead inum hinum)
  last := by
    rcases h.last with hlast' | ⟨hone, _⟩
    · exact .inl (by rw [hlast, hlast'])
    · omega

theorem Ahead.put (h : l.Ahead m) (hm : 1 < m) (hput : l.put id n = some l') : l'.Ahead m := by
  rw [Ledger.put] at hput
  split at hput
  · cases hput
    exact h
  · next size held hlive =>
    split at hput
    · cases hput
      refine h.keep hm ?_ rfl
      intro inum hnone
      have hne : inum ≠ inum_of id := by
        rintro rfl
        rw [hnone] at hlive
        cases hlive
      exact (Function.update_of_ne hne _ _).trans hnone
    · cases hput

theorem Ahead.remove (h : l.Ahead m) (hm : 1 < m) (hremove : l.remove id = some l') : l'.Ahead m := by
  rw [Ledger.remove] at hremove
  split at hremove
  · cases hremove
    exact h
  · split at hremove
    · cases hremove
      refine h.keep hm ?_ rfl
      intro inum hnone
      by_cases heq : inum = inum_of id
      · rw [heq]
        exact Function.update_self _ _ _
      · exact (Function.update_of_ne heq _ _).trans hnone
    · cases hremove

/-- How many blocks a file has. -/
def held (l : Ledger) (inum : UInt32) : Nat := ((l.files inum).map Prod.snd).getD 0

theorem held_of_files {inum : UInt32} {size blocks : Nat} (h : l.files inum = some (size, blocks)) :
    l.held inum = blocks := by
  rw [held, h]
  rfl

theorem held_congr {inum : UInt32} (h : l'.files inum = l.files inum) : l'.held inum = l.held inum := by
  rw [held, h, held]

/-- With enough blocks, a file has as many after a put as its bytes need. -/
theorem put_with_room {size held : Nat} (hlive : l.files (inum_of id) = some (size, held)) (hn : 1 ≤ n)
    (hlarge : file_block_count n ≤ 229) (hroom : file_block_count n ≤ held + l.free) (hput : l.put id n = some l') :
    l' = { l with
      files := Function.update l.files (inum_of id) (some (n, file_block_count n))
      free := l.free + held - file_block_count n } := by
  have hpos : 1 ≤ file_block_count n := by
    rw [file_block_count_eq]
    unfold pointers_for blocks_for
    split <;> omega
  have hkept : min (max held (min (min 229 (file_block_count n)) (held + l.free))) (max 1 (file_block_count n)) =
      file_block_count n := by
    omega
  rw [Ledger.put, hlive] at hput
  dsimp only at hput
  rw [hkept] at hput
  split at hput
  · cases hput
    have hfailed : l.failed_blocks + (min 229 (file_block_count n) - held - l.free) = l.failed_blocks := by omega
    rw [hfailed]
  · cases hput

theorem put_failed_inodes (hput : l.put id n = some l') : l'.failed_inodes = l.failed_inodes := by
  rw [Ledger.put] at hput
  split at hput
  · cases hput
    rfl
  · split at hput
    · cases hput
      rfl
    · cases hput

/-- Nothing is used up by a removal. -/
theorem remove_spares (hremove : l.remove id = some l') :
    l.free ≤ l'.free ∧ l'.failed_blocks = l.failed_blocks ∧ l'.failed_inodes = l.failed_inodes := by
  rw [Ledger.remove] at hremove
  split at hremove
  · cases hremove
    exact ⟨le_refl _, rfl, rfl⟩
  · split at hremove
    · cases hremove
      exact ⟨Nat.le_add_right _ _, rfl, rfl⟩
    · cases hremove

end Ledger

namespace ExtentClient

variable {ec : ExtentClient} {files : Files} {id : extentid_t} {buf : List UInt8} {inum : UInt32} {type : FileType}

/-- The client's server stands for a map, and it has never run out of blocks or inodes. -/
structure Keeps (ec : ExtentClient) (files : Files) : Prop where
  represents : Represents ec.es.im files
  failed_blocks : ec.es.im.ledger.failed_blocks = 0
  failed_inodes : ec.es.im.ledger.failed_inodes = 0

/-! The calls on such a client. Of the disk they say what the ledger says. -/

theorem create_exchange (h : ec.Keeps files) (type : FileType) (hnext : ec.es.im.ledger.next_inum = some inum) :
    ∃ ec', ec.create type.code = (.OK, inum.toUInt64, ec') ∧ files inum = none ∧
      ec'.Keeps (Function.update files inum (some (type, []))) ∧
      ec'.es.im.ledger = ec.es.im.ledger.create type.code := by
  have howned := h.represents.owned
  obtain ⟨im', halloc, hcreated⟩ := (next_inum_eq_some hnext).alloc_inode howned.last_alloced type.code
  have hledger := hcreated.ledger howned hnext
  refine ⟨⟨{ ec.es with im := im' }⟩, ?_, h.represents.dead_iff.mp hcreated.dead,
    ⟨h.represents.created hcreated, ?_, ?_⟩, hledger⟩
  · rw [create, ExtentServer.create, halloc]
  · exact hcreated.failed_blocks.trans h.failed_blocks
  · exact hcreated.failed_inodes.trans h.failed_inodes

/-- With room for it, a request moves the map and the ledger on together. -/
theorem step_exchange {es : ExtentServer} {op : ExtentOp} (h : Represents es.im files) (hop : op.Ordinary)
    (hroom : ∀ l, es.im.ledger.step op = some l → l.failed_blocks = es.im.ledger.failed_blocks) :
    ∃ reply es', es.step op = .ok (reply, es') ∧ Answers files op reply ∧ Represents es'.im (files.next op reply) ∧
      es.im.ledger.step op = some es'.im.ledger := by
  obtain ⟨reply, es', hstep⟩ := step_returns h hop
  have hdone := step_done h.owned hop.fits.short hstep
  have hledger := step_ledger h.owned hop.fits.short
  rw [hstep] at hledger
  have hnow := hdone.represents hop.of_protocol hop.fits h (hroom _ hledger.symm)
  exact ⟨reply, es', hstep, hdone.answers hop h, hnow, hledger.symm⟩

theorem put_exchange (h : ec.Keeps files) (hid : id.toNat < 2 ^ 31) (hfits : Fits buf)
    (hroom : ∀ l, ec.es.im.ledger.put id buf.length = some l → l.failed_blocks = ec.es.im.ledger.failed_blocks) :
    ∃ ec', ec.put id buf = .ok (.OK, ec') ∧
      ec'.Keeps (Function.update files (inum_of id) ((files (inum_of id)).map fun file => (file.1, buf))) ∧
      ec.es.im.ledger.put id buf.length = some ec'.es.im.ledger := by
  have hop : (ExtentOp.put id buf).Ordinary := ⟨hid, hfits⟩
  obtain ⟨reply, es', hstep, hanswers, hnow, hledger⟩ := step_exchange h.represents hop hroom
  obtain ⟨⟨ret, es₁⟩, hput, hlast⟩ := Except.bind_eq_ok_iff.mp hstep
  obtain ⟨rfl, rfl⟩ := Prod.mk.inj (Except.ok.inj hlast)
  have hret : ret = .OK := hanswers
  refine ⟨⟨es₁⟩, ?_, ⟨hnow, ?_, ?_⟩, hledger⟩
  · rw [put, hput, hret]
    rfl
  · exact (hroom _ hledger).trans h.failed_blocks
  · exact (Ledger.put_failed_inodes hledger).trans h.failed_inodes

/-- A live file has an entry in the ledger too. -/
theorem ledger_files (h : ec.Keeps files) {bytes : List UInt8} (hfile : files inum = some (type, bytes)) :
    ∃ held, ec.es.im.ledger.files inum = some (bytes.length, held) := by
  obtain ⟨node, _, hlive, _, hsize, _⟩ := h.represents.node hfile
  exact ⟨_, by rw [ledger_files_of_live hlive, hsize]⟩

theorem get_exchange (h : ec.Keeps files) (id : extentid_t) :
    ∃ ec', ec.get id = .ok (.OK, files.content id, ec') ∧ ec'.Keeps files ∧ ec'.es.im.ledger = ec.es.im.ledger := by
  obtain ⟨im', hget, hunchanged⟩ := h.represents.get id
  have hledger := hunchanged.ledger h.represents.owned
  refine ⟨⟨{ ec.es with im := im' }⟩, ?_, ⟨h.represents.of_unchanged hunchanged, ?_, ?_⟩, hledger⟩
  · rw [get, hget]
    rfl
  · exact hunchanged.failed_blocks.trans h.failed_blocks
  · exact hunchanged.failed_inodes.trans h.failed_inodes

theorem remove_exchange (h : ec.Keeps files) (hid : id.toNat < 2 ^ 31) :
    ∃ ec', ec.remove id = .ok (.OK, ec') ∧ ec'.Keeps (Function.update files (inum_of id) none) ∧
      ec.es.im.ledger.remove id = some ec'.es.im.ledger := by
  have hop : (ExtentOp.remove id).Ordinary := hid
  obtain ⟨reply, es', hstep, hanswers, hnow, hledger⟩ := step_exchange h.represents hop
    fun _ hl => (Ledger.remove_spares hl).2.1
  obtain ⟨⟨ret, es₁⟩, hremove, hlast⟩ := Except.bind_eq_ok_iff.mp hstep
  obtain ⟨rfl, rfl⟩ := Prod.mk.inj (Except.ok.inj hlast)
  have hret : ret = .OK := hanswers
  obtain ⟨_, hblocks, hinodes⟩ := Ledger.remove_spares hledger
  refine ⟨⟨es₁⟩, ?_, ⟨hnow, ?_, ?_⟩, hledger⟩
  · rw [remove, hremove, hret]
    rfl
  · exact hblocks.trans h.failed_blocks
  · exact hinodes.trans h.failed_inodes

theorem getattr_exchange (h : ec.Keeps files) (id : extentid_t) :
    (ec.getattr id).1 = .OK ∧ (ec.getattr id).2.type = files.type_code id :=
  ⟨(h.represents.getattr id).1, (h.represents.getattr id).2.1⟩

end ExtentClient

end chfs
