import Chfs.Client.Spec

namespace chfs

open BlockManager InodeManager ExtentServer

/-- The content after `data` is written at `off`: zero bytes fill a hole, and what lies
    behind the data stays. -/
def splice (text : List UInt8) (off : Nat) (data : List UInt8) : List UInt8 :=
  (text ++ List.replicate (off - text.length) 0).take off ++ data ++ text.drop (off + data.length)

theorem toInt_eq_cases (off : Int64) :
    off.toInt = if 2 * off.toUInt64.toNat < 2 ^ 64 then (off.toUInt64.toNat : Int)
      else off.toUInt64.toNat - (2 ^ 64 : Nat) := BitVec.toInt_eq_toNat_cond off.toBitVec

theorem toNat_of_nonneg {off : Int64} (h : 0 ≤ off.toInt) : off.toUInt64.toNat = off.toInt.toNat := by
  have hval := toInt_eq_cases off
  have hlt := off.toUInt64.toNat_lt
  split at hval <;> omega

/-- A negative offset is a large position. -/
theorem toNat_of_neg {off : Int64} (h : off.toInt < 0) : 2 ^ 63 ≤ off.toUInt64.toNat := by
  have hval := toInt_eq_cases off
  split at hval <;> omega

namespace ChfsClient

variable {known : Set UInt32} {c c' : ChfsClient} {es' : ExtentServer} {files : Files} {ino size : UInt64} {off : Int64}
  {data : Mem} {type : FileType} {text : List UInt8} {ret : Status}

/-- At an offset that is not negative `write` splices. -/
theorem written_eq_splice (text : List UInt8) (size : UInt64) (data : Mem) (hoff : 0 ≤ off.toInt) :
    written text size off data = some (splice text off.toInt.toNat (data.bytes size.toNat)) := by
  have hnat := toNat_of_nonneg hoff
  simp only [written, hnat, splice, Mem.length_bytes]
  by_cases hhole : (text.length : Int) < off.toInt
  · have hle : text.length ≤ off.toInt.toNat := by omega
    have hresize : StdString.resize text off.toInt.toNat 0 =
      text ++ List.replicate (off.toInt.toNat - text.length) 0 := by
      rw [StdString.resize, List.take_of_length_le hle]
    have hlen := StdString.length_resize text off.toInt.toNat 0
    rw [if_pos hhole, StdString.replace, if_pos hlen.ge, List.drop_of_length_le (by omega),
      List.drop_of_length_le (by omega), hresize]
  · have hpad : off.toInt.toNat - text.length = 0 := by omega
    rw [if_neg hhole, StdString.replace, if_pos (by omega), hpad, List.replicate_zero, List.append_nil]

/-- And `read` returns what lies between the offset and the end of what is asked for. -/
theorem read_spec (h : RepresentsOn known c.ec.es.im files) (hid : inum_of ino ∈ known)
    (hfile : files (inum_of ino) = some (type, text)) (hoff : 0 ≤ off.toInt) (size : UInt64) :
    ∃ es', c.read ino size off = .ok (.OK, (text.drop off.toInt.toNat).take size.toNat, c.with_server es') ∧
      OnlyReads c.ec.es es' := by
  obtain ⟨es', hget, hreads⟩ := get_spec h hid
  rw [Files.content_eq hfile] at hget
  refine ⟨es', ?_, hreads⟩
  have hnat := toNat_of_nonneg hoff
  have hbound := fits_iff.mp (h.stored _ hid _ _ hfile).fits
  have hsum : (off.toUInt64 + size).toNat = (off.toInt.toNat + size.toNat) % 2 ^ 64 := by
    rw [UInt64.toNat_add, hnat]
  rw [read_of_get hget, hnat, hsum]
  by_cases hend : (text.length : Int) ≤ off.toInt
  · rw [if_pos hend, List.drop_of_length_le (by omega), List.take_nil]
  · have hinside : off.toInt.toNat ≤ text.length := by omega
    rw [if_neg hend]
    dsimp only
    by_cases htail : text.length ≤ (off.toInt.toNat + size.toNat) % 2 ^ 64
    · -- what is asked for reaches the end
      have hall : text.length - off.toInt.toNat ≤ size.toNat := by
        have := size.toNat_lt
        omega
      rw [if_pos htail, StdString.substr, if_pos hinside, List.take_of_length_le (by simp),
        List.take_of_length_le (by simpa using hall)]
      rfl
    · rw [if_neg htail, StdString.substr, if_pos hinside]
      rfl

/-- `setattr` keeps a prefix, and cannot go wrong. -/
theorem setattr_spec (h : RepresentsOn known c.ec.es.im files) (hid : inum_of ino ∈ known)
    (hfile : files (inum_of ino) = some (type, text)) (size : UInt64) :
    ∃ es', c.setattr ino size = .ok (.OK, c.with_server es') ∧ c.ec.es.Untroubled es' ∧
      c.ec.es.tally ≤ es'.tally ∧
      RepresentsOn known es'.im (Function.update files (inum_of ino) (some (type, text.take size.toNat))) := by
  obtain ⟨es₁, hget, hreads⟩ := get_spec h hid
  rw [Files.content_eq hfile] at hget
  have h₁ := hreads.represents h
  have hsame := hreads.tally
  have hbefore : c.ec.es.Untroubled es₁ := ⟨hreads.unchanged.failed_blocks, hreads.unchanged.failed_inodes⟩
  rw [setattr_of_get hget]
  by_cases hsize : text.length = size.toNat
  · refine ⟨es₁, if_pos hsize, hbefore, hsame.symm.le, ?_⟩
    rwa [List.take_of_length_le hsize.le, ← hfile, Function.update_eq_self]
  · have hle : (text.take size.toNat).length ≤ text.length := List.length_take_le' _ _
    have hfits := (h.stored _ hid _ _ hfile).fits
    have hbound := fits_iff.mp hfits
    have hlen : (text.take size.toNat).length < 2 ^ 31 := by omega
    obtain ⟨es₂, hput, hdone⟩ := put_spec h₁ hid hlen
    have hblocks := hdone.blocks type text hfile hle
    refine ⟨es₂, ?_, ⟨hblocks.trans hbefore.1, hdone.inodes.trans hbefore.2⟩, hsame.symm.le.trans hdone.tally,
      hdone.stored type text hfile hblocks (hle.trans hfits)⟩
    rw [if_neg hsize, hput]
    rfl

/-- A `write` returns, and if nothing goes wrong the file holds what is written. -/
theorem write_spec (h : RepresentsOn known c.ec.es.im files) (hid : inum_of ino ∈ known)
    (hfile : files (inum_of ino) = some (type, text)) (hoff : 0 ≤ off.toInt) {bytes_written : UInt64}
    (hlen : (splice text off.toInt.toNat (data.bytes size.toNat)).length < 2 ^ 31) :
    ∃ es', c.write ino size off data bytes_written = .ok (.OK, size, c.with_server es') ∧
      c.ec.es.tally ≤ es'.tally ∧ (splice text off.toInt.toNat (data.bytes size.toNat)).length ≤ es'.longest_put ∧
      (c.ec.es.Untroubled es' → Fits (splice text off.toInt.toNat (data.bytes size.toNat)) →
        RepresentsOn known es'.im
          (Function.update files (inum_of ino)
            (some (type, splice text off.toInt.toNat (data.bytes size.toNat))))) := by
  obtain ⟨es₁, hget, hreads⟩ := get_spec h hid
  rw [Files.content_eq hfile] at hget
  obtain ⟨es₂, hput, hdone⟩ := put_spec (hreads.represents h) hid hlen
  have hsame := hreads.tally
  refine ⟨es₂, write_of_get hget (written_eq_splice text size data hoff) hput, hsame.symm.le.trans hdone.tally,
    hdone.longest ▸ le_max_right _ _, ?_⟩
  intro hok hfits
  obtain ⟨_, hok⟩ := hok.between hsame.symm.le hdone.tally
  exact hdone.stored type text hfile hok.1 hfits

end ChfsClient

end chfs
