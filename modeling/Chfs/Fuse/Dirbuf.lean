import Chfs.Fuse.Handlers
import Chfs.Fuse.Spec

namespace chfs

namespace Fuse

variable {lib : Libfuse} {entries : List Dirent} {b : Dirbuf} {heap : Mem} {size : UInt64} {off : Int64}

/-- The records of the buffer so far, and behind them the new one. -/
theorem dirbuf_add_spec (hlib : lib.format.Sized) (b : Dirbuf) {e : Dirent} (hname : 0 ∉ e.name) :
    (dirbuf_add lib b (StdString.c_str e.name) e.inum).size = b.size + lib.format.size e ∧
      (dirbuf_add lib b (StdString.c_str e.name) e.inum).p.bytes (b.size + lib.format.size e) =
        b.p.bytes b.size ++ lib.format.encode e (b.size + lib.format.size e) := by
  have hlength := hlib e (b.size + lib.format.size e)
  have hbytes := Mem.bytes_memcpy_ofBytes b.p Mem.zero b.size (lib.format.encode e (b.size + lib.format.size e))
  rw [hlength] at hbytes
  rw [dirbuf_add, StdString.c_str_of_not_mem hname]
  refine ⟨rfl, ?_⟩
  change (Mem.memcpy b.p b.size _ (lib.format.encode e (b.size + lib.format.size e)).length).bytes _ = _
  rw [hlength]
  exact hbytes

/-- The loop over the entries lays their records out. -/
theorem foldl_dirbuf_add (hlib : lib.format.Sized) (entries : List Dirent) :
    ∀ b : Dirbuf, (∀ e ∈ entries, 0 ∉ e.name) →
      let b' := entries.foldl (fun b e => dirbuf_add lib b (StdString.c_str e.name) e.inum) b
      b'.size = b.size + lib.format.total entries ∧
        b'.p.bytes b'.size = b.p.bytes b.size ++ lib.format.layout b.size entries := by
  induction entries with
  | nil =>
    intro b _
    simp [RecordFormat.layout]
  | cons e entries ih =>
    intro b hnames
    obtain ⟨hsize, hbytes⟩ := dirbuf_add_spec hlib b (hnames e List.mem_cons_self)
    obtain ⟨hsize', hbytes'⟩ := ih (dirbuf_add lib b (StdString.c_str e.name) e.inum)
      fun other hother => hnames other (List.mem_cons_of_mem _ hother)
    rw [hsize] at hsize' hbytes'
    refine ⟨?_, ?_⟩
    · rw [List.foldl_cons, hsize', RecordFormat.total_cons, Nat.add_assoc]
    · rw [List.foldl_cons, hbytes', hbytes, RecordFormat.layout, List.append_assoc]

theorem dirbuf_spec (hlib : lib.format.Sized) (heap : Mem) (hnames : ∀ e ∈ entries, 0 ∉ e.name) :
    (dirbuf lib heap entries).p.bytes (dirbuf lib heap entries).size = lib.format.layout 0 entries := by
  have hbytes := (foldl_dirbuf_add hlib entries { p := heap, size := 0 } hnames).2
  exact hbytes.trans (List.nil_append _)

/-- A page of a buffer is what lies in it behind the offset, up to the size asked for. -/
theorem reply_buf_limited_eq (p : Mem) (bufsize : Nat) (off : Int64) (maxsize : UInt64) :
    reply_buf_limited p bufsize off maxsize =
      .buf (((p.bytes bufsize).drop off.toUInt64.toNat).take maxsize.toNat) := by
  unfold reply_buf_limited
  dsimp only
  by_cases hoff : off.toUInt64.toNat < bufsize
  · have hpage : off.toUInt64.toNat + min (bufsize - off.toUInt64.toNat) maxsize.toNat ≤ bufsize := by omega
    have hlength : ((p.bytes bufsize).drop off.toUInt64.toNat).length = bufsize - off.toUInt64.toNat := by
      rw [List.length_drop, Mem.length_bytes]
    rw [if_pos hoff, Mem.bytes_shift p hpage, min_comm, ← hlength, ← List.take_eq_take_min]
  · have hlength := Mem.length_bytes p bufsize
    rw [if_neg hoff, List.drop_of_length_le (by omega), List.take_nil]

end Fuse

end chfs
