import Chfs.Client.Ready
import Chfs.Extent.Complete

namespace chfs

open BlockManager InodeManager ExtentServer

namespace ExtentServer

variable {es es' es'' : ExtentServer} {id : extentid_t} {buf : List UInt8} {ret : Status}

theorem KeepsOthers.trans (h : KeepsOthers es es' id) (h' : KeepsOthers es' es'' id) : KeepsOthers es es'' id := by
  intro other hother
  obtain ⟨hreads, hsize⟩ := h other hother
  obtain ⟨hreads', hsize'⟩ := h' other hother
  exact ⟨fun heap bytes => (hreads' heap bytes).trans (hreads heap bytes), hsize'.trans hsize⟩

/-- A `get` does not touch the other inodes. -/
theorem get_spares (howned : Owned es.im) (hget : es.get id = .ok (ret, buf, es')) :
    Spares es.im es'.im (inum_of id) := by
  cases hlive : es.im.get_inode (inum_of id) with
  | none =>
    rw [get_dead hlive] at hget
    cases hget
    exact ⟨fun _ _ => rfl, fun _ _ _ hfile j hj => ⟨howned.in_use hfile hj, rfl⟩⟩
  | some node =>
    obtain ⟨haccessed, _⟩ := get_accessed hlive hget
    refine ⟨haccessed.others, ?_⟩
    intro other file _ hfile j hj
    have huse := howned.in_use hfile hj
    exact ⟨(haccessed.in_use _).mpr huse,
      haccessed.frame _ ((howned.wf.data_block _ huse).ne_IBLOCK haccessed.inum_le)⟩

end ExtentServer

namespace ChfsClient

variable {known : Set UInt32} {c c' start : ChfsClient} {files : Files} {history : List (ClientOp × ClientReply)}
  {ino size : UInt64} {text : List UInt8} {ret : Status}

/-- `setattr` returns OK and leaves the file with the length asked for: cut off, or
    filled up with zero bytes. The other files are as before. -/
def SetsLength (c : ChfsClient) (ino size : UInt64) (text : List UInt8) : Prop :=
  ∃ c', c.setattr ino size = .ok (.OK, c') ∧
    (∀ bytes, c'.ec.es.Reads ino bytes ↔
      bytes = if size.toNat ≤ text.length then text.take size.toNat
        else text ++ List.replicate (size.toNat - text.length) 0) ∧
    (∀ fin, (c'.getfile ino fin).1 = .OK ∧ (c'.getfile ino fin).2.size = size) ∧
    KeepsOthers c.ec.es c'.ec.es ino

theorem SetattrDone.keeps_others (hdone : SetattrDone c ino size ret c') (h : RepresentsOn known c.ec.es.im files)
    (hid : inum_of ino ∈ known) {type : FileType} (hfile : files (inum_of ino) = some (type, text)) :
    KeepsOthers c.ec.es c'.ec.es ino := by
  have hbound := fits_iff.mp (h.stored _ hid _ _ hfile).fits
  cases hdone with
  | same hget _ =>
    have howned := ((get_only_reads h.owned hget).represents h).owned
    exact keepsOthers_of_spares h.owned howned.wf (get_spares h.owned hget)
  | @put buf es₁ es₂ hget _ hput =>
    have h₁ := (get_only_reads h.owned hget).represents h
    have hbuf := get_content h hid hget
    rw [Files.content_eq hfile] at hbuf
    have hlen : (buf.take size.toNat).length < 2 ^ 31 := by
      rw [hbuf, List.length_take]
      omega
    have hdone := put_on h₁ hid hlen hput
    exact (keepsOthers_of_spares h.owned h₁.owned.wf (get_spares h.owned hget)).trans
      (keepsOthers_of_spares h₁.owned hdone.others.owned.wf hdone.spares)

/-- What a known file reads as. -/
theorem reads_iff_known (h : RepresentsOn known c.ec.es.im files) (hid : inum_of ino ∈ known) (bytes : List UInt8) :
    c.ec.es.Reads ino bytes ↔ bytes = files.content ino := by
  obtain ⟨es', hget, _⟩ := get_spec h hid
  rw [Reads, hget]
  constructor
  · rintro ⟨_, heq⟩
    cases heq
    rfl
  · rintro rfl
    exact ⟨_, rfl⟩

/-- The file that is known, where only one is. -/
def only_file (type : FileType) (text : List UInt8) : Files := fun _ => some (type, text)

theorem representsOn_stores {im : InodeManager} {inum : UInt32} {type : FileType} (howned : Owned im)
    (hstores : Stores im inum type text) : RepresentsOn {inum} im (only_file type text) where
  owned := howned
  dead := by
    intro other _ hnone
    cases hnone
  stored := by
    intro other hother type' bytes hfile
    rw [Set.mem_singleton_iff.mp hother]
    cases hfile
    exact hstores

/-- `setattr` does so for a whole file exactly when the file does not have to grow. -/
theorem sets_length_iff_of_stores (howned : Owned c.ec.es.im) (hstores : Stores c.ec.es.im (inum_of ino) .T_FILE text) :
    SetsLength c ino size text ↔ size.toNat ≤ text.length := by
  have h := representsOn_stores howned hstores
  have hid : inum_of ino ∈ ({inum_of ino} : Set UInt32) := Set.mem_singleton _
  obtain ⟨es', hrun, _, _, h'⟩ := setattr_spec h hid rfl size
  have hreads : ∀ bytes, es'.Reads ino bytes ↔ bytes = text.take size.toNat := by
    intro bytes
    have hiff := reads_iff_known (c := c.with_server es') h' hid bytes
    rwa [Files.content_eq (Function.update_self ..)] at hiff
  constructor
  · rintro ⟨c', hset, hbytes, _, _⟩
    rw [hrun] at hset
    cases hset
    by_contra hlarge
    have hkept : text = text.take size.toNat := (List.take_of_length_le (by omega)).symm
    have hpadded := (hbytes text).mp ((hreads text).mpr hkept)
    rw [if_neg hlarge] at hpadded
    have hlength := congrArg List.length hpadded
    rw [List.length_append, List.length_replicate] at hlength
    omega
  · intro hle
    refine ⟨_, hrun, ?_, ?_, (setattr_done hrun).keeps_others h hid rfl⟩
    · intro bytes
      rw [if_pos hle]
      exact hreads bytes
    · intro fin
      obtain ⟨a, hattr, _, hsize⟩ := getattr_spec h' hid
      rw [Files.content_eq (Function.update_self ..), List.length_take, Nat.min_eq_left hle] at hsize
      have hget : (c.with_server es').ec.getattr ino = (.OK, a) := hattr
      refine ⟨by rw [getfile, hget]; rfl, ?_⟩
      rw [getfile, hget]
      apply UInt64.toNat_inj.mp
      rw [← hsize]
      exact UInt32.toNat_toUInt64 a.size

/-- In every state a client reaches without a failed allocation, `setattr` sets the
    length of a file exactly when the file does not have to grow. -/
theorem sets_length_iff {garbage : UInt32} {env : Env} {stack : UInt64}
    (hnew : ChfsClient.new garbage env stack = .ok start) (hrun : Trace step (fun _ _ => True) start history c)
    (hshort : c.ec.es.longest_put < 2 ^ 31) (hfail : c.ec.es.im.bm.failed_allocs = 0)
    (hfile : c.isfile ino = true) (hreads : c.ec.es.Reads ino text) :
    SetsLength c ino size text ↔ size.toNat ≤ text.length := by
  have hfresh := fresh_client hnew
  have hreaches := run_reaches hrun
  have howned := hreaches.owned hfresh.owned hshort
  have hcomplete := hreaches.complete hfresh.owned (Complete.fresh hfresh) hshort
    (hfail.trans hfresh.failed_blocks.symm)
  have htype := isfile_iff.mp hfile
  rw [ExtentServer.getattr_eq] at htype
  cases hlive : c.ec.es.im.get_inode (inum_of ino) with
  | none =>
    rw [hlive] at htype
    exact absurd htype (by decide)
  | some node =>
    rw [hlive] at htype
    exact sets_length_iff_of_stores howned (stores_of_reads howned hcomplete hlive htype hreads)

/-- A file of five bytes is cut to two. -/
theorem sets_length_iff_cut :
    ∃ start c, ChfsClient.new 0 still 0 = .ok start ∧ Trace step (fun _ _ => True) start tour c ∧ c.isfile 3 = true ∧
      SetsLength c 3 2 [0, 120, 0, 104, 105] := by
  obtain ⟨start, hnew⟩ := new_zero still 0
  obtain ⟨fs, c, hrun, h, _, _, hcontent⟩ := run_tour hnew
  have hrun := hrun.weaken fun _ _ _ => trivial
  have hfile : c.isfile 3 = true := h.shows.isfile_iff.mpr ⟨_, hcontent⟩
  have hreads : c.ec.es.Reads 3 [0, 120, 0, 104, 105] :=
    (reads_iff_known h.shows.represents_on trivial _).mpr (Files.content_eq (Nodes.files_file.mpr hcontent)).symm
  exact ⟨start, c, hnew, hrun, hfile,
    (sets_length_iff hnew hrun h.clean.longest_lt (clean_iff.mp h.clean).1 hfile hreads).mpr (by decide)⟩

/-- An empty file cannot be extended by one byte: it stays empty. -/
theorem setattr_does_not_extend :
    ∃ start c c', ChfsClient.new 0 still 0 = .ok start ∧ start.step (.create 1 name_a) = .ok (.node .OK 2, c) ∧
      c.ec.es.Clean ∧ c.isfile 2 = true ∧ c.ec.es.Reads 2 [] ∧ pointers_for (blocks_for 1) ≤ c.ec.es.im.bm.free_count ∧
      c.setattr 2 1 = .ok (.OK, c') ∧ c'.ec.es.Reads 2 [] ∧ ¬ SetsLength c 2 1 [] := by
  obtain ⟨start, hnew⟩ := new_zero still 0
  obtain ⟨c, hstep, hclean, hfree, hrep⟩ := create_first_file hnew
  have hempty : node_files root_files 1 [] 2 name_a .T_FILE none (inum_of 2) = some (.T_FILE, []) := rfl
  have hfile : c.isfile 2 = true := (isfile_iff_known hrep trivial).mpr ⟨[], hempty⟩
  have hreads : c.ec.es.Reads 2 [] := (reads_iff_known hrep trivial []).mpr rfl
  obtain ⟨es', hset, _, _, hrep'⟩ := setattr_spec hrep trivial hempty 1
  have hreads' : es'.Reads 2 [] := by
    refine (reads_iff_known (c := c.with_server es') hrep' trivial []).mpr ?_
    rw [Files.content_eq (Function.update_self ..), List.take_nil]
  have hstores := hrep.stored (inum_of 2) trivial .T_FILE [] hempty
  have hroom : pointers_for (blocks_for 1) = 1 := by decide
  refine ⟨start, c, _, hnew, hstep, hclean, hfile, hreads, by omega, hset, hreads', ?_⟩
  intro hsets
  have hle := (sets_length_iff_of_stores hrep.owned hstores).mp hsets
  exact absurd hle (by decide)

end ChfsClient

end chfs
