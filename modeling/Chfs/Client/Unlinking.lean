import Chfs.Client.Spec

namespace chfs

open BlockManager InodeManager ExtentServer

/-- What a shorter list leaves of the text of a directory. -/
theorem length_dir_text_le {list list' : List Dirent} (h : list'.Sublist list) :
    (dir_text list').length ≤ (dir_text list).length := (h.flatMap _).length_le

namespace ChfsClient

variable {known : Set UInt32} {c c' c₁ : ChfsClient} {es es' es₂ : ExtentServer} {files : Files}
  {parent ino ino' id : UInt64}
  {name : CString} {text : List UInt8} {ret : Status} {list : List Dirent}

/-- The files after an `unlink`. -/
def unlinked_files (files : Files) (parent ino : UInt64) (name : CString) (list : List Dirent) : Files :=
  Function.update (Function.update files (inum_of ino) none) (inum_of parent)
    (some (.T_DIR, dir_text (list.filter fun cur => cur.name ≠ name.bytes)))

/-- A name that is not bound cannot be unlinked. -/
theorem unlink_unbound (h : Lists known files c parent text list)
    (hfind : list.find? (fun elem => elem.name = name.bytes) = none) :
    ∃ es', c.unlink parent name = .ok (.NOENT, c.with_server es') ∧ OnlyReads c.ec.es es' := by
  obtain ⟨es', hlookup, hreads⟩ := h.lookup_none false 0 hfind
  exact ⟨es', unlink_not_found hlookup, hreads⟩

/-- Neither can one that is not bound to a file. -/
theorem unlink_other (h : Lists known files c parent text list) {e : Dirent}
    (hfind : list.find? (fun elem => elem.name = name.bytes) = some e) (hmem : inum_of e.inum ∈ known)
    (hfile : ∀ bytes, files (inum_of e.inum) ≠ some (.T_FILE, bytes)) :
    ∃ es', c.unlink parent name = .ok (.IOERR, c.with_server es') ∧ OnlyReads c.ec.es es' := by
  obtain ⟨es', hlookup, hreads⟩ := h.lookup_some false 0 hfind
  refine ⟨es', unlink_not_file hlookup ?_, hreads⟩
  by_contra hnot
  have hrep : RepresentsOn known (c.with_server es').ec.es.im files := hreads.represents h.represents
  obtain ⟨bytes, hbytes⟩ := (isfile_iff_known hrep hmem).mp (by simpa using hnot)
  exact hfile bytes hbytes

/-- Unlinking a file takes it and its entries away, and cannot go wrong. -/
theorem unlink_spec (h : Lists known files c parent (dir_text list) list) {e : Dirent}
    (hfind : list.find? (fun elem => elem.name = name.bytes) = some e) (hmem : inum_of e.inum ∈ known)
    {bytes : List UInt8} (hfile : files (inum_of e.inum) = some (.T_FILE, bytes)) :
    ∃ es', c.unlink parent name = .ok (.OK, c.with_server es') ∧ c.ec.es.Untroubled es' ∧
      c.ec.es.tally ≤ es'.tally ∧ RepresentsOn known es'.im (unlinked_files files parent e.inum name list) := by
  obtain ⟨es₁, hlookup, hreads₁⟩ := h.lookup_some false 0 hfind
  have h₁ : RepresentsOn known (c.with_server es₁).ec.es.im files := hreads₁.represents h.represents
  have hisfile : (c.with_server es₁).isfile e.inum = true := (isfile_iff_known h₁ hmem).mpr ⟨bytes, hfile⟩
  obtain ⟨es₂, hremove, htally₂, h₂⟩ := remove_spec h₁ hmem
  have hne : inum_of parent ≠ inum_of e.inum := by
    intro heq
    rw [← heq, h.file] at hfile
    cases hfile
  have hdir : Function.update files (inum_of e.inum) none (inum_of parent) = some (.T_DIR, dir_text list) := by
    rw [Function.update_of_ne hne, h.file]
  have hlists : Lists known (Function.update files (inum_of e.inum) none) ((c.with_server es₁).with_server es₂) parent
      (dir_text list) list := ⟨h₂, h.mem, hdir, by rw [parse_with_server, parse_with_server, h.parse]⟩
  obtain ⟨es₃, hread, hreads₃⟩ := hlists.readdir
  have h₃ := hreads₃.represents h₂
  have hsub : (list.filter fun cur => cur.name ≠ name.bytes).Sublist list := List.filter_sublist
  have hle := length_dir_text_le hsub
  have hfits := h.stores.fits
  have hbound := fits_iff.mp hfits
  have hlen : (dir_text (list.filter fun cur => cur.name ≠ name.bytes)).length < 2 ^ 31 := by omega
  obtain ⟨es₄, hput, hdone⟩ := put_spec h₃ h.mem hlen
  have hblocks := hdone.blocks .T_DIR _ hdir hle
  have hsame : es₃.tally = c.ec.es.tally := hreads₃.tally.trans (htally₂.trans hreads₁.tally)
  have hbefore : c.ec.es.Untroubled es₃ := by
    simp only [ExtentServer.tally, Prod.mk.injEq] at hsame
    exact ⟨hsame.1, hsame.2.1⟩
  refine ⟨es₄, unlink_found hlookup hisfile hremove hread hput, ?_, hsame.symm.le.trans hdone.tally, ?_⟩
  · exact ⟨hblocks.trans hbefore.1, hdone.inodes.trans hbefore.2⟩
  · exact hdone.stored .T_DIR _ hdir hblocks (hle.trans hfits)

/-- A `remove` that returns leaves the other files, known or not. -/
theorem remove_keeps (h : RepresentsOn known es.im files) (hremove : es.remove id = .ok (ret, es')) :
    RepresentsOn (known \ {inum_of id}) es'.im files := by
  have hstep : es.step (.remove id) = .ok (.remove ret, es') := by
    rw [ExtentServer.step, hremove]
    rfl
  have hshort : (ExtentOp.remove id).Short := trivial
  cases ExtentServer.step_done h.owned hshort hstep with
  | remove_dead _ => exact h.mono Set.sdiff_subset
  | remove hlive _ _ hdone => exact h.forget (hdone.spares h.owned hlive) (hdone.owned h.owned hlive)

/-- A directory and a file are two inodes. -/
theorem inum_ne (hdir : c.isdir parent = true) (hfile : c.isfile ino = true) : inum_of parent ≠ inum_of ino := by
  intro heq
  have htype : (c.ec.es.getattr parent).2.type = (c.ec.es.getattr ino).2.type := by
    rw [getattr, getattr, heq]
  rw [isdir_iff.mp hdir, isfile_iff.mp hfile] at htype
  cases FileType.code_inj htype

/-- A lookup that finds a name has listed the directory. -/
theorem lists_of_lookup (h : RepresentsOn known c.ec.es.im files) (hmem : inum_of parent ∈ known)
    (hlookup : LookupDone c parent name false 0 .OK true ino c₁) :
    ∃ text list, Lists known files c parent text list := by
  cases hlookup with
  | @bound text es₁ list e hdir hget hparse hfind =>
    obtain ⟨bytes, hfile⟩ := (isdir_iff_known h hmem).mp hdir
    have htext := get_content h hmem hget
    rw [Files.content_eq hfile] at htext
    subst htext
    exact ⟨text, list, h, hmem, hfile, hparse⟩

/-- Once the file it found is removed, the directory lists the same entries. -/
theorem Lists.after_remove (h : Lists known files c parent text list)
    (hlookup : LookupDone c parent name false 0 .OK true ino c₁) (hfile : c₁.isfile ino = true)
    (hremove : c₁.ec.es.remove ino = .ok (ret, es₂)) :
    Lists (known \ {inum_of ino}) files (c.with_server es₂) parent text list := by
  have hreads := hlookup.only_reads h.represents.owned
  have hne : inum_of parent ≠ inum_of ino := by
    rw [hlookup.with_server] at hfile
    exact inum_ne (h.only_reads hreads).isdir hfile
  exact ⟨remove_keeps (hreads.represents h.represents) hremove, ⟨h.mem, hne⟩, h.file,
    by rw [parse_with_server, h.parse]⟩

/-- What `unlink` writes back when it returns OK: the entries it listed before, but for
    those of the name. -/
theorem unlink_writes (h : Lists known files c parent text list) (hunlink : c.unlink parent name = .ok (.OK, c')) :
    ∃ e es₁ es₂ es₃, list.find? (fun elem => elem.name = name.bytes) = some e ∧ OnlyReads c.ec.es es₁ ∧
      (c.with_server es₁).isfile e.inum = true ∧ es₁.remove e.inum = .ok (.OK, es₂) ∧ OnlyReads es₂ es₃ ∧
      Lists (known \ {inum_of e.inum}) files (c.with_server es₃) parent text list ∧
      es₃.put parent (dir_text (list.filter fun cur => cur.name ≠ name.bytes)) = .ok (.OK, c'.ec.es) := by
  cases unlink_done hunlink with
  | @unlinked ino c₁ c₃ es₂ es₄ entries hlookup hfile hremove hread hput =>
    have hlists := h.after_remove hlookup hfile hremove
    obtain ⟨_, rfl, hreads₂⟩ := hlists.of_readdir hread
    cases hlookup with
    | @bound buf es₁ found e hdir hget hparse hfind =>
      have hreads := get_only_reads h.represents.owned hget
      have hbuf := get_content h.represents h.mem hget
      rw [Files.content_eq h.file] at hbuf
      rw [hbuf, h.parse] at hparse
      cases hparse
      exact ⟨e, es₁, es₂, c₃.ec.es, hfind, hreads, hfile, hremove, hreads₂, hlists.only_reads hreads₂, hput⟩

/-- An `unlink` that returns OK has listed the directory. -/
theorem lists_of_unlink (h : RepresentsOn known c.ec.es.im files) (hmem : inum_of parent ∈ known)
    (hunlink : c.unlink parent name = .ok (.OK, c')) : ∃ text list, Lists known files c parent text list := by
  cases unlink_done hunlink with
  | unlinked hlookup _ _ _ _ => exact lists_of_lookup h hmem hlookup

end ChfsClient

end chfs
