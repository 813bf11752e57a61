import Chfs.Client.SetLength
import Chfs.Client.Unlinking

namespace chfs

open BlockManager InodeManager ExtentServer

namespace ExtentServer

variable {es : ExtentServer} {id : extentid_t} {bytes : List UInt8}

/-- What is read has the length the attributes give. -/
theorem Reads.length_eq (h : es.Reads id bytes) (howned : Owned es.im) :
    bytes.length = (es.getattr id).2.size.toNat := by
  rw [getattr_eq]
  cases hlive : es.im.get_inode (inum_of id) with
  | none =>
    obtain ⟨es', hget⟩ := h
    rw [get_dead hlive] at hget
    cases hget
    rfl
  | some node =>
    obtain ⟨p, hlayout⟩ := howned.layout _ node hlive
    obtain ⟨_, hbytes⟩ := (reads_iff_of_live hlive howned.wf hlayout).mp h
    rw [hbytes, Mem.length_bytes]

end ExtentServer

/-- A text that lists entries is a bound for the text these entries have when written. -/
theorem length_dir_text_pairs (c : ChfsClient) (ps : List (List UInt8 × List UInt8)) :
    (dir_text (ps.map c.dirent_of)).length ≤ 11 * (Separated.pairs slash ps).length := by
  induction ps with
  | nil => exact Nat.zero_le _
  | cons p ps ih =>
    have hentry : (ChfsClient.inum_name_pair (c.n2i p.1) p.2).length ≤ p.2.length + 22 :=
      ChfsClient.length_inum_name_pair_le _ _
    have hcons : dir_text ((p :: ps).map c.dirent_of) =
        ChfsClient.inum_name_pair (c.n2i p.1) p.2 ++ dir_text (ps.map c.dirent_of) := rfl
    rw [hcons, Separated.pairs_cons]
    simp only [List.length_append, List.length_cons]
    omega

namespace ChfsClient

variable {known : Set UInt32} {c c' c₁ start : ChfsClient} {op : ClientOp} {files : Files}
  {history : List (ClientOp × ClientReply)} {parent id : UInt64} {name : CString} {type : FileType}
  {value : Option CString} {text : List UInt8} {list : List Dirent} {inum : UInt32} {ret : Status}

/-- The creating call and an `unlink` after it return OK and leave the files as they were. -/
def UndoneByUnlink (c : ChfsClient) (op : ClientOp) (parent : UInt64) (name : CString) : Prop :=
  ∃ id c₁ c₂, c.step op = .ok (.node .OK id, c₁) ∧ c₁.step (.unlink parent name) = .ok (.unlink .OK, c₂) ∧
    (∀ bytes, c₂.ec.es.Reads parent bytes ↔ c.ec.es.Reads parent bytes) ∧
    c₂.ec.es.im.get_inode (inum_of id) = none ∧
    ∀ other, inum_of other ≠ inum_of id →
      (∀ bytes, c₂.ec.es.Reads other bytes ↔ c.ec.es.Reads other bytes) ∧
        (c₂.ec.es.getattr other).2.type = (c.ec.es.getattr other).2.type ∧
        (c₂.ec.es.getattr other).2.size = (c.ec.es.getattr other).2.size

/-- Where nothing is bound to a name, only its new entry is left out with it. -/
theorem filter_new (hfind : list.find? (fun elem => elem.name = name.bytes) = none) (id : UInt64) :
    (list ++ [({ inum := id, name := name.bytes } : Dirent)]).filter (fun cur => cur.name ≠ name.bytes) = list := by
  have hkept : list.filter (fun cur => cur.name ≠ name.bytes) = list := by
    rw [List.filter_eq_self]
    intro e he
    have hne := List.find?_eq_none.mp hfind e he
    simpa using hne
  rw [List.filter_append, hkept]
  simp

/-- Unlinking the new file gives the old files back. -/
theorem unlinked_node_files (hfile : files (inum_of parent) = some (.T_DIR, dir_text list)) (hinum : inum_of id = inum)
    (hdead : files inum = none) (hfind : list.find? (fun elem => elem.name = name.bytes) = none) :
    unlinked_files (node_files files parent (dir_text list) inum name type value) parent id name
      (list ++ [({ inum := id, name := name.bytes } : Dirent)]) = files := by
  funext other
  rw [unlinked_files, filter_new hfind, hinum]
  by_cases hother : other = inum_of parent
  · rw [hother, Function.update_self, hfile]
  · rw [Function.update_of_ne hother]
    by_cases hnew : other = inum
    · rw [hnew, Function.update_self, hdead]
    · rw [Function.update_of_ne hnew, node_files, Function.update_of_ne hother, Function.update_of_ne hnew]

/-- A file that is created and unlinked leaves an encoded directory as it was. -/
theorem undone_of_encoded (h : Lists Set.univ files c parent (dir_text list) list)
    (hcreates : Creates op parent name .T_FILE none)
    (hmake : c.make_node parent name .T_FILE none 0 = .ok (.OK, inum.toUInt64, c₁))
    (hinum : inum_of inum.toUInt64 = inum)
    (hdead : c.ec.es.im.get_inode inum = none) (hunbound : ¬ Bound c parent name)
    (hlists : Lists (insert inum Set.univ) (node_files files parent (dir_text list) inum name .T_FILE none) c₁ parent
      (dir_text list ++ inum_name_pair inum.toUInt64 name.bytes)
      (list ++ [({ inum := inum.toUInt64, name := name.bytes } : Dirent)])) : UndoneByUnlink c op parent name := by
  have hfind := h.find_none hunbound
  have hnone : files inum = none := by
    cases hfile : files inum with
    | none => rfl
    | some file =>
      obtain ⟨node, hlive, _⟩ := (h.represents.stored inum trivial file.1 file.2 hfile).live
      rw [hdead] at hlive
      cases hlive
  have hne : inum ≠ inum_of parent := by
    rintro rfl
    rw [h.file] at hnone
    cases hnone
  rw [dir_text_new] at hlists
  have hmem : inum_of inum.toUInt64 ∈ insert inum Set.univ := Set.mem_insert_of_mem _ trivial
  have hnew : node_files files parent (dir_text list) inum name .T_FILE none (inum_of inum.toUInt64) =
    some (.T_FILE, []) := by
    rw [hinum, node_files, Function.update_of_ne hne, Function.update_self]
    rfl
  obtain ⟨es', hunlink, _, _, hrep⟩ := unlink_spec hlists (find_new hfind inum.toUInt64) hmem hnew
  have hlast : RepresentsOn (insert inum Set.univ) es'.im files := by
    rwa [unlinked_node_files h.file hinum hnone hfind] at hrep
  have h₀ : Represents c.ec.es.im files := representsOn_univ.mp h.represents
  have h₂ : Represents es'.im files := representsOn_univ.mp (hlast.mono fun _ _ => Set.mem_insert_of_mem _ trivial)
  have hparent := (h₀.same_answers h₂ (rfl : files (inum_of parent) = files (inum_of parent))).1
  have hgone : es'.im.get_inode (inum_of inum.toUInt64) = none := by
    rw [hinum]
    exact h₂.dead inum hnone
  refine ⟨_, c₁, _, creates_step hcreates hmake, unlink_step.mpr hunlink, hparent, hgone, ?_⟩
  intro other _
  exact h₀.same_answers h₂ rfl

/-- And only an encoded directory: `unlink` writes the encoding of the entries it read. -/
theorem encoded_of_undone (h : Lists Set.univ files c parent text list)
    (hmake : c.step op = .ok (.node .OK inum.toUInt64, c₁)) (hunbound : ¬ Bound c parent name)
    (hlists : Lists (insert inum known) (node_files files parent text inum name type value) c₁ parent
      (text ++ inum_name_pair inum.toUInt64 name.bytes)
      (list ++ [({ inum := inum.toUInt64, name := name.bytes } : Dirent)]))
    (hundone : UndoneByUnlink c op parent name) : dir_text list = text := by
  obtain ⟨id, c₁', c₂, hcall, hunlink, hparent, _⟩ := hundone
  rw [hmake] at hcall
  cases hcall
  obtain ⟨e, es₁, es₂, es₃, _, _, _, _, _, hafter, hput⟩ := unlink_writes hlists (unlink_step.mp hunlink)
  rw [filter_new (h.find_none hunbound)] at hput
  have hbound := fits_iff.mp h.stores.fits
  have hlen : (dir_text list).length ≤ 11 * text.length := by
    obtain ⟨ps, _, hps, hentries⟩ := parse_eq_ok.mp h.parse
    rw [hps, hentries]
    exact length_dir_text_pairs c ps
  have hdone := put_on hafter.represents hafter.mem (by omega) hput
  have hreads : c₂.ec.es.Reads parent text :=
    (hparent text).mpr ((reads_iff_known h.represents h.mem text).mpr (Files.content_eq h.file).symm)
  have hlive : es₃.im.get_inode (inum_of parent) ≠ none := hafter.stores.ne_none
  have hlength : text.length = (dir_text list).length :=
    (hreads.length_eq hdone.others.owned).trans (hdone.size hlive)
  have hfits : Fits (dir_text list) := fits_iff.mpr (by omega)
  have hle : (dir_text list).length ≤ (text ++ inum_name_pair inum.toUInt64 name.bytes).length := by
    rw [List.length_append]
    omega
  have hstored := hdone.stored .T_DIR _ hafter.file (hdone.blocks .T_DIR _ hafter.file hle) hfits
  have hcontent := (reads_iff_known (c := c₂) hstored hafter.mem text).mp hreads
  rw [hcontent, Files.content_eq (Function.update_self ..)]

/-- What is not a file cannot be unlinked. -/
theorem not_undone_of_type (hcall : c.step op = .ok (.node .OK inum.toUInt64, c₁))
    (hinum : inum_of inum.toUInt64 = inum)
    (hfind : list.find? (fun elem => elem.name = name.bytes) = none) (htype : type ≠ .T_FILE)
    (hlists : Lists (insert inum known) (node_files files parent text inum name type value) c₁ parent
      (text ++ inum_name_pair inum.toUInt64 name.bytes)
      (list ++ [({ inum := inum.toUInt64, name := name.bytes } : Dirent)])) : ¬ UndoneByUnlink c op parent name := by
  rintro ⟨id, c₁', c₂, hcall', hunlink, _⟩
  rw [hcall] at hcall'
  cases hcall'
  have hmem : inum_of inum.toUInt64 ∈ insert inum known := by
    rw [hinum]
    exact Set.mem_insert _ _
  have hnot : ∀ bytes,
      node_files files parent text inum name type value (inum_of inum.toUInt64) ≠ some (.T_FILE, bytes) := by
    intro bytes hfile
    rw [hinum, node_files] at hfile
    by_cases hparent : inum = inum_of parent
    · rw [hparent, Function.update_self] at hfile
      cases hfile
    · rw [Function.update_of_ne hparent, Function.update_self] at hfile
      cases hfile
      exact htype rfl
  obtain ⟨es', hfails, _⟩ := unlink_other hlists (find_new hfind inum.toUInt64) hmem hnot
  rw [unlink_step.mp hunlink] at hfails
  cases hfails

/-- Nothing is created in a directory that cannot be listed. -/
theorem parse_of_created (h : RepresentsOn known c.ec.es.im files) (hmem : inum_of parent ∈ known)
    (hfile : files (inum_of parent) = some (.T_DIR, text)) (hcreates : Creates op parent name type value)
    (hcall : c.step op = .ok (.node .OK id, c₁)) : (c.parse text).1 = .OK := by
  rw [hcreates.step] at hcall
  obtain ⟨⟨ret, ino, c'⟩, hmake, hcall⟩ := Except.bind_eq_ok_iff.mp hcall
  cases hcall
  cases make_node_done hmake with
  | made hlookup _ _ _ _ =>
    cases hlookup with
    | unbound _ hget hparse _ =>
      have hbuf := get_content h hmem hget
      rw [Files.content_eq hfile] at hbuf
      rw [← hbuf, hparse]

/-- Creating and unlinking are inverse exactly where the new inode is a file and the
    directory holds the encoding of its entries. -/
theorem undone_by_unlink_iff {garbage : UInt32} {env : Env} {stack : UInt64}
    (hnew : ChfsClient.new garbage env stack = .ok start) (hrun : Trace step (fun _ _ => True) start history c)
    (hclean : c.ec.es.Clean) (hcreates : Creates op parent name type value) (htype : type ≠ .T_DIR)
    (hname : slash ∉ name.bytes) (hdir : c.isdir parent = true) (hreads : c.ec.es.Reads parent text)
    (hunbound : ¬ Bound c parent name) (hfirst : FirstFree c.ec.es.im inum)
    (hroom : NodeRoom c.ec.es.im parent text inum name value) (hvalue : Fits (value_bytes value))
    (hfits : Fits (text ++ inum_name_pair inum.toUInt64 name.bytes)) :
    UndoneByUnlink c op parent name ↔
      op = .create parent name ∧ ∃ list : List Dirent, (∀ e ∈ list, slash ∉ e.name) ∧ text = dir_text list := by
  obtain ⟨files, hrep⟩ := run_represents (fresh_client hnew) hrun hclean
  have hrep := representsOn_univ.mpr hrep
  have hmem : inum_of parent ∈ Set.univ := trivial
  obtain ⟨bytes, hfile⟩ := (isdir_iff_known hrep hmem).mp hdir
  have htext := (reads_iff_known hrep hmem text).mp hreads
  rw [Files.content_eq hfile] at htext
  subst htext
  by_cases hparse : (c.parse text).1 = .OK
  · have hlists : Lists Set.univ files c parent text (c.parse text).2 := ⟨hrep, hmem, hfile, Prod.ext hparse rfl⟩
    obtain ⟨c₁, hmake, _, _, hinum, hdead, hlists₁⟩ :=
      make_node_first hlists type 0 hunbound hname hfirst hroom hfits hvalue
    have hcall := creates_step hcreates hmake
    constructor
    · intro hundone
      have htext := encoded_of_undone hlists hcall hunbound hlists₁ hundone
      cases hcreates with
      | create => exact ⟨rfl, _, slash_not_mem_of_parse hlists.parse, htext.symm⟩
      | mkdir _ => exact absurd rfl htype
      | create_symbolic_link =>
        have hnot : FileType.T_SYMBOLIC ≠ .T_FILE := by
          rintro ⟨⟩
        exact absurd hundone (not_undone_of_type hcall hinum (hlists.find_none hunbound) hnot hlists₁)
    · rintro ⟨rfl, list, hfree, rfl⟩
      have hlist : (c.parse (dir_text list)).2 = list := by rw [parse_dir_text c hfree]
      cases hcreates
      rw [hlist] at hlists hlists₁
      exact undone_of_encoded hlists .create hmake hinum hdead hunbound hlists₁
  · constructor
    · rintro ⟨_, _, _, hcall, _⟩
      exact absurd (parse_of_created hrep hmem hfile hcreates hcall) hparse
    · rintro ⟨_, list, hfree, rfl⟩
      exact absurd (congrArg Prod.fst (parse_dir_text c hfree)) hparse

/-- The file "a" in the root. -/
theorem undone_by_unlink_iff_first :
    ∃ start, ChfsClient.new 0 still 0 = .ok start ∧
      (UndoneByUnlink start (.create 1 name_a) 1 name_a ↔
        ClientOp.create 1 name_a = .create 1 name_a ∧
          ∃ list : List Dirent, (∀ e ∈ list, slash ∉ e.name) ∧ ([] : List UInt8) = dir_text list) := by
  obtain ⟨start, hnew⟩ := new_zero still 0
  have hstart := fresh_client hnew
  have hlists := lists_root hstart
  have hreads : start.ec.es.Reads 1 [] := (reads_iff_known hlists.represents hlists.mem []).mpr rfl
  exact ⟨start, hnew, undone_by_unlink_iff hnew .nil (clean_new hnew) .create (by rintro ⟨⟩) slash_not_mem_name_a
    hlists.isdir hreads (not_bound_start hstart name_a) (firstFree_start hstart)
    (nodeRoom_start hstart length_name_a fits_value_none) fits_value_none (by decide)⟩

/-- A symbolic link cannot be unlinked. -/
theorem symbolic_link_stays :
    ∃ start c c', ChfsClient.new 0 still 0 = .ok start ∧
      start.step (.create_symbolic_link 1 name_a name_a) = .ok (.node .OK 2, c) ∧ c.ec.es.Clean ∧
      c.step (.unlink 1 name_a) = .ok (.unlink .IOERR, c') ∧
      ¬ UndoneByUnlink start (.create_symbolic_link 1 name_a name_a) 1 name_a := by
  obtain ⟨start, hnew⟩ := new_zero still 0
  have hstart := fresh_client hnew
  have hvalue : Fits (value_bytes (some name_a)) := by decide
  obtain ⟨c, hmake, _, hclean, _, hrep⟩ := make_first hnew name_a .T_SYMBOLIC (some name_a) length_name_a hvalue
  have hcall := creates_step .create_symbolic_link hmake
  obtain ⟨es', hunlink, _⟩ := unlink_other (lists_first hrep) find_first trivial (by rintro bytes ⟨⟩)
  have hstep := unlink_step.mpr hunlink
  refine ⟨start, c, _, hnew, hcall, hclean, hstep, ?_⟩
  rintro ⟨id, c₁, c₂, hcall', hunlink', _⟩
  rw [hcall] at hcall'
  cases hcall'
  rw [hstep] at hunlink'
  cases hunlink'

end ChfsClient

end chfs
