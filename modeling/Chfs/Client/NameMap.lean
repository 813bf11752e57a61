import Chfs.Client.Failures
import Chfs.Client.Ready

namespace chfs.ChfsClient

open BlockManager InodeManager ExtentServer

variable {fs : Nodes} {c c' start : ChfsClient} {history : List (ClientOp × ClientReply)} {dir parent ino id : UInt64}
  {name : CString} {list : List Dirent}

/-- The directory answers as a map from names to inums, given by the list of its entries. -/
structure NameMap (c : ChfsClient) (dir : UInt64) (list : List Dirent) : Prop where
  listing : c.Listing dir .OK list
  once : (list.map Dirent.name).Nodup
  lookup : ∀ name : CString, ∃ found ino c', c.lookup dir name false 0 = .ok (.OK, found, ino, c') ∧
    (found = true ↔ ∃ e ∈ list, e.name = name.bytes) ∧ ∀ e ∈ list, e.name = name.bytes → ino = e.inum
  exist : ∀ op name type value, Creates op dir name type value →
    ((∃ id c', c.step op = .ok (.node .EXIST id, c')) ↔ ∃ e ∈ list, e.name = name.bytes)
  unlink : ∀ name : CString, (∃ c', c.step (.unlink dir name) = .ok (.unlink .OK, c')) ↔
    ∃ e ∈ list, e.name = name.bytes ∧ c.isfile e.inum = true
  unlink_other : ∀ name : CString, (∃ c', c.step (.unlink dir name) = .ok (.unlink .IOERR, c')) ↔
    ∃ e ∈ list, e.name = name.bytes ∧ c.isfile e.inum = false
  unlink_unbound : ∀ name : CString, (∃ c', c.step (.unlink dir name) = .ok (.unlink .NOENT, c')) ↔
    ∀ e ∈ list, e.name ≠ name.bytes

theorem Shows.listing_iff (h : Shows fs c) : c.Listing dir .OK list ↔ fs (inum_of dir) = some (.dir list) := by
  constructor
  · rintro ⟨c', hread⟩
    generalize hret : Status.OK = ret at hread
    cases readdir_done hread with
    | not_dir _ => cases hret
    | read hdir hget =>
      obtain ⟨entries, hentries, hok⟩ := h.parsed hdir hget
      rw [hentries, hok]
  · intro hdir
    obtain ⟨es', hread, _⟩ := (h.lists hdir).readdir
    exact ⟨_, hread⟩

/-- Where names are listed once, a name is found with its own entry. -/
theorem find_of_mem (hnodup : (list.map Dirent.name).Nodup) {e : Dirent} (he : e ∈ list) (hname : e.name = name.bytes) :
    list.find? (fun elem => elem.name = name.bytes) = some e := by
  cases hfind : list.find? (fun elem => elem.name = name.bytes) with
  | none => exact absurd hname (of_find_none hfind e he)
  | some e' =>
    obtain ⟨hmem, hname'⟩ := of_find_some hfind
    rw [List.inj_on_of_nodup_map hnodup hmem he (hname'.trans hname.symm)]

theorem make_node_found {type : FileType} {value : Option CString} {c₁ : ChfsClient}
    (hlookup : c.lookup parent name false ino = .ok (.OK, true, id, c₁)) :
    c.make_node parent name type value ino = .ok (.EXIST, id, c₁) := by
  rw [make_node, hlookup]
  rfl

/-- The three answers of `unlink`. -/
theorem unlink_answers (h : Shows fs c) (hdir : fs (inum_of dir) = some (.dir list)) (name : CString) :
    ∃ ret c', c.step (.unlink dir name) = .ok (.unlink ret, c') ∧
      match list.find? (fun elem => elem.name = name.bytes) with
      | none => ret = .NOENT
      | some e => ret = if c.isfile e.inum = true then .OK else .IOERR := by
  have hlists := h.lists hdir
  cases hfind : list.find? (fun elem => elem.name = name.bytes) with
  | none =>
    obtain ⟨es', hunlink, _⟩ := unlink_unbound hlists hfind
    exact ⟨_, _, unlink_step.mpr hunlink, rfl⟩
  | some e =>
    by_cases hfile : c.isfile e.inum = true
    · obtain ⟨text, htext⟩ := h.isfile_iff.mp hfile
      obtain ⟨es', hunlink, _⟩ := unlink_spec hlists hfind trivial (Nodes.files_file.mpr htext)
      exact ⟨_, _, unlink_step.mpr hunlink, (if_pos hfile).symm⟩
    · have hother : ∀ bytes, fs.files (inum_of e.inum) ≠ some (.T_FILE, bytes) := by
        intro bytes hbytes
        exact hfile (h.isfile_iff.mpr ⟨bytes, Nodes.files_file.mp hbytes⟩)
      obtain ⟨es', hunlink, _⟩ := unlink_other hlists hfind trivial hother
      exact ⟨_, _, unlink_step.mpr hunlink, (if_neg hfile).symm⟩

/-- What `unlink` answers is told by the entry of the name. -/
theorem unlink_iff (h : Shows fs c) (hformed : fs.Formed) (hdir : fs (inum_of dir) = some (.dir list)) (ret : Status) :
    (∃ c', c.step (.unlink dir name) = .ok (.unlink ret, c')) ↔
      (ret = .NOENT ∧ ∀ e ∈ list, e.name ≠ name.bytes) ∨
        ∃ e ∈ list, e.name = name.bytes ∧ ret = if c.isfile e.inum = true then .OK else .IOERR := by
  obtain ⟨answer, c', hstep, hanswer⟩ := unlink_answers h hdir name
  have hret : (∃ c', c.step (.unlink dir name) = .ok (.unlink ret, c')) ↔ ret = answer := by
    constructor
    · rintro ⟨c'', hstep'⟩
      rw [hstep] at hstep'
      cases hstep'
      rfl
    · rintro rfl
      exact ⟨c', hstep⟩
  rw [hret]
  cases hfind : list.find? (fun elem => elem.name = name.bytes) with
  | none =>
    have hunbound := of_find_none hfind
    rw [hfind] at hanswer
    rw [hanswer]
    constructor
    · exact fun hret => .inl ⟨hret, hunbound⟩
    · rintro (⟨hret, _⟩ | ⟨e, he, hname, _⟩)
      · exact hret
      · exact absurd hname (hunbound e he)
  | some e =>
    obtain ⟨he, hname⟩ := of_find_some hfind
    rw [hfind] at hanswer
    rw [hanswer]
    constructor
    · exact fun hret => .inr ⟨e, he, hname, hret⟩
    · rintro (⟨_, hunbound⟩ | ⟨e', he', hname', hret⟩)
      · exact absurd hname (hunbound e he)
      · rw [find_of_mem (hformed.names _ _ hdir) he' hname'] at hfind
        cases hfind
        exact hret

/-- A creating call answers EXIST when the name is listed, and only then. -/
theorem exist_iff (h : Shows fs c) (hdir : fs (inum_of dir) = some (.dir list)) {op : ClientOp} {type : FileType}
    {value : Option CString} (hcreates : Creates op dir name type value) :
    (∃ id c', c.step op = .ok (.node .EXIST id, c')) ↔ ∃ e ∈ list, e.name = name.bytes := by
  rw [← (h.lists hdir).bound_iff]
  constructor
  · rintro ⟨id, c', hstep⟩
    rw [hcreates.step] at hstep
    obtain ⟨⟨ret, ino, c₁⟩, hmake, hret⟩ := Except.bind_eq_ok_iff.mp hstep
    cases hret
    cases make_node_done hmake with
    | bound hlookup =>
      obtain ⟨entries, e, hentries, hfind, _⟩ := h.bound hlookup
      rw [hdir] at hentries
      cases hentries
      exact (h.lists hdir).bound_iff.mpr ⟨e, of_find_some hfind⟩
  · rintro ⟨id, c', hlookup⟩
    exact ⟨id, c', creates_step hcreates (make_node_found hlookup)⟩

theorem Shows.nameMap (h : Shows fs c) (hformed : fs.Formed) (hdir : fs (inum_of dir) = some (.dir list)) :
    NameMap c dir list := by
  have hlists := h.lists hdir
  have hnodup := hformed.names _ _ hdir
  refine ⟨h.listing_iff.mpr hdir, hnodup, ?_, fun _ _ _ _ => exist_iff h hdir, ?_, ?_, ?_⟩
  · intro name
    cases hfind : list.find? (fun elem => elem.name = name.bytes) with
    | none =>
      obtain ⟨es', hlookup, _⟩ := hlists.lookup_none false 0 hfind
      refine ⟨false, 0, _, hlookup, ?_, ?_⟩
      · constructor
        · rintro ⟨⟩
        · rintro ⟨e, he, hname⟩
          exact absurd hname (of_find_none hfind e he)
      · intro e he hname
        exact absurd hname (of_find_none hfind e he)
    | some e =>
      obtain ⟨es', hlookup, _⟩ := hlists.lookup_some false 0 hfind
      refine ⟨true, e.inum, _, hlookup, ⟨fun _ => ⟨e, of_find_some hfind⟩, fun _ => rfl⟩, ?_⟩
      intro e' he' hname
      rw [find_of_mem hnodup he' hname] at hfind
      cases hfind
      rfl
  · intro name
    simp [unlink_iff h hformed hdir]
  · intro name
    simp [unlink_iff h hformed hdir]
  · intro name
    simp only [unlink_iff h hformed hdir, true_and, or_iff_left_iff_imp]
    rintro ⟨e, _, _, hret⟩
    split at hret <;> cases hret

/-- Along every run without failures each directory maps exactly the names to inums that the
    calls so far have bound and not unbound, in the order in which they were bound. -/
theorem directories_map_names {garbage : UInt32} {env : Env} {stack : UInt64}
    (hnew : ChfsClient.new garbage env stack = .ok start) (hrun : Trace step Ordinary start history c)
    (hclean : c.ec.es.Clean) (hdir : c.isdir dir = true) :
    NameMap c dir ((bindings (inum_of dir) history).map Prod.fst) := by
  obtain ⟨fs, hruns, h⟩ := run_refines (fresh_client hnew) hrun hclean
  obtain ⟨list, hlist⟩ := h.isdir_iff.mp hdir
  rw [Nodes.run_bindings hruns, Nodes.entries_eq hlist]
  exact h.nameMap (Nodes.run_formed hruns) hlist

/-- One name in two directories, and another that is bound and unlinked. -/
theorem directories_map_names_tour : ∃ start c : ChfsClient, ChfsClient.new 0 still 0 = .ok start ∧
    Trace step Ordinary start tour c ∧ NameMap c 1 [{ inum := 2, name := name_a.bytes }] ∧
    NameMap c 2 [{ inum := 3, name := name_a.bytes }] := by
  obtain ⟨start, hnew⟩ := new_zero still 0
  obtain ⟨fs, c, hrun, h, hroot, hdir, _⟩ := run_tour hnew
  have hisroot : c.isdir 1 = true := h.shows.isdir_iff.mpr ⟨_, hroot⟩
  have hisdir : c.isdir 2 = true := h.shows.isdir_iff.mpr ⟨_, hdir⟩
  exact ⟨start, c, hnew, hrun, directories_map_names hnew hrun h.clean hisroot,
    directories_map_names hnew hrun h.clean hisdir⟩

end chfs.ChfsClient
