import Chfs.Client.Tree
import Chfs.Fuse.Run

namespace chfs

open InodeManager ExtentServer ChfsClient

theorem CString.ext {s t : CString} (h : s.bytes = t.bytes) : s = t := by
  cases s
  cases t
  cases h
  rfl

namespace Nodes

variable {fs : Nodes} {inum inum' dir : UInt32} {names names' : List CString} {entries : List Dirent} {e : Dirent}
  {name : CString}

/-- The names lead from one inode to another. -/
def Leads (fs : Nodes) (inum : UInt32) : List CString → UInt32 → Prop
  | [], inum' => inum = inum'
  | name :: names, inum' => ∃ e next, fs.Edge inum e next ∧ e.name = name.bytes ∧ fs.Leads next names inum'

theorem Leads.concat (h : fs.Leads inum names dir) (hedge : fs.Edge dir e inum') (hname : e.name = name.bytes) :
    fs.Leads inum (names ++ [name]) inum' := by
  induction names generalizing inum with
  | nil =>
    cases h
    exact ⟨e, inum', hedge, hname, rfl⟩
  | cons first names ih =>
    obtain ⟨e', next, hedge', hname', hrest⟩ := h
    exact ⟨e', next, hedge', hname', ih hrest⟩

/-- The entries on the way. -/
theorem Leads.path (h : fs.Leads dir names inum) (hdir : EdgeTree.Path fs.Edge 1 entries dir) :
    ∃ entries', EdgeTree.Path fs.Edge 1 (entries' ++ entries) inum ∧
      (entries'.map Dirent.name).reverse = names.map CString.bytes := by
  induction names generalizing dir entries with
  | nil =>
    cases h
    exact ⟨[], hdir, rfl⟩
  | cons name names ih =>
    obtain ⟨e, next, hedge, hname, hrest⟩ := h
    obtain ⟨entries', hpath, hnames⟩ := ih hrest (.step hdir hedge)
    refine ⟨entries' ++ [e], ?_, ?_⟩
    · rwa [List.append_assoc, List.singleton_append]
    · rw [List.map_append, List.reverse_append, hnames, List.map_cons, List.map_cons, hname]
      rfl

/-- There is one way by names to each inode. -/
theorem Formed.leads_unique (h : Formed fs) (hleads : fs.Leads 1 names inum)
    (hleads' : fs.Leads 1 names' inum) : names = names' := by
  obtain ⟨entries, hpath, hnames⟩ := hleads.path .root
  obtain ⟨entries', hpath', hnames'⟩ := hleads'.path .root
  have hsame := h.tree.path_unique hpath hpath'
  rw [List.append_nil, List.append_nil] at hsame
  rw [hsame, hnames'] at hnames
  exact List.map_injective_iff.mpr (fun _ _ => CString.ext) hnames.symm

theorem Leads.live (hleads : fs.Leads 1 names inum) (h : Formed fs) : fs inum ≠ none := by
  obtain ⟨entries, hpath, _⟩ := hleads.path .root
  rw [List.append_nil] at hpath
  cases hpath with
  | root => exact h.tree.root_mem
  | step _ hedge => exact h.tree.target_mem _ _ _ hedge

theorem exists_leads (h : Formed fs) (hnames : fs.Strings fun name => 0 ∉ name) (hlive : fs inum ≠ none) :
    ∃ names, fs.Leads 1 names inum := by
  obtain ⟨entries, hpath⟩ := h.tree.reached inum hlive
  clear hlive
  induction hpath with
  | root => exact ⟨[], rfl⟩
  | @step _ dir inum e _ hedge ih =>
    obtain ⟨names, hleads⟩ := ih
    have hmem : e ∈ fs.entries dir := by
      obtain ⟨list, hdir, hmem, _⟩ := hedge
      exact mem_entries_iff.mpr ⟨list, hdir, hmem⟩
    let name : CString := ⟨e.name, hnames.names dir e hmem⟩
    have hname : e.name = name.bytes := rfl
    exact ⟨names ++ [name], hleads.concat hedge hname⟩

end Nodes

namespace Fuse

variable {lib : Libfuse} {fs : Nodes} {c start : ChfsClient} {ino : UInt64} {history : List (FuseCall × List FuseReply)}
  {garbage : UInt32} {env : Env} {stack : UInt64}

/-- How the kernel finds what a path names: by looking up one name after the other. -/
def walk (lib : Libfuse) (c : ChfsClient) (ino : UInt64) (garbage : Garbage) :
    List CString → Result (Option UInt64 × ChfsClient)
  | [] => .ok (some ino, c)
  | name :: names => do
    let (replies, c) ← step lib c { request := .lookup ino name, garbage }
    match replies with
    | [.entry e] => walk lib c e.ino garbage names
    | _ => return (none, c)

/-- One name is looked up. -/
theorem lookup_spec (lib : Libfuse) (h : Shows fs c) (ino : UInt64) (name : CString) (g : Garbage) :
    ∃ replies c', step lib c { request := .lookup ino name, garbage := g } = .ok (replies, c') ∧
      OnlyReads c.ec.es c'.ec.es ∧
      ((∃ e entry, replies = [.entry entry] ∧ entry.ino = e.inum ∧ fs.Edge (inum_of ino) e (inum_of e.inum) ∧
          e.name = name.bytes) ∨
        (replies = [.err .ENOENT] ∧ ∀ e ∈ fs.entries (inum_of ino), e.name ≠ name.bytes)) := by
  obtain ⟨⟨ret, found, id, c'⟩, hlookup⟩ := h.lookup_returns ino name g.inum
  have hreads := (lookup_done hlookup).only_reads h.represents.owned
  obtain ⟨id₀, hzero, hsame⟩ := lookup_uninit hlookup
  have hstep := (lookup_refines h (lookup_done hzero)).1
  cases found with
  | true =>
    cases hsame rfl
    refine ⟨[.entry { ino := id, generation := 0, attr := (getattr c' id).2 }], c', ?_, hreads, .inl ?_⟩
    · change fuseserver_lookup c ino name g = _
      rw [fuseserver_lookup, hlookup]
      rfl
    · cases hstep with
      | found hdir hmem hname => exact ⟨_, _, rfl, rfl, ⟨_, hdir, hmem, rfl⟩, hname⟩
  | false =>
    refine ⟨[.err .ENOENT], c', ?_, hreads, .inr ⟨rfl, ?_⟩⟩
    · change fuseserver_lookup c ino name g = _
      rw [fuseserver_lookup, hlookup]
      rfl
    · cases hstep with
      | not_found hdir hunbound => exact Nodes.entries_eq hdir ▸ hunbound
      | not_looked hdir =>
        intro e he
        obtain ⟨list, hlist, _⟩ := Nodes.mem_entries_iff.mp he
        exact absurd hlist (hdir list)

/-- A walk goes where the names lead, and changes no file. -/
theorem walk_spec (lib : Libfuse) (hformed : fs.Formed) (g : Garbage) (names : List CString) :
    ∀ (c : ChfsClient) (ino : UInt64), Shows fs c → ∃ answer c', walk lib c ino g names = .ok (answer, c') ∧
      OnlyReads c.ec.es c'.ec.es ∧ ∀ inum, answer.map inum_of = some inum ↔ fs.Leads (inum_of ino) names inum := by
  induction names with
  | nil =>
    intro c ino _
    exact ⟨some ino, c, rfl, .refl _, fun inum => Option.some_inj⟩
  | cons name names ih =>
    intro c ino h
    obtain ⟨replies, c₁, hstep, hreads, hanswer⟩ := lookup_spec lib h ino name g
    rcases hanswer with ⟨e, entry, rfl, hino, hedge, hname⟩ | ⟨rfl, hunbound⟩
    · obtain ⟨answer, c', hwalk, hreads', hleads⟩ := ih c₁ entry.ino (h.of_reads hreads)
      refine ⟨answer, c', ?_, ⟨hreads.unchanged.trans hreads'.unchanged, hreads'.longest.trans hreads.longest⟩, ?_⟩
      · rw [walk, hstep]
        exact hwalk
      · intro inum
        rw [hleads, hino]
        constructor
        · exact fun hrest => ⟨e, _, hedge, hname, hrest⟩
        · rintro ⟨e', next, hedge', hname', hrest⟩
          -- there is one entry of the name
          obtain ⟨list, hdir, hmem, _⟩ := hedge
          obtain ⟨list', hdir', hmem', rfl⟩ := hedge'
          rw [hdir] at hdir'
          cases hdir'
          rw [hformed.eq_of_name hdir hmem hmem' (hname.trans hname'.symm)]
          exact hrest
    · refine ⟨none, c₁, ?_, hreads, ?_⟩
      · rw [walk, hstep]
        rfl
      · intro inum
        constructor
        · rintro ⟨⟩
        · rintro ⟨e, next, ⟨list, hdir, hmem, _⟩, hname, _⟩
          exact absurd hname (hunbound e (Nodes.mem_entries_iff.mpr ⟨list, hdir, hmem⟩))

/-- How the kernel walks through a file system: where the tree leads, and on one way to each
    inode in use. -/
structure Walks (lib : Libfuse) (fs : Nodes) (c : ChfsClient) : Prop where
  returns : ∀ garbage names, ∃ answer c', walk lib c 1 garbage names = .ok (answer, c') ∧ OnlyReads c.ec.es c'.ec.es ∧
    ∀ inum, answer.map inum_of = some inum ↔ fs.Leads 1 names inum
  path : ∀ inum, c.Live inum → ∃! names, fs.Leads 1 names inum
  live : ∀ names inum, fs.Leads 1 names inum → c.Live inum

theorem walks (lib : Libfuse) (h : Shows fs c) (hformed : fs.Formed) (hstrings : fs.Strings fun name => 0 ∉ name) :
    Walks lib fs c where
  returns g names := walk_spec lib hformed g names c 1 h
  path inum hlive := by
    obtain ⟨names, hway⟩ := Nodes.exists_leads hformed hstrings (h.live_iff.mp hlive)
    exact ⟨names, hway, fun names' hother => hformed.leads_unique hother hway⟩
  live names inum hway := h.live_iff.mpr (hway.live hformed)

/-- After any run without failures the kernel walks through the tree that answered its
    requests. -/
theorem live_inodes_have_one_path (hlib : lib.format.Sized) (hnew : ChfsClient.new garbage env stack = .ok start)
    (hrun : Trace (step lib) Ordinary start history c) (hclean : c.ec.es.Clean) :
    ∃ fs, Runs (Nodes.Serves lib) .root history fs ∧ Shows fs c ∧ Walks lib fs c := by
  obtain ⟨fs, hruns, h, hstrings⟩ := run_refines (fun _ hname => hname) hlib (fresh_client hnew)
    (named_of_ordinary hrun) hclean
  exact ⟨fs, hruns, h, walks lib h (serves_formed hruns) hstrings⟩

/-- The request for a directory, -/
def dir_call : FuseCall := { request := .mkdir 1 name_a, garbage := zeros }

/-- and for a file of the same name in it. -/
def file_call : FuseCall := { request := .create 2 name_a, garbage := zeros }

theorem live_inodes_have_one_path_nested : ∃ st₁ st₂ c fs,
    Runs (Nodes.Serves FuseDirent.lib) .root
      [(file_call, [.create { ino := 3, generation := 0, attr := st₂ }]),
        (dir_call, [.entry { ino := 2, generation := 0, attr := st₁ }])] fs ∧
      Shows fs c ∧ Walks FuseDirent.lib fs c := by
  obtain ⟨start, hnew⟩ := new_zero still 0
  have hlength : name_a.bytes.length ≤ 116736 := length_name_a.trans (by omega)
  have h := Ready.first hnew
  obtain ⟨c₁, hmkdir, h₁⟩ : ∃ c₁, start.step (.mkdir 1 name_a) = .ok (.node .OK 2, c₁) ∧ Ready _ c₁ 2 68 :=
    h.make (.mkdir not_dots_name_a) slash_not_mem_name_a rfl (by simp) (by omega) rfl (by decide) fits_value_none
  obtain ⟨c₂, hcreate, h₂⟩ : ∃ c₂, c₁.step (.create 2 name_a) = .ok (.node .OK 3, c₂) ∧ Ready _ c₂ 3 67 :=
    h₁.make .create slash_not_mem_name_a rfl (by simp) (by omega) rfl (by decide) fits_value_none
  have hstep₁ := step_made (g := zeros) FuseDirent.lib h.shows .mkdir slash_not_mem_name_a hlength hmkdir
  have hstep₂ := step_made (g := zeros) FuseDirent.lib h₁.shows .create slash_not_mem_name_a hlength hcreate
  exact ⟨_, _, c₂, live_inodes_have_one_path FuseDirent.lawful.sized hnew
    (.cons (.cons .nil slash_not_mem_name_a hstep₁) slash_not_mem_name_a hstep₂) h₂.clean⟩

end Fuse

end chfs
