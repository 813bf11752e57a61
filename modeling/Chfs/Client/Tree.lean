import Chfs.Client.NameMap

namespace chfs.ChfsClient

open BlockManager InodeManager ExtentServer

variable {fs : Nodes} {c start : ChfsClient} {history : List (ClientOp × ClientReply)} {dir inum : UInt32} {e : Dirent}

/-- The inode is live. -/
def Live (c : ChfsClient) (inum : UInt32) : Prop := c.ec.es.im.get_inode inum ≠ none

/-- The entry is one of a live directory's, and names the inode. -/
def Leads (c : ChfsClient) (dir : UInt32) (e : Dirent) (inum : UInt32) : Prop :=
  c.Live dir ∧ ∃ list, c.Listing dir.toUInt64 .OK list ∧ e ∈ list ∧ inum_of e.inum = inum

/-- The live inodes are the nodes of a tree of names under the root. -/
structure NameTree (c : ChfsClient) (history : List (ClientOp × ClientReply)) : Prop where
  listing : ∀ dir, c.isdir dir = true → c.Listing dir .OK ((bindings (inum_of dir) history).map Prod.fst)
  once : ∀ dir, c.isdir dir = true → ((bindings (inum_of dir) history).map fun b => b.1.name).Nodup
  typed : ∀ dir, c.isdir dir = true → ∀ b ∈ bindings (inum_of dir) history,
    c.Live (inum_of b.1.inum) ∧ (c.ec.es.getattr b.1.inum).2.type = b.2.code
  root : c.isdir 1 = true
  root_first : ∀ dir e, ¬ c.Leads dir e 1
  parent : ∀ inum, c.Live inum → inum ≠ 1 → ∃! p : UInt32 × Dirent, c.Leads p.1 p.2 inum
  path : ∀ inum, c.Live inum → ∃! entries, EdgeTree.Path c.Leads 1 entries inum

theorem Shows.live_iff (h : Shows fs c) : c.Live inum ↔ fs inum ≠ none := by
  have hfiles : fs.files inum = none ↔ fs inum = none := Option.map_eq_none_iff
  exact not_congr (h.represents.dead_iff.trans hfiles)

/-- The entries that are listed are the edges. -/
theorem Shows.leads_iff (h : Shows fs c) : c.Leads dir e inum ↔ fs.Edge dir e inum := by
  unfold Leads Nodes.Edge
  rw [h.live_iff]
  constructor
  · rintro ⟨hlive, list, hlist, he⟩
    obtain ⟨node, hnode⟩ := Option.ne_none_iff_exists'.mp (h.live_iff.mpr hlive)
    have hle := live_le hnode
    have hdir := h.listing_iff.mp hlist
    rw [inum_of_toUInt64 (by omega)] at hdir
    exact ⟨list, hdir, he⟩
  · rintro ⟨list, hdir, he⟩
    have hlive : fs dir ≠ none := by
      rw [hdir]
      exact Option.some_ne_none _
    obtain ⟨node, hnode⟩ := Option.ne_none_iff_exists'.mp (h.live_iff.mpr hlive)
    have hle := live_le hnode
    refine ⟨hlive, list, h.listing_iff.mpr ?_, he⟩
    rw [inum_of_toUInt64 (by omega), hdir]

theorem Shows.nameTree (h : Shows fs c) (hruns : Runs Nodes.Step .root history fs) : NameTree c history := by
  have hformed := Nodes.run_formed hruns
  have hedge : c.Leads = fs.Edge := by
    funext dir e inum
    exact propext h.leads_iff
  refine ⟨?_, ?_, ?_, ?_, ?_, ?_, ?_⟩
  · intro dir hdir
    obtain ⟨list, hlist⟩ := h.isdir_iff.mp hdir
    rw [Nodes.run_bindings hruns, Nodes.entries_eq hlist]
    exact h.listing_iff.mpr hlist
  · intro dir hdir
    obtain ⟨list, hlist⟩ := h.isdir_iff.mp hdir
    have hnames := hformed.names _ _ hlist
    rw [← Nodes.entries_eq hlist, ← Nodes.run_bindings hruns, List.map_map] at hnames
    exact hnames
  · intro dir _ b hb
    obtain ⟨node, hnode, htype⟩ := Nodes.run_typed hruns _ b hb
    constructor
    · rw [h.live_iff, hnode]
      exact Option.some_ne_none _
    · have hmem : inum_of b.1.inum ∈ Set.univ := trivial
      rw [getattr_type h.represents_on hmem]
      refine Files.type_code_eq_iff.mpr ⟨node.stored.2, ?_⟩
      rw [Nodes.files, hnode, ← htype]
      rfl
  · exact h.isdir_iff.mpr hformed.root
  · intro dir e
    rw [hedge]
    exact hformed.tree.root_first dir e
  · intro inum hlive hne
    rw [hedge]
    exact hformed.tree.exists_unique_edge (h.live_iff.mp hlive) hne
  · intro inum hlive
    rw [hedge]
    exact hformed.tree.exists_unique_path (h.live_iff.mp hlive)

/-- Along every run without failures the namespace is a tree: each entry names a live inode of
    the type asked for, and exactly one entry names each live inode but the root. -/
theorem namespace_is_tree {garbage : UInt32} {env : Env} {stack : UInt64}
    (hnew : ChfsClient.new garbage env stack = .ok start) (hrun : Trace step Ordinary start history c)
    (hclean : c.ec.es.Clean) : NameTree c history := by
  obtain ⟨fs, hruns, h⟩ := run_refines (fresh_client hnew) hrun hclean
  exact h.nameTree hruns

/-- A file under a directory under the root, and another that is unlinked. -/
theorem namespace_is_tree_tour : ∃ start c : ChfsClient, ChfsClient.new 0 still 0 = .ok start ∧
    Trace step Ordinary start tour c ∧ NameTree c tour := by
  obtain ⟨start, hnew⟩ := new_zero still 0
  obtain ⟨fs, c, hrun, h, _⟩ := run_tour hnew
  exact ⟨start, c, hnew, hrun, namespace_is_tree hnew hrun h.clean⟩

end chfs.ChfsClient
