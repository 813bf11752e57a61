import Chfs.Client.Nodes

namespace chfs

open ChfsClient

/-! What a history of calls says about directories and files. The latest call comes first. -/

/-- The entries of a directory with the types asked for: each creating call that returned OK
    appends one, each `unlink` that returned OK takes away those of its name. -/
def bindings (dir : UInt32) : List (ClientOp × ClientReply) → List (Dirent × FileType)
  | [] => []
  | (.create parent name, .node .OK id) :: earlier =>
    if inum_of parent = dir then bindings dir earlier ++ [({ inum := id, name := name.bytes }, .T_FILE)]
    else bindings dir earlier
  | (.mkdir parent name, .node .OK id) :: earlier =>
    if inum_of parent = dir then bindings dir earlier ++ [({ inum := id, name := name.bytes }, .T_DIR)]
    else bindings dir earlier
  | (.create_symbolic_link parent _ link_name, .node .OK id) :: earlier =>
    if inum_of parent = dir then bindings dir earlier ++ [({ inum := id, name := link_name.bytes }, .T_SYMBOLIC)]
    else bindings dir earlier
  | (.unlink parent name, .unlink .OK) :: earlier =>
    if inum_of parent = dir then (bindings dir earlier).filter fun b => b.1.name ≠ name.bytes else bindings dir earlier
  | _ :: earlier => bindings dir earlier

/-- The content of a file: empty when it was created, then what each `write` and `setattr` of
    its inum that returned OK makes of it. -/
def content (inum : UInt32) : List (ClientOp × ClientReply) → List UInt8
  | [] => []
  | (_, .node .OK id) :: earlier => if inum_of id = inum then [] else content inum earlier
  | (.write ino size off data, .write .OK _) :: earlier =>
    if inum_of ino = inum then splice (content inum earlier) off.toInt.toNat (data.bytes size.toNat)
    else content inum earlier
  | (.setattr ino size, .setattr .OK) :: earlier =>
    if inum_of ino = inum then (content inum earlier).take size.toNat else content inum earlier
  | _ :: earlier => content inum earlier

variable {history : List (ClientOp × ClientReply)} {op : ClientOp} {reply : ClientReply} {parent id : UInt64}
  {name : CString} {type : FileType} {value : Option CString} {fs fs' : Nodes} {dir : UInt32}

theorem bindings_made (hcreates : Creates op parent name type value) (dir : UInt32) :
    bindings dir ((op, .node .OK id) :: history) =
      if inum_of parent = dir then bindings dir history ++ [({ inum := id, name := name.bytes }, type)]
      else bindings dir history := by
  cases hcreates <;> rfl

theorem bindings_not_made {ret : Status} (hcreates : Creates op parent name type value) (hret : ret ≠ .OK)
    (dir : UInt32) :
    bindings dir ((op, .node ret id) :: history) = bindings dir history := by
  cases hcreates <;> cases ret <;> first | rfl | exact absurd rfl hret

namespace Nodes

/-- The entries of a directory. Anything else has none. -/
def entries (fs : Nodes) (dir : UInt32) : List Dirent :=
  match fs dir with
  | some (.dir list) => list
  | _ => []

theorem entries_eq {list : List Dirent} (h : fs dir = some (.dir list)) : fs.entries dir = list := by
  rw [entries, h]

theorem mem_entries_iff {e : Dirent} : e ∈ fs.entries dir ↔ ∃ list, fs dir = some (.dir list) ∧ e ∈ list := by
  unfold entries
  split
  · next list hlist =>
    rw [hlist]
    simp
  · next hnot =>
    simp only [List.not_mem_nil, false_iff]
    rintro ⟨list, hlist, _⟩
    exact hnot list hlist

theorem entries_bind {list : List Dirent} {e : Dirent} (hdir : fs dir = some (.dir list))
    (hfresh : fs (inum_of e.inum) = none) (other : UInt32) :
    (fs.bind dir list e (.made type value)).entries other =
      if dir = other then fs.entries other ++ [e] else fs.entries other := by
  by_cases hold : other = dir
  · subst hold
    rw [if_pos rfl, entries_eq hdir]
    exact entries_eq (Function.update_self ..)
  · rw [if_neg (Ne.symm hold), entries, bind, Function.update_of_ne hold]
    by_cases hnew : other = inum_of e.inum
    · rw [hnew, Function.update_self, entries, hfresh]
      cases type <;> rfl
    · rw [Function.update_of_ne hnew]
      rfl

theorem entries_unbind {list : List Dirent} {e : Dirent} {text : List UInt8} (hdir : fs dir = some (.dir list))
    (hfile : fs (inum_of e.inum) = some (.file text)) (other : UInt32) :
    (fs.unbind dir list e).entries other =
      if dir = other then (fs.entries other).filter (fun cur => cur.name ≠ e.name) else fs.entries other := by
  by_cases hold : other = dir
  · subst hold
    rw [if_pos rfl, entries_eq hdir]
    exact entries_eq (Function.update_self ..)
  · rw [if_neg (Ne.symm hold), entries, unbind, Function.update_of_ne hold]
    by_cases hnew : other = inum_of e.inum
    · rw [hnew, Function.update_self, entries, hfile]
    · rw [Function.update_of_ne hnew]
      rfl

theorem entries_write {inum : UInt32} {text : List UInt8} (hfile : fs inum = some (.file text)) (text' : List UInt8)
    (other : UInt32) : entries (Function.update fs inum (some (.file text'))) other = fs.entries other := by
  by_cases heq : other = inum
  · rw [heq, entries, Function.update_self, entries, hfile]
  · rw [entries, Function.update_of_ne heq]
    rfl

/-- Where the names in the calls contain no separator, the names in the directories do not either. -/
theorem Step.names (hstep : Step fs op reply fs') (hnamed : op.Named) (h : ∀ dir, ∀ e ∈ fs.entries dir, slash ∉ e.name)
    (dir : UInt32) : ∀ e ∈ fs'.entries dir, slash ∉ e.name := by
  intro e he
  cases hstep with
  | made hcreates hdir _ hfresh =>
    rw [entries_bind hdir hfresh] at he
    split at he
    · rcases List.mem_append.mp he with hold | hnew
      · exact h dir e hold
      · rw [List.mem_singleton.mp hnew]
        cases hcreates <;> exact hnamed
    · exact h dir e he
  | unlinked hdir _ _ hfile =>
    rw [entries_unbind hdir hfile] at he
    split at he
    · exact h dir e (List.mem_of_mem_filter he)
    · exact h dir e he
  | write hfile _ =>
    rw [entries_write hfile] at he
    exact h dir e he
  | setattr hfile =>
    rw [entries_write hfile] at he
    exact h dir e he
  | _ => exact h dir e he

/-- The history tells the entries of each directory. -/
theorem Step.bindings (hstep : Step fs op reply fs')
    (h : ∀ dir, (chfs.bindings dir history).map Prod.fst = fs.entries dir) (dir : UInt32) :
    (chfs.bindings dir ((op, reply) :: history)).map Prod.fst = fs'.entries dir := by
  cases hstep with
  | made hcreates hdir _ hfresh =>
    rw [bindings_made hcreates, entries_bind hdir hfresh]
    split
    · rw [List.map_append, h]
      rfl
    · exact h dir
  | exist hcreates _ _ _ =>
    rw [bindings_not_made hcreates (by simp)]
    exact h dir
  | not_made hcreates _ =>
    rw [bindings_not_made hcreates (by simp)]
    exact h dir
  | @unlinked parent name list e text hdir _ hname hfile =>
    rw [entries_unbind hdir hfile, chfs.bindings, hname]
    split
    · rw [← h dir, List.filter_map]
      rfl
    · exact h dir
  | write hfile _ =>
    rw [entries_write hfile]
    exact h dir
  | setattr hfile =>
    rw [entries_write hfile]
    exact h dir
  | _ => exact h dir

theorem run_bindings (hrun : Runs Step root history fs) (dir : UInt32) :
    (chfs.bindings dir history).map Prod.fst = fs.entries dir := by
  refine hrun.history_invariant
    (P := fun history fs => ∀ dir, (chfs.bindings dir history).map Prod.fst = fs.entries dir) ?_
    (fun _ _ _ _ _ h hstep dir => hstep.bindings h dir) dir
  intro dir
  unfold entries root
  split_ifs <;> rfl

theorem edge_of_mem {e : Dirent} (h : e ∈ fs.entries dir) : fs.Edge dir e (inum_of e.inum) := by
  obtain ⟨list, hlist, hmem⟩ := mem_entries_iff.mp h
  exact ⟨list, hlist, hmem, rfl⟩

/-- Putting a node in the place of one of its type leaves the types. -/
theorem type_update {fs before : Nodes} {inum other : UInt32} {old new node : Node} (hold : before inum = some old)
    (htype : new.type = old.type) (hsame : other ≠ inum → fs other = before other) (hnode : before other = some node) :
    ∃ node₁, Function.update fs inum (some new) other = some node₁ ∧ node₁.type = node.type := by
  by_cases heq : other = inum
  · rw [heq, hold] at hnode
    cases hnode
    rw [heq, Function.update_self]
    exact ⟨new, rfl, htype⟩
  · rw [Function.update_of_ne heq, hsame heq]
    exact ⟨node, hnode, rfl⟩

/-- Binding a new node leaves the types of the others. -/
theorem type_bind {list : List Dirent} {e : Dirent} {node new : Node} {inum : UInt32} (hdir : fs dir = some (.dir list))
    (hfresh : fs (inum_of e.inum) = none) (hnode : fs inum = some node) :
    ∃ node₁, fs.bind dir list e new inum = some node₁ ∧ node₁.type = node.type := by
  have hne : inum ≠ inum_of e.inum := by
    intro heq
    rw [heq, hfresh] at hnode
    cases hnode
  exact type_update hdir rfl (fun _ => Function.update_of_ne hne _ _) hnode

theorem type_unbind {list : List Dirent} {e : Dirent} {node : Node} {inum : UInt32} (hdir : fs dir = some (.dir list))
    (hne : inum ≠ inum_of e.inum) (hnode : fs inum = some node) :
    ∃ node₁, fs.unbind dir list e inum = some node₁ ∧ node₁.type = node.type :=
  type_update hdir rfl (fun _ => Function.update_of_ne hne _ _) hnode

theorem type_write {inum other : UInt32} {node : Node} {text : List UInt8} (hfile : fs inum = some (.file text))
    (text' : List UInt8) (hnode : fs other = some node) :
    ∃ node₁, Function.update fs inum (some (.file text')) other = some node₁ ∧ node₁.type = node.type :=
  type_update hfile rfl (fun _ => rfl) hnode

/-- Each entry names a node of the type that its creating call asked for. -/
def Typed (history : List (ClientOp × ClientReply)) (fs : Nodes) : Prop :=
  ∀ dir, ∀ b ∈ chfs.bindings dir history, ∃ node, fs (inum_of b.1.inum) = some node ∧ node.type = b.2

theorem Step.typed (hstep : Step fs op reply fs') (hformed : Formed fs)
    (hentries : ∀ dir, (chfs.bindings dir history).map Prod.fst = fs.entries dir) (h : Typed history fs) :
    Typed ((op, reply) :: history) fs' := by
  intro dir b hb
  have hafter : b.1 ∈ fs'.entries dir := by
    rw [← hstep.bindings hentries dir]
    exact List.mem_map_of_mem hb
  cases hstep with
  | @made op parent id name type value list hcreates hdir _ hfresh =>
    have hold : b ∈ chfs.bindings dir history → ∃ node,
        fs.bind (inum_of parent) list { inum := id, name := name.bytes } (.made type value) (inum_of b.1.inum) =
          some node ∧
          node.type = b.2 := by
      intro hmem
      obtain ⟨node, hnode, htype⟩ := h dir b hmem
      have hbound : ∃ node₁, fs.bind (inum_of parent) list { inum := id, name := name.bytes } (.made type value)
          (inum_of b.1.inum) = some node₁ ∧ node₁.type = node.type := type_bind hdir hfresh hnode
      obtain ⟨node₁, hnode₁, hsame⟩ := hbound
      exact ⟨node₁, hnode₁, hsame.trans htype⟩
    rw [bindings_made hcreates] at hb
    split at hb
    · rcases List.mem_append.mp hb with hmem | hmem
      · exact hold hmem
      · rw [List.mem_singleton.mp hmem]
        have hne : inum_of id ≠ inum_of parent := by
          intro heq
          rw [heq, hdir] at hfresh
          cases hfresh
        refine ⟨.made type value, ?_, Node.type_made type value⟩
        rw [bind, Function.update_of_ne hne, Function.update_self]
    · exact hold hb
  | exist hcreates _ _ _ =>
    rw [bindings_not_made hcreates (by simp)] at hb
    exact h dir b hb
  | not_made hcreates _ =>
    rw [bindings_not_made hcreates (by simp)] at hb
    exact h dir b hb
  | @unlinked parent name list e text hdir hmem hname hfile =>
    have hne := ((edge_unbind hformed hdir hmem hfile).mp (edge_of_mem hafter)).2
    have hbefore : b ∈ chfs.bindings dir history := by
      rw [chfs.bindings] at hb
      split at hb
      · exact List.mem_of_mem_filter hb
      · exact hb
    obtain ⟨node, hnode, htype⟩ := h dir b hbefore
    obtain ⟨node₁, hnode₁, hsame⟩ := type_unbind hdir hne hnode
    exact ⟨node₁, hnode₁, hsame.trans htype⟩
  | write hfile _ =>
    obtain ⟨node, hnode, htype⟩ := h dir b hb
    obtain ⟨node₁, hnode₁, hsame⟩ := type_write hfile _ hnode
    exact ⟨node₁, hnode₁, hsame.trans htype⟩
  | setattr hfile =>
    obtain ⟨node, hnode, htype⟩ := h dir b hb
    obtain ⟨node₁, hnode₁, hsame⟩ := type_write hfile _ hnode
    exact ⟨node₁, hnode₁, hsame.trans htype⟩
  | _ => exact h dir b hb

theorem run_typed (hrun : Runs Step root history fs) : Typed history fs := by
  have hboth := hrun.history_invariant
    (P := fun history fs => Runs Step root history fs ∧ Typed history fs)
    ⟨.nil, fun _ b hb => absurd hb List.not_mem_nil⟩ ?_
  · exact hboth.2
  · rintro history fs op reply fs' ⟨hrun, htyped⟩ hstep
    exact ⟨.cons hrun hstep, hstep.typed (run_formed hrun) (run_bindings hrun) htyped⟩

/-- The history tells the content of each file. -/
def Told (history : List (ClientOp × ClientReply)) (fs : Nodes) : Prop :=
  ∀ inum text, fs inum = some (.file text) → content inum history = text

theorem content_node {ret : Status} (op : ClientOp) (inum : UInt32) :
    content inum ((op, .node ret id) :: history) =
      if ret = .OK ∧ inum_of id = inum then [] else content inum history := by
  cases op <;> cases ret <;> simp [content]

theorem made_file (hcreates : Creates op parent name type value) {text : List UInt8}
    (h : Node.made type value = .file text) : text = [] := by
  cases hcreates <;> cases h
  rfl

theorem Step.told (hstep : Step fs op reply fs') (h : Told history fs) : Told ((op, reply) :: history) fs' := by
  intro inum text hfile
  cases hstep with
  | @made op parent id name type value list hcreates hdir _ hfresh =>
    rw [content_node]
    unfold bind at hfile
    by_cases hold : inum = inum_of parent
    · rw [hold, Function.update_self] at hfile
      cases hfile
    · rw [Function.update_of_ne hold] at hfile
      by_cases hnew : inum = inum_of id
      · rw [hnew, Function.update_self] at hfile
        rw [if_pos ⟨rfl, hnew.symm⟩, made_file hcreates (Option.some.inj hfile)]
      · rw [Function.update_of_ne hnew] at hfile
        rw [if_neg fun hboth => hnew hboth.2.symm]
        exact h inum text hfile
  | exist hcreates _ _ _ =>
    rw [content_node, if_neg (by simp)]
    exact h inum text hfile
  | not_made hcreates _ =>
    rw [content_node, if_neg (by simp)]
    exact h inum text hfile
  | @unlinked parent name list e removed _ _ _ _ =>
    unfold unbind at hfile
    by_cases hold : inum = inum_of parent
    · rw [hold, Function.update_self] at hfile
      cases hfile
    · rw [Function.update_of_ne hold] at hfile
      by_cases hgone : inum = inum_of e.inum
      · rw [hgone, Function.update_self] at hfile
        cases hfile
      · rw [Function.update_of_ne hgone] at hfile
        exact h inum text hfile
  | @write ino size off data before hbefore hoff =>
    rw [content]
    by_cases heq : inum_of ino = inum
    · rw [heq] at hbefore hfile
      rw [Function.update_self] at hfile
      cases hfile
      rw [if_pos heq, h inum before hbefore]
    · rw [Function.update_of_ne (Ne.symm heq)] at hfile
      rw [if_neg heq]
      exact h inum text hfile
  | @setattr ino size before hbefore =>
    rw [content]
    by_cases heq : inum_of ino = inum
    · rw [heq] at hbefore hfile
      rw [Function.update_self] at hfile
      cases hfile
      rw [if_pos heq, h inum before hbefore]
    · rw [Function.update_of_ne (Ne.symm heq)] at hfile
      rw [if_neg heq]
      exact h inum text hfile
  | _ => exact h inum text hfile

theorem run_told (hrun : Runs Step root history fs) : Told history fs := by
  refine hrun.history_invariant (P := fun history fs => Told history fs) ?_ fun _ _ _ _ _ h hstep => hstep.told h
  intro inum text hfile
  unfold root at hfile
  split at hfile <;> cases hfile

end Nodes

end chfs
