import Chfs.Client.Failures
import Chfs.Client.Ready
import Chfs.Extent.Times

namespace chfs

open BlockManager InodeManager ExtentServer

/-- The calls that only ask. -/
inductive ClientOp.Asks : ClientOp → Prop where
  | lookup {parent : UInt64} {name : CString} : Asks (.lookup parent name)
  | readdir {dir : UInt64} : Asks (.readdir dir)
  | read {ino size : UInt64} {off : Int64} : Asks (.read ino size off)
  | getfile {inum : UInt64} : Asks (.getfile inum)
  | getdir {inum : UInt64} : Asks (.getdir inum)
  | parse_symbolic_link {ino : UInt64} : Asks (.parse_symbolic_link ino)

/-- The inode a call acts on: the parent directory or the file. -/
inductive ClientOp.ActsOn : ClientOp → UInt64 → Prop where
  | changes {op : ClientOp} {parent : UInt64} (h : op.Changes parent) : ActsOn op parent
  | write {ino size : UInt64} {off : Int64} {data : Mem} : ActsOn (.write ino size off data) ino
  | setattr {ino size : UInt64} : ActsOn (.setattr ino size) ino

/-- The inums whose inodes a call stamps. -/
def ClientOp.stamps : ClientOp → ClientReply → Set UInt32
  | .create parent _, .node .OK ino | .mkdir parent _, .node .OK ino
  | .create_symbolic_link parent _ _, .node .OK ino =>
    {inum_of parent, inum_of ino}
  | .unlink parent _, .unlink .OK => {inum_of parent}
  | .write ino _ _ _, _ | .setattr ino _, _ => {inum_of ino}
  | _, _ => ∅

/-- Type, size and the two times that tell of changes. -/
def Inode.attributes (node : Inode) : Int16 × UInt32 × UInt32 × UInt32 := (node.type, node.size, node.mtime, node.ctime)

namespace ChfsClient

variable {c c' start : ChfsClient} {op : ClientOp} {reply : ClientReply} {files : Files}
  {history : List (ClientOp × ClientReply)} {parent ino ino' : UInt64} {name : CString} {type : FileType}
  {value : Option CString} {ret : Status} {found found' : Bool} {list : List Dirent}

/-- Both times of the inode are at or after the next reading of the clock. -/
def StampedSince (c c' : ChfsClient) (id : UInt64) : Prop :=
  ∃ node, c'.ec.es.im.get_inode (inum_of id) = some node ∧ c.ec.es.im.env.clock 0 ≤ node.mtime.toNat ∧
    c.ec.es.im.env.clock 0 ≤ node.ctime.toNat

/-- What a call does to the times. -/
structure Timely (c : ChfsClient) (op : ClientOp) (reply : ClientReply) (c' : ChfsClient) : Prop where
  changed : ∀ parent, op.Changes parent → reply.ret = .OK → StampedSince c c' parent
  written : ∀ ino size off data, op = .write ino size off data → reply.ret = .OK → StampedSince c c' ino
  asked : op.Asks → ∀ inum, (c'.ec.es.im.get_inode inum).map Inode.attributes =
    (c.ec.es.im.get_inode inum).map Inode.attributes
  others : ∀ inum node node', c.ec.es.im.get_inode inum = some node → c'.ec.es.im.get_inode inum = some node' →
    (∀ id, op.ActsOn id → inum ≠ inum_of id) → node'.mtime = node.mtime ∧ node'.ctime = node.ctime

theorem ReaddirDone.passes (h : ReaddirDone c parent ret list c') : Passes ∅ c.ec.es c'.ec.es := by
  cases h with
  | not_dir _ => exact .refl _
  | read _ hget => exact .of_get hget

theorem LookupDone.passes (h : LookupDone c parent name found ino ret found' ino' c') : Passes ∅ c.ec.es c'.ec.es := by
  cases h with
  | not_dir _ => exact .refl _
  | unreadable _ hget _ => exact .of_get hget
  | bound _ hget _ _ => exact .of_get hget
  | unbound _ hget _ _ => exact .of_get hget

theorem ReadDone.passes (h : ReadDone c ino c') : Passes ∅ c.ec.es c'.ec.es := by
  cases h with
  | idle => exact .refl _
  | get hget => exact .of_get hget

theorem ValuePut.passes {es es' : ExtentServer} {id : extentid_t} (h : ValuePut es id value es') :
    Passes {inum_of id} es es' := by
  cases h with
  | none => exact (Passes.refl es).mono (Set.empty_subset _)
  | some hput => exact .of_put hput

theorem NodeDone.passes (h : NodeDone c parent name type value ino ret ino' c') :
    Passes (if ret = .OK then {inum_of parent, inum_of ino'} else ∅) c.ec.es c'.ec.es := by
  cases h with
  | refused hlookup => exact hlookup.passes
  | bound hlookup => exact hlookup.passes
  | @made _ id c₁ es₂ es₃ es₄ es₅ _ hlookup hcreate hget hvalue hput =>
    refine (((hlookup.passes.trans (.of_create hcreate)).trans (.of_get hget)).trans
      (hvalue.passes.trans (.of_put hput))).mono ?_
    intro inum hinum
    simp only [Set.empty_union, Set.union_empty, Set.mem_union, Set.mem_singleton_iff] at hinum
    rcases hinum with hid | hid | hparent
    · exact .inr hid
    · exact .inr hid
    · exact .inl hparent

theorem UnlinkDone.passes (h : UnlinkDone c parent name ret c') :
    Passes (if ret = .OK then {inum_of parent} else ∅) c.ec.es c'.ec.es := by
  cases h with
  | refused hlookup => exact hlookup.passes
  | unbound hlookup => exact hlookup.passes
  | not_file hlookup _ => exact hlookup.passes
  | unreadable hlookup _ hremove hread _ =>
    simpa using (hlookup.passes.trans (.of_remove hremove)).trans hread.passes
  | unlinked hlookup _ hremove hread hput =>
    simpa using ((hlookup.passes.trans (.of_remove hremove)).trans hread.passes).trans (.of_put hput)

theorem StepDone.passes (h : StepDone c op reply c') : Passes (op.stamps reply) c.ec.es c'.ec.es := by
  cases h with
  | @node op parent ino name type value ret c' hcreates hdone =>
    have hpasses := hdone.passes
    by_cases hret : ret = .OK
    · subst hret
      cases hcreates <;> exact hpasses
    · rw [if_neg hret] at hpasses
      exact hpasses.mono (Set.empty_subset _)
  | dots _ => exact .refl _
  | @unlink parent name ret c' hdone =>
    have hpasses := hdone.passes
    by_cases hret : ret = .OK
    · subst hret
      exact hpasses
    · rw [if_neg hret] at hpasses
      exact hpasses.mono (Set.empty_subset _)
  | lookup hdone => exact hdone.passes
  | readdir hdone => exact hdone.passes
  | read hdone => exact hdone.passes
  | parse_symbolic_link hdone => exact hdone.passes
  | write hdone =>
    obtain ⟨hget, _, hput⟩ := hdone
    exact ((Passes.of_get hget).trans (.of_put hput)).mono (Set.empty_union _).subset
  | setattr hdone =>
    cases hdone with
    | same hget _ => exact (Passes.of_get hget).mono (Set.empty_subset _)
    | put hget _ hput => exact ((Passes.of_get hget).trans (.of_put hput)).mono (Set.empty_union _).subset
  | getfile => exact .refl _
  | getdir => exact .refl _

/-- A run of a client takes its server along. -/
theorem run_passes {allowed : ChfsClient → ClientOp → Prop} (hrun : Trace step allowed start history c) :
    ∃ touched, Passes touched start.ec.es c.ec.es := by
  refine hrun.invariant (P := fun c => ∃ touched, Passes touched start.ec.es c.ec.es) ⟨∅, .refl _⟩ ?_
  rintro c op reply c' ⟨touched, hpasses⟩ _ hstep
  exact ⟨_, hpasses.trans (step_done hstep).passes⟩

/-- The inode of the root directory is stamped at the start. -/
theorem new_stamped {garbage : UInt32} {env : Env} {stack : UInt64}
    (hnew : ChfsClient.new garbage env stack = .ok start) :
    Env.Later env start.ec.es.im.env ∧
      ∀ inum node, start.ec.es.im.get_inode inum = some node → Stamped env node := by
  obtain ⟨im, him, hes⟩ := Except.bind_eq_ok_iff.mp (new_server hnew)
  have himage : im = start.ec.es.im := congrArg ExtentServer.im (Except.ok.inj hes)
  rw [← himage]
  refine ⟨⟨1, fun n => ?_⟩, fun inum node hlive => InodeManager.new_stamped him hlive⟩
  rw [InodeManager.env_new him]
  rfl

/-- The last `put` of a creating call stamps the parent. -/
theorem NodeDone.stamped (h : NodeDone c parent name type value ino .OK ino' c') {node : Inode}
    (hlive : c'.ec.es.im.get_inode (inum_of parent) = some node) : Stamped c.ec.es.im.env node := by
  cases h with
  | made hlookup hcreate hget hvalue hput =>
    have hpasses := ((hlookup.passes.trans (.of_create hcreate)).trans (.of_get hget)).trans hvalue.passes
    exact (put_stamped hput hlive).of_later hpasses.later

theorem UnlinkDone.stamped (h : UnlinkDone c parent name .OK c') {node : Inode}
    (hlive : c'.ec.es.im.get_inode (inum_of parent) = some node) : Stamped c.ec.es.im.env node := by
  cases h with
  | unlinked hlookup _ hremove hread hput =>
    have hpasses := (hlookup.passes.trans (.of_remove hremove)).trans hread.passes
    exact (put_stamped hput hlive).of_later hpasses.later

theorem WriteDone.stamped {size : UInt64} {off : Int64} {data : Mem} (h : WriteDone c ino size off data c')
    {node : Inode}
    (hlive : c'.ec.es.im.get_inode (inum_of ino) = some node) : Stamped c.ec.es.im.env node := by
  cases h with
  | put hget _ hput => exact (put_stamped hput hlive).of_later (Passes.of_get hget).later

/-- A `get` changes no more than an access time. -/
theorem attributes_of_get {es es' : ExtentServer} {id : extentid_t} {buf : List UInt8}
    (hget : es.get id = .ok (ret, buf, es')) (inum : UInt32) :
    (es'.im.get_inode inum).map Inode.attributes = (es.im.get_inode inum).map Inode.attributes := by
  cases hlive : es.im.get_inode (inum_of id) with
  | none =>
    rw [get_dead hlive] at hget
    cases hget
    rfl
  | some node =>
    obtain ⟨haccessed, _⟩ := get_accessed hlive hget
    by_cases heq : inum = inum_of id
    · subst heq
      obtain ⟨before, now, hbefore, hafter⟩ := haccessed.inode
      rw [hafter, hbefore]
      rfl
    · rw [haccessed.others inum heq]

theorem StepDone.attributes (h : StepDone c op reply c') (hasks : op.Asks) (inum : UInt32) :
    (c'.ec.es.im.get_inode inum).map Inode.attributes = (c.ec.es.im.get_inode inum).map Inode.attributes := by
  cases h with
  | node hcreates _ => cases hcreates <;> cases hasks
  | dots _ => cases hasks
  | unlink _ => cases hasks
  | lookup hdone =>
    cases hdone with
    | not_dir _ => rfl
    | unreadable _ hget _ => exact attributes_of_get hget inum
    | bound _ hget _ _ => exact attributes_of_get hget inum
    | unbound _ hget _ _ => exact attributes_of_get hget inum
  | readdir hdone =>
    cases hdone with
    | not_dir _ => rfl
    | read _ hget => exact attributes_of_get hget inum
  | read hdone =>
    cases hdone with
    | idle => rfl
    | get hget => exact attributes_of_get hget inum
  | parse_symbolic_link hdone =>
    cases hdone with
    | idle => rfl
    | get hget => exact attributes_of_get hget inum
  | write _ => cases hasks
  | setattr _ => cases hasks
  | getfile => rfl
  | getdir => rfl

/-- After a creating call that returned OK the parent is live, and the inode is new. -/
theorem made_live (h : Represents c.ec.es.im files) (hcreates : Creates op parent name type value)
    (hname : slash ∉ name.bytes) (hstep : c.step op = .ok (.node .OK ino, c')) (hclean : c'.ec.es.Clean) :
    (∃ node, c'.ec.es.im.get_inode (inum_of parent) = some node) ∧ c.ec.es.im.get_inode (inum_of ino) = none := by
  rw [hcreates.step] at hstep
  obtain ⟨⟨ret, id, c₁⟩, hmake, hret⟩ := Except.bind_eq_ok_iff.mp hstep
  cases hret
  have hmem : inum_of parent ∈ Set.univ := trivial
  obtain ⟨text, list, inum, _, _, _, hinum, hdead, hlists⟩ :=
    make_node_ok (representsOn_univ.mpr h) hmem hname hmake hclean
  obtain ⟨node, hlive, _⟩ := hlists.stores.live
  exact ⟨⟨node, hlive⟩, hinum ▸ hdead⟩

/-- After an `unlink` that returned OK the parent is live. -/
theorem unlinked_live (h : Represents c.ec.es.im files) (hunlink : c.unlink parent name = .ok (.OK, c'))
    (hlong : c'.ec.es.longest_put < 2 ^ 31) : ∃ node, c'.ec.es.im.get_inode (inum_of parent) = some node := by
  obtain ⟨text, list, hlists⟩ := lists_of_unlink (representsOn_univ.mpr h) trivial hunlink
  obtain ⟨e, es₁, es₂, es₃, _, _, _, _, _, hafter, hput⟩ := unlink_writes hlists hunlink
  have hlen : (dir_text (list.filter fun cur => cur.name ≠ name.bytes)).length ≤ c'.ec.es.longest_put := by
    rw [put_longest hput]
    exact le_max_right _ _
  exact put_live hafter.represents.owned (hlen.trans_lt hlong) hput hafter.stores.ne_none

/-- Nor does a `write` of a file take it away. -/
theorem written_live (howned : Owned c.ec.es.im) {size : UInt64} {off : Int64} {data : Mem}
    (hlive : c.ec.es.im.get_inode (inum_of ino) ≠ none) (h : WriteDone c ino size off data c')
    (hlong : c'.ec.es.longest_put < 2 ^ 31) : ∃ node, c'.ec.es.im.get_inode (inum_of ino) = some node := by
  cases h with
  | @put _ text es₁ es₂ hget _ hput =>
    have hreads := get_only_reads howned hget
    have hlen : text.length ≤ es₂.longest_put := by
      rw [put_longest hput]
      exact le_max_right _ _
    have hlive₁ : es₁.im.get_inode (inum_of ino) ≠ none := fun hdead => hlive (hreads.unchanged.dead.mp hdead)
    exact put_live (howned.of_unchanged hreads.unchanged) (hlen.trans_lt hlong) hput hlive₁

/-- A call that changes a directory and returns OK stamps it. -/
theorem changed_stamped (h : Represents c.ec.es.im files) (hop : Ordinary c op) (hchanges : op.Changes parent)
    (hstep : c.step op = .ok (reply, c')) (hret : reply.ret = .OK) (hclean : c'.ec.es.Clean) :
    ∃ node, c'.ec.es.im.get_inode (inum_of parent) = some node ∧ Stamped c.ec.es.im.env node := by
  cases step_done hstep with
  | @node _ parent' ino name type value ret c' hcreates hnode =>
    change ret = .OK at hret
    subst hret
    have hparent : parent = parent' := by
      cases hcreates <;> cases hchanges <;> rfl
    have hname : slash ∉ name.bytes := by
      cases hcreates <;> exact hop.1
    subst hparent
    obtain ⟨⟨node, hlive⟩, _⟩ := made_live h hcreates hname hstep hclean
    exact ⟨node, hlive, hnode.stamped hlive⟩
  | dots _ => cases hret
  | @unlink _ name ret c' hunlink =>
    change ret = .OK at hret
    subst hret
    cases hchanges
    obtain ⟨node, hlive⟩ := unlinked_live h (unlink_step.mp hstep) hclean.longest_lt
    exact ⟨node, hlive, hunlink.stamped hlive⟩
  | _ => cases hchanges

/-- A stamped inode that was live before is one the call acts on. -/
theorem acts_on_of_stamps (h : Represents c.ec.es.im files) (hop : Ordinary c op) (hstep : c.step op = .ok (reply, c'))
    (hclean : c'.ec.es.Clean) {inum : UInt32} (hlive : c.ec.es.im.get_inode inum ≠ none)
    (hmem : inum ∈ op.stamps reply) :
    ∃ id, op.ActsOn id ∧ inum = inum_of id := by
  cases step_done hstep with
  | @node _ parent ino name type value ret c' hcreates hnode =>
    have hname : slash ∉ name.bytes := by
      cases hcreates <;> exact hop.1
    have hstamps : ret = .OK ∧ inum ∈ ({inum_of parent, inum_of ino} : Set UInt32) := by
      cases hcreates <;> cases ret <;> first | exact ⟨rfl, hmem⟩ | exact absurd hmem (Set.notMem_empty _)
    obtain ⟨rfl, hparent | hnew⟩ := hstamps
    · refine ⟨parent, .changes ?_, hparent⟩
      cases hcreates <;> constructor
    · obtain ⟨_, hdead⟩ := made_live h hcreates hname hstep hclean
      rw [Set.mem_singleton_iff.mp hnew] at hlive
      exact absurd hdead hlive
  | dots _ => exact absurd hmem (Set.notMem_empty _)
  | @unlink parent name ret c' _ =>
    cases ret with
    | OK => exact ⟨parent, .changes .unlink, hmem⟩
    | _ => exact absurd hmem (Set.notMem_empty _)
  | @write ino _ _ _ _ _ => exact ⟨ino, .write, hmem⟩
  | @setattr ino _ _ _ _ => exact ⟨ino, .setattr, hmem⟩
  | _ => exact absurd hmem (Set.notMem_empty _)

/-- One call keeps the times in order. -/
theorem timely_step (h : Represents c.ec.es.im files) (hticks : c.ec.es.im.env.Ticks) (hop : Ordinary c op)
    (hstep : c.step op = .ok (reply, c')) (hclean : c'.ec.es.Clean) : Timely c op reply c' := by
  have hdone := step_done hstep
  refine ⟨?_, ?_, fun hasks inum => hdone.attributes hasks inum, ?_⟩
  · intro parent hchanges hret
    obtain ⟨node, hlive, hstamped⟩ := changed_stamped h hop hchanges hstep hret hclean
    exact ⟨node, hlive, hstamped.now_le hticks⟩
  · rintro ino size off data rfl _
    cases hdone with
    | node hcreates _ => cases hcreates
    | write hwrite =>
      obtain ⟨text, hfile⟩ := (isfile_iff_known (representsOn_univ.mpr h) trivial).mp hop.2
      have hbefore := (h.stored _ _ _ hfile).ne_none
      obtain ⟨node, hlive⟩ := written_live h.owned hbefore hwrite hclean.longest_lt
      exact ⟨node, hlive, (hwrite.stamped hlive).now_le hticks⟩
  · intro inum node node' hlive hlive' hnot
    rcases hdone.passes.inodes h.owned hclean.longest_lt inum node' hlive' with ⟨hmem, _⟩ | ⟨before, hbefore, _, htimes⟩
    · have hne : c.ec.es.im.get_inode inum ≠ none := by
        rw [hlive]
        exact Option.some_ne_none node
      obtain ⟨id, hacts, heq⟩ := acts_on_of_stamps h hop hstep hclean hne hmem
      exact absurd heq (hnot id hacts)
    · rw [hlive] at hbefore
      cases hbefore
      exact htimes

/-- In a run in which the clock never goes back and no allocation fails, the times follow
    the calls, and every inode was changed no later than it was written. -/
theorem times_follow {garbage : UInt32} {env : Env} {stack : UInt64} (hticks : env.Ticks)
    (hnew : ChfsClient.new garbage env stack = .ok start) (hrun : Trace step Ordinary start history c)
    (hclean : c.ec.es.Clean) :
    (∀ inum node, c.ec.es.im.get_inode inum = some node → node.ctime ≤ node.mtime) ∧
      ∀ op reply c', Ordinary c op → c.step op = .ok (reply, c') → c'.ec.es.Clean → Timely c op reply c' := by
  obtain ⟨hlater, hstamped⟩ := new_stamped hnew
  have hfresh := fresh_client hnew
  obtain ⟨touched, hpasses⟩ := run_passes hrun
  have howned := hpasses.owned hfresh.owned hclean.longest_lt
  have hticks₀ := hticks.later hlater
  have hticks₁ := hticks₀.later hpasses.later
  obtain ⟨files, hrep⟩ := run_represents hfresh hrun hclean
  refine ⟨?_, ?_⟩
  · refine hpasses.ordered hfresh.owned hclean.longest_lt hticks₀ ?_
    intro inum node hlive
    exact (hstamped inum node hlive).ctime_le_mtime hticks
  · intro op reply c' hop hstep hclean'
    exact timely_step hrep hticks₁ hop hstep hclean'

/-- Surroundings in which each reading of the clock is a second later, up to some moment. -/
def ticking : Env := { clock := fun n => min (1700000000 + n) 1800000000, heap := fun _ => Mem.zero }

theorem times_follow_tour : ∃ start c : ChfsClient, Trace step Ordinary start tour c ∧
    (∀ inum node, c.ec.es.im.get_inode inum = some node → node.ctime ≤ node.mtime) ∧
    ∀ op reply c', Ordinary c op → c.step op = .ok (reply, c') → c'.ec.es.Clean → Timely c op reply c' := by
  have hticks : ticking.Ticks := by
    refine ⟨fun n n' hle => ?_, fun n => ?_⟩
    · exact min_le_min_right _ (Nat.add_le_add_left hle _)
    · exact (Nat.min_le_right _ _).trans_lt (by norm_num)
  obtain ⟨start, hnew⟩ := new_zero ticking 0
  obtain ⟨fs, c, hrun, h, _⟩ := run_tour hnew
  exact ⟨start, c, hrun, times_follow hticks hnew hrun h.clean⟩

end ChfsClient

end chfs
