import Chfs.Extent.DiskFull
import Chfs.Extent.RemoveAll

namespace chfs

open BlockManager InodeManager

/-- What can be told of an extent server without its disk: the size of each live file and
    how many blocks it has, the inum given out last, how many blocks are free and how
    many allocations have failed. -/
structure Ledger where
  files : UInt32 → Option (Nat × Nat)
  last : UInt32
  free : Nat
  failed_blocks : Nat
  failed_inodes : Nat

namespace Ledger

/-- There is the root directory, and all blocks behind the table of inodes are free. -/
def initial : Ledger where
  files := fun inum => if inum = 1 then some (0, 0) else none
  last := 0
  free := 31732
  failed_blocks := 0
  failed_inodes := 0

/-- The inum of the next inode, if the search for one succeeds. -/
def next_inum (l : Ledger) : Option UInt32 :=
  ((List.range' 1 INODE_NUM).find? fun i => (l.files (to_alloc l.last i)).isNone).map (to_alloc l.last)

/-- An inode whose type is stored as 0 is not live. -/
def create (l : Ledger) (type : UInt32) : Ledger :=
  match l.next_inum with
  | some inum =>
    { l with
      files := Function.update l.files inum (if type.toUInt16 = 0 then none else some (0, 0))
      last := inum }
  | none => { l with failed_inodes := l.failed_inodes + 1 }

/-- A file that is put takes the blocks it lacks as far as there are any, and gives back
    those it no longer needs, but for its first. -/
def put (l : Ledger) (id : extentid_t) (n : Nat) : Option Ledger :=
  match l.files (inum_of id) with
  | none => some l
  | some (size, held) =>
    if CanShrink (max 1 (blocks_for size)) (max 1 (blocks_for n)) held then
      let needed := min 229 (file_block_count n)
      let kept := min (max held (min needed (held + l.free))) (max 1 (file_block_count n))
      some { l with
        files := Function.update l.files (inum_of id) (some (n, kept))
        free := l.free + held - kept
        failed_blocks := l.failed_blocks + (needed - held - l.free) }
    else none

def get (l : Ledger) (id : extentid_t) : Option Ledger :=
  match l.files (inum_of id) with
  | none => some l
  | some (size, held) =>
    if max 1 (blocks_for size) ≤ 228 ∨ (held ≤ 100 ∧ max 1 (blocks_for size) * 512 < 2 ^ 31) then some l else none

/-- The entries of the indirect block are not given back. -/
def remove (l : Ledger) (id : extentid_t) : Option Ledger :=
  match l.files (inum_of id) with
  | none => some l
  | some (size, held) =>
    if CanRemove size held then
      some { l with
        files := Function.update l.files (inum_of id) none
        free := l.free + min (file_block_count size) 101 }
    else none

/-- The id that the next `create` returns. -/
def next_id (l : Ledger) : extentid_t :=
  match l.next_inum with
  | some inum => inum.toUInt64
  | none => 0

/-- One request, if it returns. -/
def step (l : Ledger) : ExtentOp → Option Ledger
  | .create type => some (l.create type)
  | .put id buf => l.put id buf.length
  | .get id => l.get id
  | .getattr _ => some l
  | .remove id => l.remove id

def run (l : Ledger) : List ExtentOp → Option Ledger
  | [] => some l
  | op :: ops => do
    let l ← l.step op
    l.run ops

end Ledger

/-- The ledger of an inode layer. -/
def InodeManager.ledger (im : InodeManager) : Ledger where
  files := fun inum => (im.get_inode inum).map fun node => (node.size.toNat, held_count im.bm node)
  last := im.last_alloced
  free := im.bm.free_count
  failed_blocks := im.bm.failed_allocs
  failed_inodes := im.failed_allocs

section

variable {im im' : InodeManager} {inum : UInt32} {node : Inode}

theorem ledger_files_of_live (hlive : im.get_inode inum = some node) :
    im.ledger.files inum = some (node.size.toNat, held_count im.bm node) := by
  simp only [InodeManager.ledger, hlive, Option.map_some]

theorem ledger_files_of_front {p : Nat} (hlive : im.get_inode inum = some node)
    (hfront : Prefix (pointers im.bm node) p) :
    im.ledger.files inum = some (node.size.toNat, p) := by
  rw [ledger_files_of_live hlive, held_count_eq hfront]

theorem ledger_files_of_dead (hdead : im.get_inode inum = none) : im.ledger.files inum = none := by
  simp only [InodeManager.ledger, hdead, Option.map_none]

/-- A step that spares the other inodes changes at most one entry. -/
theorem Spares.ledger_files (h : Spares im im' inum) :
    im'.ledger.files = Function.update im.ledger.files inum (im'.ledger.files inum) := by
  funext other
  by_cases heq : other = inum
  · rw [heq, Function.update_self]
  rw [Function.update_of_ne heq]
  cases hlive : im.get_inode other with
  | none => rw [ledger_files_of_dead hlive, ledger_files_of_dead ((h.inodes other heq).trans hlive)]
  | some node =>
    rw [ledger_files_of_live hlive, ledger_files_of_live ((h.inodes other heq).trans hlive), held_count, held_count,
      h.pointers_eq heq hlive]

theorem Unchanged.ledger (h : Unchanged im im') (howned : Owned im) : im'.ledger = im.ledger := by
  have hfiles : im'.ledger.files = im.ledger.files := by
    funext inum
    cases hlive : im.get_inode inum with
    | none => rw [ledger_files_of_dead hlive, ledger_files_of_dead (h.dead.mpr hlive)]
    | some node =>
      obtain ⟨node', hlive', _, hsize, hblocks⟩ := h.live_after hlive
      rw [ledger_files_of_live hlive, ledger_files_of_live hlive', held_count, held_count,
        h.pointers_eq howned hlive hblocks, hsize]
  change Ledger.mk im'.ledger.files im'.last_alloced im'.bm.free_count im'.bm.failed_allocs im'.failed_allocs =
    Ledger.mk im.ledger.files im.last_alloced im.bm.free_count im.bm.failed_allocs im.failed_allocs
  rw [hfiles, h.last_alloced, h.free_count, h.failed_blocks, h.failed_inodes]

/-- The search of `alloc_inode` can be made in the ledger. -/
theorem next_inum_eq_some (h : im.ledger.next_inum = some inum) : FirstFree im inum := by
  obtain ⟨i, hfind, rfl⟩ := Option.map_eq_some_iff.mp h
  obtain ⟨hnone, hmem, hbefore⟩ := List.find?_range'_eq_some.mp hfind
  have hdead : im.get_inode (to_alloc im.last_alloced i) = none :=
    Option.map_eq_none_iff.mp (Option.isNone_iff_eq_none.mp hnone)
  rw [List.mem_range'_1, INODE_NUM_eq] at hmem
  refine ⟨hdead, i, hmem.1, by omega, rfl, ?_⟩
  intro j hj hlt hnone
  have hlive := hbefore j hj hlt
  have hentry : im.ledger.files (to_alloc im.ledger.last j) = none := ledger_files_of_dead hnone
  rw [hentry] at hlive
  cases hlive

theorem next_inum_eq_none (h : im.ledger.next_inum = none) (hvisited : Visited im.last_alloced inum) :
    im.get_inode inum ≠ none := by
  obtain ⟨i, hlo, hhi, rfl⟩ := hvisited
  intro hdead
  have hlive := List.find?_eq_none.mp (Option.map_eq_none_iff.mp h) i (by
    rw [List.mem_range'_1, INODE_NUM_eq]
    omega)
  exact hlive (Option.isNone_iff_eq_none.mpr (ledger_files_of_dead hdead))

theorem InodeManager.Created.ledger {type : UInt32} (h : Created im type inum im') (howned : Owned im)
    (hnext : im.ledger.next_inum = some inum) : im'.ledger = im.ledger.create type := by
  have hentry : im'.ledger.files inum = if type.toUInt16 = 0 then none else some (0, 0) := by
    obtain ⟨node, hstored, htype, hsize, _⟩ := h.stored
    by_cases hnone : type.toUInt16 = 0
    · rw [htype, hnone, if_pos (by decide)] at hstored
      rw [if_pos hnone]
      exact ledger_files_of_dead hstored
    · have hne : node.type ≠ 0 := by
        intro hzero
        have hcode := congrArg Int16.toUInt16 (htype.symm.trans hzero)
        exact hnone hcode
      rw [if_neg hne] at hstored
      rw [if_neg hnone, ledger_files_of_front hstored (h.layout hstored).1.front, hsize]
      rfl
  have hfiles := (h.spares howned).ledger_files
  rw [hentry] at hfiles
  have hfree := h.free_count
  rw [Ledger.create, hnext]
  dsimp only
  rw [← hfiles]
  simp only [InodeManager.ledger, h.last_alloced, hfree, h.failed_blocks, h.failed_inodes]

theorem InodeManager.RemoveDone.ledger (h : RemoveDone im inum node im') (howned : Owned im)
    (hlive : im.get_inode inum = some node) :
    im'.ledger = { im.ledger with
      files := Function.update im.ledger.files inum none
      free := im.ledger.free + min (file_block_count node.size.toNat) 101 } := by
  have hdead := h.inodes inum
  rw [if_pos rfl] at hdead
  have hfiles := (h.spares howned hlive).ledger_files
  rw [ledger_files_of_dead hdead] at hfiles
  have hfree := h.free
  rw [removed, Finset.card_range, ← file_block_count_eq] at hfree
  rw [← hfiles]
  simp only [InodeManager.ledger, h.last_alloced, hfree, h.failed_blocks, h.failed_inodes]

theorem InodeManager.WriteDone.ledger {buf : Mem} {n p : Nat} {node' : Inode}
    (h : WriteDone buf n im inum node p im' node')
    (howned : Owned im) (hlive : im.get_inode inum = some node) (hn : n < 2 ^ 32) {kept : Nat}
    (hkept : kept = min (max p (min (min 229 (file_block_count n)) (p + im.ledger.free)))
      (max 1 (file_block_count n))) :
    im'.ledger = { im.ledger with
      files := Function.update im.ledger.files inum (some (n, kept))
      free := im.ledger.free + p - kept
      failed_blocks := im.ledger.failed_blocks + (min 229 (file_block_count n) - p - im.ledger.free) } := by
  have hmax : pointers_for (max 1 (blocks_for n)) = max 1 (file_block_count n) := by
    rw [file_block_count_eq]
    unfold pointers_for
    split <;> split <;> omega
  have htarget : target n = min 229 (file_block_count n) := by rw [file_block_count_eq, target]
  have hreach : min (filled p (target n) im.bm.free_count) (pointers_for (max 1 (blocks_for n))) = kept := by
    rw [hmax, htarget, hkept]
    rfl
  have hfront := h.written.front
  have hfree := h.written.free
  have hfailed := h.written.failed
  rw [hreach] at hfront hfree
  rw [htarget] at hfailed
  have hfiles := (h.spares howned hlive).ledger_files
  rw [ledger_files_of_front h.live hfront, h.size_toNat hn] at hfiles
  have hfree : im'.bm.free_count = im.bm.free_count + p - kept := by omega
  rw [← hfiles]
  simp only [InodeManager.ledger, h.last_alloced, hfree, hfailed, h.failed_allocs]

end

namespace ExtentServer

variable {start es : ExtentServer} {op : ExtentOp}

/-- A `create` returns the id that the ledger says is next, or 0 if there is none. -/
theorem create_ledger (howned : Owned es.im) (type : UInt32) :
    (es.create type).2.1 = es.im.ledger.next_id ∧ (es.create type).2.2.im.ledger = es.im.ledger.create type := by
  rw [Ledger.next_id]
  cases hnext : es.im.ledger.next_inum with
  | none =>
    obtain ⟨env, halloc⟩ := @alloc_inode_none es.im type fun inum => next_inum_eq_none hnext
    rw [create, halloc, Ledger.create, hnext]
    exact ⟨rfl, rfl⟩
  | some inum =>
    obtain ⟨im', halloc, hcreated⟩ := (next_inum_eq_some hnext).alloc_inode howned.last_alloced type
    rw [create, halloc]
    exact ⟨rfl, hcreated.ledger howned hnext⟩

/-- The ledger foretells whether a request returns and what becomes of the ledger. -/
theorem step_ledger (howned : Owned es.im) (hshort : op.Short) :
    (es.step op).toOption.map (fun result => result.2.im.ledger) = es.im.ledger.step op := by
  cases op with
  | create type =>
    rw [Ledger.step, ← (create_ledger howned type).2]
    rfl
  | put id buf =>
    rw [Ledger.step, Ledger.put]
    cases hnode : es.im.get_inode (inum_of id) with
    | none =>
      rw [ledger_files_of_dead hnode, step, put_dead hnode]
      rfl
    | some node =>
      obtain ⟨p, hlayout⟩ := howned.layout _ _ hnode
      have hlen : buf.length < 2 ^ 31 := hshort
      rw [ledger_files_of_front hnode hlayout.front]
      dsimp only
      rw [← pre_block_num_eq]
      have hfilled : CanShrink (pre_block_num node) (max 1 (blocks_for buf.length))
          (filled p (target buf.length) es.im.bm.free_count) ↔
          CanShrink (pre_block_num node) (max 1 (blocks_for buf.length)) p := canShrink_filled _
      by_cases hok : CanShrink (pre_block_num node) (max 1 (blocks_for buf.length)) p
      · obtain ⟨im', node', hrun, hdone, _⟩ := put_done buf hnode howned.wf hlayout hlen (hfilled.mpr hok)
        rw [if_pos hok, ← hdone.ledger howned hnode (by omega) rfl, step, hrun]
        rfl
      · obtain ⟨fault, hrun⟩ := put_fault buf hnode howned.wf hlayout hlen (mt hfilled.mp hok)
        rw [if_neg hok, step, hrun]
        rfl
  | get id =>
    rw [Ledger.step, Ledger.get]
    cases hnode : es.im.get_inode (inum_of id) with
    | none =>
      rw [ledger_files_of_dead hnode, step, get_dead hnode]
      rfl
    | some node =>
      obtain ⟨p, hlayout⟩ := howned.layout _ _ hnode
      rw [ledger_files_of_front hnode hlayout.front]
      dsimp only
      rw [← pre_block_num_eq]
      by_cases hroom : pre_block_num node ≤ 228 ∨ (p ≤ 100 ∧ pre_block_num node * 512 < 2 ^ 31)
      · obtain ⟨im', hrun, hunchanged⟩ := get_done hnode howned.wf hlayout hroom
        rw [if_pos hroom, ← hunchanged.ledger howned, step, hrun]
        rfl
      · obtain ⟨fault, hrun⟩ := get_fault hnode howned.wf hlayout hroom
        rw [if_neg hroom, step, hrun]
        rfl
  | getattr id => rfl
  | remove id =>
    rw [Ledger.step, Ledger.remove]
    cases hnode : es.im.get_inode (inum_of id) with
    | none =>
      rw [ledger_files_of_dead hnode, step, remove_dead hnode]
      rfl
    | some node =>
      obtain ⟨p, hlayout⟩ := howned.layout _ _ hnode
      rw [ledger_files_of_front hnode hlayout.front]
      dsimp only
      by_cases hok : CanRemove node.size.toNat p
      · obtain ⟨im', hrun, hdone⟩ := remove_done hnode howned.wf hlayout hok
        rw [if_pos hok, ← hdone.ledger howned hnode, step, hrun]
        rfl
      · obtain ⟨fault, hrun⟩ := remove_fault hnode howned.wf hlayout hok
        rw [if_neg hok, step, hrun]
        rfl

theorem run_owned (ops : List ExtentOp) : ∀ es : ExtentServer, Owned es.im → (∀ op ∈ ops, op.Short) →
    ∀ {es'}, es.run ops = .ok es' → Owned es'.im := by
  induction ops with
  | nil =>
    intro es howned _ es' hrun
    cases hrun
    exact howned
  | cons op ops ih =>
    intro es howned hshort es' hrun
    obtain ⟨⟨reply, next⟩, hstep, hrun⟩ := Except.bind_eq_ok_iff.mp hrun
    have hop := hshort op List.mem_cons_self
    exact ih next ((step_done howned hop hstep).owned howned hop)
      (fun op hmem => hshort op (List.mem_cons_of_mem _ hmem)) hrun

/-- From any state in order, so it does for a run. -/
theorem run_ledger (ops : List ExtentOp) : ∀ es : ExtentServer, Owned es.im → (∀ op ∈ ops, op.Short) →
    (es.run ops).toOption.map (fun es => es.im.ledger) = es.im.ledger.run ops := by
  induction ops with
  | nil =>
    intro es _ _
    rfl
  | cons op ops ih =>
    intro es howned hshort
    have hop := hshort op List.mem_cons_self
    have hstep := step_ledger howned hop
    rw [run, Ledger.run, ← hstep]
    cases hrun : es.step op with
    | error fault => rfl
    | ok result =>
      have hnext := (step_done howned hop hrun).owned howned hop
      exact ih result.2 hnext fun op hmem => hshort op (List.mem_cons_of_mem _ hmem)

/-- A new server starts with the initial ledger. -/
theorem ledger_fresh (h : Fresh start.im) : start.im.ledger = Ledger.initial := by
  have hfiles : start.im.ledger.files = Ledger.initial.files := by
    funext inum
    by_cases hone : inum = 1
    · obtain ⟨root, hroot, _, hsize, _⟩ := h.root
      obtain ⟨p, hlayout⟩ := h.owned.layout _ _ hroot
      have hheld : held_count start.im.bm root = 0 := by
        rw [held_count, Finset.card_eq_zero, Finset.filter_eq_empty_iff]
        intro j _
        exact not_not.mpr (by_contra fun hne => h.no_block _ (hlayout.held.in_use j hne))
      rw [hone, ledger_files_of_live hroot, hsize, hheld]
      rfl
    · rw [ledger_files_of_dead (h.others inum hone)]
      exact (if_neg hone).symm
  change Ledger.mk start.im.ledger.files _ _ _ _ = _
  rw [hfiles]
  rw [h.last_alloced, h.free_count, h.failed_blocks, h.failed_inodes]
  rfl

/-- What a new server does with a list of requests can be told from the requests alone, as far as
    it concerns which inodes there are, of what size, how many blocks they have, how many
    are left, and whether the requests return or end in a fault. -/
theorem requests_determine_ledger {garbage : UInt32} {env : Env} {ops : List ExtentOp}
    (hnew : ExtentServer.new garbage env = .ok start) (hshort : ∀ op ∈ ops, op.Short) :
    (start.run ops).toOption.map (fun es => es.im.ledger) = Ledger.initial.run ops ∧
      ∀ es, start.run ops = .ok es → ∀ type, (es.create type).2.1 = es.im.ledger.next_id := by
  have hfresh := (fresh_new hnew).1
  have hrun := run_ledger ops start hfresh.owned hshort
  rw [ledger_fresh hfresh] at hrun
  refine ⟨hrun, ?_⟩
  intro es hes type
  exact (create_ledger (run_owned ops start hfresh.owned hshort hes) type).1

/-- One block is missing after a file with one entry in its indirect block has been removed. -/
theorem requests_determine_ledger_root :
    ∃ start es, ExtentServer.new 0 still = .ok start ∧
      start.run [.put 1 (List.replicate 51201 0), .remove 1] = .ok es ∧ es.im.bm.free_count = 31731 := by
  obtain ⟨start, hnew⟩ := new_zero still
  have hshort : ∀ op ∈ [ExtentOp.put 1 (List.replicate 51201 0), .remove 1], op.Short := by
    intro op hmem
    rcases List.mem_pair.mp hmem with rfl | rfl
    · rw [ExtentOp.Short, List.length_replicate]
      omega
    · trivial
  have hledger := (requests_determine_ledger hnew hshort).1
  have hfree : (Ledger.initial.run [.put 1 (List.replicate 51201 0), .remove 1]).map Ledger.free = some 31731 := by
    simp only [Ledger.run, Ledger.step, List.length_replicate]
    decide
  rw [← hledger] at hfree
  cases hrun : start.run [.put 1 (List.replicate 51201 0), .remove 1] with
  | error fault =>
    rw [hrun] at hfree
    cases hfree
  | ok es =>
    rw [hrun] at hfree
    exact ⟨start, es, hnew, hrun, Option.some.inj hfree⟩

end ExtentServer

end chfs
