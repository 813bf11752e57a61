import Chfs.Blocks.Alloc

namespace chfs

/-- The calls of the block map. -/
inductive BlockOp where
  | alloc_block
  | is_valid_block (id : blockid_t)
  | free_block (id : blockid_t)
  deriving DecidableEq, Repr

inductive BlockReply where
  | block (id : blockid_t)
  | valid (answer : Bool)
  | freed
  deriving DecidableEq, Repr

/-- The blocks handed out and not yet given back. -/
def handed_out : List (BlockOp × BlockReply) → Finset blockid_t
  | [] => ∅
  | (.alloc_block, .block id) :: history => if id = 0 then handed_out history else insert id (handed_out history)
  | (.free_block id, _) :: history => (handed_out history).erase id
  | _ :: history => handed_out history

/-- Only blocks that are held are freed. -/
def BlockOp.Proper (held : Finset blockid_t) : BlockOp → Prop
  | .free_block id => id ∈ held
  | _ => True

def ProperHistory : List (BlockOp × BlockReply) → Prop
  | [] => True
  | (op, _) :: history => ProperHistory history ∧ op.Proper (handed_out history)

/-- The blocks there are to hand out: from `IBLOCK(INODE_NUM) + 1` to `BLOCK_NUM - 1`. -/
def Allocatable (id : blockid_t) : Prop :=
  (IBLOCK (UInt32.ofNat INODE_NUM)).toNat < id.toNat ∧ id.toNat < BLOCK_NUM

/-- The first block that is not held. -/
structure LeastFree (held : Finset blockid_t) (id : blockid_t) : Prop where
  allocatable : Allocatable id
  not_held : id ∉ held
  least : ∀ other, Allocatable other → other ∉ held → id.toNat ≤ other.toNat

/-- What an allocator answers when these blocks are held. -/
def BlockOp.Answered (held : Finset blockid_t) : BlockOp → BlockReply → Prop
  | .alloc_block, .block id =>
    (id = 0 ↔ ∀ other, Allocatable other → other ∈ held) ∧ (id ≠ 0 → LeastFree held id) ∧
      (∀ i : UInt32, i.toNat ≤ INODE_NUM → id ≠ IBLOCK i) ∧ id ∉ held
  | .is_valid_block id, .valid answer => answer = true ↔ id ∈ held
  | .free_block _, .freed => True
  | _, _ => False

theorem allocatable_iff {id : blockid_t} : Allocatable id ↔ DataBlock id := by
  have hlast : (IBLOCK (UInt32.ofNat INODE_NUM)).toNat = 1035 := by decide
  rw [Allocatable, hlast, BLOCK_NUM_eq, DataBlock]

namespace BlockManager

variable {bm bm' : BlockManager} {op : BlockOp} {reply : BlockReply} {history : List (BlockOp × BlockReply)}

def step (bm : BlockManager) : BlockOp → Result (BlockReply × BlockManager)
  | .alloc_block =>
    let (id, bm) := bm.alloc_block
    .ok (.block id, bm)
  | .is_valid_block id =>
    let (answer, bm) := bm.is_valid_block id
    .ok (.valid answer, bm)
  | .free_block id => do
    let bm ← bm.free_block id
    return (.freed, bm)

/-- The map marks exactly the blocks that are held. -/
structure Tracks (bm : BlockManager) (held : Finset blockid_t) : Prop where
  wf : bm.WF
  in_use : ∀ id, bm.InUse id ↔ id ∈ held

theorem tracks_new : Tracks new ∅ where
  wf := wf_new
  in_use := by
    intro id
    constructor
    · intro h
      cases h
    · intro h
      exact absurd h (Finset.notMem_empty id)

namespace Tracks

variable {held : Finset blockid_t} {id : blockid_t}

theorem zero_not_mem (h : Tracks bm held) : 0 ∉ held := fun hmem => h.wf.not_inUse_zero ((h.in_use 0).mpr hmem)

theorem free_iff (h : Tracks bm held) : 0 < bm.free_count ↔ ∃ other, Allocatable other ∧ other ∉ held := by
  rw [free_count, Finset.card_pos]
  constructor
  · rintro ⟨i, hi⟩
    obtain ⟨⟨_, hhi⟩, _⟩ := mem_free_blocks.mp hi
    rw [← toNat_ofNat_of_lt hhi, toNat_mem_free_blocks, h.in_use, ← allocatable_iff] at hi
    exact ⟨_, hi⟩
  · rintro ⟨other, hother⟩
    rw [allocatable_iff, ← h.in_use, ← toNat_mem_free_blocks] at hother
    exact ⟨_, hother⟩

theorem alloc (h : Tracks bm held) {id : blockid_t} (hid : DataBlock id) :
    Tracks (bm.set_using id 1) (insert id held) where
  wf := h.wf.set_using_one hid
  in_use := by
    intro other
    rw [inUse_set_using, Finset.mem_insert, ← h.in_use]
    by_cases heq : other = id <;> simp [heq]

theorem free (h : Tracks bm held) (id : blockid_t) :
    Tracks ((bm.write_block id Mem.zero).set_using id 0) (held.erase id) where
  wf := (h.wf.write_block id Mem.zero).set_using_zero id
  in_use := by
    intro other
    rw [inUse_set_using, Finset.mem_erase, ← h.in_use, inUse_write_block]
    by_cases heq : other = id <;> simp [heq]

theorem of_same (h : Tracks bm held) (hsame : Same bm bm') : Tracks bm' held where
  wf := hsame.wf h.wf
  in_use := fun id => (hsame.in_use id).trans (h.in_use id)

end Tracks

/-- One call: it returns, answers as it should, and the map keeps track. -/
theorem step_tracks (h : Tracks bm (handed_out history)) (hop : op.Proper (handed_out history)) :
    ∃ reply bm', bm.step op = .ok (reply, bm') ∧ op.Answered (handed_out history) reply ∧
      Tracks bm' (handed_out ((op, reply) :: history)) := by
  cases op with
  | alloc_block =>
    by_cases hfree : 0 < bm.free_count
    · obtain ⟨id, hrun, hdata, hnot, hleast⟩ := alloc_block_of_free h.wf hfree
      have hid := allocatable_iff.mpr hdata
      rw [h.in_use] at hnot
      refine ⟨.block id, _, by rw [step, hrun], ⟨?_, ?_, ?_, hnot⟩, ?_⟩
      · constructor
        · intro hzero
          exact absurd hzero hdata.ne_zero
        · intro hall
          exact absurd (hall id hid) hnot
      · intro _
        refine ⟨hid, hnot, ?_⟩
        intro other hother hfree
        exact hleast other (allocatable_iff.mp hother) (by rwa [h.in_use])
      · intro i hi heq
        rw [INODE_NUM_eq] at hi
        have hval := IBLOCK_toNat hi
        rw [← heq] at hval
        have hlow := hdata.1
        omega
      · rw [handed_out, if_neg hdata.ne_zero]
        exact h.alloc hdata
    · have hrun := alloc_block_of_full h.wf (by omega)
      refine ⟨.block 0, _, by rw [step, hrun], ⟨?_, ?_, ?_, h.zero_not_mem⟩, ?_⟩
      · refine ⟨fun _ other hother => ?_, fun _ => rfl⟩
        by_contra hnot
        exact hfree (h.free_iff.mpr ⟨other, hother, hnot⟩)
      · intro hne
        exact absurd rfl hne
      · intro i hi heq
        rw [INODE_NUM_eq] at hi
        have hval := IBLOCK_toNat hi
        rw [← heq] at hval
        cases hval
      · rw [handed_out, if_pos rfl]
        exact ⟨⟨h.wf.data_block, h.wf.zero_or_one⟩, h.in_use⟩
  | is_valid_block id =>
    refine ⟨_, _, rfl, ?_, h.of_same (bm.is_valid_block_same id)⟩
    exact (is_valid_block_iff h.wf id).trans (h.in_use id)
  | free_block id =>
    have huse : bm.InUse id := (h.in_use id).mpr hop
    refine ⟨.freed, _, ?_, trivial, h.free id⟩
    rw [step, free_block_of_inUse h.wf huse]
    rfl

/-- Along a run in which only held blocks are freed, the map keeps track. -/
theorem run_tracks (hrun : Trace step (fun _ _ => True) new history bm) (hproper : ProperHistory history) :
    Tracks bm (handed_out history) := by
  induction hrun with
  | nil => exact tracks_new
  | cons _ _ hstep ih =>
    obtain ⟨hproper, hop⟩ := hproper
    obtain ⟨reply, bm', hstep', _, htracks⟩ := step_tracks (ih hproper) hop
    rw [hstep] at hstep'
    cases hstep'
    exact htracks

/-- After any run in which only held blocks are freed, each call returns: `alloc_block`
    hands out the least block that is not held, or 0 when all are, and `is_valid_block`
    tells whether a block is held. -/
theorem hands_out_least_free (hrun : Trace step (fun _ _ => True) new history bm) (hproper : ProperHistory history)
    (hop : op.Proper (handed_out history)) :
    ∃ reply bm', bm.step op = .ok (reply, bm') ∧ op.Answered (handed_out history) reply := by
  obtain ⟨reply, bm', hstep, hanswered, _⟩ := step_tracks (run_tracks hrun hproper) hop
  exact ⟨reply, bm', hstep, hanswered⟩

/-- Of two blocks handed out the first is asked for and given back. It is the next one handed out again. -/
theorem hands_out_least_free_again :
    ∃ bm bm', Trace step (fun _ _ => True) new [(.free_block 1036, .freed), (.is_valid_block 1036, .valid true),
        (.alloc_block, .block 1037), (.alloc_block, .block 1036)] bm ∧
      bm.step .alloc_block = .ok (.block 1036, bm') ∧ LeastFree {1037} 1036 := by
  have hfirst : new.step .alloc_block = .ok (.block 1036, new.set_using 1036 1) := rfl
  have hsecond : (new.set_using 1036 1).step .alloc_block =
    .ok (.block 1037, (new.set_using 1036 1).set_using 1037 1) := rfl
  have hvalid : ((new.set_using 1036 1).set_using 1037 1).step (.is_valid_block 1036) =
      .ok (.valid true, (new.set_using 1036 1).set_using 1037 1) := rfl
  obtain ⟨bm, hfreed⟩ : ∃ bm, ((new.set_using 1036 1).set_using 1037 1).step (.free_block 1036) = .ok (.freed, bm) :=
    ⟨_, rfl⟩
  have hrun : Trace step (fun _ _ => True) new [(.free_block 1036, .freed), (.is_valid_block 1036, .valid true),
      (.alloc_block, .block 1037), (.alloc_block, .block 1036)] bm :=
    .cons (.cons (.cons (.cons .nil trivial hfirst) trivial hsecond) trivial hvalid) trivial hfreed
  have hheld : (1036 : blockid_t) ∈ handed_out [(.is_valid_block 1036, .valid true), (.alloc_block, .block 1037),
      (.alloc_block, .block 1036)] := by decide
  have hop : BlockOp.Proper {1037} .alloc_block := trivial
  obtain ⟨reply, bm', hstep, hanswered⟩ :=
    hands_out_least_free hrun ⟨⟨⟨⟨trivial, trivial⟩, trivial⟩, trivial⟩, hheld⟩ hop
  cases hfreed
  cases hstep
  exact ⟨_, _, hrun, rfl, hanswered.2.1 (by decide)⟩

end BlockManager

end chfs
