import Chfs.Extent.AllOrNothing
import Chfs.Extent.Reaches
import Chfs.Extent.WholeFiles

namespace chfs

open BlockManager InodeManager

/-- Every live inode has every block it can have: those its size asks for, or all there
    is room for. -/
def Complete (im : InodeManager) : Prop :=
  ∀ inum node, im.get_inode inum = some node → ∃ p, Layout im.bm node p ∧ target node.size.toNat ≤ p

namespace Complete

variable {im im' : InodeManager} {inum : UInt32}

theorem fresh (h : Fresh im) : Complete im := by
  intro inum node hlive
  obtain ⟨p, hlayout⟩ := h.owned.layout inum node hlive
  obtain ⟨root, hroot, _, hsize, _⟩ := h.root
  have hone : inum = 1 := by
    by_contra hne
    rw [h.others inum hne] at hlive
    cases hlive
  rw [hone, hroot] at hlive
  cases hlive
  refine ⟨p, hlayout, ?_⟩
  simp [hsize, target, blocks_for, pointers_for]

theorem of_spares (h : Complete im) (hspares : Spares im im' inum)
    (hnode : ∀ node, im'.get_inode inum = some node → ∃ p, Layout im'.bm node p ∧ target node.size.toNat ≤ p) :
    Complete im' := by
  intro other node hlive
  by_cases heq : other = inum
  · subst heq
    exact hnode node hlive
  · rw [hspares.inodes other heq] at hlive
    obtain ⟨p, hlayout, hp⟩ := h other node hlive
    exact ⟨p, hspares.layout heq hlive hlayout, hp⟩

theorem of_unchanged (h : Complete im) (howned : Owned im) (hunchanged : Unchanged im im') : Complete im' := by
  intro inum node' hlive'
  obtain ⟨node, hlive, _, hsize, hblocks⟩ := hunchanged.live hlive'
  obtain ⟨p, hlayout, hp⟩ := h inum node hlive
  exact ⟨p, hunchanged.layout howned hlive hblocks.symm hsize.symm hlayout, by rwa [← hsize]⟩

end Complete

namespace ExtentServer

variable {start es es' : ExtentServer} {op : ExtentOp} {reply : ExtentReply} {id : extentid_t} {text : List UInt8}

/-- As long as no allocation of a block fails. -/
theorem StepDone.complete (h : StepDone es op reply es') (howned : Owned es.im) (hcomplete : Complete es.im)
    (hshort : op.Short) (hfail : es'.im.bm.failed_allocs = es.im.bm.failed_allocs) : Complete es'.im := by
  cases h with
  | @created type inum im' hcreated =>
    refine hcomplete.of_spares (hcreated.spares howned) ?_
    intro node hlive
    obtain ⟨stored, hstored, _, hsize, _⟩ := hcreated.stored
    have hstored := hstored.symm.trans hlive
    split at hstored
    · cases hstored
    cases hstored
    refine ⟨0, (hcreated.layout hlive).1, ?_⟩
    rw [hsize]
    decide
  | not_created _ => exact hcomplete
  | put_dead _ => exact hcomplete.of_unchanged howned (unchanged_env _ _)
  | @put id buf node node' p im' hlive hlayout _ hdone =>
    have hlen : buf.length < 2 ^ 31 := hshort
    have hroom := hdone.written.failed
    have hfail : im'.bm.failed_allocs = es.im.bm.failed_allocs := hfail
    refine hcomplete.of_spares (hdone.spares howned hlive) ?_
    intro file hfile
    have hsame := hdone.live.symm.trans hfile
    cases hsame
    refine ⟨_, hdone.layout (by omega), ?_⟩
    have hle := target_le buf.length
    rw [hdone.size_toNat (by omega)]
    unfold filled
    omega
  | get _ _ _ hunchanged => exact hcomplete.of_unchanged howned hunchanged
  | remove hlive _ _ hdone =>
    refine hcomplete.of_spares (hdone.spares howned hlive) ?_
    intro node hnode
    have hnone := hdone.inodes
    rw [hnone, if_pos rfl] at hnode
    cases hnode
  | _ => exact hcomplete

theorem Reaches.complete (h : es.Reaches es') (howned : Owned es.im) (hcomplete : Complete es.im)
    (hlong : es'.longest_put < 2 ^ 31) (hfail : es'.im.bm.failed_allocs = es.im.bm.failed_allocs) :
    Complete es'.im := by
  obtain ⟨history, htrace⟩ := h.run hlong
  let Inv : ExtentServer → Prop := fun s => Owned s.im ∧ es.im.bm.failed_allocs ≤ s.im.bm.failed_allocs ∧
    (s.im.bm.failed_allocs = es.im.bm.failed_allocs → Complete s.im)
  have hstart : Inv es := ⟨howned, le_refl _, fun _ => hcomplete⟩
  have hstep : ∀ s op reply s', Inv s → op.OfProtocol ∧ op.Short → s.step op = .ok (reply, s') → Inv s' := by
    rintro s op reply s' ⟨howned, hle, hcomplete⟩ ⟨_, hshort⟩ hstep
    have hdone := step_done howned hshort hstep
    have hle' := hdone.failed_le
    refine ⟨hdone.owned howned hshort, hle.trans hle', ?_⟩
    intro hsame
    exact hdone.complete howned (hcomplete (by omega)) hshort (by omega)
  exact (htrace.invariant hstart hstep).2.2 hfail

/-- A file that can be read is whole. -/
theorem stores_of_reads (howned : Owned es.im) (hcomplete : Complete es.im) {node : Inode}
    (hlive : es.im.get_inode (inum_of id) = some node) {type : FileType}
    (htype : node.type.toInt32.toUInt32 = type.code)
    (hreads : es.Reads id text) : Stores es.im (inum_of id) type text := by
  obtain ⟨p, hlayout, hp⟩ := hcomplete _ node hlive
  obtain ⟨hroom, htext⟩ := (reads_iff_of_live hlive howned.wf hlayout).mp hreads
  rw [pre_block_num_eq] at hroom
  have hk : blocks_for node.size.toNat ≤ 228 := by
    unfold target pointers_for at hp
    split at hp <;> omega
  have hneed : pointers_for (blocks_for node.size.toNat) ≤ p := by
    unfold target pointers_for at *
    split at hp <;> split <;> omega
  have hlength : text.length = node.size.toNat := by rw [htext, Mem.length_bytes]
  refine ⟨node, hlive, htype, hlength.symm, ⟨p, hlayout, hneed⟩, ?_⟩
  intro heap q hq
  -- every byte lies in a block, so the memory does not show through
  have hslot : slot_position (q / 512) < pointers_for (blocks_for node.size.toNat) := by
    apply slot_position_lt_pointers_for
    unfold blocks_for
    omega
  have hne : pointers es.im.bm node (slot_position (q / 512)) ≠ 0 := hlayout.front.ne_zero (by omega)
  have hbyte : text[q] = file_bytes es.im.bm node (es.im.env.heap 0) q := by
    simp only [htext, Mem.getElem_bytes]
  rw [hbyte, file_bytes, file_bytes, if_neg hne, if_neg hne]

end ExtentServer

end chfs
