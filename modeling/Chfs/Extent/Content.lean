import Chfs.Extent.Fresh

namespace chfs

open BlockManager InodeManager

/-- The inode has every block its size asks for. -/
def Whole (bm : BlockManager) (node : Inode) : Prop :=
  ∃ p, Layout bm node p ∧ pointers_for (blocks_for node.size.toNat) ≤ p

/-- The inode `inum` is live and holds the given bytes, whatever is in memory. -/
structure Stores (im : InodeManager) (inum : UInt32) (type : FileType) (bytes : List UInt8) : Prop where
  live : ∃ node, im.get_inode inum = some node ∧ node.type.toInt32.toUInt32 = type.code ∧
    node.size.toNat = bytes.length ∧ Whole im.bm node ∧
    ∀ heap q (hq : q < bytes.length), file_bytes im.bm node heap q = bytes[q]

/-- The contents of an extent server: a finite map from inums to types and bytes. -/
abbrev Files := UInt32 → Option (FileType × List UInt8)

/-- The inode layer holds these files and no others. -/
structure Represents (im : InodeManager) (files : Files) : Prop where
  owned : Owned im
  dead : ∀ inum, files inum = none → im.get_inode inum = none
  stored : ∀ inum type bytes, files inum = some (type, bytes) → Stores im inum type bytes

theorem Whole.blocks_le {bm : BlockManager} {node : Inode} (h : Whole bm node) :
    blocks_for node.size.toNat ≤ 228 := by
  obtain ⟨p, hlayout, hp⟩ := h
  have := prefix_le hlayout.front
  unfold pointers_for at hp
  split at hp <;> omega

/-- A whole inode holds the blocks that its size asks for and, when it is empty, at
    most one more. -/
theorem Whole.pointers_for_pre {bm : BlockManager} {node : Inode} {p : Nat} (hlayout : Layout bm node p)
    (hp : pointers_for (blocks_for node.size.toNat) ≤ p) :
    p = pointers_for (pre_block_num node) ∨ (node.size.toNat = 0 ∧ p = 0) := by
  have hbounded := hlayout.bounded
  rw [pre_block_num_eq] at hbounded ⊢
  unfold pointers_for blocks_for at *
  split at hp <;> split at hbounded <;> split <;> omega

/-- Every block of a whole inode can be freed. -/
theorem Whole.can_shrink {bm : BlockManager} {node : Inode} {p : Nat} (hlayout : Layout bm node p)
    (hp : pointers_for (blocks_for node.size.toNat) ≤ p) (used t free : Nat) :
    CanShrink (pre_block_num node) used (filled p t free) := by
  unfold CanShrink
  rcases Whole.pointers_for_pre hlayout hp with hall | ⟨hsize, _⟩
  · right; right; right
    unfold filled
    omega
  · left
    rw [pre_block_num_eq, hsize]
    decide

theorem Whole.can_remove {bm : BlockManager} {node : Inode} {p : Nat} (_hlayout : Layout bm node p)
    (hp : pointers_for (blocks_for node.size.toNat) ≤ p) : CanRemove node.size.toNat p := by
  unfold CanRemove
  omega

/-- With enough free blocks, writing a buffer that fits stores all of it. -/
theorem InodeManager.WriteDone.whole {im im' : InodeManager} {inum : UInt32} {node node' : Inode} {p : Nat}
    {bytes : List UInt8} {rest : Mem}
    (hdone : WriteDone (Mem.ofBytes (bytes ++ [0]) rest) bytes.length im inum node p im' node')
    (hfits : bytes.length ≤ 116736) (hroom : target bytes.length ≤ p + im.bm.free_count) :
    Whole im'.bm node' ∧
      ∀ heap q (hq : q < bytes.length), file_bytes im'.bm node' heap q = bytes[q] := by
  have hlen : bytes.length < 2 ^ 32 := by omega
  have hsize := hdone.size_toNat hlen
  have hk : blocks_for bytes.length ≤ 228 := by
    unfold blocks_for
    omega
  have htarget : target bytes.length = pointers_for (blocks_for bytes.length) := by
    unfold target pointers_for
    split <;> omega
  have hreach : pointers_for (blocks_for bytes.length) ≤
      min (filled p (target bytes.length) im.bm.free_count) (pointers_for (max 1 (blocks_for bytes.length))) := by
    have := target_le bytes.length
    unfold filled
    omega
  refine ⟨⟨_, hdone.layout hlen, by rwa [hsize]⟩, ?_⟩
  intro heap q hq
  have hslot : slot_position (q / 512) < pointers_for (blocks_for bytes.length) := by
    apply slot_position_lt_pointers_for
    unfold blocks_for
    omega
  have hne : pointers im'.bm node' (slot_position (q / 512)) ≠ 0 := hdone.written.front.ne_zero (by omega)
  have hdiv : 512 * (q / 512) + q % 512 = q := Nat.div_add_mod q 512
  have hbyte := hdone.written.contents (q / 512) (q % 512) hne (Nat.mod_lt q (by omega)) (by omega)
  have hmem : Mem.ofBytes (bytes ++ [0]) rest q = bytes[q] := by
    rw [Mem.ofBytes_of_lt (by simp; omega), List.getElem_append_left hq]
  rw [file_bytes]
  simp only [hne, ↓reduceIte]
  rw [hbyte, hdiv, hmem]

namespace Stores

variable {im im' : InodeManager} {inum : UInt32} {type : FileType} {bytes : List UInt8}

theorem of_unchanged (h : Stores im inum type bytes) (howned : Owned im) (hunchanged : Unchanged im im') :
    Stores im' inum type bytes := by
  obtain ⟨node, hlive, htype, hsize, ⟨p, hlayout, hp⟩, hbytes⟩ := h.live
  obtain ⟨node', hlive', htype', hsize', hblocks'⟩ := hunchanged.live_after hlive
  refine ⟨node', hlive', by rw [htype', htype], by rw [hsize', hsize],
    ⟨p, hunchanged.layout howned hlive hblocks' hsize' hlayout, by rwa [hsize']⟩, ?_⟩
  intro heap q hq
  rw [hunchanged.file_bytes_eq howned hlive hblocks', hbytes]

/-- A step that spares the other inodes leaves their files. -/
theorem of_spares {other : UInt32} (h : Stores im other type bytes) (hspares : Spares im im' inum)
    (hother : other ≠ inum) : Stores im' other type bytes := by
  obtain ⟨node, hlive, htype, hsize, ⟨p, hlayout, hp⟩, hbytes⟩ := h.live
  refine ⟨node, by rw [hspares.inodes other hother, hlive], htype, hsize,
    ⟨p, hspares.layout hother hlive hlayout, hp⟩, ?_⟩
  intro heap q hq
  rw [hspares.file_bytes_eq hother hlive, hbytes]

/-- A new inode holds an empty file. -/
theorem of_created (hcreated : Created im type.code inum im') : Stores im' inum type [] := by
  obtain ⟨node, hnode, htype, hsize, _⟩ := hcreated.stored
  have hlive : im'.get_inode inum = some node := by
    rw [hnode, if_neg]
    rw [htype]
    exact type.stored_code.2
  refine ⟨node, hlive, by rw [htype]; exact type.stored_code.1, by rw [hsize]; rfl,
    ⟨0, (hcreated.layout hlive).1, ?_⟩, ?_⟩
  · rw [hsize]
    decide
  · intro heap q hq
    simp at hq

/-- A `put` for which there are enough blocks stores the buffer. -/
theorem of_written {old : List UInt8} (h : Stores im inum type old) {node node' : Inode} {p : Nat} {rest : Mem}
    (hlive : im.get_inode inum = some node) (hfits : bytes.length ≤ 116736)
    (hroom : target bytes.length ≤ p + im.bm.free_count)
    (hdone : WriteDone (Mem.ofBytes (bytes ++ [0]) rest) bytes.length im inum node p im' node') :
    Stores im' inum type bytes := by
  obtain ⟨old_node, hold, htype, _⟩ := h.live
  rw [hlive] at hold
  cases hold
  obtain ⟨hwhole, hbytes⟩ := hdone.whole hfits hroom
  exact ⟨node', hdone.live, by rw [hdone.type, htype], hdone.size_toNat (by omega), hwhole, hbytes⟩

end Stores

namespace Represents

variable {im im' : InodeManager} {files : Files} {inum : UInt32} {type : FileType} {bytes : List UInt8}

theorem dead_iff (h : Represents im files) : im.get_inode inum = none ↔ files inum = none := by
  constructor
  · intro hdead
    cases hfile : files inum with
    | none => rfl
    | some file =>
      obtain ⟨node, hlive, _⟩ := (h.stored inum file.1 file.2 hfile).live
      rw [hdead] at hlive
      cases hlive
  · exact h.dead inum

theorem of_unchanged (h : Represents im files) (hunchanged : Unchanged im im') : Represents im' files where
  owned := h.owned.of_unchanged hunchanged
  dead := fun inum hnone => hunchanged.dead.mpr (h.dead inum hnone)
  stored := fun inum type bytes hfile => (h.stored inum type bytes hfile).of_unchanged h.owned hunchanged

/-- A step that spares the other inodes changes the represented map at `inum` only. -/
theorem update (h : Represents im files) (hspares : Spares im im' inum) (howned : Owned im')
    {file : Option (FileType × List UInt8)} (hdead : file = none → im'.get_inode inum = none)
    (hstored : ∀ type bytes, file = some (type, bytes) → Stores im' inum type bytes) :
    Represents im' (Function.update files inum file) where
  owned := howned
  dead := by
    intro other hnone
    by_cases heq : other = inum
    · subst heq
      rw [Function.update_self] at hnone
      exact hdead hnone
    · rw [Function.update_of_ne heq] at hnone
      rw [hspares.inodes other heq]
      exact h.dead other hnone
  stored := by
    intro other type bytes hfile
    by_cases heq : other = inum
    · subst heq
      rw [Function.update_self] at hfile
      exact hstored type bytes hfile
    · rw [Function.update_of_ne heq] at hfile
      exact (h.stored other type bytes hfile).of_spares hspares heq

theorem created (h : Represents im files) (hcreated : Created im type.code inum im') :
    Represents im' (Function.update files inum (some (type, []))) := by
  refine h.update (hcreated.spares h.owned) (hcreated.owned h.owned) (fun hnone => by cases hnone) ?_
  intro type' bytes hfile
  cases hfile
  exact Stores.of_created hcreated

/-- A `put` for which there were enough blocks changes the map at its id. -/
theorem written (h : Represents im files) {old : List UInt8} (hfile : files inum = some (type, old))
    {node node' : Inode} {p : Nat} {rest : Mem} (hlive : im.get_inode inum = some node)
    (hfits : bytes.length ≤ 116736) (hroom : target bytes.length ≤ p + im.bm.free_count)
    (hdone : WriteDone (Mem.ofBytes (bytes ++ [0]) rest) bytes.length im inum node p im' node') :
    Represents im' (Function.update files inum (some (type, bytes))) := by
  refine h.update (hdone.spares h.owned hlive) (hdone.owned h.owned hlive (by omega))
    (fun hnone => by cases hnone) ?_
  intro type' bytes' hfile'
  cases hfile'
  exact (h.stored inum type old hfile).of_written hlive hfits hroom hdone

theorem removed (h : Represents im files) {node : Inode} (hlive : im.get_inode inum = some node)
    (hdone : RemoveDone im inum node im') : Represents im' (Function.update files inum none) := by
  refine h.update (hdone.spares h.owned hlive) (hdone.owned h.owned hlive) (fun _ => ?_) ?_
  · rw [hdone.inodes, if_pos rfl]
  · intro type' bytes' hfile
    cases hfile

theorem of_failed (h : Represents im files) (env : Env) (failed : Nat) :
    Represents { im with env, failed_allocs := failed } files :=
  ⟨owned_failed h.owned env failed, h.dead, fun inum type bytes hfile => ⟨(h.stored inum type bytes hfile).live⟩⟩

/-- A live file in the map, with the inode that holds it. -/
theorem node (h : Represents im files) (hfile : files inum = some (type, bytes)) :
    ∃ node p, im.get_inode inum = some node ∧ node.type.toInt32.toUInt32 = type.code ∧
      node.size.toNat = bytes.length ∧ Layout im.bm node p ∧ pointers_for (blocks_for node.size.toNat) ≤ p ∧
      ∀ heap, (file_bytes im.bm node heap).bytes node.size.toNat = bytes := by
  obtain ⟨node, hlive, htype, hsize, ⟨p, hlayout, hp⟩, hbytes⟩ := (h.stored inum type bytes hfile).live
  refine ⟨node, p, hlive, htype, hsize, hlayout, hp, ?_⟩
  intro heap
  apply List.ext_getElem
  · rw [Mem.length_bytes, hsize]
  · intro q hq hq'
    rw [Mem.getElem_bytes, hbytes heap q hq']

/-- The files at the start: an empty root directory. -/
theorem fresh (h : Fresh im) :
    Represents im (fun inum => if inum = 1 then some (.T_DIR, []) else none) where
  owned := h.owned
  dead := by
    intro inum hnone
    split at hnone
    · cases hnone
    · next hne => exact h.others inum hne
  stored := by
    intro inum type bytes hfile
    split at hfile
    · next heq =>
      cases hfile
      subst heq
      obtain ⟨node, hlive, htype, hsize, _⟩ := h.root
      obtain ⟨p, hlayout⟩ := h.owned.layout 1 node hlive
      refine ⟨node, hlive, by rw [htype]; decide, by rw [hsize]; rfl, ⟨p, hlayout, ?_⟩, ?_⟩
      · simp [hsize, blocks_for, pointers_for]
      · intro heap q hq
        simp at hq
    · cases hfile

end Represents

end chfs
