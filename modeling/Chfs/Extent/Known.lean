import Chfs.Extent.Aborts
import Chfs.Extent.Refinement

namespace chfs

open BlockManager InodeManager

theorem Unchanged.firstFree {im im' : InodeManager} (h : Unchanged im im') {inum : UInt32}
    (hfirst : FirstFree im inum) : FirstFree im' inum := by
  obtain ⟨hdead, i, hlo, hhi, hat, hbefore⟩ := hfirst
  refine ⟨h.dead.mpr hdead, i, hlo, hhi, by rw [h.last_alloced, hat], ?_⟩
  intro j hj hlt hnone
  rw [h.last_alloced, h.dead] at hnone
  exact hbefore j hj hlt hnone

/-- How many blocks an inum holds. -/
def held_by (im : InodeManager) (inum : UInt32) : Nat :=
  match im.get_inode inum with
  | some node => held_count im.bm node
  | none => 0

theorem held_by_of_live {im : InodeManager} {inum : UInt32} {node : Inode} (hlive : im.get_inode inum = some node) :
    held_by im inum = held_count im.bm node := by
  rw [held_by, hlive]

theorem Unchanged.held_by {im im' : InodeManager} (h : Unchanged im im') (howned : Owned im) (inum : UInt32) :
    chfs.held_by im' inum = chfs.held_by im inum := by
  cases hlive : im.get_inode inum with
  | none => rw [chfs.held_by, chfs.held_by, hlive, h.dead.mpr hlive]
  | some node =>
    obtain ⟨node', hlive', _, _, hblocks⟩ := h.live_after hlive
    rw [held_by_of_live hlive, held_by_of_live hlive', held_count, held_count, h.pointers_eq howned hlive hblocks]

theorem Spares.held_by {im im' : InodeManager} {inum other : UInt32} (h : Spares im im' inum) (hother : other ≠ inum) :
    chfs.held_by im' other = chfs.held_by im other := by
  cases hlive : im.get_inode other with
  | none => rw [chfs.held_by, chfs.held_by, h.inodes other hother, hlive]
  | some node =>
    have hlive' : im'.get_inode other = some node := (h.inodes other hother).trans hlive
    rw [held_by_of_live hlive, held_by_of_live hlive', held_count, held_count, h.pointers_eq hother hlive]

/-- The inode layer holds these files as far as the `known` inums go. -/
structure RepresentsOn (known : Set UInt32) (im : InodeManager) (files : Files) : Prop where
  owned : Owned im
  dead : ∀ inum ∈ known, files inum = none → im.get_inode inum = none
  stored : ∀ inum ∈ known, ∀ type bytes, files inum = some (type, bytes) → Stores im inum type bytes

theorem representsOn_univ {im : InodeManager} {files : Files} :
    RepresentsOn Set.univ im files ↔ Represents im files :=
  ⟨fun h => ⟨h.owned, fun inum => h.dead inum trivial, fun inum => h.stored inum trivial⟩,
    fun h => ⟨h.owned, fun inum _ => h.dead inum, fun inum _ => h.stored inum⟩⟩

namespace RepresentsOn

variable {known : Set UInt32} {im im' : InodeManager} {files : Files} {inum : UInt32} {type : FileType}
  {bytes : List UInt8}

theorem of_unchanged (h : RepresentsOn known im files) (hunchanged : Unchanged im im') :
    RepresentsOn known im' files where
  owned := h.owned.of_unchanged hunchanged
  dead := fun inum hinum hnone => hunchanged.dead.mpr (h.dead inum hinum hnone)
  stored := fun inum hinum type bytes hfile => (h.stored inum hinum type bytes hfile).of_unchanged h.owned hunchanged

/-- Of a step that spares the other inodes it is enough to know what it makes of `inum`. -/
theorem update (h : RepresentsOn known im files) (hspares : Spares im im' inum) (howned : Owned im')
    {file : Option (FileType × List UInt8)} (hdead : file = none → im'.get_inode inum = none)
    (hstored : ∀ type bytes, file = some (type, bytes) → Stores im' inum type bytes) :
    RepresentsOn (insert inum known) im' (Function.update files inum file) where
  owned := howned
  dead := by
    intro other hother hnone
    by_cases heq : other = inum
    · subst heq
      rw [Function.update_self] at hnone
      exact hdead hnone
    · rw [Function.update_of_ne heq] at hnone
      rw [hspares.inodes other heq]
      exact h.dead other (hother.resolve_left heq) hnone
  stored := by
    intro other hother type bytes hfile
    by_cases heq : other = inum
    · subst heq
      rw [Function.update_self] at hfile
      exact hstored type bytes hfile
    · rw [Function.update_of_ne heq] at hfile
      exact (h.stored other (hother.resolve_left heq) type bytes hfile).of_spares hspares heq

/-- Nothing else is lost, whatever it makes of `inum`. -/
theorem forget (h : RepresentsOn known im files) (hspares : Spares im im' inum) (howned : Owned im') :
    RepresentsOn (known \ {inum}) im' files where
  owned := howned
  dead := by
    intro other hother hnone
    rw [hspares.inodes other hother.2]
    exact h.dead other hother.1 hnone
  stored := fun other hother type bytes hfile =>
    (h.stored other hother.1 type bytes hfile).of_spares hspares hother.2

theorem mono {known' : Set UInt32} (h : RepresentsOn known im files) (hsub : known' ⊆ known) :
    RepresentsOn known' im files :=
  ⟨h.owned, fun inum hinum => h.dead inum (hsub hinum), fun inum hinum => h.stored inum (hsub hinum)⟩

theorem of_failed (h : RepresentsOn known im files) (env : Env) (failed : Nat) :
    RepresentsOn known { im with env, failed_allocs := failed } files :=
  ⟨owned_failed h.owned env failed, h.dead,
    fun inum hinum type bytes hfile => ⟨(h.stored inum hinum type bytes hfile).live⟩⟩

end RepresentsOn

namespace ExtentServer

variable {known : Set UInt32} {es es' : ExtentServer} {files : Files} {id : extentid_t}

/-- What has gone wrong so far: calls of `alloc_block` and of `alloc_inode` that returned
    0, and the longest buffer stored. -/
def tally (es : ExtentServer) : Nat × Nat × Nat := (es.im.bm.failed_allocs, es.im.failed_allocs, es.longest_put)

/-- No allocation has failed, and every buffer fitted into a file. -/
def Clean (es : ExtentServer) : Prop := es.tally ≤ (0, 0, MAXFILE * BLOCK_SIZE)

theorem clean_iff : es.Clean ↔
    es.im.bm.failed_allocs = 0 ∧ es.im.failed_allocs = 0 ∧ es.longest_put ≤ MAXFILE * BLOCK_SIZE := by
  simp only [Clean, tally, Prod.mk_le_mk, Nat.le_zero]

theorem Clean.mono (h : es'.Clean) (hle : es.tally ≤ es'.tally) : es.Clean := le_trans hle h

/-- No allocation failed between the two states. -/
def Untroubled (es es' : ExtentServer) : Prop :=
  es'.im.bm.failed_allocs = es.im.bm.failed_allocs ∧ es'.im.failed_allocs = es.im.failed_allocs

theorem Untroubled.between {es'' : ExtentServer} (h : es.Untroubled es'') (hle : es.tally ≤ es'.tally)
    (hle' : es'.tally ≤ es''.tally) : es.Untroubled es' ∧ es'.Untroubled es'' := by
  obtain ⟨hblocks, hinodes⟩ := h
  simp only [tally, Prod.mk_le_mk] at hle hle'
  refine ⟨⟨?_, ?_⟩, ?_, ?_⟩ <;> omega

theorem Clean.untroubled (h : es'.Clean) (hle : es.tally ≤ es'.tally) : es.Untroubled es' := by
  obtain ⟨hblocks, hinodes, _⟩ := clean_iff.mp h
  obtain ⟨hblocks', hinodes', _⟩ := clean_iff.mp (h.mono hle)
  exact ⟨hblocks.trans hblocks'.symm, hinodes.trans hinodes'.symm⟩

/-- The type and the length of a known file. -/
theorem getattr_spec (h : RepresentsOn known es.im files) (hid : inum_of id ∈ known) :
    ∃ a, es.getattr id = (.OK, a) ∧ a.type = files.type_code id ∧ a.size.toNat = (files.content id).length := by
  refine ⟨_, getattr_eq es id, ?_⟩
  cases hfile : files (inum_of id) with
  | none =>
    rw [h.dead _ hid hfile, Files.type_code, Files.content, hfile]
    exact ⟨rfl, rfl⟩
  | some file =>
    obtain ⟨node, hlive, htype, hsize, _⟩ := (h.stored _ hid file.1 file.2 hfile).live
    rw [hlive, Files.type_code, Files.content, hfile]
    exact ⟨htype, hsize⟩

/-- Nothing but access times has changed. -/
structure OnlyReads (es es' : ExtentServer) : Prop where
  unchanged : Unchanged es.im es'.im
  longest : es'.longest_put = es.longest_put

namespace OnlyReads

theorem refl (es : ExtentServer) : OnlyReads es es := ⟨Unchanged.refl _, rfl⟩

theorem tally (h : OnlyReads es es') : es'.tally = es.tally := by
  simp only [ExtentServer.tally, h.unchanged.failed_blocks, h.unchanged.failed_inodes, h.longest]

theorem represents (h : OnlyReads es es') (hrep : RepresentsOn known es.im files) : RepresentsOn known es'.im files :=
  hrep.of_unchanged h.unchanged

end OnlyReads

/-- A `get` of a known file returns its content. -/
theorem get_spec (h : RepresentsOn known es.im files) (hid : inum_of id ∈ known) :
    ∃ es', es.get id = .ok (.OK, files.content id, es') ∧ OnlyReads es es' := by
  cases hfile : files (inum_of id) with
  | none =>
    refine ⟨es, ?_, .refl es⟩
    rw [get_dead (h.dead _ hid hfile), Files.content, hfile]
  | some file =>
    obtain ⟨node, hlive, _, hsize, hwhole, hbytes⟩ := (h.stored _ hid file.1 file.2 hfile).live
    have hk := hwhole.blocks_le
    obtain ⟨p, hlayout, _⟩ := hwhole
    obtain ⟨im', hrun, hunchanged⟩ := get_done hlive h.owned.wf hlayout (.inl (by rw [pre_block_num_eq]; omega))
    refine ⟨{ es with im := im' }, ?_, hunchanged, rfl⟩
    rw [hrun, Files.content, hfile]
    have hcontent : (file_bytes es.im.bm node (es.im.env.heap 0)).bytes node.size.toNat = file.2 := by
      apply List.ext_getElem
      · rw [Mem.length_bytes, hsize]
      · intro q hq hq'
        rw [Mem.getElem_bytes, hbytes _ q hq']
    rw [hcontent]

/-- What a `create` that gets the inode `inum` does. -/
structure CreateDone (known : Set UInt32) (files : Files) (es : ExtentServer) (type : FileType) (inum : UInt32)
    (es' : ExtentServer) : Prop where
  bounds : 1 ≤ inum.toNat ∧ inum.toNat ≤ 1024
  dead : es.im.get_inode inum = none
  tally : es'.tally = es.tally
  spares : Spares es.im es'.im inum
  held : held_by es'.im inum = 0
  free : es'.im.bm.free_count = es.im.bm.free_count
  represents : RepresentsOn (insert inum known) es'.im (Function.update files inum (some (type, [])))

theorem create_done (h : RepresentsOn known es.im files) {type : FileType} {inum : UInt32} {im' : InodeManager}
    (hcreated : Created es.im type.code inum im') : CreateDone known files es type inum { es with im := im' } where
  bounds := hcreated.bounds
  dead := hcreated.dead
  tally := by simp only [ExtentServer.tally, hcreated.failed_blocks, hcreated.failed_inodes]
  spares := hcreated.spares h.owned
  held := by
    cases hlive : im'.get_inode inum with
    | none => rw [held_by, hlive]
    | some node =>
      have hfront : Prefix (pointers im'.bm node) 0 := (hcreated.layout hlive).1.front
      rw [held_by_of_live hlive, held_count_eq hfront]
  free := hcreated.free_count
  represents := by
    refine h.update (hcreated.spares h.owned) (hcreated.owned h.owned) (fun hnone => by cases hnone) ?_
    intro type' bytes hfile
    cases hfile
    exact Stores.of_created hcreated

/-- A `create` makes an empty file, or uses up nothing and is counted as failed. -/
theorem create_spec (h : RepresentsOn known es.im files) (type : FileType) :
    (∃ inum es', es.create type.code = (.OK, inum.toUInt64, es') ∧ CreateDone known files es type inum es') ∨
      ∃ es', es.create type.code = (.OK, 0, es') ∧ RepresentsOn known es'.im files ∧
        ¬ es.Untroubled es' ∧ es.tally ≤ es'.tally ∧ es'.longest_put = es.longest_put ∧
        es'.im.bm.free_count = es.im.bm.free_count := by
  rcases create_cases h.owned type.code with ⟨inum, im', hrun, hcreated⟩ | ⟨_, env, hrun⟩
  · exact .inl ⟨inum, _, hrun, create_done h hcreated⟩
  · refine .inr ⟨_, hrun, h.of_failed _ _, ?_, ?_, rfl, rfl⟩
    · rintro ⟨_, hinodes⟩
      exact absurd hinodes (Nat.succ_ne_self _)
    · simp [tally]

/-- It makes it when there is a free inum to be found. -/
theorem create_first (h : RepresentsOn known es.im files) (type : FileType) {inum : UInt32}
    (hfirst : FirstFree es.im inum) :
    ∃ es', es.create type.code = (.OK, inum.toUInt64, es') ∧ CreateDone known files es type inum es' := by
  obtain ⟨im', halloc, hcreated⟩ := hfirst.alloc_inode h.owned.last_alloced type.code
  exact ⟨_, by rw [create, halloc], create_done h hcreated⟩

/-- What a `put` of a known file does. -/
structure PutDone (known : Set UInt32) (files : Files) (es : ExtentServer) (id : extentid_t) (buf : List UInt8)
    (es' : ExtentServer) : Prop where
  tally : es.tally ≤ es'.tally
  longest : es'.longest_put = max es.longest_put buf.length
  /-- The size is set, stored or not. -/
  size : es.im.get_inode (inum_of id) ≠ none → (es'.getattr id).2.size.toNat = buf.length
  inodes : es'.im.failed_allocs = es.im.failed_allocs
  /-- How many allocations fail, and how many blocks are left. -/
  room : es.im.get_inode (inum_of id) ≠ none →
    es'.im.bm.failed_allocs = es.im.bm.failed_allocs +
      (target buf.length - held_by es.im (inum_of id) - es.im.bm.free_count) ∧
    es'.im.bm.free_count + min (filled (held_by es.im (inum_of id)) (target buf.length) es.im.bm.free_count)
      (pointers_for (max 1 (blocks_for buf.length))) = es.im.bm.free_count + held_by es.im (inum_of id)
  free : es.im.bm.free_count ≤ es'.im.bm.free_count + pointers_for (blocks_for buf.length)
  /-- A file that does not grow needs no more blocks. -/
  blocks : ∀ type old, files (inum_of id) = some (type, old) → buf.length ≤ old.length →
    es'.im.bm.failed_allocs = es.im.bm.failed_allocs
  spares : Spares es.im es'.im (inum_of id)
  others : RepresentsOn (known \ {inum_of id}) es'.im files
  dead : files (inum_of id) = none → RepresentsOn known es'.im files ∧ es'.im.get_inode = es.im.get_inode
  stored : ∀ type old, files (inum_of id) = some (type, old) →
    es'.im.bm.failed_allocs = es.im.bm.failed_allocs → Fits buf →
    RepresentsOn known es'.im (Function.update files (inum_of id) (some (type, buf)))

theorem put_spec (h : RepresentsOn known es.im files) (hid : inum_of id ∈ known) {buf : List UInt8}
    (hlen : buf.length < 2 ^ 31) : ∃ es', es.put id buf = .ok (.OK, es') ∧ PutDone known files es id buf es' := by
  cases hfile : files (inum_of id) with
  | none =>
    have hkept : RepresentsOn known { es.im with env := es.im.malloc.2.env } files := h.of_unchanged (unchanged_env _ _)
    refine ⟨_, put_dead (h.dead _ hid hfile) buf, ?_, rfl, fun hlive => absurd (h.dead _ hid hfile) hlive, rfl,
      fun hlive => absurd (h.dead _ hid hfile) hlive, Nat.le_add_right _ _, fun _ _ _ _ => rfl,
      ⟨fun _ _ => rfl, fun _ _ _ hlive j hj => ⟨h.owned.in_use hlive hj, rfl⟩⟩, hkept.mono Set.sdiff_subset,
      fun _ => ⟨hkept, rfl⟩, ?_⟩
    · simp [ExtentServer.tally]
    · intro type old hsome
      rw [hfile] at hsome
      cases hsome
  | some file =>
    obtain ⟨node, hlive, _, hsize, ⟨p, hlayout, hp⟩, _⟩ := (h.stored _ hid file.1 file.2 hfile).live
    obtain ⟨im', node', hrun, hdone, _⟩ :=
      put_done buf hlive h.owned.wf hlayout hlen (Whole.can_shrink hlayout hp _ _ _)
    have hspares := hdone.spares h.owned hlive
    have howned := hdone.owned h.owned hlive (by omega)
    have hroom := hdone.written.failed
    have hheld : held_by es.im (inum_of id) = p := by
      rw [held_by_of_live hlive, held_count_eq hlayout.front]
    have hfree := hdone.written.free
    refine ⟨_, hrun, ?_, rfl, ?_, hdone.failed_allocs, ?_, ?_, ?_, hspares, h.forget hspares howned,
      fun hnone => absurd (hfile.symm.trans hnone) (by simp), ?_⟩
    · simp only [ExtentServer.tally, Prod.mk_le_mk, hdone.failed_allocs, hdone.written.failed]
      exact ⟨Nat.le_add_right _ _, le_refl _, le_max_left _ _⟩
    · intro _
      rw [getattr_eq, hdone.live]
      exact hdone.size_toNat (by omega)
    · intro _
      rw [hheld]
      exact ⟨hroom, hfree⟩
    · change es.im.bm.free_count ≤ im'.bm.free_count + _
      unfold filled target at hfree
      omega
    · intro type old hold hle
      rw [hfile] at hold
      cases hold
      have hsize : node.size.toNat = old.length := hsize
      change im'.bm.failed_allocs = es.im.bm.failed_allocs
      unfold target pointers_for blocks_for at *
      split at hroom <;> split at hp <;> omega
    · intro type old hold hfail hfits
      rw [hfile] at hold
      cases hold
      have hfail : im'.bm.failed_allocs = es.im.bm.failed_allocs := hfail
      have hnow : Stores im' (inum_of id) type buf :=
        (h.stored _ hid type old hfile).of_written hlive (fits_iff.mp hfits) (by omega) hdone
      have hupdate : RepresentsOn (insert (inum_of id) known) im'
        (Function.update files (inum_of id) (some (type, buf))) := by
        refine h.update hspares howned (fun hnone => by cases hnone) ?_
        intro type' bytes hsome
        cases hsome
        exact hnow
      rwa [Set.insert_eq_of_mem hid] at hupdate

/-- A `remove` takes a known file away. -/
theorem remove_spec (h : RepresentsOn known es.im files) (hid : inum_of id ∈ known) :
    ∃ es', es.remove id = .ok (.OK, es') ∧ es'.tally = es.tally ∧
      RepresentsOn known es'.im (Function.update files (inum_of id) none) := by
  cases hfile : files (inum_of id) with
  | none =>
    refine ⟨es, remove_dead (h.dead _ hid hfile), rfl, ?_⟩
    rwa [← hfile, Function.update_eq_self]
  | some file =>
    obtain ⟨node, hlive, _, _, ⟨p, hlayout, hp⟩, _⟩ := (h.stored _ hid file.1 file.2 hfile).live
    obtain ⟨im', hrun, hdone⟩ := remove_done hlive h.owned.wf hlayout (Whole.can_remove hlayout hp)
    refine ⟨{ es with im := im' }, hrun, ?_, ?_⟩
    · simp only [tally, hdone.failed_blocks, hdone.failed_inodes]
    · have hupdate : RepresentsOn (insert (inum_of id) known) im' (Function.update files (inum_of id) none) := by
        refine h.update (hdone.spares h.owned hlive) (hdone.owned h.owned hlive) (fun _ => ?_) ?_
        · rw [hdone.inodes, if_pos rfl]
        · intro type bytes hsome
          cases hsome
      rwa [Set.insert_eq_of_mem hid] at hupdate

end ExtentServer

end chfs
