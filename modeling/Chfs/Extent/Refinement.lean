import Chfs.Extent.Content

namespace chfs

open BlockManager InodeManager

/-- The type an enumerator's value stands for. -/
def FileType.of_code (code : UInt32) : Option FileType :=
  if code = T_DIR.code then some .T_DIR
  else if code = T_FILE.code then some .T_FILE
  else if code = T_SYMBOLIC.code then some .T_SYMBOLIC
  else none

@[simp] theorem FileType.of_code_code (type : FileType) : of_code type.code = some type := by
  cases type <;> decide

theorem inum_of_toNat {id : extentid_t} (hid : id.toNat < 2 ^ 31) : (inum_of id).toNat = id.toNat := by
  have hmask : id.toNat &&& 2147483647 = id.toNat % 2 ^ 31 := Nat.and_two_pow_sub_one_eq_mod id.toNat 31
  simp only [inum_of, UInt64.toNat_toUInt32, UInt64.toNat_and]
  change (id.toNat &&& 2147483647) % 2 ^ 32 = id.toNat
  omega

theorem inum_of_inj {id id' : extentid_t} (hid : id.toNat < 2 ^ 31) (hid' : id'.toNat < 2 ^ 31)
    (h : inum_of id = inum_of id') : id = id' := by
  have hval := congrArg UInt32.toNat h
  rw [inum_of_toNat hid, inum_of_toNat hid'] at hval
  exact UInt64.toNat_inj.mp hval

theorem inum_of_toUInt64 {inum : UInt32} (hinum : inum.toNat < 2 ^ 31) : inum_of inum.toUInt64 = inum := by
  apply UInt32.toNat_inj.mp
  rw [inum_of_toNat (by simpa using hinum), UInt32.toNat_toUInt64]

/-- The files after a history of requests and answers, the latest first: a creation
    that returns an id gives it an empty file, `put` replaces the bytes of a live
    file and `remove` takes the file away. -/
def extent_files : List (ExtentOp × ExtentReply) → Files
  | [] => fun inum => if inum = 1 then some (.T_DIR, []) else none
  | (.create type, .create _ id) :: earlier =>
    match FileType.of_code type with
    | some type =>
      if id = 0 then extent_files earlier
      else Function.update (extent_files earlier) (inum_of id) (some (type, []))
    | none => extent_files earlier
  | (.put id buf, .put _) :: earlier =>
    Function.update (extent_files earlier) (inum_of id)
      ((extent_files earlier (inum_of id)).map fun file => (file.1, buf))
  | (.remove id, .remove _) :: earlier => Function.update (extent_files earlier) (inum_of id) none
  | _ :: earlier => extent_files earlier

/-- The map after one more exchange. -/
def Files.next (files : Files) : ExtentOp → ExtentReply → Files
  | .create type, .create _ id =>
    match FileType.of_code type with
    | some type => if id = 0 then files else Function.update files (inum_of id) (some (type, []))
    | none => files
  | .put id buf, .put _ =>
    Function.update files (inum_of id) ((files (inum_of id)).map fun file => (file.1, buf))
  | .remove id, .remove _ => Function.update files (inum_of id) none
  | _, _ => files

theorem extent_files_cons (op : ExtentOp) (reply : ExtentReply) (earlier : List (ExtentOp × ExtentReply)) :
    extent_files ((op, reply) :: earlier) = (extent_files earlier).next op reply := by
  cases op <;> cases reply <;> rfl

/-- The bytes a map holds for an id: none where it is not live. -/
def Files.content (files : Files) (id : extentid_t) : List UInt8 :=
  match files (inum_of id) with
  | some (_, bytes) => bytes
  | none => []

/-- The type it holds, which is 0 where the id is not live. -/
def Files.type_code (files : Files) (id : extentid_t) : UInt32 :=
  match files (inum_of id) with
  | some (type, _) => type.code
  | none => 0

/-- Requests with the types of the protocol, ids below 2^31 and buffers that fit into a file. -/
def ExtentOp.Ordinary : ExtentOp → Prop
  | .create type => ∃ t : FileType, type = t.code
  | .put id buf => id.toNat < 2 ^ 31 ∧ chfs.Fits buf
  | .get id | .getattr id | .remove id => id.toNat < 2 ^ 31

/-- Requests with the types of the protocol. -/
def ExtentOp.OfProtocol : ExtentOp → Prop
  | .create type => ∃ t : FileType, type = t.code
  | _ => True

theorem ExtentOp.Ordinary.of_protocol {op : ExtentOp} (h : op.Ordinary) : op.OfProtocol := by
  cases op with
  | create type => exact h
  | _ => trivial

theorem ExtentOp.Ordinary.fits {op : ExtentOp} (h : op.Ordinary) : op.Fits := by
  cases op with
  | put id buf => exact h.2
  | _ => trivial

/-- The id an exchange is about. -/
def target_id : ExtentOp → ExtentReply → Option extentid_t
  | .create _, .create _ id => if id = 0 then none else some id
  | .put id _, _ | .get id, _ | .getattr id, _ | .remove id, _ => some id
  | _, _ => none

namespace ExtentServer

abbrev OrdinaryRun (start : ExtentServer) : List (ExtentOp × ExtentReply) → ExtentServer → Prop :=
  Trace step (fun _ op => op.Ordinary) start

/-- A `get` of the id returns the bytes. -/
def Reads (es : ExtentServer) (id : extentid_t) (bytes : List UInt8) : Prop :=
  ∃ es', es.get id = .ok (.OK, bytes, es')

/-- The answers of a finite map. -/
def Answers (files : Files) : ExtentOp → ExtentReply → Prop
  | .create _, .create ret id =>
    ret = .OK ∧ (id ≠ 0 → 1 ≤ id.toNat ∧ id.toNat ≤ INODE_NUM ∧ files (inum_of id) = none)
  | .put _ _, .put ret => ret = .OK
  | .get id, .get ret buf => ret = .OK ∧ buf = files.content id
  | .getattr id, .getattr ret a =>
    ret = .OK ∧ a.type = files.type_code id ∧ a.size.toNat = (files.content id).length
  | .remove _, .remove ret => ret = .OK
  | _, _ => False

/-- One exchange of a server that stands for a map. -/
structure RefinesMap (files : Files) (es : ExtentServer) (op : ExtentOp) (reply : ExtentReply)
    (es' : ExtentServer) : Prop where
  answers : Answers files op reply
  /-- A `put` or `remove` on an id that is not live changes nothing. -/
  idle : ∀ id buf, op = .put id buf ∨ op = .remove id → files (inum_of id) = none →
    es'.im.bm = es.im.bm ∧ es'.im.last_alloced = es.im.last_alloced
  /-- Other ids keep their content, type and size. -/
  others : ∀ other, other.toNat < 2 ^ 31 → target_id op reply ≠ some other →
    (∀ bytes, es'.Reads other bytes ↔ es.Reads other bytes) ∧
      (es'.getattr other).2.type = (es.getattr other).2.type ∧
      (es'.getattr other).2.size = (es.getattr other).2.size

end ExtentServer

namespace Represents

variable {es : ExtentServer} {files : Files}

/-- The server reads what the map holds. -/
theorem get (h : Represents es.im files) (id : extentid_t) :
    ∃ im', es.get id = .ok (.OK, files.content id, { es with im := im' }) ∧ Unchanged es.im im' := by
  cases hfile : files (inum_of id) with
  | none =>
    refine ⟨es.im, ?_, Unchanged.refl _⟩
    rw [ExtentServer.get_dead (h.dead _ hfile), Files.content, hfile]
  | some file =>
    obtain ⟨node, p, hlive, _, hsize, hlayout, hp, hbytes⟩ := h.node hfile
    have hk := Whole.blocks_le ⟨p, hlayout, hp⟩
    obtain ⟨im', hrun, hunchanged⟩ := ExtentServer.get_done hlive h.owned.wf hlayout
      (.inl (by rw [pre_block_num_eq]; omega))
    refine ⟨im', ?_, hunchanged⟩
    rw [hrun, hbytes, Files.content, hfile]

theorem reads_iff (h : Represents es.im files) (id : extentid_t) (bytes : List UInt8) :
    es.Reads id bytes ↔ bytes = files.content id := by
  obtain ⟨im', hrun, _⟩ := h.get id
  constructor
  · rintro ⟨es', hget⟩
    rw [hrun] at hget
    cases hget
    rfl
  · rintro rfl
    exact ⟨_, hrun⟩

theorem getattr (h : Represents es.im files) (id : extentid_t) :
    (es.getattr id).1 = .OK ∧ (es.getattr id).2.type = files.type_code id ∧
      (es.getattr id).2.size.toNat = (files.content id).length := by
  rw [ExtentServer.getattr_eq]
  refine ⟨rfl, ?_⟩
  cases hfile : files (inum_of id) with
  | none =>
    rw [h.dead _ hfile, Files.type_code, Files.content, hfile]
    exact ⟨rfl, rfl⟩
  | some file =>
    obtain ⟨node, p, hlive, htype, hsize, _⟩ := h.node hfile
    rw [hlive, Files.type_code, Files.content, hfile]
    exact ⟨htype, hsize⟩

/-- Two servers answer alike about an id for which they stand for the same file. -/
theorem same_answers {es' : ExtentServer} {files' : Files} (h : Represents es.im files)
    (h' : Represents es'.im files') {id : extentid_t} (hsame : files' (inum_of id) = files (inum_of id)) :
    (∀ bytes, es'.Reads id bytes ↔ es.Reads id bytes) ∧
      (es'.getattr id).2.type = (es.getattr id).2.type ∧
      (es'.getattr id).2.size = (es.getattr id).2.size := by
  have hcontent : files'.content id = files.content id := by rw [Files.content, Files.content, hsame]
  have htype : files'.type_code id = files.type_code id := by rw [Files.type_code, Files.type_code, hsame]
  obtain ⟨_, ht, hs⟩ := h.getattr id
  obtain ⟨_, ht', hs'⟩ := h'.getattr id
  refine ⟨?_, by rw [ht, ht', htype], UInt32.toNat_inj.mp (by rw [hs, hs', hcontent])⟩
  intro bytes
  rw [h.reads_iff, h'.reads_iff, hcontent]

end Represents

namespace ExtentServer

variable {es es' : ExtentServer} {op : ExtentOp} {reply : ExtentReply}

/-- Allocations that failed stay counted. -/
theorem StepDone.failed_le (h : StepDone es op reply es') :
    es.im.bm.failed_allocs ≤ es'.im.bm.failed_allocs := by
  cases h with
  | created hcreated => exact hcreated.failed_blocks.ge
  | put _ _ _ hdone =>
    rw [hdone.written.failed]
    exact Nat.le_add_right _ _
  | get _ _ _ hunchanged => exact hunchanged.failed_blocks.ge
  | remove _ _ _ hdone => exact hdone.failed_blocks.ge
  | _ => exact le_refl _

/-- As long as no allocation fails, a server that stands for a map goes on to stand for
    the next one. -/
theorem StepDone.represents {files : Files} (h : StepDone es op reply es') (htyped : op.OfProtocol) (hfits : op.Fits)
    (hrep : Represents es.im files) (hfail : es'.im.bm.failed_allocs = es.im.bm.failed_allocs) :
    Represents es'.im (files.next op reply) := by
  cases h with
  | @created type inum im' hcreated =>
    obtain ⟨t, rfl⟩ := htyped
    have hbounds := hcreated.bounds
    have hne : inum.toUInt64 ≠ 0 := by
      intro hzero
      have hval := congrArg UInt64.toNat hzero
      rw [UInt32.toNat_toUInt64] at hval
      simp at hval
      omega
    rw [Files.next, FileType.of_code_code]
    simp only [hne, ↓reduceIte, inum_of_toUInt64 (show inum.toNat < 2 ^ 31 by omega)]
    exact hrep.created hcreated
  | not_created _ =>
    obtain ⟨t, rfl⟩ := htyped
    rw [Files.next, FileType.of_code_code]
    exact hrep.of_failed _ _
  | @put_dead id buf env hdead =>
    rw [Files.next, hrep.dead_iff.mp hdead, Option.map_none, ← hrep.dead_iff.mp hdead,
      Function.update_eq_self]
    exact hrep.of_unchanged (unchanged_env _ _)
  | @put id buf node node' p im' hlive hlayout hok hdone =>
    cases hfile : files (inum_of id) with
    | none =>
      rw [hrep.dead _ hfile] at hlive
      cases hlive
    | some file =>
      rw [Files.next, hfile, Option.map_some]
      have hfailed := hdone.written.failed
      have hfail : im'.bm.failed_allocs = es.im.bm.failed_allocs := hfail
      exact hrep.written hfile hlive (fits_iff.mp hfits) (by omega) hdone
  | get_dead _ => exact hrep
  | get _ _ _ hunchanged => exact hrep.of_unchanged hunchanged
  | getattr => exact hrep
  | remove_dead hdead =>
    rw [Files.next, ← hrep.dead_iff.mp hdead, Function.update_eq_self]
    exact hrep
  | remove hlive _ _ hdone => exact hrep.removed hlive hdone

theorem OrdinaryRun.represents {start : ExtentServer} {history : List (ExtentOp × ExtentReply)}
    (hstart : Fresh start.im) (hrun : OrdinaryRun start history es) :
    es.im.bm.failed_allocs = 0 → Represents es.im (extent_files history) := by
  have hboth := hrun.history_invariant
    (P := fun history es => Owned es.im ∧ (es.im.bm.failed_allocs = 0 → Represents es.im (extent_files history)))
    ⟨hstart.owned, fun _ => Represents.fresh hstart⟩ (by
      rintro history s input output s' ⟨howned, hrep⟩ hop hstep
      have hdone := step_done howned hop.fits.short hstep
      refine ⟨hdone.owned howned hop.fits.short, ?_⟩
      intro hfail
      have hle := hdone.failed_le
      rw [extent_files_cons]
      exact hdone.represents hop.of_protocol hop.fits (hrep (by omega)) (by omega))
  exact hboth.2

/-- A server that stands for a map answers every request. -/
theorem step_returns {files : Files} (hrep : Represents es.im files) (hop : op.Ordinary) :
    ∃ reply es', es.step op = .ok (reply, es') := by
  cases op with
  | create type => exact ⟨_, _, rfl⟩
  | put id buf =>
    cases hfile : files (inum_of id) with
    | none =>
      have hrun := put_dead (hrep.dead _ hfile) buf
      exact ⟨_, _, by rw [step, hrun]; rfl⟩
    | some file =>
      obtain ⟨node, p, hlive, _, _, hlayout, hp, _⟩ := hrep.node hfile
      have hlen := fits_iff.mp hop.2
      obtain ⟨im', node', hrun, _⟩ := put_done buf hlive hrep.owned.wf hlayout (by omega)
        (Whole.can_shrink hlayout hp _ _ _)
      exact ⟨_, _, by rw [step, hrun]; rfl⟩
  | get id =>
    obtain ⟨im', hrun, _⟩ := hrep.get id
    exact ⟨_, _, by rw [step, hrun]; rfl⟩
  | getattr id => exact ⟨_, _, rfl⟩
  | remove id =>
    cases hfile : files (inum_of id) with
    | none =>
      have hrun := remove_dead (hrep.dead _ hfile)
      exact ⟨_, _, by rw [step, hrun]; rfl⟩
    | some file =>
      obtain ⟨node, p, hlive, _, _, hlayout, hp, _⟩ := hrep.node hfile
      obtain ⟨im', hrun, _⟩ := remove_done hlive hrep.owned.wf hlayout (Whole.can_remove hlayout hp)
      exact ⟨_, _, by rw [step, hrun]; rfl⟩

/-- A map that differs at most at the id of an exchange. -/
theorem extent_files_other {history : List (ExtentOp × ExtentReply)} (h : StepDone es op reply es')
    (hop : op.Ordinary) {other : extentid_t} (hother : other.toNat < 2 ^ 31)
    (hne : target_id op reply ≠ some other) :
    extent_files ((op, reply) :: history) (inum_of other) = extent_files history (inum_of other) := by
  have hdiffer : ∀ id : extentid_t, id.toNat < 2 ^ 31 → some id ≠ some other → inum_of other ≠ inum_of id :=
    fun id hid hne heq => hne (congrArg some (inum_of_inj hid hother heq.symm))
  cases h with
  | @created type inum im' hcreated =>
    obtain ⟨t, rfl⟩ := hop
    have hbounds := hcreated.bounds
    rw [extent_files, FileType.of_code_code]
    dsimp only
    split
    · rfl
    · next hid =>
      simp only [target_id, hid, ↓reduceIte] at hne
      exact Function.update_of_ne (hdiffer _ (by rw [UInt32.toNat_toUInt64]; omega) hne) _ _
  | not_created _ =>
    obtain ⟨t, rfl⟩ := hop
    rw [extent_files, FileType.of_code_code]
    rfl
  | put_dead _ => exact Function.update_of_ne (hdiffer _ hop.1 hne) _ _
  | put _ _ _ _ => exact Function.update_of_ne (hdiffer _ hop.1 hne) _ _
  | remove_dead _ => exact Function.update_of_ne (hdiffer _ hop hne) _ _
  | remove _ _ _ _ => exact Function.update_of_ne (hdiffer _ hop hne) _ _
  | _ => rfl

theorem StepDone.answers {files : Files} (h : StepDone es op reply es') (hop : op.Ordinary)
    (hrep : Represents es.im files) : Answers files op reply := by
  cases h with
  | @created type inum im' hcreated =>
    have hbounds := hcreated.bounds
    refine ⟨rfl, fun _ => ?_⟩
    rw [UInt32.toNat_toUInt64, inum_of_toUInt64 (by omega)]
    exact ⟨hbounds.1, hbounds.2, hrep.dead_iff.mp hcreated.dead⟩
  | not_created _ => exact ⟨rfl, fun hne => absurd rfl hne⟩
  | put_dead _ => rfl
  | put _ _ _ _ => rfl
  | get_dead hdead =>
    refine ⟨rfl, ?_⟩
    rw [Files.content, hrep.dead_iff.mp hdead]
  | @get id node p im' hlive _ _ _ =>
    refine ⟨rfl, ?_⟩
    cases hfile : files (inum_of id) with
    | none =>
      rw [hrep.dead _ hfile] at hlive
      cases hlive
    | some file =>
      obtain ⟨node', _, hlive', _, _, _, _, hbytes⟩ := hrep.node hfile
      rw [hlive] at hlive'
      cases hlive'
      rw [hbytes, Files.content, hfile]
  | getattr => exact ⟨rfl, (hrep.getattr _).2⟩
  | remove_dead _ => rfl
  | remove _ _ _ _ => rfl

/-- The first file created on a new server can be written. -/
theorem write_first {start : ExtentServer} (hstart : Fresh start.im) {buf : List UInt8} (hfits : chfs.Fits buf) :
    ∃ es₁ es₂ reply, start.step (.create FileType.T_FILE.code) = .ok (.create .OK 2, es₁) ∧
      es₁.step (.put 2 buf) = .ok (reply, es₂) ∧
      OrdinaryRun start [(.put 2 buf, reply), (.create FileType.T_FILE.code, .create .OK 2)] es₂ ∧
      es₂.im.bm.failed_allocs = 0 ∧ 229 ≤ es₂.im.bm.free_count := by
  obtain ⟨im₁, hcreate, hcreated⟩ := create_fresh hstart .T_FILE
  have hstep₁ : start.step (.create FileType.T_FILE.code) = .ok (.create .OK 2, { start with im := im₁ }) := by
    rw [step, hcreate]
  have hrun₁ : OrdinaryRun start [(.create FileType.T_FILE.code, .create .OK 2)] { start with im := im₁ } :=
    .cons .nil ⟨.T_FILE, rfl⟩ hstep₁
  have hfail₁ : im₁.bm.failed_allocs = 0 := hcreated.failed_blocks.trans hstart.failed_blocks
  have hfree₁ : im₁.bm.free_count = 31732 := hcreated.free_count.trans hstart.free_count
  have hput : (ExtentOp.put 2 buf).Ordinary := ⟨by decide, hfits⟩
  obtain ⟨reply, es₂, hstep₂⟩ := step_returns (OrdinaryRun.represents hstart hrun₁ hfail₁) hput
  have hlen := fits_iff.mp hfits
  obtain ⟨hfail₂, hfree₂⟩ := put_with_room (hcreated.owned hstart.owned) (by omega)
    (show 229 ≤ im₁.bm.free_count by omega) hstep₂
  change im₁.bm.free_count ≤ _ at hfree₂
  exact ⟨_, es₂, reply, hstep₁, hstep₂, .cons hrun₁ hput hstep₂, hfail₂.trans hfail₁, by omega⟩

/-- A run in which no allocation of a block fails refines a finite map: the server
    answers each request, and answers it as the map does that the requests and
    answers before it describe. -/
theorem server_refines_map {garbage : UInt32} {env : Env} {start : ExtentServer}
    {history : List (ExtentOp × ExtentReply)} (hnew : ExtentServer.new garbage env = .ok start)
    (hrun : OrdinaryRun start history es) (hfail : es.im.bm.failed_allocs = 0) (hop : op.Ordinary) :
    ∃ reply es', es.step op = .ok (reply, es') ∧
      (es'.im.bm.failed_allocs = 0 → RefinesMap (extent_files history) es op reply es') := by
  have hrep := OrdinaryRun.represents (fresh_new hnew).1 hrun hfail
  obtain ⟨reply, es', hstep⟩ := step_returns hrep hop
  refine ⟨reply, es', hstep, ?_⟩
  intro hfail'
  have hdone := step_done hrep.owned hop.fits.short hstep
  have hrep' := hdone.represents hop.of_protocol hop.fits hrep (by omega)
  rw [← extent_files_cons] at hrep'
  refine ⟨hdone.answers hop hrep, ?_, ?_⟩
  · intro id buf hput hnone
    have hdead := hrep.dead _ hnone
    rcases hput with rfl | rfl
    · rw [step, put_dead hdead] at hstep
      cases hstep
      exact ⟨rfl, rfl⟩
    · rw [step, remove_dead hdead] at hstep
      cases hstep
      exact ⟨rfl, rfl⟩
  · intro other hother hne
    exact hrep.same_answers hrep' (extent_files_other hdone hop hother hne)

/-- A file that is written and overwritten. -/
theorem server_refines_map_put :
    ∃ start es₁ es₂ es₃ reply reply', ExtentServer.new 0 still = .ok start ∧
      start.step (.create FileType.T_FILE.code) = .ok (.create .OK 2, es₁) ∧
      es₁.step (.put 2 [104, 105]) = .ok (reply, es₂) ∧ es₂.step (.put 2 [33]) = .ok (reply', es₃) ∧
      RefinesMap (extent_files [(.put 2 [104, 105], reply), (.create FileType.T_FILE.code, .create .OK 2)]) es₂
        (.put 2 [33]) reply' es₃ := by
  obtain ⟨start, hnew⟩ := new_zero still
  have hfresh := (fresh_new hnew).1
  obtain ⟨es₁, es₂, reply, hstep₁, hstep₂, hrun, hfail, hfree⟩ :=
    write_first hfresh (show chfs.Fits [104, 105] by decide)
  have hput : (ExtentOp.put 2 [33]).Ordinary := ⟨by decide, by decide⟩
  obtain ⟨reply', es₃, hstep₃, hrefines⟩ := server_refines_map hnew hrun hfail hput
  have howned := (OrdinaryRun.represents hfresh hrun hfail).owned
  obtain ⟨hfail', _⟩ := put_with_room howned (by decide) hfree hstep₃
  exact ⟨start, es₁, es₂, es₃, reply, reply', hnew, hstep₁, hstep₂, hstep₃, hrefines (hfail'.trans hfail)⟩

end ExtentServer

end chfs
