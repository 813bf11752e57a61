import Chfs.Client.Refines

namespace chfs

open BlockManager InodeManager ExtentServer

namespace ExtentServer

variable {es es' : ExtentServer} {id : extentid_t} {buf : List UInt8} {ret : Status}

/-- A `put` does not move the cursor. -/
theorem put_cursor (howned : Owned es.im) (hlen : buf.length < 2 ^ 31) (hput : es.put id buf = .ok (ret, es')) :
    es'.im.last_alloced = es.im.last_alloced := by
  have hstep : es.step (.put id buf) = .ok (.put ret, es') := by
    rw [step, hput]
    rfl
  have hshort : (ExtentOp.put id buf).Short := hlen
  cases step_done howned hshort hstep with
  | put_dead _ => rfl
  | put _ _ _ hdone => exact hdone.last_alloced

/-- Neither does a `remove`, and it takes no block. -/
theorem remove_takes_nothing (howned : Owned es.im) (hremove : es.remove id = .ok (ret, es')) :
    es.im.bm.free_count ≤ es'.im.bm.free_count ∧ es'.im.last_alloced = es.im.last_alloced ∧
      es'.longest_put = es.longest_put := by
  have hstep : es.step (.remove id) = .ok (.remove ret, es') := by
    rw [step, hremove]
    rfl
  have hshort : (ExtentOp.remove id).Short := trivial
  cases step_done howned hshort hstep with
  | remove_dead _ => exact ⟨le_refl _, rfl, rfl⟩
  | remove _ _ _ hdone => exact ⟨Nat.le.intro hdone.free.symm, hdone.last_alloced, rfl⟩

end ExtentServer

namespace ChfsClient

variable {fs fs' : Nodes} {c c' start : ChfsClient} {op : ClientOp} {parent ino ino' id : UInt64} {name : CString}
  {type : FileType} {value : Option CString} {text : List UInt8} {entries : List Dirent} {m n : Nat}

/-- A creating call leaves the cursor at the inode it made. -/
theorem NodeDone.cursor (h : NodeDone c parent name type value ino .OK id c') (howned : Owned c.ec.es.im)
    (hlong : c'.ec.es.longest_put < 2 ^ 31) {inum : UInt32} (hfirst : FirstFree c.ec.es.im inum) :
    c'.ec.es.im.last_alloced = inum := by
  cases h with
  | @made _ _ c₁ es₂ es₃ es₄ es₅ buf hlookup hcreate hget hvalue hput =>
    have hreads := hlookup.only_reads howned
    have howned₁ := howned.of_unchanged hreads.unchanged
    obtain ⟨im', halloc, hcreated⟩ := (hreads.unchanged.firstFree hfirst).alloc_inode howned₁.last_alloced type.code
    rw [ExtentServer.create, halloc] at hcreate
    cases hcreate
    have howned₂ : Owned im' := hcreated.owned howned₁
    have hreads₂ : OnlyReads { c₁.ec.es with im := im' } es₃ := get_only_reads howned₂ hget
    have howned₃ := howned₂.of_unchanged hreads₂.unchanged
    have hlong : es₅.longest_put < 2 ^ 31 := hlong
    obtain ⟨hshort₄, hshort₅⟩ := ValuePut.longest hvalue hput
    have hcursor₄ : es₄.im.last_alloced = es₃.im.last_alloced ∧ Owned es₄.im := by
      cases hvalue with
      | none => exact ⟨rfl, howned₃⟩
      | some hput₄ =>
        have hlen : _ < 2 ^ 31 := hshort₄.trans_lt hlong
        exact ⟨put_cursor howned₃ hlen hput₄,
          (Reaches.of_put hput₄).owned howned₃ ((put_longest hput ▸ le_max_left _ _).trans_lt hlong)⟩
    have hcursor₅ := put_cursor hcursor₄.2 (hshort₅.trans_lt hlong) hput
    exact hcursor₅.trans (hcursor₄.1.trans (hreads₂.unchanged.last_alloced.trans hcreated.last_alloced))

/-- The client shows `fs` after no failure. The inodes behind `m` are free, and there are blocks for `n` more calls
    whatever they store. -/
structure Ready (fs : Nodes) (c : ChfsClient) (m n : Nat) : Prop where
  shows : Shows fs c
  clean : c.ec.es.Clean
  cursor : c.ec.es.im.last_alloced.toNat = m ∨
    m = 1 ∧ c.ec.es.im.last_alloced = 0 ∧ ∃ entries, fs 1 = some (.dir entries)
  dead : ∀ inum : UInt32, m < inum.toNat → fs inum = none
  room : 458 * n ≤ c.ec.es.im.bm.free_count

theorem pointers_for_le {bytes : List UInt8} (h : Fits bytes) : pointers_for (blocks_for bytes.length) ≤ 229 := by
  have hlen := fits_iff.mp h
  unfold pointers_for blocks_for
  split <;> omega

namespace Ready

theorem first {garbage : UInt32} {env : Env} {stack : UInt64} (hnew : ChfsClient.new garbage env stack = .ok start) :
    Ready .root start 1 69 := by
  have hfresh := fresh_client hnew
  refine ⟨shows_start hfresh, clean_new hnew, .inr ⟨rfl, hfresh.last_alloced, [], rfl⟩, ?_, ?_⟩
  · intro inum hinum
    refine if_neg ?_
    rintro rfl
    exact absurd hinum (by decide)
  · rw [hfresh.free_count]
    omega

/-- The next inode created is the one behind `m`. -/
theorem firstFree (h : Ready fs c m n) (hm : m < 1023) {inum : UInt32} (hinum : inum.toNat = m + 1) :
    FirstFree c.ec.es.im inum := by
  have hdead : c.ec.es.im.get_inode inum = none := by
    apply h.shows.represents.dead_iff.mpr
    rw [Nodes.files, h.dead inum (by omega)]
    rfl
  rcases h.cursor with hlast | ⟨rfl, hlast, entries, hroot⟩
  · refine ⟨hdead, 1, le_refl 1, by omega, ?_, by omega⟩
    apply UInt32.toNat_inj.mp
    rw [to_alloc_toNat (by omega) (by omega), if_neg (by omega)]
    omega
  · -- the search comes past the root
    refine ⟨hdead, 2, by omega, by omega, ?_, ?_⟩
    · rw [hlast]
      exact UInt32.toNat_inj.mp hinum.symm
    · intro j hlo hhi
      have hone : j = 1 := by omega
      have hto : to_alloc 0 1 = 1 := by decide
      rw [hlast, hone, hto]
      intro hnone
      have hfirst := h.shows.represents.dead_iff.mp hnone
      rw [Nodes.files, hroot] at hfirst
      cases hfirst

/-- A creating call with a new name makes the next inode. -/
theorem make (h : Ready fs c m (n + 1)) (hcreates : Creates op parent name type value) (hname : slash ∉ name.bytes)
    (hdir : fs (inum_of parent) = some (.dir entries)) (hunbound : ∀ e ∈ entries, e.name ≠ name.bytes) (hm : m < 1023)
    (hid : id.toNat = m + 1) (hfits : (dir_text entries).length + name.bytes.length + 22 ≤ 116736)
    (hvalue : Fits (value_bytes value)) :
    ∃ c', c.step op = .ok (.node .OK id, c') ∧
      Ready (fs.bind (inum_of parent) entries { inum := id, name := name.bytes } (.made type value)) c' (m + 1) n := by
  obtain ⟨inum, hinum⟩ : ∃ inum : UInt32, inum.toNat = m + 1 :=
    ⟨UInt32.ofNat (m + 1), by rw [UInt32.toNat_ofNat']; omega⟩
  obtain rfl : id = inum.toUInt64 := UInt64.toNat_inj.mp (by rw [hid, UInt32.toNat_toUInt64, hinum])
  have hfirst := h.firstFree hm hinum
  have hlists := h.shows.lists hdir
  have hpair := length_inum_name_pair_le inum.toUInt64 name.bytes
  have hentry : Fits (dir_text entries ++ inum_name_pair inum.toUInt64 name.bytes) := by
    rw [fits_iff, List.length_append]
    omega
  have hblocks := pointers_for_le hentry
  have hvblocks := pointers_for_le hvalue
  have hvlen := fits_iff.mp hvalue
  have hfind : entries.find? (fun elem => elem.name = name.bytes) = none := by
    rw [List.find?_eq_none]
    intro e he
    simpa using hunbound e he
  obtain ⟨id, c', hmake, hmade⟩ := make_node_spec hlists type value 0 hfind (by omega) (by omega)
  have hroom := h.room
  obtain ⟨hok, rfl⟩ := hmade.untroubled inum hfirst ⟨by omega, by omega⟩
  have hclean : c'.ec.es.Clean := by
    obtain ⟨hfailed, hinodes, hlongest⟩ := clean_iff.mp h.clean
    exact clean_iff.mpr ⟨hok.1.trans hfailed, hok.2.trans hinodes,
      hmade.longest.le.trans (max_le hlongest (max_le hvalue hentry))⟩
  have hinum_of : inum_of inum.toUInt64 = inum := inum_of_toUInt64 (by omega)
  obtain ⟨made, hid, _, _, _, hrep⟩ := hmade.stored hok hentry hvalue
  obtain rfl : made = inum := (UInt32.toUInt64_inj.mp hid).symm
  have hfresh : fs (inum_of made.toUInt64) = none := h.dead _ (by rw [hinum_of]; omega)
  have hstep : fs.Step op (.node .OK made.toUInt64) _ := .made hcreates hdir hunbound hfresh
  have hnamed : op.Named := by
    cases hcreates <;> exact hname
  have hparent : (inum_of parent).toNat ≤ m := by
    by_contra hlarge
    rw [h.dead _ (by omega)] at hdir
    cases hdir
  refine ⟨c', creates_step hcreates hmake, ⟨?_, hstep.names hnamed h.shows.names⟩, hclean, .inl ?_, ?_, ?_⟩
  · rw [files_bind hcreates hinum_of rfl]
    exact representsOn_univ.mp (hrep.mono fun _ _ => Set.mem_insert_of_mem _ trivial)
  · rw [NodeDone.cursor (make_node_done hmake) h.shows.represents.owned hclean.longest_lt hfirst, hinum]
  · intro other hother
    rw [Nodes.bind, hinum_of, Function.update_of_ne (by rintro rfl; omega),
      Function.update_of_ne (by rintro rfl; omega)]
    exact h.dead other (by omega)
  · have hfree := hmade.free
    omega

theorem of_reads (h : Ready fs c m (n + 1)) (hreads : OnlyReads c.ec.es c'.ec.es) : Ready fs c' m n where
  shows := h.shows.of_reads hreads
  clean := by
    rw [Clean, hreads.tally]
    exact h.clean
  cursor := by
    rw [hreads.unchanged.last_alloced]
    exact h.cursor
  dead := h.dead
  room := by
    have hroom := h.room
    rw [hreads.unchanged.free_count]
    omega

/-- What is put into a file is stored. -/
theorem put (h : Ready fs c m (n + 1)) {es₁ : ExtentServer} (hreads : OnlyReads c.ec.es es₁)
    (hfile : fs (inum_of ino) = some (.file text)) {text' : List UInt8} (hfits : Fits text') :
    ∃ es₂, es₁.put ino text' = .ok (.OK, es₂) ∧
      Ready (Function.update fs (inum_of ino) (some (.file text'))) (c.with_server es₂) m n := by
  have hlen := fits_iff.mp hfits
  have hmem : inum_of ino ∈ Set.univ := trivial
  have hstored := Nodes.files_file.mpr hfile
  have hrep := hreads.represents h.shows.represents_on
  obtain ⟨es₂, hput, hdone⟩ := put_spec hrep hmem (show text'.length < 2 ^ 31 by omega)
  have hroom := h.room
  have hfree := hreads.unchanged.free_count
  have hcursor := put_cursor hrep.owned (by omega) hput
  have hblocks := pointers_for_le hfits
  obtain ⟨hfailed, _⟩ := hdone.room (hrep.stored _ hmem _ _ hstored).ne_none
  have htarget : target text'.length ≤ pointers_for (blocks_for text'.length) := Nat.min_le_right _ _
  have hnone : es₂.im.bm.failed_allocs = es₁.im.bm.failed_allocs := by omega
  have hlive : (inum_of ino).toNat ≤ m := by
    by_contra hlarge
    rw [h.dead _ (by omega)] at hfile
    cases hfile
  refine ⟨es₂, hput, h.shows.write hfile (hdone.stored _ _ hstored hnone hfits), ?_, ?_, ?_, ?_⟩
  · obtain ⟨hbefore, hinodes, hlongest⟩ := clean_iff.mp h.clean
    refine clean_iff.mpr ⟨hnone.trans (hreads.unchanged.failed_blocks.trans hbefore),
      hdone.inodes.trans (hreads.unchanged.failed_inodes.trans hinodes), hdone.longest.le.trans (max_le ?_ hfits)⟩
    rwa [hreads.longest]
  · have hlast : es₂.im.last_alloced = c.ec.es.im.last_alloced := hcursor.trans hreads.unchanged.last_alloced
    have hat := h.cursor
    rw [← hlast] at hat
    refine hat.imp_right ?_
    rintro ⟨hone, hzero, list, hroot⟩
    have hne : 1 ≠ inum_of ino := by
      intro hsame
      rw [← hsame, hroot] at hfile
      cases hfile
    exact ⟨hone, hzero, list, by rw [Function.update_of_ne hne, hroot]⟩
  · intro inum hinum
    rw [Function.update_of_ne (by rintro rfl; omega)]
    exact h.dead inum hinum
  · have hleft := hdone.free
    change _ ≤ es₂.im.bm.free_count
    omega

/-- A file can be written, -/
theorem write (h : Ready fs c m (n + 1)) {size : UInt64} {off : Int64} {data : Mem}
    (hfile : fs (inum_of ino) = some (.file text))
    (hoff : 0 ≤ off.toInt) (hfits : Fits (splice text off.toInt.toNat (data.bytes size.toNat))) :
    ∃ c', c.step (.write ino size off data) = .ok (.write .OK size, c') ∧
      Ready (Function.update fs (inum_of ino)
        (some (.file (splice text off.toInt.toNat (data.bytes size.toNat))))) c' m n := by
  have hmem : inum_of ino ∈ Set.univ := trivial
  obtain ⟨es₁, hget, hreads⟩ := get_spec h.shows.represents_on hmem
  rw [Files.content_eq (Nodes.files_file.mpr hfile)] at hget
  obtain ⟨es₂, hput, h'⟩ := h.put hreads hfile hfits
  refine ⟨_, ?_, h'⟩
  rw [step, write_of_get hget (written_eq_splice text size data hoff) hput]
  rfl

/-- or cut off, -/
theorem setattr (h : Ready fs c m (n + 1)) (hfile : fs (inum_of ino) = some (.file text)) (size : UInt64) :
    ∃ c', c.step (.setattr ino size) = .ok (.setattr .OK, c') ∧
      Ready (Function.update fs (inum_of ino) (some (.file (text.take size.toNat)))) c' m n := by
  have hmem : inum_of ino ∈ Set.univ := trivial
  have hstored := Nodes.files_file.mpr hfile
  obtain ⟨es₁, hget, hreads⟩ := get_spec h.shows.represents_on hmem
  rw [Files.content_eq hstored] at hget
  by_cases hsize : text.length = size.toNat
  · refine ⟨c.with_server es₁, ?_, ?_⟩
    · rw [step, setattr_of_get hget, if_pos hsize]
      rfl
    · rw [List.take_of_length_le hsize.le, ← hfile, Function.update_eq_self]
      exact h.of_reads hreads
  · have hle : (text.take size.toNat).length ≤ text.length := List.length_take_le' _ _
    obtain ⟨es₂, hput, h'⟩ := h.put hreads hfile (hle.trans (h.shows.represents.stored _ _ _ hstored).fits)
    refine ⟨_, ?_, h'⟩
    rw [step, setattr_of_get hget, if_neg hsize, hput]
    rfl

/-- or unlinked. -/
theorem unlink (h : Ready fs c m (n + 1)) (hname : slash ∉ name.bytes)
    (hdir : fs (inum_of parent) = some (.dir entries))
    {e : Dirent} (hfind : entries.find? (fun cur => cur.name = name.bytes) = some e)
    (hfile : fs (inum_of e.inum) = some (.file text)) :
    ∃ c', c.step (.unlink parent name) = .ok (.unlink .OK, c') ∧
      Ready (fs.unbind (inum_of parent) entries e) c' m n := by
  have hlists := h.shows.lists hdir
  obtain ⟨es', hunlink, hok, _, hrep⟩ := unlink_spec hlists hfind trivial (Nodes.files_file.mpr hfile)
  obtain ⟨hmem, hentry⟩ := of_find_some hfind
  have hstep : fs.Step (.unlink parent name) (.unlink .OK) _ := .unlinked hdir hmem hentry hfile
  obtain ⟨_, es₁, es₂, es₃, _, hreads₁, _, hremove, hreads₂, hlists₃, hput⟩ := unlink_writes hlists hunlink
  have hle : (dir_text (entries.filter fun cur => cur.name ≠ name.bytes)).length ≤ (dir_text entries).length :=
    length_dir_text_le List.filter_sublist
  have hfits : Fits (dir_text (entries.filter fun cur => cur.name ≠ name.bytes)) := hle.trans hlists.stores.fits
  have hlen := fits_iff.mp hfits
  have hdone := put_on hlists₃.represents hlists₃.mem (by omega) hput
  have hcursor := put_cursor hlists₃.represents.owned (by omega) hput
  obtain ⟨hmore, hkept, hlongest₂⟩ := remove_takes_nothing (hreads₁.represents hlists.represents).owned hremove
  have hlive : (inum_of parent).toNat ≤ m := by
    by_contra hlarge
    rw [h.dead _ (by omega)] at hdir
    cases hdir
  refine ⟨_, unlink_step.mpr hunlink, ⟨?_, hstep.names hname h.shows.names⟩, ?_, ?_, ?_, ?_⟩
  · rw [Nodes.unbind, Nodes.files_update, Nodes.files_update, hentry]
    exact representsOn_univ.mp hrep
  · obtain ⟨hfailed, hinodes, hlongest⟩ := clean_iff.mp h.clean
    refine clean_iff.mpr ⟨hok.1.trans hfailed, hok.2.trans hinodes, hdone.longest.le.trans (max_le ?_ hfits)⟩
    change es₃.longest_put ≤ _
    rwa [hreads₂.longest, hlongest₂, hreads₁.longest]
  · have hlast : es'.im.last_alloced = c.ec.es.im.last_alloced :=
      hcursor.trans (hreads₂.unchanged.last_alloced.trans (hkept.trans hreads₁.unchanged.last_alloced))
    have hat := h.cursor
    rw [← hlast] at hat
    refine hat.imp_right ?_
    rintro ⟨hone, hzero, list, hroot⟩
    refine ⟨hone, hzero, ?_⟩
    rw [Nodes.unbind]
    by_cases heq : 1 = inum_of parent
    · exact ⟨_, by rw [heq, Function.update_self]⟩
    · have hne : 1 ≠ inum_of e.inum := by
        intro hsame
        rw [← hsame, hroot] at hfile
        cases hfile
      exact ⟨list, by rw [Function.update_of_ne heq, Function.update_of_ne hne, hroot]⟩
  · intro inum hinum
    rw [Nodes.unbind, Function.update_of_ne (by rintro rfl; omega), Function.update_apply]
    split
    · rfl
    · exact h.dead inum hinum
  · have hroom := h.room
    have hblocks := pointers_for_le hfits
    have hleft := hdone.free
    have hfree₁ := hreads₁.unchanged.free_count
    have hfree₃ := hreads₂.unchanged.free_count
    change es₃.im.bm.free_count ≤ es'.im.bm.free_count + _ at hleft
    change _ ≤ es'.im.bm.free_count
    omega

end Ready

/-- The name "b". -/
def name_b : CString := ⟨[98], by decide⟩

/-- A directory "a", a file "a" in it and a file "b" beside it. -/
def growth : List (ClientOp × ClientReply) :=
  [(.create 1 name_b, .node .OK 4), (.create 2 name_a, .node .OK 3), (.mkdir 1 name_a, .node .OK 2)]

theorem run_growth {garbage : UInt32} {env : Env} {stack : UInt64}
    (hnew : ChfsClient.new garbage env stack = .ok start) :
    ∃ fs c, Trace step Ordinary start growth c ∧ Ready fs c 4 66 ∧
      fs (inum_of 1) = some (.dir [{ inum := 2, name := name_a.bytes }, { inum := 4, name := name_b.bytes }]) ∧
      fs (inum_of 2) = some (.dir [{ inum := 3, name := name_a.bytes }]) ∧ fs (inum_of 3) = some (.file []) ∧
        fs (inum_of 4) = some (.file []) := by
  have hb : slash ∉ name_b.bytes := by decide
  obtain ⟨c₁, hstep₁, h₁⟩ : ∃ c₁, start.step (.mkdir 1 name_a) = .ok (.node .OK 2, c₁) ∧ Ready _ c₁ 2 68 :=
    (Ready.first hnew).make (.mkdir not_dots_name_a) slash_not_mem_name_a rfl (by simp) (by omega) rfl (by decide)
      fits_value_none
  obtain ⟨c₂, hstep₂, h₂⟩ : ∃ c₂, c₁.step (.create 2 name_a) = .ok (.node .OK 3, c₂) ∧ Ready _ c₂ 3 67 :=
    h₁.make .create slash_not_mem_name_a rfl (by simp) (by omega) rfl (by decide) fits_value_none
  obtain ⟨c₃, hstep₃, h₃⟩ : ∃ c₃, c₂.step (.create 1 name_b) = .ok (.node .OK 4, c₃) ∧ Ready _ c₃ 4 66 :=
    h₂.make .create hb rfl (by decide) (by omega) rfl (by decide) fits_value_none
  exact ⟨_, c₃, .cons (.cons (.cons .nil ⟨slash_not_mem_name_a, trivial⟩ hstep₁) ⟨slash_not_mem_name_a, trivial⟩ hstep₂)
    ⟨hb, trivial⟩ hstep₃, h₃, rfl, rfl, rfl, rfl⟩

/-- Then the file in "a" is written behind its end and in its middle, and "b" is unlinked. -/
def tour : List (ClientOp × ClientReply) :=
  (.unlink 1 name_b, .unlink .OK) :: (.write 3 1 1 (Mem.ofBytes [120] Mem.zero), .write .OK 1) ::
    (.write 3 2 3 (Mem.ofBytes [104, 105] Mem.zero), .write .OK 2) :: growth

theorem run_tour {garbage : UInt32} {env : Env} {stack : UInt64} (hnew : ChfsClient.new garbage env stack = .ok start) :
    ∃ fs c, Trace step Ordinary start tour c ∧ Ready fs c 4 63 ∧
      fs (inum_of 1) = some (.dir [{ inum := 2, name := name_a.bytes }]) ∧
        fs (inum_of 2) = some (.dir [{ inum := 3, name := name_a.bytes }]) ∧
      fs (inum_of 3) = some (.file [0, 120, 0, 104, 105]) := by
  have hb : slash ∉ name_b.bytes := by decide
  have hoff₃ : (0 : Int) ≤ (3 : Int64).toInt := by decide
  have hoff₁ : (0 : Int) ≤ (1 : Int64).toInt := by decide
  obtain ⟨fs, c, hrun, h, hroot, hdir, hfile, hother⟩ := run_growth hnew
  obtain ⟨c₁, hstep₁, h₁⟩ : ∃ c₁, c.step (.write 3 2 3 (Mem.ofBytes [104, 105] Mem.zero)) = .ok (.write .OK 2, c₁) ∧
      Ready (Function.update fs (inum_of 3) (some (.file [0, 0, 0, 104, 105]))) c₁ 4 65 :=
        h.write hfile hoff₃ (by decide)
  obtain ⟨c₂, hstep₂, h₂⟩ : ∃ c₂, c₁.step (.write 3 1 1 (Mem.ofBytes [120] Mem.zero)) = .ok (.write .OK 1, c₂) ∧
      Ready (Function.update (Function.update fs (inum_of 3) (some (.file [0, 0, 0, 104, 105])))
        (inum_of 3) (some (.file [0, 120, 0, 104, 105]))) c₂ 4 64 :=
    h₁.write (Function.update_self _ _ _) hoff₁ (by decide)
  rw [Function.update_idem] at h₂
  obtain ⟨c₃, hstep₃, h₃⟩ : ∃ c₃, c₂.step (.unlink 1 name_b) = .ok (.unlink .OK, c₃) ∧ Ready _ c₃ 4 63 :=
    h₂.unlink hb ((Function.update_of_ne (by decide) _ _).trans hroot) rfl
      ((Function.update_of_ne (by decide) _ _).trans hother)
  have hisfile : c.isfile 3 = true := h.shows.isfile_iff.mpr ⟨_, hfile⟩
  have hisfile₁ : c₁.isfile 3 = true := h₁.shows.isfile_iff.mpr ⟨_, Function.update_self _ _ _⟩
  refine ⟨_, c₃, .cons (.cons (.cons hrun ⟨trivial, hisfile⟩ hstep₁) ⟨trivial, hisfile₁⟩ hstep₂) ⟨hb, trivial⟩ hstep₃,
    h₃, ?_, ?_, ?_⟩
  · exact Function.update_self _ _ _
  · rw [Nodes.unbind, Function.update_of_ne (by decide), Function.update_of_ne (by decide),
      Function.update_of_ne (by decide), hdir]
  · rw [Nodes.unbind, Function.update_of_ne (by decide), Function.update_of_ne (by decide), Function.update_self]

end ChfsClient

end chfs
