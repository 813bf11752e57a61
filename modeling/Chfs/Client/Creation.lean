import Chfs.Client.Spec

namespace chfs

open BlockManager InodeManager ExtentServer

namespace ChfsClient

variable {known : Set UInt32} {c c' c₁ : ChfsClient} {es es' es₂ : ExtentServer} {files : Files}
  {parent ino ino' id : UInt64}
  {name : CString} {type : FileType} {value : Option CString} {text : List UInt8} {ret : Status}
  {list : List Dirent}

/-- What a new inode holds. -/
def value_bytes (value : Option CString) : List UInt8 := (value.map CString.bytes).getD []

/-- The text of a directory with one more entry. -/
theorem dir_text_new (list : List Dirent) (id : UInt64) (bytes : List UInt8) :
    dir_text list ++ inum_name_pair id bytes = dir_text (list ++ [({ inum := id, name := bytes } : Dirent)]) := by
  simp [dir_text]

/-- Where nothing is bound to a name, it finds its new entry. -/
theorem find_new (hfind : list.find? (fun elem => elem.name = name.bytes) = none) (id : UInt64) :
    (list ++ [({ inum := id, name := name.bytes } : Dirent)]).find? (fun elem => elem.name = name.bytes) =
      some { inum := id, name := name.bytes } := by
  rw [List.find?_append, hfind, List.find?_cons]
  simp

/-- The files after a creation. -/
def node_files (files : Files) (parent : UInt64) (text : List UInt8) (inum : UInt32) (name : CString)
    (type : FileType) (value : Option CString) : Files :=
  Function.update (Function.update files inum (some (type, value_bytes value))) (inum_of parent)
    (some (.T_DIR, text ++ inum_name_pair inum.toUInt64 name.bytes))

/-- There are blocks for a new inode's value and for the new content of its parent. -/
def NodeRoom (im : InodeManager) (parent : UInt64) (text : List UInt8) (inum : UInt32) (name : CString)
    (value : Option CString) : Prop :=
  pointers_for (blocks_for (value_bytes value).length) ≤ im.bm.free_count ∧
    pointers_for (blocks_for (value_bytes value).length) +
      pointers_for (blocks_for (text ++ inum_name_pair inum.toUInt64 name.bytes).length) ≤
        held_by im (inum_of parent) + im.bm.free_count

/-- What a creating call that finds the name unbound does. -/
structure NodeMade (known : Set UInt32) (files : Files) (c : ChfsClient) (parent : UInt64) (text : List UInt8)
    (name : CString) (type : FileType) (value : Option CString) (id : UInt64) (c' : ChfsClient) : Prop where
  tally : c.ec.es.tally ≤ c'.ec.es.tally
  untroubled : ∀ inum, FirstFree c.ec.es.im inum → NodeRoom c.ec.es.im parent text inum name value →
    c.ec.es.Untroubled c'.ec.es ∧ id = inum.toUInt64
  longest : c'.ec.es.longest_put =
    max c.ec.es.longest_put (max (value_bytes value).length (text ++ inum_name_pair id name.bytes).length)
  free : c.ec.es.im.bm.free_count ≤ c'.ec.es.im.bm.free_count + (pointers_for (blocks_for (value_bytes value).length) +
    pointers_for (blocks_for (text ++ inum_name_pair id name.bytes).length))
  stored : c.ec.es.Untroubled c'.ec.es → Fits (text ++ inum_name_pair id name.bytes) → Fits (value_bytes value) →
    ∃ inum : UInt32, id = inum.toUInt64 ∧ 1 ≤ inum.toNat ∧ inum.toNat ≤ 1024 ∧ c.ec.es.im.get_inode inum = none ∧
      RepresentsOn (insert inum known) c'.ec.es.im (node_files files parent text inum name type value)

theorem length_inum_name_pair_le (id : UInt64) (name : List UInt8) :
    (inum_name_pair id name).length ≤ name.length + 22 := by
  have hlt := id.toNat_lt
  have hprint := Decimal.length_print_le (n := id.toNat) (k := 20) (by omega) (by omega)
  simp only [inum_name_pair, filename, List.length_append, List.length_singleton]
  omega

/-- What the `put` of a value into the new inode `inum` does. -/
structure ValueDone (known : Set UInt32) (files : Files) (es : ExtentServer) (inum : UInt32) (type : FileType)
    (value : Option CString) (es' : ExtentServer) : Prop where
  tally : es.tally ≤ es'.tally
  longest : es'.longest_put = max es.longest_put (value_bytes value).length
  free : es.im.bm.free_count ≤ es'.im.bm.free_count + pointers_for (blocks_for (value_bytes value).length)
  spares : Spares es.im es'.im inum
  others : RepresentsOn (known \ {inum}) es'.im files
  room : held_by es.im inum = 0 → pointers_for (blocks_for (value_bytes value).length) ≤ es.im.bm.free_count →
    es.Untroubled es' ∧
      es.im.bm.free_count ≤ es'.im.bm.free_count + pointers_for (blocks_for (value_bytes value).length)
  stored : es.Untroubled es' → Fits (value_bytes value) →
    RepresentsOn known es'.im (Function.update files inum (some (type, value_bytes value)))

theorem value_put_spec {inum : UInt32} (h : RepresentsOn known es.im files) (hinum : inum.toNat ≤ 1024)
    (hmem : inum ∈ known) (hfile : files inum = some (type, [])) (hlen : (value_bytes value).length < 2 ^ 31) :
    ∃ es', ValuePut es inum.toUInt64 value es' ∧ ValueDone known files es inum type value es' := by
  cases value with
  | none =>
    have hlongest : es.longest_put = max es.longest_put (value_bytes none).length := (max_eq_left (Nat.zero_le _)).symm
    refine ⟨es, .none, le_refl _, hlongest, Nat.le_add_right _ _,
      ⟨fun _ _ => rfl, fun _ _ _ hlive j hj => ⟨h.owned.in_use hlive hj, rfl⟩⟩,
      h.mono Set.sdiff_subset, fun _ _ => ⟨⟨rfl, rfl⟩, Nat.le_add_right _ _⟩, fun _ _ => ?_⟩
    have hvalue : some (type, value_bytes none) = files inum := hfile.symm
    rw [hvalue, Function.update_eq_self]
    exact h
  | some v =>
    have hid : inum_of inum.toUInt64 = inum := inum_of_toUInt64 (by omega)
    have hmem' : inum_of inum.toUInt64 ∈ known := by rwa [hid]
    obtain ⟨es', hrun, hdone⟩ := put_spec h hmem' hlen
    have hspares := hdone.spares
    have hothers := hdone.others
    have hroom := hdone.room
    have hstored := hdone.stored
    rw [hid] at hspares hothers hroom hstored
    refine ⟨es', .some hrun, hdone.tally, hdone.longest, hdone.free, hspares, hothers, ?_,
      fun hok hfits => hstored type [] hfile hok.1 hfits⟩
    intro hheld hneed
    have hlive : es.im.get_inode inum ≠ none := (h.stored inum hmem type [] hfile).ne_none
    obtain ⟨hfailed, hfree⟩ := hroom hlive
    rw [hheld] at hfailed hfree
    unfold target filled at *
    exact ⟨⟨by omega, hdone.inodes⟩, by omega⟩

/-- Nothing is ever stored in inode 0. -/
theorem value_put_zero (h : RepresentsOn known es.im files) (value : Option CString) :
    ∃ es', ValuePut es 0 value es' ∧ es.tally ≤ es'.tally ∧
      es'.longest_put = max es.longest_put (value_bytes value).length ∧
      es'.im.bm.free_count = es.im.bm.free_count ∧ RepresentsOn known es'.im files := by
  cases value with
  | none => exact ⟨es, .none, le_refl _, (max_eq_left (Nat.zero_le _)).symm, rfl, h⟩
  | some v =>
    have hzero : es.im.get_inode (inum_of 0) = none := h.owned.zero_dead
    refine ⟨_, .some (put_dead hzero v.bytes), ?_, rfl, rfl, h.of_unchanged (unchanged_env _ _)⟩
    simp [ExtentServer.tally]

/-- With the inode created, the rest of a creating call returns. -/
theorem entry_spec {inum : UInt32} (h : RepresentsOn known es.im files) (hparent : inum_of parent ∈ known)
    (hfile : files (inum_of parent) = some (.T_DIR, text)) (hcreated : CreateDone known files es type inum es₂)
    (hname : (text ++ inum_name_pair inum.toUInt64 name.bytes).length < 2 ^ 31)
    (hvalue : (value_bytes value).length < 2 ^ 31) :
    ∃ es₃ es₄ es₅, es₂.get parent = .ok (.OK, text, es₃) ∧ ValuePut es₃ inum.toUInt64 value es₄ ∧
      es₄.put parent (text ++ inum_name_pair inum.toUInt64 name.bytes) = .ok (.OK, es₅) ∧ es.tally ≤ es₅.tally ∧
      es₅.longest_put = max es.longest_put
        (max (value_bytes value).length (text ++ inum_name_pair inum.toUInt64 name.bytes).length) ∧
      es.im.bm.free_count ≤ es₅.im.bm.free_count + (pointers_for (blocks_for (value_bytes value).length) +
        pointers_for (blocks_for (text ++ inum_name_pair inum.toUInt64 name.bytes).length)) ∧
      (NodeRoom es.im parent text inum name value → es.Untroubled es₅) ∧
      (es.Untroubled es₅ → Fits (text ++ inum_name_pair inum.toUInt64 name.bytes) → Fits (value_bytes value) →
        RepresentsOn (insert inum known) es₅.im (node_files files parent text inum name type value)) := by
  have h₂ := hcreated.represents
  have hne : inum_of parent ≠ inum := by
    rintro rfl
    exact (h.stored _ hparent _ _ hfile).ne_none hcreated.dead
  have hfile₂ : Function.update files inum (some (type, [])) (inum_of parent) = some (.T_DIR, text) := by
    rw [Function.update_of_ne hne, hfile]
  have hparent₂ := Set.mem_insert_of_mem inum hparent
  obtain ⟨es₃, hget, hreads⟩ := get_spec h₂ hparent₂
  rw [Files.content_eq hfile₂] at hget
  have h₃ := hreads.represents h₂
  obtain ⟨es₄, hput₄, hdone₄⟩ :=
    value_put_spec h₃ hcreated.bounds.2 (Set.mem_insert _ _) (Function.update_self ..) hvalue
  have hkept : inum_of parent ∈ insert inum known \ {inum} := ⟨hparent₂, hne⟩
  obtain ⟨es₅, hput₅, hdone₅⟩ := put_spec hdone₄.others hkept hname
  have hsame : es₃.tally = es.tally := hreads.tally.trans hcreated.tally
  have hle : es.tally ≤ es₅.tally := hsame.symm.le.trans (hdone₄.tally.trans hdone₅.tally)
  have hlongest : es₅.longest_put = max es.longest_put
      (max (value_bytes value).length (text ++ inum_name_pair inum.toUInt64 name.bytes).length) := by
    have hbefore : es₃.longest_put = es.longest_put := congrArg (fun t => t.2.2) hsame
    rw [hdone₅.longest, hdone₄.longest, hbefore, max_assoc]
  have hfree₃ : es₃.im.bm.free_count = es.im.bm.free_count := hreads.unchanged.free_count.trans hcreated.free
  have hfree : es.im.bm.free_count ≤ es₅.im.bm.free_count + (pointers_for (blocks_for (value_bytes value).length) +
      pointers_for (blocks_for (text ++ inum_name_pair inum.toUInt64 name.bytes).length)) := by
    have hfree₄ := hdone₄.free
    have hfree₅ := hdone₅.free
    omega
  refine ⟨es₃, es₄, es₅, hget, hput₄, hput₅, hle, hlongest, hfree, ?_, ?_⟩
  · rintro ⟨hvalue, hboth⟩
    -- what the parent holds, and how much is free, when its turn comes
    have hheld₃ : held_by es₃.im inum = 0 := (hreads.unchanged.held_by h₂.owned inum).trans hcreated.held
    have hheld₄ : held_by es₄.im (inum_of parent) = held_by es.im (inum_of parent) := by
      rw [hdone₄.spares.held_by hne, hreads.unchanged.held_by h₂.owned, hcreated.spares.held_by hne]
    obtain ⟨hok₄, hfree₄⟩ := hdone₄.room hheld₃ (by omega)
    have hlive : es₄.im.get_inode (inum_of parent) ≠ none := (hdone₄.others.stored _ hkept _ _ hfile₂).ne_none
    obtain ⟨hfailed, _⟩ := hdone₅.room hlive
    rw [hheld₄] at hfailed
    have htarget : target (text ++ inum_name_pair inum.toUInt64 name.bytes).length ≤
        pointers_for (blocks_for (text ++ inum_name_pair inum.toUInt64 name.bytes).length) := Nat.min_le_right _ _
    have hinodes₅ := hdone₅.inodes
    simp only [ExtentServer.tally, Prod.mk.injEq] at hsame
    obtain ⟨hblocks₄, hinodes₄⟩ := hok₄
    exact ⟨by omega, by omega⟩
  · intro hok hfits hvfits
    obtain ⟨_, hok⟩ := hok.between hsame.symm.le (hdone₄.tally.trans hdone₅.tally)
    obtain ⟨hok₄, hok₅⟩ := hok.between hdone₄.tally hdone₅.tally
    have hdone := put_on (hdone₄.stored hok₄ hvfits) hparent₂ hname hput₅
    have hstored := hdone.stored .T_DIR text (by rw [Function.update_idem, Function.update_of_ne hne, hfile])
      hok₅.1 hfits
    rwa [Function.update_idem] at hstored

/-- A creating call that finds the name unbound returns, and if nothing goes wrong the
    new inode and the entry are there. -/
theorem make_node_spec (h : Lists known files c parent text list) (type : FileType) (value : Option CString)
    (ino : UInt64) (hfind : list.find? (fun elem => elem.name = name.bytes) = none) (hname : name.bytes.length ≤ 116736)
    (hvalue : (value_bytes value).length < 2 ^ 31) :
    ∃ id c', c.make_node parent name type value ino = .ok (.OK, id, c') ∧
      NodeMade known files c parent text name type value id c' := by
  obtain ⟨es₁, hlookup, hreads⟩ := h.lookup_none false ino hfind
  have h₁ := hreads.represents h.represents
  have htext := fits_iff.mp h.stores.fits
  have hlen : ∀ id, (text ++ inum_name_pair id name.bytes).length < 2 ^ 31 := by
    intro id
    have := length_inum_name_pair_le id name.bytes
    rw [List.length_append]
    omega
  rcases create_spec h₁ type with ⟨inum, es₂, hcreate, hcreated⟩ |
    ⟨es₂, hcreate, h₂, hfailed, htally₂, hlongest₂, hfree₂⟩
  · obtain ⟨es₃, es₄, es₅, hget, hvalue, hput, hle, hlongest, hfree, hroom, hstored⟩ :=
      entry_spec h₁ h.mem h.file hcreated (hlen inum.toUInt64) hvalue
    have hsame := hreads.tally.symm.le
    refine ⟨_, _, make_node_not_found hlookup hcreate hget hvalue hput, hsame.trans hle, ?_, ?_, ?_, ?_⟩
    · intro first hfirst hspace
      obtain ⟨es₂', hcreate', _⟩ := create_first h₁ type (hreads.unchanged.firstFree hfirst)
      have hid : first.toUInt64 = inum.toUInt64 := congrArg (fun r => r.2.1) (hcreate'.symm.trans hcreate)
      have hsame : first = inum := UInt32.toUInt64_inj.mp hid
      subst hsame
      have hok : es₁.Untroubled es₅ := by
        refine hroom ?_
        rwa [NodeRoom, hreads.unchanged.free_count, hreads.unchanged.held_by h.represents.owned]
      exact ⟨⟨hok.1.trans hreads.unchanged.failed_blocks, hok.2.trans hreads.unchanged.failed_inodes⟩, rfl⟩
    · rwa [hreads.longest] at hlongest
    · rwa [hreads.unchanged.free_count] at hfree
    · intro hok hfits hvfits
      obtain ⟨_, hok⟩ := hok.between hsame hle
      exact ⟨inum, rfl, hcreated.bounds.1, hcreated.bounds.2, hreads.unchanged.dead.mp hcreated.dead,
        hstored hok hfits hvfits⟩
  · obtain ⟨es₃, hget, hreads₃⟩ := get_spec h₂ h.mem
    rw [Files.content_eq h.file] at hget
    obtain ⟨es₄, hvalue, htally₄, hlongest₄, hfree₄, h₄⟩ := value_put_zero (hreads₃.represents h₂) value
    obtain ⟨es₅, hput, hdone⟩ := put_spec h₄ h.mem (hlen 0)
    have hle : c.ec.es.tally ≤ es₂.tally := hreads.tally.symm.le.trans htally₂
    have hle' : es₂.tally ≤ es₅.tally := hreads₃.tally.symm.le.trans (htally₄.trans hdone.tally)
    refine ⟨_, _, make_node_not_found hlookup hcreate hget hvalue hput, hle.trans hle', ?_, ?_, ?_, ?_⟩
    · intro first hfirst _
      obtain ⟨es₂', hcreate', hcreated⟩ := create_first h₁ type (hreads.unchanged.firstFree hfirst)
      have hzero : first.toUInt64 = 0 := congrArg (fun r => r.2.1) (hcreate'.symm.trans hcreate)
      have hval := congrArg UInt64.toNat hzero
      rw [UInt32.toNat_toUInt64] at hval
      have hpos := hcreated.bounds.1
      exact absurd hval (Nat.ne_of_gt hpos)
    · have hbefore : es₃.longest_put = c.ec.es.longest_put :=
        hreads₃.longest.trans (hlongest₂.trans hreads.longest)
      change es₅.longest_put = _
      rw [hdone.longest, hlongest₄, hbefore, max_assoc]
    · have hfree := hdone.free
      have hfree₃ := hreads₃.unchanged.free_count
      have hfree₁ := hreads.unchanged.free_count
      change c.ec.es.im.bm.free_count ≤ es₅.im.bm.free_count + _
      omega
    · intro hok
      obtain ⟨hok, _⟩ := hok.between hle hle'
      obtain ⟨_, hok⟩ := hok.between hreads.tally.symm.le htally₂
      exact absurd hok hfailed

/-- After a successful creating call the directory lists one more entry. -/
theorem NodeMade.lists (h : Lists known files c parent text list)
    (hmade : NodeMade known files c parent text name type value id c')
    (hclient : c' = c.with_server c'.ec.es) (hname : slash ∉ name.bytes) (hok : c.ec.es.Untroubled c'.ec.es)
    (hfits : Fits (text ++ inum_name_pair id name.bytes)) (hvalue : Fits (value_bytes value)) :
    ∃ inum : UInt32, id = inum.toUInt64 ∧ inum_of id = inum ∧ c.ec.es.im.get_inode inum = none ∧
      Lists (insert inum known) (node_files files parent text inum name type value) c' parent
        (text ++ inum_name_pair id name.bytes) (list ++ [({ inum := id, name := name.bytes } : Dirent)]) := by
  obtain ⟨inum, rfl, hlo, hhi, hdead, hrep⟩ := hmade.stored hok hfits hvalue
  refine ⟨inum, rfl, inum_of_toUInt64 (by omega), hdead, hrep, Set.mem_insert_of_mem _ h.mem, Function.update_self ..,
    ?_⟩
  rw [hclient, parse_with_server, parse_append h.parse _ hname]

/-- With a free inum and room on the disk a creating call succeeds. -/
theorem make_node_first (h : Lists known files c parent text list) (type : FileType) (ino : UInt64) {inum : UInt32}
    (hunbound : ¬ Bound c parent name) (hname : slash ∉ name.bytes) (hfirst : FirstFree c.ec.es.im inum)
    (hroom : NodeRoom c.ec.es.im parent text inum name value)
    (hfits : Fits (text ++ inum_name_pair inum.toUInt64 name.bytes)) (hvalue : Fits (value_bytes value)) :
    ∃ c', c.make_node parent name type value ino = .ok (.OK, inum.toUInt64, c') ∧ c.ec.es.Untroubled c'.ec.es ∧
      c' = c.with_server c'.ec.es ∧ inum_of inum.toUInt64 = inum ∧ c.ec.es.im.get_inode inum = none ∧
      Lists (insert inum known) (node_files files parent text inum name type value) c' parent
        (text ++ inum_name_pair inum.toUInt64 name.bytes)
        (list ++ [({ inum := inum.toUInt64, name := name.bytes } : Dirent)]) := by
  have hlong := fits_iff.mp hfits
  have hshort := fits_iff.mp hvalue
  simp only [inum_name_pair, List.length_append] at hlong
  obtain ⟨id, c', hmake, hmade⟩ := make_node_spec h type value ino (h.find_none hunbound) (by omega) (by omega)
  obtain ⟨hok, rfl⟩ := hmade.untroubled inum hfirst hroom
  have hclient : c' = c.with_server c'.ec.es := (make_node_done hmake).with_server
  obtain ⟨made, hid, hinum, hdead, hlists⟩ := hmade.lists h hclient hname hok hfits hvalue
  have hsame : made = inum := (UInt32.toUInt64_inj.mp hid).symm
  subst hsame
  exact ⟨c', hmake, hok, hclient, hinum, hdead, hlists⟩

/-- The buffers that were put leave their lengths. -/
theorem ValuePut.longest {es₃ es₄ es₅ : ExtentServer} {buf : List UInt8} (hvalue : ValuePut es₃ id value es₄)
    (hput : es₄.put parent buf = .ok (.OK, es₅)) :
    (value_bytes value).length ≤ es₅.longest_put ∧ buf.length ≤ es₅.longest_put := by
  have hlast := put_longest hput
  refine ⟨?_, hlast ▸ le_max_right _ _⟩
  rw [hlast]
  cases hvalue with
  | none => exact Nat.zero_le _
  | some hput₄ =>
    rw [put_longest hput₄]
    exact (le_max_right _ _).trans (le_max_left _ _)

/-- A `create` leaves what another file reads as. -/
theorem get_after_create (h : RepresentsOn known es.im files) (hmem : inum_of parent ∈ known) {type' : FileType}
    (hfile : files (inum_of parent) = some (type', text)) (hcreate : es.create type.code = (ret, id, es₂))
    {buf : List UInt8} (hget : es₂.get parent = .ok (.OK, buf, es')) : buf = text := by
  rcases create_spec h type with ⟨inum, es₁, hrun, hcreated⟩ | ⟨es₁, hrun, h₂, _⟩
  · rw [hrun] at hcreate
    cases hcreate
    have hne : inum_of parent ≠ inum := by
      rintro rfl
      exact (h.stored _ hmem _ _ hfile).ne_none hcreated.dead
    have hbuf := get_content hcreated.represents (Set.mem_insert_of_mem _ hmem) hget
    rwa [Files.content_eq ((Function.update_of_ne hne ..).trans hfile)] at hbuf
  · rw [hrun] at hcreate
    cases hcreate
    have hbuf := get_content h₂ hmem hget
    rwa [Files.content_eq hfile] at hbuf

/-- What a creating call writes when it returns OK: what it read, and the new pair. -/
theorem make_node_writes (h : Lists known files c parent text list)
    (hmake : c.make_node parent name type value ino = .ok (.OK, id, c')) :
    list.find? (fun elem => elem.name = name.bytes) = none ∧
      ∃ es : ExtentServer, es.put parent (text ++ inum_name_pair id name.bytes) = .ok (.OK, c'.ec.es) := by
  cases make_node_done hmake with
  | @made _ _ c₁ es₂ es₃ es₄ es₅ buf hlookup hcreate hget hvalue hput =>
    cases hlookup with
    | @unbound text' es₁ entries hdir hget₁ hparse hfind =>
      have hreads := get_only_reads h.represents.owned hget₁
      have htext := get_content h.represents h.mem hget₁
      rw [Files.content_eq h.file] at htext
      rw [htext, h.parse] at hparse
      cases hparse
      have hbuf := get_after_create (hreads.represents h.represents) h.mem h.file hcreate hget
      rw [hbuf] at hput
      exact ⟨hfind, es₄, hput⟩

/-- A creating call that returned OK without trouble found the name unbound and has made
    its inode and entry. -/
theorem make_node_ok (h : RepresentsOn known c.ec.es.im files) (hmem : inum_of parent ∈ known)
    (hname : slash ∉ name.bytes)
    (hmake : c.make_node parent name type value ino = .ok (.OK, id, c')) (hclean : c'.ec.es.Clean) :
    ∃ text list inum, Lists known files c parent text list ∧
      list.find? (fun elem => elem.name = name.bytes) = none ∧ id = UInt32.toUInt64 inum ∧ inum_of id = inum ∧
      c.ec.es.im.get_inode inum = none ∧
      Lists (insert inum known) (node_files files parent text inum name type value) c' parent
        (text ++ inum_name_pair id name.bytes) (list ++ [({ inum := id, name := name.bytes } : Dirent)]) := by
  have hdone := make_node_done hmake
  have hclient := hdone.with_server
  cases hdone with
  | @made _ _ c₁ es₂ es₃ es₄ es₅ buf hlookup hcreate hget hvalue hput =>
    cases hlookup with
    | @unbound text es₁ list hdir hget₁ hparse hfind =>
      obtain ⟨bytes, hfile⟩ := (isdir_iff_known h hmem).mp hdir
      have htext := get_content h hmem hget₁
      rw [Files.content_eq hfile] at htext
      subst htext
      have hlists : Lists known files c parent text list := ⟨h, hmem, hfile, hparse⟩
      have hlarge : es₅.longest_put ≤ MAXFILE * BLOCK_SIZE := (clean_iff.mp hclean).2.2
      obtain ⟨hput₄, hput₅⟩ := ValuePut.longest hvalue hput
      simp only [inum_name_pair, List.length_append] at hput₅
      simp only [MAXFILE, NDIRECT_eq, NINDIRECT_eq, BLOCK_SIZE_eq] at hlarge
      obtain ⟨id', c'', hmake', hmade⟩ := make_node_spec hlists type value ino hfind (by omega) (by omega)
      rw [hmake] at hmake'
      cases hmake'
      have hlongest : es₅.longest_put = _ := hmade.longest
      have hfits : Fits (text ++ inum_name_pair id name.bytes) := by
        rw [fits_iff]
        omega
      have hvalue : Fits (value_bytes value) := by
        rw [fits_iff]
        omega
      obtain ⟨inum, hid, hinum, hdead, hlists'⟩ :=
        hmade.lists hlists hclient hname (hclean.untroubled hmade.tally) hfits hvalue
      exact ⟨text, list, inum, hlists, hfind, hid, hinum, hdead, hlists'⟩

end ChfsClient

end chfs
