import Chfs.Client.Orderly
import Chfs.Extent.DiskFull

namespace chfs

open BlockManager InodeManager ExtentServer

/-- A call that asks for a new inode of a type, and a name for it. -/
inductive ClientOp.Makes : ClientOp → UInt64 → CString → FileType → Prop where
  | create {parent : UInt64} {name : CString} : Makes (.create parent name) parent name .T_FILE
  | mkdir {parent : UInt64} {name : CString} : Makes (.mkdir parent name) parent name .T_DIR
  | create_symbolic_link {parent : UInt64} {true_file_path link_name : CString} :
    Makes (.create_symbolic_link parent true_file_path link_name) parent link_name .T_SYMBOLIC

namespace ChfsClient

variable {c c' start : ChfsClient} {op : ClientOp} {reply : ClientReply} {history : List (ClientOp × ClientReply)}
  {parent ino id : UInt64} {name : CString} {type : FileType} {value : Option CString}

/-- `lookup` finds the name, and this inode. -/
def Resolves (c : ChfsClient) (parent : UInt64) (name : CString) (ino : UInt64) : Prop :=
  ∃ c', c.lookup parent name false 0 = .ok (.OK, true, ino, c')

/-- What a creating call that answers OK says it has done. -/
structure ReallyMade (c : ChfsClient) (parent : UInt64) (name : CString) (type : FileType) (id : UInt64)
    (c' : ChfsClient) : Prop where
  dead : c.ec.es.im.get_inode (inum_of id) = none
  live : c'.ec.es.im.get_inode (inum_of id) ≠ none
  type : (c'.ec.es.getattr id).2.type = type.code
  found : Resolves c' parent name id
  kept : ∀ other ino, Resolves c parent other ino → Resolves c' parent other ino

/-- The contents, types and sizes are as before. -/
def SameFiles (es es' : ExtentServer) : Prop :=
  ∀ id, (∀ heap bytes, (es'.with_memory heap).Reads id bytes ↔ (es.with_memory heap).Reads id bytes) ∧
    (es'.getattr id).2.type = (es.getattr id).2.type ∧ (es'.getattr id).2.size = (es.getattr id).2.size

/-- A creating call answers OK when it has done what it says, and anything else when it has
    changed nothing. -/
def Honest (c : ChfsClient) (op : ClientOp) (parent : UInt64) (name : CString) (type : FileType) : Prop :=
  ∀ reply c', c.step op = .ok (reply, c') →
    (reply.ret = .OK → ∃ id, reply = .node .OK id ∧ ReallyMade c parent name type id c') ∧
      (reply.ret ≠ .OK → SameFiles c.ec.es c'.ec.es)

/-- A name resolves to the inum of its first entry. -/
theorem Lists.resolves_iff {known : Set UInt32} {files : Files} {text : List UInt8} {list : List Dirent}
    (h : Lists known files c parent text list) :
    Resolves c parent name ino ↔ ∃ e, list.find? (fun elem => elem.name = name.bytes) = some e ∧ e.inum = ino := by
  cases hfind : list.find? (fun elem => elem.name = name.bytes) with
  | none =>
    obtain ⟨es', hlookup, _⟩ := h.lookup_none false 0 hfind
    constructor
    · rintro ⟨c', hresolves⟩
      rw [hlookup] at hresolves
      cases hresolves
    · rintro ⟨e, he, _⟩
      cases he
  | some e =>
    obtain ⟨es', hlookup, _⟩ := h.lookup_some false 0 hfind
    constructor
    · rintro ⟨c', hresolves⟩
      rw [hlookup] at hresolves
      cases hresolves
      exact ⟨e, rfl, rfl⟩
    · rintro ⟨e', he, rfl⟩
      cases he
      exact ⟨_, hlookup⟩

theorem makes_cases (hmakes : op.Makes parent name type) :
    (∃ value, Creates op parent name type value) ∨ (op = .mkdir parent name ∧ Dots name) := by
  cases hmakes with
  | create => exact .inl ⟨_, .create⟩
  | mkdir =>
    by_cases hdots : Dots name
    · exact .inr ⟨rfl, hdots⟩
    · exact .inl ⟨_, .mkdir hdots⟩
  | create_symbolic_link => exact .inl ⟨_, .create_symbolic_link⟩

/-- A creating call that finds what it needs does what it says. -/
theorem reallyMade_of_lists {known : Set UInt32} {files : Files} {text : List UInt8} {list : List Dirent}
    {inum : UInt32}
    (h : Lists known files c parent text list) (hunbound : ¬ Bound c parent name) (hinum : inum_of id = inum)
    (hdead : c.ec.es.im.get_inode inum = none)
    (hafter : Lists (insert inum known) (node_files files parent text inum name type value) c' parent
      (text ++ inum_name_pair id name.bytes) (list ++ [({ inum := id, name := name.bytes } : Dirent)])) :
    ReallyMade c parent name type id c' := by
  have hne : inum ≠ inum_of parent := by
    rintro rfl
    exact h.stores.ne_none hdead
  have hfile : node_files files parent text inum name type value (inum_of id) = some (type, value_bytes value) := by
    rw [hinum, node_files, Function.update_of_ne hne, Function.update_self]
  have hmem : inum_of id ∈ insert inum known := hinum ▸ Set.mem_insert _ _
  refine ⟨hinum ▸ hdead, (hafter.represents.stored _ hmem _ _ hfile).ne_none, ?_, ?_, ?_⟩
  · rw [getattr_type hafter.represents hmem]
    exact Files.type_code_eq_iff.mpr ⟨_, hfile⟩
  · exact hafter.resolves_iff.mpr ⟨_, find_new (h.find_none hunbound) id, rfl⟩
  · intro other ino hresolves
    obtain ⟨e, hfind, heq⟩ := h.resolves_iff.mp hresolves
    refine hafter.resolves_iff.mpr ⟨e, ?_, heq⟩
    rw [List.find?_append, hfind]
    rfl

/-- With its directories in order a client is honest about a creation for which there is room. -/
theorem honest_of_orderly {known : Set UInt32} {files : Files} (h : Orderly known files c)
    (hmakes : op.Makes parent name type) (hname : slash ∉ name.bytes) (hroom : Roomy c op)
    (hdir : c.isdir parent = true) (hunbound : ¬ Bound c parent name) : Honest c op parent name type := by
  intro reply c' hstep
  rcases makes_cases hmakes with ⟨value, hcreates⟩ | ⟨rfl, hdots⟩
  · obtain ⟨list, hlists⟩ := h.lists hdir
    obtain ⟨inum, c'', hmake, hinum, hdead, hafter⟩ :=
      make_of_room hlists type hunbound hname (hroom parent name type value hcreates hdir hunbound)
    rw [creates_step hcreates hmake] at hstep
    cases hstep
    exact ⟨fun _ => ⟨_, rfl, reallyMade_of_lists hlists hunbound hinum hdead hafter⟩, fun hret => absurd rfl hret⟩
  · have hrefused : c.step (.mkdir parent name) = .ok (.node .IOERR 0, c) := by
      rw [step, mkdir_eq, if_pos hdots]
      rfl
    rw [hrefused] at hstep
    cases hstep
    refine ⟨?_, fun _ id => ⟨fun _ _ => Iff.rfl, rfl, rfl⟩⟩
    rintro ⟨⟩

/-- In every run in which each creating call that finds its name unbound in a directory finds
    an inum, blocks and room in the files for what it makes, the client is honest about each. -/
theorem creation_is_honest {garbage : UInt32} {env : Env} {stack : UInt64}
    (hnew : ChfsClient.new garbage env stack = .ok start)
    (hrun : Trace step (fun c op => Ordinary c op ∧ Roomy c op) start history c) (hlong : c.ec.es.longest_put < 2 ^ 31)
    (hmakes : op.Makes parent name type) (hop : Ordinary c op) (hroom : Roomy c op) (hdir : c.isdir parent = true)
    (hunbound : ¬ Bound c parent name) : Honest c op parent name type := by
  obtain ⟨known, files, h⟩ := run_orderly (fresh_client hnew) hrun hlong
  have hname : slash ∉ name.bytes := by
    cases hmakes <;> exact hop.1
  exact honest_of_orderly h hmakes hname hroom hdir hunbound

/-- The first file is made. -/
theorem creation_is_honest_first :
    ∃ start, ChfsClient.new 0 still 0 = .ok start ∧ Honest start (.create 1 name_a) 1 name_a .T_FILE := by
  obtain ⟨start, hnew⟩ := new_zero still 0
  have hstart := fresh_client hnew
  have hlists := lists_root hstart
  have hreads : start.ec.es.Reads 1 [] := (reads_iff_known hlists.represents hlists.mem []).mpr rfl
  have hroom : Roomy start (.create 1 name_a) := by
    intro parent name type value hcreates _ _
    cases hcreates
    exact ⟨2, [], firstFree_start hstart, hreads, nodeRoom_start hstart length_name_a fits_value_none, by decide,
      fits_value_none⟩
  exact ⟨start, hnew, creation_is_honest hnew .nil (clean_new hnew).longest_lt .create
    (ordinary_first start) hroom hlists.isdir
    (not_bound_start hstart name_a)⟩

/-- The calls that make a directory in the one made last, `n` times. -/
def nested : Nat → List (ClientOp × ClientReply)
  | 0 => []
  | n + 1 => (.mkdir (UInt64.ofNat (n + 1)) name_a, .node .OK (UInt64.ofNat (n + 2))) :: nested n

/-- What they lead to. -/
structure Nested (c : ChfsClient) (n : Nat) : Prop where
  represents : ∃ files, Represents c.ec.es.im files ∧ files (UInt32.ofNat (n + 1)) = some (.T_DIR, [])
  sequential : Sequential c.ec.es.im (n + 1)
  free : 31732 ≤ c.ec.es.im.bm.free_count + n
  clean : c.ec.es.Clean

namespace Nested

variable {n : Nat}

theorem inum_eq (h : Nested c n) : inum_of (UInt64.ofNat (n + 1)) = UInt32.ofNat (n + 1) := by
  have hbounds := h.sequential.bounds
  apply UInt32.toNat_inj.mp
  rw [inum_of_ofNat (by omega), UInt32.toNat_ofNat']
  omega

theorem lists (h : Nested c n) : ∃ files, Lists Set.univ files c (UInt64.ofNat (n + 1)) [] [] := by
  obtain ⟨files, hrep, hfile⟩ := h.represents
  exact ⟨files, representsOn_univ.mpr hrep, trivial, by rw [h.inum_eq, hfile], rfl⟩

/-- A directory with one entry takes one block at most. -/
theorem entry_blocks (id : UInt64) :
    pointers_for (blocks_for (inum_name_pair id name_a.bytes).length) ≤ 1 := by
  have hpair : (inum_name_pair id name_a.bytes).length ≤ 23 := length_inum_name_pair_le id name_a.bytes
  generalize (inum_name_pair id name_a.bytes).length = k at hpair
  unfold pointers_for blocks_for
  rw [if_pos (by omega)]
  omega

/-- Another directory is made in the last one. -/
theorem make (h : Nested c n) (hn : n < 1023) :
    ∃ (inum : UInt32) (c' : ChfsClient) (files : Files), inum.toNat = n + 2 ∧ FirstFree c.ec.es.im inum ∧
      c.make_node (UInt64.ofNat (n + 1)) name_a .T_DIR none 0 = .ok (.OK, inum.toUInt64, c') ∧ c'.ec.es.Clean ∧
      c.ec.es.im.bm.free_count ≤ c'.ec.es.im.bm.free_count + 1 ∧ Represents c.ec.es.im files ∧
      files (inum_of (UInt64.ofNat (n + 1))) = some (.T_DIR, []) ∧
      Represents c'.ec.es.im (node_files files (UInt64.ofNat (n + 1)) [] inum name_a .T_DIR none) := by
  obtain ⟨files, hlists⟩ := h.lists
  obtain ⟨inum, hinum, hfirst⟩ := h.sequential.firstFree (by omega)
  have hfree := h.free
  have hvalue : pointers_for (blocks_for (value_bytes none).length) = 0 := by decide
  have hentry := entry_blocks inum.toUInt64
  have hlength : (inum_name_pair inum.toUInt64 name_a.bytes).length ≤ 23 := length_inum_name_pair_le _ name_a.bytes
  have hroom : NodeRoom c.ec.es.im (UInt64.ofNat (n + 1)) [] inum name_a none := by
    rw [NodeRoom, List.nil_append]
    omega
  have hfind : ([] : List Dirent).find? (fun elem => elem.name = name_a.bytes) = none := rfl
  obtain ⟨id, c', hmake, hmade⟩ := make_node_spec hlists .T_DIR none 0 hfind (by decide) (by decide)
  obtain ⟨hok, rfl⟩ := hmade.untroubled inum hfirst hroom
  have hfits : Fits ([] ++ inum_name_pair inum.toUInt64 name_a.bytes) := by
    rw [List.nil_append, fits_iff]
    omega
  obtain ⟨made, hid, _, _, hafter⟩ :=
    hmade.lists hlists (make_node_done hmake).with_server slash_not_mem_name_a hok hfits fits_value_none
  obtain rfl : inum = made := UInt32.toUInt64_inj.mp hid
  have hrep := representsOn_univ.mp (hafter.represents.mono fun _ _ => Set.mem_insert_of_mem _ trivial)
  refine ⟨inum, c', files, hinum, hfirst, hmake, ?_, ?_, representsOn_univ.mp hlists.represents, hlists.file, hrep⟩
  · obtain ⟨hblocks, hinodes, hlongest⟩ := clean_iff.mp h.clean
    refine clean_iff.mpr ⟨hok.1.trans hblocks, hok.2.trans hinodes, ?_⟩
    exact hmade.longest.le.trans (max_le hlongest (max_le (Nat.zero_le _) hfits))
  · have hmore := hmade.free
    rw [List.nil_append] at hmore
    omega

theorem next (h : Nested c n) (hn : n < 1023) :
    ∃ c', c.step (.mkdir (UInt64.ofNat (n + 1)) name_a) = .ok (.node .OK (UInt64.ofNat (n + 2)), c') ∧
      Nested c' (n + 1) := by
  obtain ⟨inum, c', files, hinum, hfirst, hmake, hclean, hfree, hbefore, hfile, hrep⟩ := h.make hn
  have hstep := creates_step (.mkdir not_dots_name_a) hmake
  have hid : inum.toUInt64 = UInt64.ofNat (n + 2) := by
    apply UInt64.toNat_inj.mp
    rw [UInt32.toNat_toUInt64, hinum, UInt64.toNat_ofNat']
    omega
  have hparent : (inum_of (UInt64.ofNat (n + 1))).toNat = n + 1 := inum_of_ofNat (by omega)
  have hne : inum ≠ inum_of (UInt64.ofNat (n + 1)) := by
    rintro rfl
    omega
  have hroom := h.free
  refine ⟨c', hid ▸ hstep, ⟨_, hrep, ?_⟩, ⟨?_, .inl ?_, by omega⟩, by omega, hclean⟩
  · have hnew : UInt32.ofNat (n + 1 + 1) = inum := by
      apply UInt32.toNat_inj.mp
      rw [hinum, UInt32.toNat_ofNat']
      omega
    rw [hnew, node_files, Function.update_of_ne hne, Function.update_self]
    rfl
  · intro other
    have hsequential := h.sequential.live other
    rw [hbefore.dead_iff] at hsequential
    rw [hrep.dead_iff, node_files]
    by_cases hold : other = inum_of (UInt64.ofNat (n + 1))
    · rw [hold, Function.update_self, hparent]
      simp
    · rw [Function.update_of_ne hold]
      by_cases hnew : other = inum
      · rw [hnew, Function.update_self, hinum]
        simp
      · have hval : other.toNat ≠ n + 2 := fun hval => hnew (UInt32.toNat_inj.mp (hval.trans hinum.symm))
        rw [Function.update_of_ne hnew, hsequential]
        omega
  · rw [NodeDone.cursor (make_node_done hmake) hbefore.owned hclean.longest_lt hfirst, hinum]

theorem first (hnew : ChfsClient.new 0 still 0 = .ok start) : Nested start 0 where
  represents := ⟨root_files, representsOn_univ.mp (lists_root (fresh_client hnew)).represents, rfl⟩
  sequential := (filling_fresh (fresh_client hnew)).sequential
  free := (fresh_client hnew).free_count.ge
  clean := clean_new hnew

/-- The calls can be made until the inodes are used up. -/
theorem run (hnew : ChfsClient.new 0 still 0 = .ok start) (hn : n ≤ 1023) :
    ∃ c, Trace step Ordinary start (nested n) c ∧ Nested c n := by
  induction n with
  | zero => exact ⟨start, .nil, .first hnew⟩
  | succ n ih =>
    obtain ⟨c, hrun, h⟩ := ih (by omega)
    obtain ⟨c', hstep, h'⟩ := h.next (by omega)
    have hop : Ordinary c (.mkdir (UInt64.ofNat (n + 1)) name_a) := ⟨slash_not_mem_name_a, trivial⟩
    exact ⟨c', .cons hrun hop hstep, h'⟩

/-- Then a `create` gets no inode. -/
theorem full (h : Nested c 1023) {c₁ : ChfsClient} {es₂ : ExtentServer} {ret : Status}
    (hreads : OnlyReads c.ec.es c₁.ec.es)
    (hcreate : c₁.ec.es.create type.code = (ret, id, es₂)) : id = 0 := by
  have hsequential : Sequential c₁.ec.es.im 1024 :=
    h.sequential.keep (fun _ => hreads.unchanged.dead) hreads.unchanged.last_alloced
  obtain ⟨env, hrun⟩ := hsequential.full type.code
  rw [ExtentServer.create, hrun] at hcreate
  cases hcreate
  rfl

end Nested

/-- After 1023 directories one in the other all inodes are used up, and `mkdir` answers OK
    and inum 0. -/
theorem last_mkdir_is_not_honest :
    ∃ start c c', ChfsClient.new 0 still 0 = .ok start ∧ Trace step Ordinary start (nested 1023) c ∧ c.ec.es.Clean ∧
      c.isdir 1024 = true ∧ ¬ Bound c 1024 name_a ∧ c.step (.mkdir 1024 name_a) = .ok (.node .OK 0, c') ∧
      ¬ Honest c (.mkdir 1024 name_a) 1024 name_a .T_DIR := by
  obtain ⟨start, hnew⟩ := new_zero still 0
  obtain ⟨c, hrun, h⟩ := Nested.run hnew (le_refl 1023)
  obtain ⟨files, hlists⟩ := h.lists
  have hfind : ([] : List Dirent).find? (fun elem => elem.name = name_a.bytes) = none := rfl
  have howned := hlists.represents.owned
  obtain ⟨id, c', hmake, hmade⟩ := make_node_spec hlists .T_DIR none 0 hfind (by decide) (by decide)
  have hdone := make_node_done hmake
  obtain rfl : id = 0 := by
    cases hdone with
    | made hlookup hcreate _ _ _ => exact h.full (hlookup.only_reads howned) hcreate
  have hstep : c.step (.mkdir 1024 name_a) = .ok (.node .OK 0, c') := creates_step (.mkdir not_dots_name_a) hmake
  refine ⟨start, c, c', hnew, hrun, h.clean, hlists.isdir, hlists.not_bound hfind, hstep, ?_⟩
  intro hhonest
  obtain ⟨id, hid, hmade'⟩ := (hhonest _ _ hstep).1 rfl
  cases hid
  have hlong : c'.ec.es.longest_put < 2 ^ 31 := by
    have hbefore := h.clean.longest_lt
    have hpair : (inum_name_pair 0 name_a.bytes).length ≤ 23 := length_inum_name_pair_le 0 name_a.bytes
    have hvalue : (value_bytes none).length = 0 := rfl
    rw [hmade.longest, List.nil_append]
    omega
  exact hmade'.live (hdone.reaches.owned howned hlong).zero_dead

end ChfsClient

end chfs
