import Chfs.Client.Creation

namespace chfs

open BlockManager InodeManager ExtentServer

namespace ChfsClient

variable {c start : ChfsClient} {history : List (ClientOp × ClientReply)} {garbage : UInt32} {env : Env}
  {stack : UInt64}

/-- Calls with names without a separator, which read and write files only. -/
def Ordinary (c : ChfsClient) (op : ClientOp) : Prop :=
  op.Named ∧
    match op with
    | .read ino _ _ | .write ino _ _ _ | .setattr ino _ => c.isfile ino = true
    | _ => True

theorem new_server (hnew : ChfsClient.new garbage env stack = .ok start) :
    ExtentServer.new garbage env = .ok start.ec.es := by
  obtain ⟨ec, hec, hstart⟩ := Except.bind_eq_ok_iff.mp hnew
  obtain ⟨es, hes, hret⟩ := Except.bind_eq_ok_iff.mp hec
  cases hret
  cases hstart
  exact hes

theorem fresh_client (hnew : ChfsClient.new garbage env stack = .ok start) : Fresh start.ec.es.im :=
  (fresh_new (new_server hnew)).1

/-- On memory that holds zeros the constructor succeeds. -/
theorem new_zero (env : Env) (stack : UInt64) : ∃ c, ChfsClient.new 0 env stack = .ok c := by
  obtain ⟨es, hnew⟩ := ExtentServer.new_zero env
  refine ⟨{ ec := { es }, stack }, ?_⟩
  rw [ChfsClient.new, ExtentClient.new, hnew]
  rfl

theorem clean_new (hnew : ChfsClient.new garbage env stack = .ok start) : start.ec.es.Clean := by
  obtain ⟨hfresh, hlongest⟩ := fresh_new (new_server hnew)
  exact clean_iff.mpr ⟨hfresh.failed_blocks, hfresh.failed_inodes, by rw [hlongest]; exact Nat.zero_le _⟩

/-- The files at the start: an empty root directory. -/
def root_files : Files := fun inum => if inum = 1 then some (.T_DIR, []) else none

/-- At the start the root lists nothing. -/
theorem lists_root (hstart : Fresh start.ec.es.im) : Lists Set.univ root_files start 1 [] [] where
  represents := representsOn_univ.mpr (Represents.fresh hstart)
  mem := trivial
  file := rfl
  parse := rfl

/-- A run without failures goes on standing for some files. -/
theorem run_represents {allowed : ChfsClient → ClientOp → Prop} (hstart : Fresh start.ec.es.im)
    (hrun : Trace step allowed start history c) (hclean : c.ec.es.Clean) : ∃ files, Represents c.ec.es.im files :=
  (run_reaches hrun).represents (Represents.fresh hstart) hclean

/-- The first inode created at the start has number 2. -/
theorem firstFree_start (hstart : Fresh start.ec.es.im) : FirstFree start.ec.es.im 2 := by
  obtain ⟨root, hroot, _⟩ := hstart.root
  have hround : ∀ j, to_alloc start.ec.es.im.last_alloced j = to_alloc 0 j := by
    intro j
    rw [hstart.last_alloced]
  refine ⟨hstart.others 2 (by decide), 2, by omega, by omega, ?_, ?_⟩
  · rw [hround]
    decide
  · intro j hlo hhi
    have hj : j = 1 := by omega
    have hfirst : to_alloc 0 1 = 1 := by decide
    rw [hround, hj, hfirst, hroot]
    simp

/-- At the start nothing is bound, -/
theorem not_bound_start (hstart : Fresh start.ec.es.im) (name : CString) : ¬ Bound start 1 name := by
  rw [(lists_root hstart).bound_iff]
  rintro ⟨e, he, _⟩
  exact absurd he List.not_mem_nil

/-- and there is room for a node. -/
theorem nodeRoom_start (hstart : Fresh start.ec.es.im) {name : CString} {value : Option CString}
    (hname : name.bytes.length ≤ 1000) (hvalue : Fits (value_bytes value)) :
    NodeRoom start.ec.es.im 1 [] 2 name value := by
  have hvalue := fits_iff.mp hvalue
  have hpair := length_inum_name_pair_le (UInt32.toUInt64 2) name.bytes
  have hfree := hstart.free_count
  unfold NodeRoom pointers_for blocks_for
  rw [List.nil_append, hfree]
  constructor
  · split <;> omega
  · split <;> split <;> omega

/-- At the start a creating call succeeds. -/
theorem make_first (hnew : ChfsClient.new garbage env stack = .ok start) (name : CString) (type : FileType)
    (value : Option CString) (hname : name.bytes.length ≤ 1000) (hvalue : Fits (value_bytes value)) :
    ∃ c', start.make_node 1 name type value 0 = .ok (.OK, 2, c') ∧ start.ec.es.Untroubled c'.ec.es ∧ c'.ec.es.Clean ∧
      31732 ≤ c'.ec.es.im.bm.free_count + (pointers_for (blocks_for (value_bytes value).length) +
        pointers_for (blocks_for (inum_name_pair 2 name.bytes).length)) ∧
      RepresentsOn Set.univ c'.ec.es.im (node_files root_files 1 [] 2 name type value) := by
  have hstart := fresh_client hnew
  have hvalue' := fits_iff.mp hvalue
  have hfind : ([] : List Dirent).find? (fun elem => elem.name = name.bytes) = none := rfl
  obtain ⟨id, c', hmake, hmade⟩ := make_node_spec (lists_root hstart) type value 0 hfind (by omega) (by omega)
  have hpair := length_inum_name_pair_le id name.bytes
  obtain ⟨hok, hid⟩ := hmade.untroubled 2 (firstFree_start hstart) (nodeRoom_start hstart hname hvalue)
  have hid : id = 2 := hid
  subst hid
  have hfits : Fits ([] ++ inum_name_pair 2 name.bytes) := by
    rw [fits_iff, List.nil_append]
    omega
  obtain ⟨inum, hinum, _, _, _, hrep⟩ := hmade.stored hok hfits hvalue
  have hinum : inum = 2 := UInt32.toUInt64_inj.mp hinum.symm
  subst hinum
  have hfree := hmade.free
  rw [hstart.free_count] at hfree
  refine ⟨c', hmake, hok, ?_, hfree, hrep.mono fun _ _ => Set.mem_insert_of_mem _ trivial⟩
  obtain ⟨hblocks, hinodes, hlongest⟩ := clean_iff.mp (clean_new hnew)
  refine clean_iff.mpr ⟨hok.1.trans hblocks, hok.2.trans hinodes, ?_⟩
  exact hmade.longest.le.trans (max_le hlongest (max_le hvalue hfits))

/-- The name "a". -/
def name_a : CString := ⟨[97], by decide⟩

theorem slash_not_mem_name_a : slash ∉ name_a.bytes := by decide

theorem length_name_a : name_a.bytes.length ≤ 1000 := by decide

theorem not_dots_name_a : ¬ Dots name_a := by decide

theorem fits_value_none : Fits (value_bytes none) := fits_iff.mpr (Nat.zero_le _)

theorem ordinary_first (c : ChfsClient) : Ordinary c (.create 1 name_a) := ⟨slash_not_mem_name_a, trivial⟩

/-- The first file: it gets inum 2 and is empty. -/
theorem create_first_file (hnew : ChfsClient.new garbage env stack = .ok start) :
    ∃ c, start.step (.create 1 name_a) = .ok (.node .OK 2, c) ∧ c.ec.es.Clean ∧
      31731 ≤ c.ec.es.im.bm.free_count ∧
      RepresentsOn Set.univ c.ec.es.im (node_files root_files 1 [] 2 name_a .T_FILE none) := by
  obtain ⟨c, hmake, _, hclean, hfree, hrep⟩ := make_first hnew name_a .T_FILE none length_name_a fits_value_none
  have hblocks : pointers_for (blocks_for (value_bytes none).length) +
      pointers_for (blocks_for (inum_name_pair 2 name_a.bytes).length) ≤ 1 := by
    have hpair : (inum_name_pair 2 name_a.bytes).length ≤ 23 := length_inum_name_pair_le 2 name_a.bytes
    have hnone : (value_bytes none).length = 0 := rfl
    rw [hnone]
    generalize (inum_name_pair 2 name_a.bytes).length = n at hpair
    unfold pointers_for blocks_for
    rw [if_pos (by omega), if_pos (by omega)]
    omega
  refine ⟨c, ?_, hclean, by omega, hrep⟩
  rw [Creates.create.step, hmake]
  rfl

/-- The first node is listed in the root. -/
theorem lists_first {type : FileType} {value : Option CString}
    (hrep : RepresentsOn Set.univ c.ec.es.im (node_files root_files 1 [] 2 name_a type value)) :
    Lists Set.univ (node_files root_files 1 [] 2 name_a type value) c 1
      (dir_text [({ inum := 2, name := name_a.bytes } : Dirent)]) [{ inum := 2, name := name_a.bytes }] where
  represents := hrep
  mem := trivial
  file := by
    have htext : dir_text [({ inum := 2, name := name_a.bytes } : Dirent)] = inum_name_pair 2 name_a.bytes := by
      simp [dir_text]
    rw [htext]
    rfl
  parse := parse_dir_text c (by decide)

theorem find_first : [({ inum := 2, name := name_a.bytes } : Dirent)].find? (fun elem => elem.name = name_a.bytes) =
    some { inum := 2, name := name_a.bytes } := by
  simp

end ChfsClient

end chfs
