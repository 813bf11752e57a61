import Chfs.Client.SetLength
import Chfs.Client.Failures

namespace chfs.ChfsClient

open BlockManager InodeManager ExtentServer

variable {c c' : ChfsClient} {parent id : UInt64} {name : CString} {type : FileType} {value : Option CString}
  {list : List Dirent}

/-- In a file system in order, the encoding of the entries is stored whole in the directory. -/
structure Encoded (c : ChfsClient) (dir : UInt64) (list : List Dirent) : Prop where
  owned : Owned c.ec.es.im
  names : ∀ e ∈ list, slash ∉ e.name
  stores : Stores c.ec.es.im (inum_of dir) .T_DIR (dir_text list)

/-- The last request of a call that ends in `c` puts these bytes into the directory. -/
def Writes (c : ChfsClient) (dir : UInt64) (bytes : List UInt8) : Prop :=
  ∃ es : ExtentServer, es.put dir bytes = .ok (.OK, c.ec.es)

/-- The entries but those of a name. -/
def without (name : CString) (list : List Dirent) : List Dirent := list.filter fun cur => cur.name ≠ name.bytes

namespace Encoded

theorem lists (h : Encoded c parent list) :
    Lists {inum_of parent} (only_file .T_DIR (dir_text list)) c parent (dir_text list) list :=
  ⟨representsOn_stores h.owned h.stores, Set.mem_singleton _, rfl, parse_dir_text c h.names⟩

theorem listing (h : Encoded c parent list) : c.Listing parent .OK list := by
  obtain ⟨es', hread, _⟩ := h.lists.readdir
  exact ⟨_, hread⟩

/-- A creating call writes the encoding of the old entries and the new one. -/
theorem created (h : Encoded c parent list) (hname : slash ∉ name.bytes)
    (hmake : c.make_node parent name type value 0 = .ok (.OK, id, c')) :
    Writes c' parent (dir_text list ++ inum_name_pair id name.bytes) ∧
      (c.ec.es.Untroubled c'.ec.es → Fits (dir_text list ++ inum_name_pair id name.bytes) → Fits (value_bytes value) →
        Encoded c' parent (list ++ [({ inum := id, name := name.bytes } : Dirent)])) := by
  obtain ⟨hfind, hwrites⟩ := make_node_writes h.lists hmake
  refine ⟨hwrites, ?_⟩
  intro hok hfits hvalue
  have hlong := fits_iff.mp hfits
  have hshort := fits_iff.mp hvalue
  simp only [inum_name_pair, List.length_append] at hlong
  obtain ⟨id', c'', hmake', hmade⟩ := make_node_spec h.lists type value 0 hfind (by omega) (by omega)
  rw [hmake] at hmake'
  cases hmake'
  have hclient : c' = c.with_server c'.ec.es := (make_node_done hmake).with_server
  obtain ⟨inum, _, _, _, hlists⟩ := hmade.lists h.lists hclient hname hok hfits hvalue
  refine ⟨hlists.represents.owned, slash_not_mem_of_parse hlists.parse, ?_⟩
  rw [← dir_text_new]
  exact hlists.stores

/-- An `unlink` writes the encoding of the entries that are left. It always fits. -/
theorem unlinked (h : Encoded c parent list) (hunlink : c.unlink parent name = .ok (.OK, c')) :
    Writes c' parent (dir_text (without name list)) ∧ Encoded c' parent (without name list) := by
  obtain ⟨e, es₁, es₂, es₃, _, _, _, _, _, hlists, hput⟩ := unlink_writes h.lists hunlink
  have hle : (dir_text (without name list)).length ≤ (dir_text list).length := length_dir_text_le List.filter_sublist
  have hfits := h.stores.fits
  have hbound := fits_iff.mp hfits
  have hdone := put_on hlists.represents hlists.mem (hle.trans_lt (by omega)) hput
  have hblocks := hdone.blocks .T_DIR _ hlists.file hle
  have hrep := hdone.stored .T_DIR _ hlists.file hblocks (hle.trans hfits)
  refine ⟨⟨es₃, hput⟩, hrep.owned, fun e he => h.names e (List.mem_of_mem_filter he), ?_⟩
  exact hrep.stored _ hlists.mem _ _ (Function.update_self ..)

/-- Beside it a file is stored. -/
theorem lists_beside (h : Encoded c parent list) {inum : UInt32} {content : List UInt8}
    (hfile : Stores c.ec.es.im inum .T_FILE content) :
    Lists {inum_of parent, inum}
      (Function.update (only_file .T_FILE content) (inum_of parent) (some (.T_DIR, dir_text list))) c
      parent (dir_text list) list where
  represents := by
    refine ⟨h.owned, ?_, ?_⟩
    · intro other _ hnone
      rw [Function.update_apply] at hnone
      split at hnone <;> cases hnone
    · intro other hother type bytes hsome
      by_cases heq : other = inum_of parent
      · rw [heq, Function.update_self] at hsome
        cases hsome
        rw [heq]
        exact h.stores
      · rw [Function.update_of_ne heq] at hsome
        cases hsome
        rw [hother.resolve_left heq]
        exact hfile
  mem := Set.mem_insert _ _
  file := Function.update_self _ _ _
  parse := parse_dir_text c h.names

theorem inum_ne (h : Encoded c parent list) {inum : UInt32} {content : List UInt8}
    (hfile : Stores c.ec.es.im inum .T_FILE content) : inum ≠ inum_of parent := by
  rintro rfl
  obtain ⟨node, hlive, htype, _⟩ := h.stores.live
  obtain ⟨node', hlive', htype', _⟩ := hfile.live
  rw [hlive] at hlive'
  cases hlive'
  cases FileType.code_inj (htype.symm.trans htype')

/-- The `unlink` of a name that is bound to a file returns OK. -/
theorem unlink_returns (h : Encoded c parent list) {e : Dirent} {content : List UInt8}
    (hfind : list.find? (fun cur => cur.name = name.bytes) = some e)
    (hfile : Stores c.ec.es.im (inum_of e.inum) .T_FILE content) :
    ∃ c', c.step (.unlink parent name) = .ok (.unlink .OK, c') := by
  have hlists := h.lists_beside hfile
  obtain ⟨es', hunlink, _⟩ := unlink_spec hlists hfind (Set.mem_insert_of_mem _ rfl)
    (Function.update_of_ne (h.inum_ne hfile) _ _)
  exact ⟨_, unlink_step.mpr hunlink⟩

/-- A creating call with a new name does so too. -/
theorem make_returns (h : Encoded c parent list) {op : ClientOp} (hcreates : Creates op parent name type value)
    (hunbound : ∀ e ∈ list, e.name ≠ name.bytes) (hlong : name.bytes.length ≤ MAXFILE * BLOCK_SIZE)
    (hvalue : (value_bytes value).length < 2 ^ 31) : ∃ id c', c.step op = .ok (.node .OK id, c') := by
  have hfind : list.find? (fun elem => elem.name = name.bytes) = none := by
    rw [List.find?_eq_none]
    intro e he
    simpa using hunbound e he
  obtain ⟨id, c', hmake, _⟩ := make_node_spec h.lists type value 0 hfind hlong hvalue
  exact ⟨id, c', creates_step hcreates hmake⟩

end Encoded

/-- Where the encoding of a list of entries is stored in a directory, `readdir` returns the
    list. A creating call with a new name returns OK, and what it writes is read as the list
    and the new pair. The `unlink` of a name that is bound to a file returns OK, and what it
    writes is the encoding of the entries that are left, and is read as these. -/
theorem directory_codec (h : Encoded c parent list) :
    c.Listing parent .OK list ∧
      (∀ op name type value, Creates op parent name type value → (∀ e ∈ list, e.name ≠ name.bytes) →
        name.bytes.length ≤ MAXFILE * BLOCK_SIZE → (value_bytes value).length < 2 ^ 31 →
          ∃ id c', c.step op = .ok (.node .OK id, c')) ∧
      (∀ op name type value id c', Creates op parent name type value → slash ∉ name.bytes →
        c.step op = .ok (.node .OK id, c') →
          Writes c' parent (dir_text list ++ inum_name_pair id name.bytes) ∧
            c'.parse (dir_text list ++ inum_name_pair id name.bytes) =
              (.OK, list ++ [({ inum := id, name := name.bytes } : Dirent)]) ∧
            (c.ec.es.Untroubled c'.ec.es → Fits (dir_text list ++ inum_name_pair id name.bytes) →
              Fits (value_bytes value) →
                c'.Listing parent .OK (list ++ [({ inum := id, name := name.bytes } : Dirent)]))) ∧
      (∀ name e content, list.find? (fun cur => cur.name = name.bytes) = some e →
        Stores c.ec.es.im (inum_of e.inum) .T_FILE content →
          ∃ c', c.step (.unlink parent name) = .ok (.unlink .OK, c')) ∧
      ∀ name c', c.step (.unlink parent name) = .ok (.unlink .OK, c') →
        Writes c' parent (dir_text (without name list)) ∧
          c'.parse (dir_text (without name list)) = (.OK, without name list) ∧
          c'.Listing parent .OK (without name list) := by
  refine ⟨h.listing, ?_, ?_, ?_, ?_⟩
  · intro op name type value hcreates hunbound hlong hvalue
    exact h.make_returns hcreates hunbound hlong hvalue
  · intro op name type value id c' hcreates hname hstep
    rw [hcreates.step] at hstep
    obtain ⟨⟨ret, ino, c₁⟩, hmake, hret⟩ := Except.bind_eq_ok_iff.mp hstep
    cases hret
    obtain ⟨hwrites, hafter⟩ := h.created hname hmake
    refine ⟨hwrites, parse_append (parse_dir_text c' h.names) id hname, ?_⟩
    intro hok hfits hvalue
    exact (hafter hok hfits hvalue).listing
  · intro name e content hfind hfile
    exact h.unlink_returns hfind hfile
  · intro name c' hstep
    obtain ⟨hwrites, hafter⟩ := h.unlinked (unlink_step.mp hstep)
    exact ⟨hwrites, parse_dir_text c' hafter.names, hafter.listing⟩

/-- A directory and a file are listed, and the file is unlinked. -/
theorem directory_codec_growth :
    ∃ start c c', ChfsClient.new 0 still 0 = .ok start ∧ Trace step Ordinary start growth c ∧
      c.Listing 1 .OK [({ inum := 2, name := name_a.bytes } : Dirent), { inum := 4, name := name_b.bytes }] ∧
      c.step (.unlink 1 name_b) = .ok (.unlink .OK, c') ∧
      Writes c' 1 (dir_text [({ inum := 2, name := name_a.bytes } : Dirent)]) ∧
      c'.Listing 1 .OK [({ inum := 2, name := name_a.bytes } : Dirent)] := by
  obtain ⟨start, hnew⟩ := new_zero still 0
  obtain ⟨fs, c, hrun, h, hroot, _, _, hfile⟩ := run_growth hnew
  have hlists := h.shows.lists hroot
  have hencoded : Encoded c 1 [({ inum := 2, name := name_a.bytes } : Dirent), { inum := 4, name := name_b.bytes }] :=
    ⟨hlists.represents.owned, slash_not_mem_of_parse hlists.parse, hlists.stores⟩
  obtain ⟨hlisting, _, _, hreturns, hunlink⟩ := directory_codec hencoded
  obtain ⟨c', hstep⟩ := hreturns name_b { inum := 4, name := name_b.bytes } [] (by decide)
    (h.shows.represents.stored _ _ _ (Nodes.files_file.mpr hfile))
  obtain ⟨hwrites, _, hafter⟩ := hunlink name_b c' hstep
  have hwithout : without name_b [({ inum := 2, name := name_a.bytes } : Dirent), { inum := 4, name := name_b.bytes }] =
      [{ inum := 2, name := name_a.bytes }] := by decide
  rw [hwithout] at hwrites hafter
  exact ⟨start, c, c', hnew, hrun, hlisting, hstep, hwrites, hafter⟩

end chfs.ChfsClient
