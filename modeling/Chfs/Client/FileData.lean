import Chfs.Client.Ready

namespace chfs.ChfsClient

open BlockManager InodeManager ExtentServer

variable {c c' start : ChfsClient} {history : List (ClientOp × ClientReply)} {ino : UInt64} {text : List UInt8}

/-- The calls on a file see this content. -/
structure FileData (c : ChfsClient) (ino : UInt64) (text : List UInt8) : Prop where
  read : ∀ size off, 0 ≤ off.toInt →
    ∃ c', c.step (.read ino size off) = .ok (.read .OK ((text.drop off.toInt.toNat).take size.toNat), c')
  write : ∀ size off data, 0 ≤ off.toInt → Fits (splice text off.toInt.toNat (data.bytes size.toNat)) →
    ∃ c', c.step (.write ino size off data) = .ok (.write .OK size, c')
  written : ∀ size off data reply c', c.step (.write ino size off data) = .ok (reply, c') → reply = .write .OK size
  setattr : ∀ size, ∃ c', c.step (.setattr ino size) = .ok (.setattr .OK, c')
  size : (c.ec.es.getattr ino).2.size.toNat = text.length

theorem fileData_of_stored {known : Set UInt32} {files : Files} (h : RepresentsOn known c.ec.es.im files)
    (hid : inum_of ino ∈ known) (hfile : files (inum_of ino) = some (.T_FILE, text)) : FileData c ino text where
  read := by
    intro size off hoff
    obtain ⟨es', hread, _⟩ := read_spec h hid hfile hoff size
    exact ⟨_, by rw [step, hread]; rfl⟩
  write := by
    intro size off data hoff hfits
    have hlen := fits_iff.mp hfits
    have hspec : ∃ es', c.write ino size off data 0 = .ok (.OK, size, c.with_server es') ∧ _ :=
      write_spec h hid hfile hoff (by omega)
    obtain ⟨es', hwrite, _⟩ := hspec
    exact ⟨_, by rw [step, hwrite]; rfl⟩
  written := by
    intro size off data reply c' hstep
    obtain ⟨⟨ret, bytes_written, c₁⟩, hwrite, heq⟩ := Except.bind_eq_ok_iff.mp hstep
    cases heq
    obtain ⟨rfl, rfl, _⟩ := write_done hwrite
    rfl
  setattr := by
    intro size
    obtain ⟨es', hset, _⟩ := setattr_spec h hid hfile size
    exact ⟨_, by rw [step, hset]; rfl⟩
  size := by
    obtain ⟨a, hattr, _, hsize⟩ := getattr_spec h hid
    rw [hattr, hsize, Files.content_eq hfile]

/-- Along every run without failures the content of each file is what the calls on its inum
    since its creation have made of it. -/
theorem file_data_follows {garbage : UInt32} {env : Env} {stack : UInt64}
    (hnew : ChfsClient.new garbage env stack = .ok start) (hrun : Trace step Ordinary start history c)
    (hclean : c.ec.es.Clean) (hfile : c.isfile ino = true) : FileData c ino (content (inum_of ino) history) := by
  obtain ⟨fs, hruns, h⟩ := run_refines (fresh_client hnew) hrun hclean
  obtain ⟨text, htext⟩ := h.isfile_iff.mp hfile
  rw [Nodes.run_told hruns _ _ htext]
  exact fileData_of_stored h.represents_on trivial (Nodes.files_file.mpr htext)

/-- A file that is written behind its end and then in its middle. -/
theorem file_data_follows_tour :
    ∃ start c : ChfsClient, ChfsClient.new 0 still 0 = .ok start ∧ Trace step Ordinary start tour c ∧
    FileData c 3 [0, 120, 0, 104, 105] := by
  obtain ⟨start, hnew⟩ := new_zero still 0
  obtain ⟨fs, c, hrun, h, _, _, hcontent⟩ := run_tour hnew
  have hfile : c.isfile 3 = true := h.shows.isfile_iff.mpr ⟨_, hcontent⟩
  have hdata := file_data_follows hnew hrun h.clean hfile
  have htext : content (inum_of 3) tour = [0, 120, 0, 104, 105] := by decide
  rw [htext] at hdata
  exact ⟨start, c, hnew, hrun, hdata⟩

end chfs.ChfsClient
