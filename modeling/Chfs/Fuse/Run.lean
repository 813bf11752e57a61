import Chfs.Fuse.Dirent
import Chfs.Fuse.Returns

namespace chfs

open ExtentServer

namespace Fuse

open ChfsClient

variable {lib : Libfuse} {allowed : ChfsClient → FuseCall → Prop} {c c' start : ChfsClient} {call : FuseCall}
  {replies : List FuseReply} {history : List (FuseCall × List FuseReply)} {garbage : UInt32} {env : Env}
  {stack : UInt64}

/-- A handler that returns has replied once. -/
theorem StepDone.replied (h : StepDone lib c call replies c') : ∃ reply, replies = [reply] := by
  cases h <;> exact ⟨_, rfl⟩

theorem StepDone.client (h : StepDone lib c call replies c') : c' = c ∨ ∃ op answer, c.step op = .ok (answer, c') := by
  cases h with
  | resized _ hstep => exact .inr ⟨_, _, hstep⟩
  | listed _ hstep => exact .inr ⟨_, _, hstep⟩
  | found hstep => exact .inr ⟨_, _, hstep⟩
  | not_found hstep => exact .inr ⟨_, _, hstep⟩
  | made _ hstep => exact .inr ⟨_, _, hstep⟩
  | not_made _ _ hstep => exact .inr ⟨_, _, hstep⟩
  | read hstep => exact .inr ⟨_, _, hstep⟩
  | write hstep => exact .inr ⟨_, _, hstep⟩
  | unlink hstep => exact .inr ⟨_, _, hstep⟩
  | readlink hstep => exact .inr ⟨_, _, hstep⟩
  | not_link _ hstep => exact .inr ⟨_, _, hstep⟩
  | _ => exact .inl rfl

theorem StepDone.reaches (h : StepDone lib c call replies c') : c.ec.es.Reaches c'.ec.es := by
  rcases h.client with rfl | ⟨op, answer, hstep⟩
  · exact .refl _
  · exact (ChfsClient.step_done hstep).reaches

/-- A run of the handlers is a run of the server. -/
theorem run_reaches (hrun : Trace (step lib) allowed start history c) : start.ec.es.Reaches c.ec.es := by
  refine hrun.invariant (P := fun c => start.ec.es.Reaches c.ec.es) (.refl _) ?_
  intro c call replies c' hreaches _ hstep
  exact hreaches.trans (step_done hstep).reaches

/-- Each run without failures is a run of the file system shown. -/
theorem run_refines {P : List UInt8 → Prop} (hP : ∀ name, P name → 0 ∉ name) (hlib : lib.format.Sized)
    (hstart : Fresh start.ec.es.im)
    (hrun : Trace (step lib) (fun c call => Ordinary c call ∧ call.request.Names P) start history c)
    (hclean : c.ec.es.Clean) : ∃ fs, Runs (Nodes.Serves lib) .root history fs ∧ Shows fs c ∧ fs.Strings P := by
  refine Trace.simulates (fun c fs => Shows fs c ∧ fs.Strings P) (fun c => c.ec.es.Clean)
    ⟨shows_start hstart, Nodes.strings_root P⟩ ?_ ?_ hrun hclean
  · rintro c fs call replies c' ⟨h, hstrings⟩ ⟨hcall, hnames⟩ hstep hclean
    obtain ⟨fs', ⟨reply, hreply, hanswers⟩, h'⟩ := (step_done hstep).refines hlib h (hstrings.mono hP) hcall hclean
    exact ⟨fs', ⟨reply, hreply, hanswers⟩, h', hanswers.strings hstrings hnames⟩
  · intro history c call replies c' hearlier hstep hclean
    have hreaches := (step_done hstep).reaches
    have hlong := hclean.longest_lt
    have hle := hreaches.longest_le
    exact hreaches.clean ((run_reaches hearlier).owned hstart.owned (by omega)) hclean

/-- The names in a call are strings of C anyway. -/
theorem named_of_ordinary (hrun : Trace (step lib) Ordinary start history c) :
    Trace (step lib) (fun c call => Ordinary c call ∧ call.request.Names fun name => 0 ∉ name) start history c :=
  hrun.weaken fun _ _ hcall => ⟨hcall, fun _ name _ _ _ _ => name.no_nul⟩

/-- The file system stays a tree. -/
theorem serves_formed {fs : Nodes} (hruns : Runs (Nodes.Serves lib) .root history fs) : fs.Formed := by
  refine hruns.invariant Nodes.formed_root ?_
  rintro fs call replies fs' hformed ⟨_, _, hanswers⟩
  exact hanswers.formed hformed

/-- Along every run without failures the kernel is answered by a tree of files, directories
    and links, as the client's server holds it. -/
theorem mount_refines_nodes (hlib : lib.format.Sized) (hnew : ChfsClient.new garbage env stack = .ok start)
    (hrun : Trace (step lib) Ordinary start history c) (hclean : c.ec.es.Clean) :
    ∃ fs, Runs (Nodes.Serves lib) .root history fs ∧ fs.Formed ∧ Shows fs c := by
  obtain ⟨fs, hruns, h, _⟩ :=
    run_refines (fun _ hname => hname) hlib (fresh_client hnew) (named_of_ordinary hrun) hclean
  exact ⟨fs, hruns, serves_formed hruns, h⟩

/-- Uninitialised variables and memory that happen to hold zeros. -/
def zeros : Garbage where
  inum := 0
  e := { ino := 0, generation := 0, attr :=
    { st_ino := 0, st_mode := 0, st_nlink := 0, st_atime := 0, st_mtime := 0, st_ctime := 0, st_size := 0 } }
  heap := Mem.zero

/-- The request for a first file. -/
def first_call : FuseCall := { request := .create 1 name_a, garbage := zeros }

theorem ordinary_first (c : ChfsClient) : Ordinary c first_call := slash_not_mem_name_a

theorem sendable_first : Sendable first_call := length_name_a.trans (by omega)

/-- A new node is replied with its inode and attributes. -/
theorem step_made {fs : Nodes} {request : FuseRequest} {op : ClientOp} {reply : EntryParam → FuseReply} {ino : UInt64}
    {g : Garbage}
    (lib : Libfuse) (h : Shows fs c) (hmakes : Makes request op reply) (hcall : Ordinary c ⟨request, g⟩)
    (hsend : Sendable ⟨request, g⟩)
    (hmake : c.step op = .ok (.node .OK ino, c')) :
    step lib c ⟨request, g⟩ = .ok ([reply { ino, generation := 0, attr := (getattr c' ino).2 }], c') := by
  obtain ⟨⟨replies, c''⟩, hstep⟩ := step_returns lib h hcall hsend
  have hdone := step_done hstep
  cases hmakes <;> cases hdone with
  | made hmakes' hmake' =>
    cases hmakes'
    rw [hmake] at hmake'
    cases hmake'
    exact hstep
  | not_made hmakes' hret hmake' =>
    cases hmakes'
    rw [hmake] at hmake'
    cases hmake'
    exact absurd rfl hret

theorem step_first (hnew : ChfsClient.new garbage env stack = .ok start) (lib : Libfuse) :
    ∃ st c, step lib start first_call = .ok ([.create { ino := 2, generation := 0, attr := st }], c) ∧
      start.step (.create 1 name_a) = .ok (.node .OK 2, c) ∧ c.ec.es.Clean := by
  obtain ⟨c, hcreate, hclean, _⟩ := create_first_file hnew
  exact ⟨(getattr c 2).2, c,
    step_made lib (shows_start (fresh_client hnew)) .create (ordinary_first start) sendable_first hcreate,
    hcreate, hclean⟩

theorem mount_refines_nodes_first : ∃ st c fs, Runs (Nodes.Serves FuseDirent.lib) .root
    [(first_call, [.create { ino := 2, generation := 0, attr := st }])] fs ∧ fs.Formed ∧ Shows fs c := by
  obtain ⟨start, hnew⟩ := new_zero still 0
  obtain ⟨st, c, hstep, _, hclean⟩ := step_first hnew FuseDirent.lib
  exact ⟨st, c, mount_refines_nodes FuseDirent.lawful.sized hnew (.cons .nil (ordinary_first start) hstep) hclean⟩

/-- After any run without failures the next request is replied, and once, whatever the
    uninitialised variables of its handler hold. It may be the one that fills the disk. -/
theorem next_request_is_replied (hlib : lib.format.Sized) (hnew : ChfsClient.new garbage env stack = .ok start)
    (hrun : Trace (step lib) Ordinary start history c) (hclean : c.ec.es.Clean) (hcall : Ordinary c call)
    (hsend : Sendable call) : ∃ reply c', step lib c call = .ok ([reply], c') := by
  obtain ⟨fs, _, h, _⟩ := run_refines (fun _ hname => hname) hlib (fresh_client hnew) (named_of_ordinary hrun) hclean
  obtain ⟨⟨replies, c'⟩, hstep⟩ := step_returns lib h hcall hsend
  obtain ⟨reply, rfl⟩ := (step_done hstep).replied
  exact ⟨reply, c', hstep⟩

/-- Once there is a first file, its name is taken. -/
theorem next_request_is_replied_first : ∃ start st c, step FuseDirent.lib start first_call =
    .ok ([.create { ino := 2, generation := 0, attr := st }], c) ∧
      ∃ reply c', step FuseDirent.lib c first_call = .ok ([reply], c') := by
  obtain ⟨start, hnew⟩ := new_zero still 0
  obtain ⟨st, c, hstep, _, hclean⟩ := step_first hnew FuseDirent.lib
  exact ⟨start, st, c, hstep, next_request_is_replied FuseDirent.lawful.sized hnew
    (.cons .nil (ordinary_first start) hstep) hclean (ordinary_first c) sendable_first⟩

end Fuse

end chfs
