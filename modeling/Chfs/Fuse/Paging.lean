import Chfs.Fuse.Run

namespace chfs

open InodeManager ExtentServer ChfsClient

namespace Nodes

variable {lib : Libfuse} {fs fs' : Nodes} {request : FuseRequest} {reply : FuseReply} {dir : UInt32}
  {seen rest : List Dirent}

/-- A request that does not unlink the first entries of a directory leaves them the first. -/
theorem Answers.lists_first (h : fs.Answers lib request reply fs') (hdir : fs dir = some (.dir (seen ++ rest)))
    (hkept : ∀ parent name, request = .unlink parent name → inum_of parent = dir → ∀ e ∈ seen, e.name ≠ name.bytes) :
    ∃ rest', fs' dir = some (.dir (seen ++ rest')) := by
  cases h with
  | @made _ parent id name _ _ _ entries _ _ _ hparent _ hfresh hafter _ =>
    subst hafter
    by_cases heq : dir = inum_of parent
    · rw [← heq, hdir] at hparent
      cases hparent
      refine ⟨rest ++ [{ inum := id, name := name.bytes }], ?_⟩
      rw [bind, heq, Function.update_self, List.append_assoc]
    · have hne : dir ≠ inum_of id := by
        rintro rfl
        rw [hdir] at hfresh
        cases hfresh
      refine ⟨rest, ?_⟩
      rw [bind, Function.update_of_ne heq, Function.update_of_ne hne, hdir]
  | @unlinked parent name entries e content hparent _ hname hfile =>
    by_cases heq : dir = inum_of parent
    · have hseen := hkept parent name rfl heq.symm
      rw [← heq, hdir] at hparent
      cases hparent
      refine ⟨rest.filter fun cur => cur.name ≠ e.name, ?_⟩
      have hfirst : seen.filter (fun cur => cur.name ≠ e.name) = seen := by
        rw [List.filter_eq_self]
        intro cur hcur
        rw [hname]
        exact decide_eq_true (hseen cur hcur)
      rw [unbind, heq, Function.update_self, List.filter_append, hfirst]
    · have hne : dir ≠ inum_of e.inum := by
        rintro rfl
        rw [hdir] at hfile
        cases hfile
      refine ⟨rest, ?_⟩
      rw [unbind, Function.update_of_ne heq, Function.update_of_ne hne, hdir]
  | @written ino _ _ _ _ hfile _ =>
    have hne : dir ≠ inum_of ino := by
      rintro rfl
      rw [hdir] at hfile
      cases hfile
    exact ⟨rest, by rw [Function.update_of_ne hne, hdir]⟩
  | @resized ino _ _ _ _ _ _ hfile hafter _ =>
    have hne : dir ≠ inum_of ino := by
      rintro rfl
      rw [hdir] at hfile
      cases hfile
    exact ⟨rest, by rw [hafter, Function.update_of_ne hne, hdir]⟩
  | _ => exact ⟨rest, hdir⟩

end Nodes

/-- The records of a listing are not many times as long as the text of the directory. -/
theorem Libfuse.total_le {lib : Libfuse} (hsmall : ∀ namelen, lib.dirent_size namelen ≤ namelen + 31)
    (entries : List Dirent)
    (hnames : ∀ e ∈ entries, ValidName e.name) : lib.format.total entries ≤ 11 * (dir_text entries).length := by
  induction entries with
  | nil => simp
  | cons e entries ih =>
    have hrest := ih fun other hother => hnames other (List.mem_cons_of_mem _ hother)
    have hsize : lib.format.size e ≤ e.name.length + 31 := hsmall e.name.length
    have hname := (hnames e List.mem_cons_self).1
    have htext : (dir_text (e :: entries)).length =
      (inum_name_pair e.inum e.name).length + (dir_text entries).length := by
      rw [dir_text, List.flatMap_cons, List.length_append]
      rfl
    have hpair : e.name.length + 2 ≤ (inum_name_pair e.inum e.name).length := by
      simp only [inum_name_pair, List.length_append, List.length_singleton]
      omega
    rw [RecordFormat.total_cons, htext]
    omega

/-- Someone who lists a directory: the entries taken so far, and where the next page starts. -/
structure Reader where
  seen : List Dirent
  pos : Nat

/-- A request of the reader for a page, of which up to `count` entries are taken, or of
    somebody else. -/
inductive ReaderCall where
  | next (size : UInt64) (garbage : Garbage) (count : Nat)
  | other (call : FuseCall)

namespace Reader

variable (lib : Libfuse) (decode : List UInt8 → Option (Dirent × Nat × List UInt8)) (dir : UInt64)

/-- A reader that has just opened the directory. -/
def opened : Reader := { seen := [], pos := 0 }

/-- The last entry taken tells where to go on. -/
def take (r : Reader) (count : Nat) (page : List UInt8) : Reader :=
  let records := (RecordFormat.scan decode page.length page).take count
  { seen := r.seen ++ records.map Prod.fst, pos := (records.map Prod.snd).getLastD r.pos }

def page_call (r : Reader) (size : UInt64) (garbage : Garbage) : FuseCall :=
  { request := .readdir dir size (Int64.ofNat r.pos), garbage }

def step (s : ChfsClient × Reader) : ReaderCall → Result (List FuseReply × (ChfsClient × Reader))
  | .next size garbage count => do
    let (replies, chfs) ← Fuse.step lib s.1 (s.2.page_call dir size garbage)
    match replies with
    | [.buf page] => return (replies, chfs, s.2.take decode count page)
    | _ => return (replies, chfs, s.2)
  | .other call => do
    let (replies, chfs) ← Fuse.step lib s.1 call
    return (replies, chfs, s.2)

/-- Others give new nodes valid names. They may change the directory, but do not unlink what
    the reader has seen in it. -/
def Allowed (s : ChfsClient × Reader) : ReaderCall → Prop
  | .next _ _ _ => True
  | .other call =>
    Fuse.Ordinary s.1 call ∧ call.request.Names ValidName ∧
      ∀ parent name, call.request = .unlink parent name → inum_of parent = inum_of dir →
        ∀ e ∈ s.2.seen, e.name ≠ name.bytes

variable {lib decode dir} {fs : Nodes} {c c' start : ChfsClient} {r r' : Reader} {rest : List Dirent}
  {replies : List FuseReply} {history : List (ReaderCall × List FuseReply)}

/-- The entries taken are the first of the directory's, and the next page starts behind them. -/
structure Follows (lib : Libfuse) (dir : UInt64) (fs : Nodes) (r : Reader) : Prop where
  strings : fs.Strings ValidName
  first : ∃ rest, fs (inum_of dir) = some (.dir (r.seen ++ rest))
  pos : r.pos = lib.format.total r.seen

/-- What a page brings: some of the next entries, and at least the first of them if the page
    has room for it. -/
theorem take_page (hlib : lib.Lawful decode) (hfollows : Follows lib dir fs r)
    (hfirst : fs (inum_of dir) = some (.dir (r.seen ++ rest))) (hbound : lib.format.total (r.seen ++ rest) < 2 ^ 63)
    (size : UInt64) (count : Nat) :
    ∃ first second, rest = first ++ second ∧
      r.take decode count (((lib.format.layout 0 (r.seen ++ rest)).drop r.pos).take size.toNat) =
        { seen := r.seen ++ first, pos := lib.format.total (r.seen ++ first) } ∧
      (1 ≤ count → (∀ e ∈ rest, lib.format.size e ≤ size.toNat) → first = [] → rest = []) := by
  have hnames : ∀ e ∈ rest, ValidName e.name := by
    intro e he
    exact hfollows.strings.names _ e (Nodes.mem_entries_iff.mpr ⟨_, hfirst, List.mem_append_right _ he⟩)
  rw [RecordFormat.total_append] at hbound
  have hdrop := RecordFormat.drop_layout hlib.sized r.seen rest 0
  rw [Nat.zero_add] at hdrop
  rw [hfollows.pos, hdrop]
  obtain ⟨first, second, hsplit, hscan, hnext⟩ := RecordFormat.scan_page hlib.sized hlib.decodes rest
    (lib.format.total r.seen) size.toNat hnames hbound
  refine ⟨first.take count, first.drop count ++ second, ?_, ?_, ?_⟩
  · rw [← List.append_assoc, List.take_append_drop, hsplit]
  · rw [take, hscan, RecordFormat.take_placed, RecordFormat.map_fst_placed, hfollows.pos, RecordFormat.last_placed,
      RecordFormat.total_append]
  · intro hcount hroom hnone
    have hfirst : first = [] := (List.take_eq_nil_iff.mp hnone).resolve_left (by omega)
    cases second with
    | nil => rw [hsplit, hfirst, List.nil_append]
    | cons e second =>
      have hlt := hnext e rfl
      have hle := hroom e (by rw [hsplit]; exact List.mem_append_right _ List.mem_cons_self)
      rw [hfirst, RecordFormat.total_nil] at hlt
      omega

/-- A directory that is held takes less than 2^63 bytes to list. -/
theorem total_lt (hlib : lib.Lawful decode) (h : Shows fs c) (hstrings : fs.Strings ValidName) {entries : List Dirent}
    (hdir : fs (inum_of dir) = some (.dir entries)) : lib.format.total entries < 2 ^ 63 := by
  have hlists := h.lists hdir
  have htext := fits_iff.mp hlists.stores.fits
  have htotal := Libfuse.total_le hlib.small entries fun e he =>
    hstrings.names _ e (Nodes.mem_entries_iff.mpr ⟨entries, hdir, he⟩)
  omega

/-- A page follows on. -/
theorem next_follows (hlib : lib.Lawful decode) (h : Shows fs c) (hfollows : Follows lib dir fs r)
    (hfirst : fs (inum_of dir) = some (.dir (r.seen ++ rest))) {size : UInt64} {garbage : Garbage} {count : Nat}
    (hstep : step lib decode dir (c, r) (.next size garbage count) = .ok (replies, (c', r'))) :
    OnlyReads c.ec.es c'.ec.es ∧ ∃ first second, rest = first ++ second ∧
      r' = { seen := r.seen ++ first, pos := lib.format.total (r.seen ++ first) } ∧
      (1 ≤ count → (∀ e ∈ rest, lib.format.size e ≤ size.toNat) → first = [] → rest = []) := by
  obtain ⟨⟨answer, c₁⟩, hcall, hrest⟩ := Except.bind_eq_ok_iff.mp hstep
  have hbound := total_lt hlib h hfollows.strings hfirst
  have hpos : r.pos < 2 ^ 63 := by
    rw [RecordFormat.total_append] at hbound
    rw [hfollows.pos]
    omega
  have hoff : (Int64.ofNat r.pos).toUInt64.toNat = r.pos := by
    rw [Int64.toUInt64_ofNat', UInt64.toNat_ofNat']
    omega
  obtain ⟨hpage, hreads⟩ :=
    (Fuse.step_done hcall).page hlib.sized h (hfollows.strings.mono fun _ hname => hname.2.2.1) hfirst
  subst hpage
  rw [hoff] at hrest
  cases hrest
  exact ⟨hreads, take_page hlib hfollows hfirst hbound size count⟩

/-- One step of the reader or of somebody else. -/
theorem step_follows (hlib : lib.Lawful decode) (h : Shows fs c) (hformed : fs.Formed) (hfollows : Follows lib dir fs r)
    {call : ReaderCall} (hallowed : Allowed dir (c, r) call)
    (hstep : step lib decode dir (c, r) call = .ok (replies, (c', r')))
    (hclean : c'.ec.es.Clean) : ∃ fs', Shows fs' c' ∧ fs'.Formed ∧ Follows lib dir fs' r' := by
  obtain ⟨rest, hfirst⟩ := hfollows.first
  cases call with
  | next size garbage count =>
    obtain ⟨hreads, first, second, hsplit, rfl, _⟩ := next_follows hlib h hfollows hfirst hstep
    refine ⟨fs, h.of_reads hreads, hformed, hfollows.strings, ⟨second, ?_⟩, rfl⟩
    rw [hfirst, hsplit, List.append_assoc]
  | other call =>
    obtain ⟨hordinary, hvalid, hkept⟩ := hallowed
    obtain ⟨⟨answer, c₁⟩, hcall, hrest⟩ := Except.bind_eq_ok_iff.mp hstep
    cases hrest
    have hnames := hfollows.strings.mono fun name (hname : ValidName name) => hname.2.2.1
    obtain ⟨fs', ⟨reply, _, hanswers⟩, h'⟩ := (Fuse.step_done hcall).refines hlib.sized h hnames hordinary hclean
    exact ⟨fs', h', hanswers.formed hformed, hanswers.strings hfollows.strings hvalid,
      hanswers.lists_first hfirst hkept,
      hfollows.pos⟩

theorem step_reaches {call : ReaderCall} (hstep : step lib decode dir (c, r) call = .ok (replies, (c', r'))) :
    c.ec.es.Reaches c'.ec.es := by
  cases call with
  | next size garbage count =>
    obtain ⟨⟨answer, c₁⟩, hcall, hrest⟩ := Except.bind_eq_ok_iff.mp hstep
    have hreaches := (Fuse.step_done hcall).reaches
    dsimp only at hrest
    split at hrest <;> cases hrest <;> exact hreaches
  | other call =>
    obtain ⟨⟨answer, c₁⟩, hcall, hrest⟩ := Except.bind_eq_ok_iff.mp hstep
    cases hrest
    exact (Fuse.step_done hcall).reaches

theorem run_follows (hlib : lib.Lawful decode) {c₀ : ChfsClient}
    (howned : c₀.ec.es.longest_put < 2 ^ 31 → Owned c₀.ec.es.im)
    (hopened : c₀.ec.es.Clean → ∃ fs, Shows fs c₀ ∧ fs.Formed ∧ Follows lib dir fs opened)
    (hrun : Trace (step lib decode dir) (Allowed dir) (c₀, opened) history (c, r)) (hclean : c.ec.es.Clean) :
    ∃ fs, Shows fs c ∧ fs.Formed ∧ Follows lib dir fs r := by
  let P : ChfsClient × Reader → Prop := fun s => c₀.ec.es.Reaches s.1.ec.es ∧
    (s.1.ec.es.Clean → ∃ fs, Shows fs s.1 ∧ fs.Formed ∧ Follows lib dir fs s.2)
  have hlast : P (c, r) := by
    refine hrun.invariant (P := P) ⟨.refl _, hopened⟩ ?_
    rintro ⟨c, r⟩ call replies ⟨c', r'⟩ ⟨hreaches, hbefore⟩ hallowed hstep
    have hreaches' := step_reaches hstep
    refine ⟨hreaches.trans hreaches', ?_⟩
    intro (hclean' : c'.ec.es.Clean)
    have hlong := hreaches'.longest_le.trans_lt hclean'.longest_lt
    have howned' := hreaches.owned (howned (hreaches.longest_le.trans_lt hlong)) hlong
    obtain ⟨fs, h, hformed, hfollows⟩ := hbefore (hreaches'.clean howned' hclean')
    exact step_follows hlib h hformed hfollows hallowed hstep hclean'
  exact hlast.2 hclean

/-- At first nothing has been taken. -/
theorem follows_opened (h : Shows fs c) (hstrings : fs.Strings ValidName) (hdir : c.isdir dir = true) :
    Follows lib dir fs opened :=
  ⟨hstrings, h.isdir_iff.mp hdir, rfl⟩

/-- What a reader has, and what its next page brings. -/
structure Paged (lib : Libfuse) (decode : List UInt8 → Option (Dirent × Nat × List UInt8)) (dir : UInt64)
    (c : ChfsClient)
    (r : Reader) : Prop where
  first : ∃ rest, c.Listing dir .OK (r.seen ++ rest)
  once : (r.seen.map Dirent.name).Nodup
  next : ∀ size garbage count, ∃ replies c' r',
    step lib decode dir (c, r) (.next size garbage count) = .ok (replies, (c', r')) ∧
    r.seen <+: r'.seen ∧ (1 ≤ count → 286 ≤ size.toNat → r.seen.length < r'.seen.length ∨ c.Listing dir .OK r.seen)

theorem Follows.paged (hfollows : Follows lib dir fs r) (hlib : lib.Lawful decode) (h : Shows fs c)
    (hformed : fs.Formed) :
    Paged lib decode dir c r := by
  obtain ⟨rest, hfirst⟩ := hfollows.first
  refine ⟨⟨rest, h.listing_iff.mpr hfirst⟩, ?_, ?_⟩
  · have hnodup := hformed.names _ _ hfirst
    rw [List.map_append] at hnodup
    exact hnodup.of_append_left
  · intro size garbage count
    have hordinary : Fuse.Ordinary c (r.page_call dir size garbage) := trivial
    have hsendable : Fuse.Sendable (r.page_call dir size garbage) := trivial
    obtain ⟨⟨answer, c'⟩, hcall⟩ := Fuse.step_returns lib h hordinary hsendable
    have hstep : ∃ replies c' r', step lib decode dir (c, r) (.next size garbage count) = .ok (replies, (c', r')) := by
      rw [step, hcall]
      dsimp only [Except.ok_bind]
      split <;> exact ⟨_, _, _, rfl⟩
    obtain ⟨replies, c', r', hstep⟩ := hstep
    refine ⟨replies, c', r', hstep, ?_⟩
    obtain ⟨_, first, second, hsplit, rfl, hroom⟩ := next_follows hlib h hfollows hfirst hstep
    refine ⟨List.prefix_append _ _, ?_⟩
    intro hcount hsize
    cases first with
    | cons e first =>
      left
      rw [List.length_append, List.length_cons]
      omega
    | nil =>
      right
      have hrest : rest = [] := by
        apply hroom hcount
        · intro e he
          have hname := hfollows.strings.names _ e (Nodes.mem_entries_iff.mpr ⟨_, hfirst, List.mem_append_right _ he⟩)
          have hsmall := hlib.small e.name.length
          have hlength := hname.2.1
          change lib.dirent_size e.name.length ≤ _
          omega
        · rfl
      rw [hrest, List.append_nil] at hfirst
      exact h.listing_iff.mpr hfirst

/-- Whoever pages through a directory gets its entries in order, each once, while others
    change it, as long as nothing is unlinked that has been taken: a page with room for a
    record brings more, unless there is nothing more. -/
theorem directory_is_paged {garbage : UInt32} {env : Env} {stack : UInt64} {before : List (FuseCall × List FuseReply)}
    {c₀ : ChfsClient} (hlib : lib.Lawful decode) (hnew : ChfsClient.new garbage env stack = .ok start)
    (hbefore : Trace (Fuse.step lib) (fun c call => Fuse.Ordinary c call ∧ call.request.Names ValidName) start before
      c₀)
    (hdir : c₀.isdir dir = true) (hrun : Trace (step lib decode dir) (Allowed dir) (c₀, opened) history (c, r))
    (hclean : c.ec.es.Clean) : Paged lib decode dir c r := by
  have hstart := fresh_client hnew
  have hopened : c₀.ec.es.Clean → ∃ fs, Shows fs c₀ ∧ fs.Formed ∧ Follows lib dir fs opened := by
    intro hclean₀
    obtain ⟨fs, hruns, h, hstrings⟩ := Fuse.run_refines (fun _ hname => hname.2.2.1) hlib.sized hstart hbefore hclean₀
    exact ⟨fs, h, Fuse.serves_formed hruns, follows_opened h hstrings hdir⟩
  have howned := (Fuse.run_reaches hbefore).owned hstart.owned
  obtain ⟨fs, h, hformed, hfollows⟩ := run_follows hlib howned hopened hrun hclean
  exact hfollows.paged hlib h hformed

theorem names_first : Fuse.first_call.request.Names ValidName := by
  rintro parent name type value reply hcreates
  cases hcreates
  exact ⟨by decide, by decide, by decide, by decide⟩

/-- The one entry of the root is read with one page. -/
theorem directory_is_paged_first : ∃ c r, r.seen = [{ inum := 2, name := name_a.bytes }] ∧
    Paged FuseDirent.lib FuseDirent.decode 1 c r := by
  obtain ⟨start, hnew⟩ := new_zero still 0
  obtain ⟨st, c₀, hcall, hcreate, hclean₀⟩ := Fuse.step_first hnew FuseDirent.lib
  have hbefore : Trace (Fuse.step FuseDirent.lib)
      (fun c call => Fuse.Ordinary c call ∧ call.request.Names ValidName) start
      [(Fuse.first_call, _)] c₀ := .cons .nil ⟨Fuse.ordinary_first start, names_first⟩ hcall
  obtain ⟨fs, hmade, h⟩ := ChfsClient.step_refines (shows_start (fresh_client hnew))
    (ChfsClient.ordinary_first start) hcreate hclean₀
  have hlisted : fs (inum_of 1) = some (.dir [{ inum := 2, name := name_a.bytes }]) := by
    cases hmade with
    | made hcreates hdir _ _ =>
      cases hcreates
      cases hdir
      rfl
  have hstrings : fs.Strings ValidName := by
    cases hmade with
    | made hcreates hdir _ hfresh =>
      cases hcreates
      exact (Nodes.strings_root _).bind hdir hfresh (names_first _ _ _ _ _ .create)
  have hdir := h.isdir_iff.mpr ⟨_, hlisted⟩
  have hfollows : Follows FuseDirent.lib 1 fs opened := follows_opened h hstrings hdir
  have hformed := hmade.formed Nodes.formed_root
  obtain ⟨replies, c, r, hstep, _⟩ := (hfollows.paged FuseDirent.lawful h hformed).next 4096 Fuse.zeros 1
  obtain ⟨hreads, first, second, hsplit, rfl, hroom⟩ := next_follows FuseDirent.lawful h hfollows hlisted hstep
  have hclean : c.ec.es.Clean := hclean₀.mono hreads.tally.le
  have hallowed : Allowed 1 (c₀, opened) (.next 4096 Fuse.zeros 1) := trivial
  refine ⟨c, _, ?_, directory_is_paged FuseDirent.lawful hnew hbefore hdir (.cons .nil hallowed hstep) hclean⟩
  cases first with
  | nil => cases hroom le_rfl (by decide) rfl
  | cons e first =>
    obtain ⟨rfl, hrest⟩ := List.cons_eq_cons.mp hsplit
    rw [(List.append_eq_nil_iff.mp hrest.symm).1]
    rfl

end Reader

end chfs
