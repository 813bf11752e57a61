import Chfs.Client.Start

namespace chfs.ChfsClient

open BlockManager InodeManager ExtentServer Separated

variable {c start : ChfsClient} {es' : ExtentServer} {dir : UInt64} {s : List UInt8}

/-- `readdir` accepts exactly the texts `token/token/`. It lists one entry for each pair of
    the longest part of the text that consists of pairs, which is all of it or ends in IOERR. -/
theorem readdir_accepts_pairs (hdir : c.isdir dir = true) (hget : c.ec.es.get dir = .ok (.OK, s, es')) :
    ∃ ret ps, c.readdir dir [] = .ok (ret, ps.map c.dirent_of, c.with_server es') ∧ Free slash ps ∧
      (ret = .OK ↔ IsPairs slash s) ∧ (ret = .OK → s = pairs slash ps) ∧ (ret ≠ .OK → ret = .IOERR) ∧
      pairs slash ps <+: s ∧ (ps.map c.dirent_of).map Dirent.name = ps.map Prod.snd ∧
      ∀ qs, Free slash qs → pairs slash qs <+: s → (pairs slash qs).length ≤ (pairs slash ps).length := by
  obtain ⟨ps, rest, hps, rfl, hnone, hparse⟩ := c.parse_spec s
  have hread := readdir_of_get hdir hget
  rw [hparse] at hread
  refine ⟨_, ps, hread, hps, ?_, ?_, ?_, List.prefix_append _ _, by simp [dirent_of], ?_⟩
  · rw [isPairs_append_iff hps hnone]
    by_cases hrest : rest = [] <;> simp [hrest]
  · by_cases hrest : rest = [] <;> simp [hrest]
  · by_cases hrest : rest = [] <;> simp [hrest]
  · intro qs hqs hprefix
    exact length_le_of_noPair hps hqs hnone hprefix

/-- A short text that is put into the root at the start is what `get` returns. -/
theorem get_of_put_root (hnew : ChfsClient.new 0 still 0 = .ok start) (hshort : s.length ≤ 512) :
    ∃ es es', start.ec.es.put 1 s = .ok (.OK, es) ∧ (start.with_server es).isdir 1 = true ∧
      (start.with_server es).ec.es.get 1 = .ok (.OK, s, es') := by
  have hfresh := fresh_client hnew
  have hlists := lists_root hfresh
  have hmem : inum_of 1 ∈ Set.univ := trivial
  obtain ⟨es, hput, hdone⟩ := put_spec hlists.represents hmem (show s.length < 2 ^ 31 by omega)
  obtain ⟨hfailed, _⟩ := hdone.room (hlists.represents.stored _ hmem _ _ hlists.file).ne_none
  have hnone : es.im.bm.failed_allocs = start.ec.es.im.bm.failed_allocs := by
    have hfree := hfresh.free_count
    unfold target pointers_for blocks_for at hfailed
    omega
  have hrep := hdone.stored _ _ hlists.file hnone (fits_iff.mpr (by omega))
  obtain ⟨es', hget, _⟩ := get_spec hrep hmem
  rw [Files.content_eq (Function.update_self ..)] at hget
  exact ⟨es, es', hput, (isdir_iff_known hrep hmem).mpr ⟨s, Function.update_self ..⟩, hget⟩

/-- The text "2/a/3/b/" is that of two entries, and of "2/a/3/" the first pair is listed only. -/
theorem readdir_accepts_pairs_cut :
    ∃ start es₁ es₁' es₂ es₂', ChfsClient.new 0 still 0 = .ok start ∧
      start.ec.es.put 1 [50, 47, 97, 47, 51, 47, 98, 47] = .ok (.OK, es₁) ∧
      (start.with_server es₁).readdir 1 [] =
        .ok (.OK, [({ inum := 2, name := [97] } : Dirent), { inum := 3, name := [98] }], start.with_server es₁') ∧
      IsPairs slash [50, 47, 97, 47, 51, 47, 98, 47] ∧
      start.ec.es.put 1 [50, 47, 97, 47, 51, 47] = .ok (.OK, es₂) ∧
      (start.with_server es₂).readdir 1 [] =
        .ok (.IOERR, [({ inum := 2, name := [97] } : Dirent)], start.with_server es₂') ∧
      ¬ IsPairs slash [50, 47, 97, 47, 51, 47] := by
  obtain ⟨start, hnew⟩ := new_zero still 0
  obtain ⟨es₁, es₁', hput₁, hdir₁, hget₁⟩ :=
    get_of_put_root hnew (show [50, 47, 97, 47, 51, 47, 98, 47].length ≤ 512 by decide)
  obtain ⟨es₂, es₂', hput₂, hdir₂, hget₂⟩ := get_of_put_root hnew (show [50, 47, 97, 47, 51, 47].length ≤ 512 by decide)
  have hread₁ : (start.with_server es₁).readdir 1 [] =
      .ok (.OK, [({ inum := 2, name := [97] } : Dirent), { inum := 3, name := [98] }], start.with_server es₁') :=
    readdir_of_get hdir₁ hget₁
  have hread₂ : (start.with_server es₂).readdir 1 [] =
      .ok (.IOERR, [({ inum := 2, name := [97] } : Dirent)], start.with_server es₂') := readdir_of_get hdir₂ hget₂
  obtain ⟨ret₁, ps₁, hrun₁, _, hiff₁, _⟩ := readdir_accepts_pairs hdir₁ hget₁
  obtain ⟨ret₂, ps₂, hrun₂, _, hiff₂, _⟩ := readdir_accepts_pairs hdir₂ hget₂
  rw [hread₁] at hrun₁
  rw [hread₂] at hrun₂
  obtain ⟨rfl, _⟩ := Prod.mk.inj (Except.ok.inj hrun₁)
  obtain ⟨rfl, _⟩ := Prod.mk.inj (Except.ok.inj hrun₂)
  exact ⟨start, es₁, es₁', es₂, es₂', hnew, hput₁, hread₁, hiff₁.mp rfl, hput₂, hread₂,
    fun hpairs => by cases hiff₂.mpr hpairs⟩

end chfs.ChfsClient
