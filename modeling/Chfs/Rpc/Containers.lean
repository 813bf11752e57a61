import Chfs.Rpc.Operators

namespace chfs

open Marshall Unmarshall

namespace vector

variable {α : Type} {C : Wire α} {v : List α} {enc : α → Option (List UInt8)} {fresh : α → Prop} {n : UInt32}
  {z : Nat → α}
  {fuel : Nat} {bytes : List UInt8} {m m' : Marshall}

/-- The number of elements stands in front of them. -/
def encode (enc : α → Option (List UInt8)) (v : List α) : Option (List UInt8) :=
  if v.length < 2 ^ 32 then (Codec.enc_all enc v).map (uint_bytes (UInt32.ofNat v.length) ++ ·) else none

theorem encode_eq_some : encode enc v = some bytes ↔
    v.length < 2 ^ 32 ∧ ∃ rest, Codec.enc_all enc v = some rest ∧
      bytes = uint_bytes (UInt32.ofNat v.length) ++ rest := by
  unfold encode
  split
  · next hsize =>
    rw [Option.map_eq_some_iff]
    exact ⟨fun ⟨rest, h, hbytes⟩ => ⟨hsize, rest, h, hbytes.symm⟩, fun ⟨_, rest, h, hbytes⟩ => ⟨rest, h, hbytes.symm⟩⟩
  · next hsize => exact ⟨nofun, fun h => absurd h.1 hsize⟩

theorem count_eq (hsize : v.length < 2 ^ 32) : (UInt32.ofNat v.length).toNat = v.length := by
  rw [UInt32.toNat_ofNat']
  exact Nat.mod_eq_of_lt hsize

/-- Below 2^32 elements the loop marshals those from `i` on. -/
theorem put_loop_eq (hsize : v.length < 2 ^ 32) (fuel : Nat) :
    ∀ (i : UInt32) (m : Marshall), i.toNat ≤ v.length → v.length < i.toNat + fuel →
      put_loop C v fuel i m = C.puts m (v.drop i.toNat) := by
  induction fuel with
  | zero =>
    intro i m hle hfuel
    omega
  | succ fuel ih =>
    intro i m hle hfuel
    by_cases hlt : i.toNat < v.length
    · have hnext : (i + 1).toNat = i.toNat + 1 := by
        rw [UInt32.toNat_add, UInt32.toNat_one]
        omega
      rw [put_loop, dif_pos hlt, List.drop_eq_getElem_cons hlt, Codec.puts]
      congr 1
      funext m₁
      rw [ih (i + 1) m₁ (by omega) (by omega), hnext]
    · rw [put_loop, dif_neg hlt, List.drop_eq_nil_of_le (by omega), Codec.puts]

/-- From 2^32 elements on the counter never gets to the end, however long one waits. -/
theorem put_loop_endless (hsize : 2 ^ 32 ≤ v.length) (fuel : Nat) :
    ∀ (i : UInt32) (m m' : Marshall), put_loop C v fuel i m ≠ .ok m' := by
  induction fuel with
  | zero =>
    intro i m m' h
    cases h
  | succ fuel ih =>
    intro i m m' h
    have hlt : i.toNat < v.length := lt_of_lt_of_le i.toNat_lt hsize
    rw [put_loop, dif_pos hlt] at h
    obtain ⟨m₁, _, hrest⟩ := Except.bind_eq_ok_iff.mp h
    exact ih _ _ _ hrest

theorem put_eq (hsize : v.length < 2 ^ 32) (m : Marshall) :
    put C m v = (do let m ← uint.put m (UInt32.ofNat v.length); C.puts m v) := by
  rw [put]
  congr 1
  funext m₁
  rw [put_loop_eq hsize _ _ _ (Nat.zero_le _) (by rw [UInt32.toNat_zero]; omega), UInt32.toNat_zero, List.drop_zero]

theorem put_short (hput : put C m v = .ok m') : v.length < 2 ^ 32 := by
  obtain ⟨m₁, _, hloop⟩ := Except.bind_eq_ok_iff.mp hput
  by_contra hsize
  exact put_loop_endless (by omega) _ _ _ _ hloop

theorem writes (hC : C.Carries enc fresh) : (wire C n z).Writes buffers (encode enc) := by
  intro m v bytes m' hbytes hput
  obtain ⟨hsize, rest, hrest, rfl⟩ := encode_eq_some.mp hbytes
  change put C m v = .ok m' at hput
  rw [put_eq hsize] at hput
  obtain ⟨m₁, hcount, hputs⟩ := Except.bind_eq_ok_iff.mp hput
  exact (uint_carries.writes _ _ _ _ rfl hcount).append (hC.writes.puts v _ _ _ hrest hputs)

theorem foldl_push (as : List α) : ∀ v : List α, as.foldl (fun v z => v ++ [z]) v = v ++ as := by
  induction as with
  | nil => simp
  | cons a as ih =>
    intro v
    rw [List.foldl_cons, ih, List.append_assoc, List.singleton_append]

/-- What has been marshalled is added to what the vector holds. -/
theorem get_append (hC : C.Carries enc fresh) (hz : ∀ i, fresh (z i)) {as : List α} {u : Unmarshall} {rest : List UInt8}
    (hbytes : encode enc as = some bytes) (hleft : u.left = some (bytes ++ rest)) (v : List α) :
    ∃ u', get C n z u v = .ok (u', v ++ as) ∧ u'.left = some rest := by
  obtain ⟨hsize, elements, helements, rfl⟩ := encode_eq_some.mp hbytes
  rw [List.append_assoc] at hleft
  obtain ⟨u₁, hget, hleft₁⟩ := uint_carries.reads _ _ _ n _ rfl trivial hleft
  obtain ⟨u₂, hgets, hleft₂⟩ := hC.reads.gets hz (fun v z => v ++ [z]) as elements 0 u₁ v rest helements hleft₁
  refine ⟨u₂, Except.bind_eq_ok_iff.mpr ⟨_, hget, ?_⟩, hleft₂⟩
  dsimp only
  rw [count_eq hsize, hgets, foldl_push]

theorem strict (hC : C.Carries enc fresh) (hz : ∀ i, fresh (z i)) :
    (wire C n z).Strict buffers (encode enc) fun v => v = [] := by
  rintro u _ u' v rest rfl hget hleft
  obtain ⟨⟨u₁, count⟩, hcount, hgets⟩ := Except.bind_eq_ok_iff.mp hget
  obtain ⟨as, bytes, hlength, hv, hbytes, hleft₁⟩ := hC.strict.gets hz _ _ _ _ _ _ _ hgets hleft
  rw [foldl_push, List.nil_append] at hv
  subst hv
  obtain ⟨bytes₁, hbytes₁, hleft₂⟩ := uint_carries.strict _ _ _ _ _ trivial hcount hleft₁
  cases hbytes₁
  have hsize : v.length < 2 ^ 32 := by
    rw [hlength]
    exact count.toNat_lt
  have hsame : UInt32.ofNat v.length = count := by
    rw [hlength, UInt32.ofNat_toNat]
  refine ⟨_, encode_eq_some.mpr ⟨hsize, bytes, hbytes, rfl⟩, ?_⟩
  rw [hleft₂, hsame, List.append_assoc]

theorem fills (hC : C.Fills enc) : (wire C n z).Fills (encode enc) := by
  intro m v bytes hbytes hm
  obtain ⟨hsize, rest, hrest, rfl⟩ := encode_eq_some.mp hbytes
  obtain ⟨hroom, htaken⟩ := uint_fills m (UInt32.ofNat v.length) _ rfl hm
  change (_ → ∃ m', put C m v = .ok m') ∧ ∀ m', put C m v = .ok m' → _
  rw [put_eq hsize, List.length_append]
  constructor
  · intro hle
    obtain ⟨m₁, hcount⟩ := hroom (by omega)
    obtain ⟨hm₁, hroom₁⟩ := htaken m₁ hcount
    obtain ⟨m₂, hputs⟩ := (hC.puts v m₁ rest hrest hm₁).1 (by omega)
    exact ⟨m₂, Except.bind_eq_ok_iff.mpr ⟨m₁, hcount, hputs⟩⟩
  · intro m' hput
    obtain ⟨m₁, hcount, hputs⟩ := Except.bind_eq_ok_iff.mp hput
    obtain ⟨hm₁, hroom₁⟩ := htaken m₁ hcount
    obtain ⟨hm', hroom'⟩ := (hC.puts v m₁ rest hrest hm₁).2 m' hputs
    exact ⟨hm', by omega⟩

/-- A vector of elements that are marshalled and read back is itself: what stands in the
    buffer once marshalling it has come to an end, which it has only below 2^32 elements, is
    added to what the vector it is read into holds, and nothing else is read into an empty
    one without a failure. If the elements take up what room there is, so do vectors of them. -/
theorem vector_is_read_back (hC : C.Carries enc fresh) (hz : ∀ i, fresh (z i)) :
    (wire C n z).Carries (encode enc) (fun v => v = []) ∧
    (∀ m v m', (∀ a ∈ v, ∃ bytes, enc a = some bytes) → put C m v = .ok m' →
      ∃ bytes, encode enc v = some bytes ∧ m.Adds bytes m') ∧
    (∀ v as bytes u rest, encode enc as = some bytes → u.left = some (bytes ++ rest) →
      ∃ u', get C n z u v = .ok (u', v ++ as) ∧ u'.left = some rest) ∧
    (C.Fills enc → (wire C n z).Fills (encode enc)) := by
  refine ⟨⟨writes hC, ?_, strict hC hz⟩, ?_, ?_, fills⟩
  · rintro v bytes u _ rest hbytes rfl hleft
    exact get_append hC hz hbytes hleft []
  · intro m v m' henc hput
    obtain ⟨rest, hrest⟩ := Codec.exists_enc_all henc
    have hbytes : encode enc v = some _ := encode_eq_some.mpr ⟨put_short hput, rest, hrest, rfl⟩
    exact ⟨_, hbytes, writes (n := n) (z := z) hC _ _ _ _ hbytes hput⟩
  · intro v as bytes u rest hbytes hleft
    exact get_append hC hz hbytes hleft v

theorem room_new (heap : Mem) : (Marshall.new heap).room = 2 ^ 30 - 24 := by
  have hlog : (1024 : Nat).log2 = 10 := by decide
  rw [room, limit]
  change 1024 * 2 ^ (30 - (1024 : Nat).log2) - 24 = _
  rw [hlog]
  norm_num

/-- Vectors of vectors of numbers. -/
theorem vector_is_read_back_nested :
    let numbers := wire uint 0 fun _ => 0
    (wire numbers 0 fun _ => []).Carries (encode (encode enc_uint)) (fun v => v = []) ∧
      (wire numbers 0 fun _ => []).Fills (encode (encode enc_uint)) ∧
      ∃ m, put numbers (Marshall.new Mem.zero) [[1], [2, 3]] = .ok m := by
  have hnumbers := vector_is_read_back (n := 0) (z := fun _ => 0) uint_carries fun _ => trivial
  have hnested := vector_is_read_back (n := 0) (z := fun _ => []) hnumbers.1 fun _ => rfl
  have hfills := hnested.2.2.2 (hnumbers.2.2.2 uint_fills)
  have hroom := room_new Mem.zero
  refine ⟨hnested.1, hfills, (hfills _ _ _ rfl (sound_new Mem.zero)).1 ?_⟩
  rw [hroom]
  decide

end vector

namespace map

variable {α β : Type} [LinearOrder α] {A : Wire α} {B : Wire β} {d : List (α × β)} {encA : α → Option (List UInt8)}
  {encB : β → Option (List UInt8)} {fresh : α → Prop} {fresh' : β → Prop} {n : UInt32} {z : Nat → α × β}
  {m m' : Marshall} {bytes : List UInt8}

/-- The pairs of a map, by ascending keys. -/
def Sorted (d : List (α × β)) : Prop := d.Pairwise fun x y => x.1 < y.1

/-- The number of pairs stands in front of them. -/
def encode (encA : α → Option (List UInt8)) (encB : β → Option (List UInt8)) (d : List (α × β)) : Option (List UInt8) :=
  vector.encode (Codec.enc_both encA encB) d

theorem assign_last {a : α} {b : β} (h : ∀ x ∈ d, x.1 < a) : assign d a b = d ++ [(a, b)] := by
  induction d with
  | nil => rfl
  | cons x d ih =>
    have hx := h x List.mem_cons_self
    have hrest := ih fun y hy => h y (List.mem_cons_of_mem _ hy)
    rw [assign, if_neg hx.not_gt, if_neg hx.ne', hrest, List.cons_append]

/-- Pairs by ascending keys are inserted one behind the other. -/
theorem foldl_assign (as : List (α × β)) :
    ∀ d : List (α × β), Sorted (d ++ as) → as.foldl (fun d ab => assign d ab.1 ab.2) d = d ++ as := by
  induction as with
  | nil => simp
  | cons a as ih =>
    intro d hsorted
    have hlast : ∀ x ∈ d, x.1 < a.1 := by
      intro x hx
      exact (List.pairwise_append.mp hsorted).2.2 x hx a List.mem_cons_self
    rw [List.foldl_cons, assign_last hlast, ih, List.append_assoc, List.singleton_append]
    rwa [List.append_assoc, List.singleton_append]

/-- A map that could be marshalled is a small one: its pairs are told apart when they are
    read, so all but one of them take up bytes. -/
theorem length_lt (hA : A.Carries encA fresh) (hB : B.Carries encB fresh') (hz : ∀ i, fresh (z i).1 ∧ fresh' (z i).2)
    (hsorted : Sorted d) {pairs : List UInt8} (hpairs : Codec.enc_all (Codec.enc_both encA encB) d = some pairs)
    (hm : m.Sound) (hput : put A B m d = .ok m') :
    d.length < 2 ^ 32 ∧ m.Adds (uint_bytes (UInt32.ofNat d.length) ++ pairs) m' := by
  have hboth := hA.both hB
  obtain ⟨m₁, hcount, hputs⟩ := Except.bind_eq_ok_iff.mp hput
  have hadds : m.Adds (uint_bytes (UInt32.ofNat d.length) ++ pairs) m' :=
    (uint_carries.writes _ _ _ _ rfl hcount).append (hboth.writes.puts d _ _ _ hpairs hputs)
  have hnodup : d.Nodup := hsorted.imp fun {x y} hlt => by
    rintro rfl
    exact absurd hlt (lt_irrefl _)
  have hempty : buffers.left (Unmarshall.new []) = some ([] ++ []) := left_new (b := []) (by decide)
  have hlength := Codec.length_le_of_inj hnodup (fun x y => hboth.reads.enc_inj (hz 0) hempty) hpairs
  have hind := hadds.ind
  have hinside := (hadds.1 hm).inside
  have hint := (hadds.1 hm).int
  rw [List.length_append] at hind
  exact ⟨by omega, hadds⟩

theorem get_encode (hA : A.Carries encA fresh) (hB : B.Carries encB fresh') (hz : ∀ i, fresh (z i).1 ∧ fresh' (z i).2)
    (hsorted : Sorted d) (hbytes : encode encA encB d = some bytes) {u : Unmarshall} {rest : List UInt8}
    (hleft : u.left = some (bytes ++ rest)) (var : List (α × β)) :
    ∃ u', get A B n z u var = .ok (u', d) ∧ u'.left = some rest := by
  obtain ⟨hsize, pairs, hpairs, rfl⟩ := vector.encode_eq_some.mp hbytes
  rw [List.append_assoc] at hleft
  obtain ⟨u₁, hget, hleft₁⟩ := uint_carries.reads _ _ _ n _ rfl trivial hleft
  obtain ⟨u₂, hgets, hleft₂⟩ :=
    (hA.both hB).reads.gets hz (fun d ab => assign d ab.1 ab.2) d pairs 0 u₁ [] rest hpairs hleft₁
  refine ⟨u₂, Except.bind_eq_ok_iff.mpr ⟨_, hget, ?_⟩, hleft₂⟩
  rw [foldl_assign d [] hsorted, List.nil_append] at hgets
  dsimp only
  rw [vector.count_eq hsize, hgets]

theorem fills (hA : A.Fills encA) (hB : B.Fills encB) : (wire A B n z).Fills (encode encA encB) := by
  intro m d bytes hbytes hm
  obtain ⟨hsize, pairs, hpairs, rfl⟩ := vector.encode_eq_some.mp hbytes
  have hvector := vector.fills (n := n) (z := z) (hA.both hB) m d _ hbytes hm
  change (_ → ∃ m', vector.put (A.both B) m d = .ok m') ∧ ∀ m', vector.put (A.both B) m d = .ok m' → _ at hvector
  rw [vector.put_eq hsize] at hvector
  exact hvector

/-- Once a map has been marshalled, which then has fewer than 2^32 pairs, it is read back as
    the same map, whatever the map it is read into held. If keys and values take up what room
    there is, so do maps of them. -/
theorem map_is_read_back (hA : A.Carries encA fresh) (hB : B.Carries encB fresh')
    (hz : ∀ i, fresh (z i).1 ∧ fresh' (z i).2) :
    (∀ m d m', m.Sound → Sorted d → (∀ x ∈ d, ∃ bytes, Codec.enc_both encA encB x = some bytes) → put A B m d = .ok m' →
      ∃ bytes, encode encA encB d = some bytes ∧ m.Adds bytes m') ∧
    (∀ d bytes u rest var, Sorted d → encode encA encB d = some bytes → u.left = some (bytes ++ rest) →
      ∃ u', get A B n z u var = .ok (u', d) ∧ u'.left = some rest) ∧
    (A.Fills encA → B.Fills encB → (wire A B n z).Fills (encode encA encB)) := by
  refine ⟨?_, ?_, fills⟩
  · intro m d m' hm hsorted henc hput
    obtain ⟨pairs, hpairs⟩ := Codec.exists_enc_all henc
    obtain ⟨hsize, hadds⟩ := length_lt hA hB hz hsorted hpairs hm hput
    exact ⟨_, vector.encode_eq_some.mpr ⟨hsize, pairs, hpairs, rfl⟩, hadds⟩
  · intro d bytes u rest var hsorted hbytes hleft
    exact get_encode hA hB hz hsorted hbytes hleft var

/-- Keys that are numbers below 2^32. -/
def key : UInt32 ≃ Fin (2 ^ 32) where
  toFun v := v.toFin
  invFun i := UInt32.ofFin i
  left_inv _ := rfl
  right_inv _ := rfl

/-- A map of two pairs, read into a map that holds another. -/
theorem map_is_read_back_two : ∃ m u, put (uint.of key) uint (Marshall.new Mem.zero) [(1, 5), (7, 0)] = .ok m ∧
    get (uint.of key) uint 0 (fun _ => (0, 0)) (Unmarshall.new m.get_content) [(3, 9)] = .ok (u, [(1, 5), (7, 0)]) ∧
    u.left = some [] := by
  obtain ⟨hwritten, hread, hfills⟩ := map_is_read_back (n := 0) (z := fun _ => ((0 : Fin (2 ^ 32)), (0 : UInt32)))
    (uint_carries.of key) uint_carries fun _ => ⟨trivial, trivial⟩
  have hsorted : Sorted [((1 : Fin (2 ^ 32)), (5 : UInt32)), (7, 0)] := List.pairwise_pair.mpr (by decide)
  obtain ⟨m, hput⟩ := (hfills (uint_fills.of key) uint_fills _ [((1 : Fin (2 ^ 32)), (5 : UInt32)), (7, 0)] _ rfl
      (sound_new Mem.zero)).1
    (by rw [vector.room_new]; decide)
  obtain ⟨bytes, hbytes, hadds⟩ := hwritten _ _ m (sound_new Mem.zero) hsorted (fun _ _ => ⟨_, rfl⟩) hput
  have hcontent : m.get_content = bytes := hadds.get_content (Nat.le_refl _)
  have hshort : bytes.length < 2 ^ 31 := by
    cases hbytes
    decide
  obtain ⟨u, hget, hleft⟩ := hread _ bytes (.new bytes) [] [(3, 9)] hsorted hbytes
    (by rw [List.append_nil, left_new hshort])
  rw [← hcontent] at hget
  exact ⟨m, u, hput, hget, hleft⟩

end map

end chfs
