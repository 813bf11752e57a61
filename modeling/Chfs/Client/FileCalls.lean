import Chfs.Client.Calls

namespace chfs

namespace ChfsClient

variable {c c' : ChfsClient} {es₂ es₃ : ExtentServer} {ino : UInt64} {ret : Status} {buf : List UInt8}

/-- What `setattr` can do. In either branch the file ends up with a prefix. -/
inductive SetattrDone (c : ChfsClient) (ino size : UInt64) : Status → ChfsClient → Prop where
  | same {buf : List UInt8} {es' : ExtentServer} (hget : c.ec.es.get ino = .ok (.OK, buf, es'))
      (hsize : buf.length = size.toNat) : SetattrDone c ino size .OK (c.with_server es')
  | put {buf : List UInt8} {es' es'' : ExtentServer} (hget : c.ec.es.get ino = .ok (.OK, buf, es'))
      (hsize : buf.length ≠ size.toNat) (hput : es'.put ino (buf.take size.toNat) = .ok (.OK, es'')) :
    SetattrDone c ino size .OK (c.with_server es'')

theorem setattr_of_get {size : UInt64} (hget : c.ec.es.get ino = .ok (.OK, buf, es₂)) :
    c.setattr ino size =
      if buf.length = size.toNat then .ok (.OK, c.with_server es₂)
      else do
        let (ret, es) ← es₂.put ino (buf.take size.toNat)
        if ret ≠ .OK then return (.IOERR, c.with_server es)
        return (.OK, c.with_server es) := by
  unfold setattr
  rw [ec_get hget]
  simp only [Except.ok_bind, ne_self_iff_false, ↓reduceIte]
  by_cases hsize : buf.length = size.toNat
  · rw [if_pos hsize, if_pos hsize]
    rfl
  · rw [if_neg hsize, if_neg hsize]
    have hextend : or_throw (StdString.substr buf 0 size.toNat) = .ok (buf.take size.toNat) := by
      rw [StdString.substr, if_pos (Nat.zero_le _)]
      rfl
    have hcut : ¬ buf.length < size.toNat → StdString.resize buf size.toNat 0 = buf.take size.toNat := by
      intro hlt
      have hpad : size.toNat - buf.length = 0 := by omega
      rw [StdString.resize, hpad, List.replicate_zero, List.append_nil]
    have hput : ∀ text, ((ExtentClient.mk es₂).put ino text >>= fun r =>
        if r.1 ≠ .OK then pure (Status.IOERR, ({ c with ec := r.2 } : ChfsClient))
        else pure (.OK, { c with ec := r.2 })) =
        (es₂.put ino text >>= fun r =>
          if r.1 ≠ .OK then pure (.IOERR, c.with_server r.2) else pure (.OK, c.with_server r.2)) := by
      intro text
      rcases es₂.put_cases ino text with ⟨fault, hput⟩ | ⟨es₃, hput, _⟩
      · rw [ec_put_error hput, hput]
        rfl
      · rw [ec_put hput, hput]
        rfl
    split
    · rw [hextend]
      exact hput _
    · next hlt =>
      rw [hcut hlt]
      exact hput _

theorem setattr_done {size : UInt64} (h : c.setattr ino size = .ok (ret, c')) : SetattrDone c ino size ret c' := by
  rcases c.ec.es.get_cases ino with ⟨fault, hget⟩ | ⟨buf, es₂, hget⟩
  · unfold setattr at h
    rw [ec_get_error hget] at h
    cases h
  · rw [setattr_of_get hget] at h
    by_cases hsize : buf.length = size.toNat
    · rw [if_pos hsize] at h
      cases h
      exact .same hget hsize
    · rw [if_neg hsize] at h
      rcases es₂.put_cases ino (buf.take size.toNat) with ⟨fault, hput⟩ | ⟨es₃, hput, _⟩
      · rw [hput] at h
        cases h
      · rw [hput] at h
        cases h
        exact .put hget hsize hput

/-- A call that only reads the content of an inode. -/
inductive ReadDone (c : ChfsClient) (ino : UInt64) : ChfsClient → Prop where
  | idle : ReadDone c ino c
  | get {buf : List UInt8} {es' : ExtentServer} (hget : c.ec.es.get ino = .ok (.OK, buf, es')) :
    ReadDone c ino (c.with_server es')

theorem read_of_get {size : UInt64} {off : Int64} (hget : c.ec.es.get ino = .ok (.OK, buf, es₂)) :
    c.read ino size off =
      if buf.length ≤ off.toInt then .ok (.OK, [], c.with_server es₂)
      else do
        let data ←
          if buf.length ≤ (off.toUInt64 + size).toNat then
            or_throw (StdString.substr buf off.toUInt64.toNat (buf.length - off.toUInt64.toNat))
          else or_throw (StdString.substr buf off.toUInt64.toNat size.toNat)
        return (.OK, data, c.with_server es₂) := by
  unfold read
  dsimp only
  rw [ec_getattr, ec_get hget]
  rfl

theorem read_done {size : UInt64} {off : Int64} {data : List UInt8} (h : c.read ino size off = .ok (ret, data, c')) :
    ret = .OK ∧ ReadDone c ino c' := by
  rcases c.ec.es.get_cases ino with ⟨fault, hget⟩ | ⟨buf, es₂, hget⟩
  · unfold read at h
    dsimp only at h
    rw [ec_getattr, ec_get_error hget] at h
    cases h
  · rw [read_of_get hget] at h
    split at h
    · cases h
      exact ⟨rfl, .get hget⟩
    · dsimp only at h
      split at h
      · obtain ⟨data', _, h⟩ := Except.bind_eq_ok_iff.mp h
        cases h
        exact ⟨rfl, .get hget⟩
      · obtain ⟨data', _, h⟩ := Except.bind_eq_ok_iff.mp h
        cases h
        exact ⟨rfl, .get hget⟩

theorem parse_symbolic_link_done {buf data : List UInt8} (h : c.parse_symbolic_link buf ino = .ok (ret, data, c')) :
    (c.issymlink ino = false ∧ ret = .IOERR ∧ data = buf ∧ c' = c) ∨
      ∃ es', c.issymlink ino = true ∧ c.ec.es.get ino = .ok (.OK, data, es') ∧ ret = .OK ∧ c' = c.with_server es' := by
  unfold parse_symbolic_link at h
  cases hlink : c.issymlink ino with
  | false =>
    rw [hlink] at h
    cases h
    exact .inl ⟨rfl, rfl, rfl, rfl⟩
  | true =>
    rw [hlink] at h
    rcases c.ec.es.get_cases ino with ⟨fault, hget⟩ | ⟨text, es₂, hget⟩
    · rw [ec_get_error hget] at h
      cases h
    · rw [ec_get hget] at h
      cases h
      exact .inr ⟨es₂, rfl, hget, rfl, rfl⟩

/-- The content after a `write`, or nothing where `replace` throws. -/
def written (buf : List UInt8) (size : UInt64) (off : Int64) (data : Mem) : Option (List UInt8) :=
  let buf := if (buf.length : Int) < off.toInt then StdString.resize buf off.toUInt64.toNat 0 else buf
  StdString.replace buf off.toUInt64.toNat size.toNat (data.bytes size.toNat)

/-- What `write` can do. -/
inductive WriteDone (c : ChfsClient) (ino size : UInt64) (off : Int64) (data : Mem) : ChfsClient → Prop where
  | put {buf text : List UInt8} {es' es'' : ExtentServer} (hget : c.ec.es.get ino = .ok (.OK, buf, es'))
      (htext : written buf size off data = some text) (hput : es'.put ino text = .ok (.OK, es'')) :
    WriteDone c ino size off data (c.with_server es'')

theorem write_of_get {size bytes_written : UInt64} {off : Int64} {data : Mem} {text : List UInt8}
    (hget : c.ec.es.get ino = .ok (.OK, buf, es₂)) (htext : written buf size off data = some text)
    (hput : es₂.put ino text = .ok (.OK, es₃)) :
    c.write ino size off data bytes_written = .ok (.OK, size, c.with_server es₃) := by
  unfold write
  unfold written at htext
  dsimp only at htext ⊢
  rw [ec_getattr, ec_get hget]
  simp only [Except.ok_bind, ne_self_iff_false, ↓reduceIte, htext, or_throw, ec_put hput]
  rfl

theorem write_done {size bytes_written bytes_written' : UInt64} {off : Int64} {data : Mem}
    (h : c.write ino size off data bytes_written = .ok (ret, bytes_written', c')) :
    ret = .OK ∧ bytes_written' = size ∧ WriteDone c ino size off data c' := by
  rcases c.ec.es.get_cases ino with ⟨fault, hget⟩ | ⟨buf, es₂, hget⟩
  · unfold write at h
    dsimp only at h
    rw [ec_getattr, ec_get_error hget] at h
    cases h
  · cases htext : written buf size off data with
    | none =>
      unfold write at h
      unfold written at htext
      dsimp only at htext h
      rw [ec_getattr, ec_get hget] at h
      simp only [Except.ok_bind, ne_self_iff_false, ↓reduceIte, htext, or_throw] at h
      cases h
    | some text =>
      rcases es₂.put_cases ino text with ⟨fault, hput⟩ | ⟨es₃, hput, _⟩
      · unfold write at h
        have htext' := htext
        unfold written at htext
        dsimp only at htext h
        rw [ec_getattr, ec_get hget] at h
        simp only [Except.ok_bind, ne_self_iff_false, ↓reduceIte, htext, or_throw, ec_put_error hput] at h
        cases h
      · rw [write_of_get hget htext hput] at h
        cases h
        exact ⟨rfl, rfl, .put hget htext hput⟩

end ChfsClient

end chfs
