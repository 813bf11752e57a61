import Chfs.Extent.Fresh
import Chfs.Model.Rpc
import Chfs.Rpc.Header

namespace chfs

open Marshall Unmarshall

namespace Unmarshall

variable {u u' : Unmarshall}

/-- Reading leaves the buffer alone. -/
theorem ull_buf {var id : UInt64} (h : ull.get u var = .ok (u', id)) : u'._buf = u._buf := by
  rcases h₁ : u.word with ⟨high, u₁⟩
  rcases h₂ : u₁.word with ⟨low, u₂⟩
  have hbuf₁ := word_buf u
  have hbuf₂ := word_buf u₁
  simp only [ull, h₁, h₂] at h hbuf₁ hbuf₂
  cases h
  exact hbuf₂.trans hbuf₁

theorem string_buf {var s : List UInt8} (h : string.get u var = .ok (u', s)) : u'._buf = u._buf := by
  rcases h₁ : u.word with ⟨n, u₁⟩
  have hword := word_buf u
  simp only [string, h₁] at h hword
  split at h
  · unfold Unmarshall.rawbytes at h
    split at h
    · cases h
      exact hword
    · split at h
      · cases h
        exact hword
      · cases h
  · cases h
    exact hword

theorem okdone_iff (hsz : u._buf.length < 2 ^ 31) : u.okdone = true ↔ u.left = some [] := by
  rw [okdone, left_eq_some, Bool.and_eq_true, beq_iff_eq, List.drop_eq_nil_iff]
  constructor
  · rintro ⟨hok, hind⟩
    exact ⟨hok, hind.le, hsz, hind.ge⟩
  · rintro ⟨hok, hle, _, hge⟩
    exact ⟨hok, Nat.le_antisymm hle hge⟩

end Unmarshall

section Handlers

variable {σ α ρ : Type} {A : Wire α} {R : Wire ρ} {meth : σ → α → ρ → Result (Status × ρ × σ)} {a a' : α} {r r' : ρ}
  {sob sob' : σ}
  {args : Unmarshall} {ret ret' : Marshall} {encA : α → Option (List UInt8)}
  {fresh : α → Prop} {bytes : List UInt8} {b : Int32} {status : Status}

/-- What a handler does: it refuses, or its method is called on the arguments whose bytes are
    there, and the result marshalled. -/
inductive Handled (R : Wire ρ) (meth : σ → α → ρ → Result (Status × ρ × σ)) (encA : α → Option (List UInt8))
    (r : ρ) (sob : σ) (args : Unmarshall) (ret : Marshall) : Int32 → Marshall → σ → Prop where
  | refused : Handled R meth encA r sob args ret rpc_const.unmarshal_args_failure ret sob
  | done {a : α} {bytes : List UInt8} {status : Status} {r' : ρ} {sob' : σ} {ret' : Marshall}
      (hbytes : encA a = some bytes) (hleft : args.left = some bytes) (hmeth : meth sob a r = .ok (status, r', sob'))
      (hret : R.put ret r' = .ok ret') :
    Handled R meth encA r sob args ret status.code ret' sob'

theorem handler_done (hA : A.Carries encA fresh) (ha : fresh a) (hsz : args._buf.length < 2 ^ 31)
    (hbuf : ∀ {u a'}, A.get args a = .ok (u, a') → u._buf = args._buf)
    (h : handler A R meth a r sob args ret = .ok (b, ret', sob')) : Handled R meth encA r sob args ret b ret' sob' := by
  obtain ⟨⟨u, a'⟩, hget, hrest⟩ := Except.bind_eq_ok_iff.mp h
  dsimp only at hrest
  split at hrest
  · next hok =>
    obtain ⟨⟨status, r', sob₁⟩, hmeth, hrest⟩ := Except.bind_eq_ok_iff.mp hrest
    obtain ⟨ret₁, hret, hlast⟩ := Except.bind_eq_ok_iff.mp hrest
    cases hlast
    have hnone := (okdone_iff (by rwa [hbuf hget])).mp hok
    obtain ⟨bytes, hbytes, hleft⟩ := hA.strict _ _ _ _ _ ha hget hnone
    exact .done hbytes (hleft.trans (by rw [List.append_nil])) hmeth hret
  · cases hrest
    exact .refused

/-- On the bytes of its arguments a handler returns what the method does. -/
theorem handler_returns (hA : A.Carries encA fresh) (ha : fresh a) (hbytes : encA a' = some bytes)
    (hleft : args.left = some bytes)
    (hmeth : meth sob a' r = .ok (status, r', sob')) (hret : R.put ret r' = .ok ret') :
    handler A R meth a r sob args ret = .ok (status.code, ret', sob') := by
  rw [← List.append_nil bytes] at hleft
  obtain ⟨u, hget, hnone⟩ := hA.reads _ _ _ a _ hbytes ha hleft
  obtain ⟨_, _, hsz, _⟩ := left_eq_some.mp hnone
  rw [handler, hget, Except.ok_bind]
  dsimp only
  rw [if_pos ((okdone_iff hsz).mpr hnone), hmeth, Except.ok_bind]
  dsimp only
  rw [hret]
  rfl

end Handlers

/-- The bytes that ask for an operation, under the number of its procedure. -/
inductive Carries : ExtentProc → List UInt8 → ExtentOp → Prop where
  | get {id : extentid_t} {bytes : List UInt8} (hbytes : enc_ull id = some bytes) : Carries .get bytes (.get id)
  | getattr {id : extentid_t} {bytes : List UInt8} (hbytes : enc_ull id = some bytes) :
    Carries .getattr bytes (.getattr id)
  | put {id : extentid_t} {buf bytes : List UInt8} (hbytes : Codec.enc_both enc_ull enc_string (id, buf) = some bytes) :
    Carries .put bytes (.put id buf)
  | remove {id : extentid_t} {bytes : List UInt8} (hbytes : enc_ull id = some bytes) :
    Carries .remove bytes (.remove id)

/-- The bytes that answer it. Nothing is said of the number after a `put` or a `remove`. -/
inductive Replies : ExtentReply → List UInt8 → Prop where
  | get {buf bytes : List UInt8} (hbytes : enc_string buf = some bytes) : Replies (.get .OK buf) bytes
  | getattr {a : Attr} {bytes : List UInt8} (hbytes : Attr.enc a = some bytes) : Replies (.getattr .OK a) bytes
  | put {r : Int32} {bytes : List UInt8} (hbytes : enc_int r = some bytes) : Replies (.put .OK) bytes
  | remove {r : Int32} {bytes : List UInt8} (hbytes : enc_int r = some bytes) : Replies (.remove .OK) bytes

end chfs
