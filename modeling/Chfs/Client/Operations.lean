import Chfs.Client.Calls

namespace chfs

namespace ChfsClient

variable {c c' c₁ : ChfsClient} {es₂ es₃ es₄ es₅ : ExtentServer} {parent ino ino' id : UInt64} {name : CString}
  {type : FileType} {value : Option CString} {ret : Status} {found : Bool} {buf : List UInt8}

/-- The `put` of the value of a symbolic link. -/
inductive ValuePut (es : ExtentServer) (id : extentid_t) : Option CString → ExtentServer → Prop where
  | none : ValuePut es id none es
  | some {value : CString} {es' : ExtentServer} (hput : es.put id value.bytes = .ok (.OK, es')) :
    ValuePut es id (some value) es'

/-- What the three creating calls can do after their checks. -/
inductive NodeDone (c : ChfsClient) (parent : UInt64) (name : CString) (type : FileType) (value : Option CString)
    (ino_out : UInt64) : Status → UInt64 → ChfsClient → Prop where
  | refused {found : Bool} {ino' : UInt64} {c' : ChfsClient}
      (hlookup : LookupDone c parent name false ino_out .IOERR found ino' c') :
    NodeDone c parent name type value ino_out .IOERR ino' c'
  | bound {ino' : UInt64} {c' : ChfsClient} (hlookup : LookupDone c parent name false ino_out .OK true ino' c') :
    NodeDone c parent name type value ino_out .EXIST ino' c'
  | made {ino' id : UInt64} {c₁ : ChfsClient} {es₂ es₃ es₄ es₅ : ExtentServer} {buf : List UInt8}
      (hlookup : LookupDone c parent name false ino_out .OK false ino' c₁)
      (hcreate : c₁.ec.es.create type.code = (.OK, id, es₂))
      (hget : es₂.get parent = .ok (.OK, buf, es₃)) (hvalue : ValuePut es₃ id value es₄)
      (hput : es₄.put parent (buf ++ inum_name_pair id name.bytes) = .ok (.OK, es₅)) :
    NodeDone c parent name type value ino_out .OK id (c.with_server es₅)

theorem LookupDone.with_server {found' : Bool} (h : LookupDone c parent name found ino ret found' ino' c') :
    c' = c.with_server c'.ec.es := by
  cases h <;> rfl

theorem NodeDone.with_server (h : NodeDone c parent name type value ino ret ino' c') : c' = c.with_server c'.ec.es := by
  cases h with
  | refused hlookup => exact hlookup.with_server
  | bound hlookup => exact hlookup.with_server
  | made _ _ _ _ _ => rfl

theorem make_node_not_found (hlookup : c.lookup parent name false ino = .ok (.OK, false, ino', c₁))
    (hcreate : c₁.ec.es.create type.code = (.OK, id, es₂)) (hget : es₂.get parent = .ok (.OK, buf, es₃))
    (hvalue : ValuePut es₃ id value es₄)
    (hput : es₄.put parent (buf ++ inum_name_pair id name.bytes) = .ok (.OK, es₅)) :
    c.make_node parent name type value ino = .ok (.OK, id, c₁.with_server es₅) := by
  have hec : c₁.ec.create type.code = (.OK, id, { es := es₂ }) := by
    rw [ExtentClient.create, hcreate]
  unfold make_node
  rw [hlookup]
  simp only [Except.ok_bind, ne_eq, not_true_eq_false, ↓reduceIte, Bool.false_eq_true, hec, ec_get hget]
  cases hvalue with
  | none =>
    simp only [pure_bind, ec_put hput]
    rfl
  | some hvalue =>
    simp only [ec_put hvalue, Except.ok_bind, pure_bind, ec_put hput]
    rfl

/-- The last `put` of a creating call adds the entry. -/
theorem NodeDone.of_entry (hlookup : LookupDone c parent name false ino .OK false ino' c₁)
    (hcreate : c₁.ec.es.create type.code = (.OK, id, es₂)) (hget : es₂.get parent = .ok (.OK, buf, es₃))
    (hvalue : ValuePut es₃ id value es₄) {ino_out : UInt64}
    (h : (do
      let (ret, ec) ← ExtentClient.put { es := es₄ } parent (buf ++ inum_name_pair id name.bytes)
      if ret ≠ Status.OK then pure (Status.IOERR, id, ({ c₁ with ec } : ChfsClient))
      else pure (Status.OK, id, ({ c₁ with ec } : ChfsClient)) : Result _) = .ok (ret, ino_out, c')) :
    NodeDone c parent name type value ino ret ino_out c' := by
  rcases es₄.put_cases parent (buf ++ inum_name_pair id name.bytes) with ⟨fault, hput⟩ | ⟨es₅, hput, _⟩
  · rw [ec_put_error hput] at h
    cases h
  · rw [ec_put hput] at h
    cases h
    rw [hlookup.with_server]
    exact .made hlookup hcreate hget hvalue hput

theorem make_node_done (h : c.make_node parent name type value ino = .ok (ret, ino', c')) :
    NodeDone c parent name type value ino ret ino' c' := by
  unfold make_node at h
  obtain ⟨⟨r, found, ino₁, c₁⟩, hlookup, h⟩ := Except.bind_eq_ok_iff.mp h
  have hdone := lookup_done hlookup
  by_cases hr : r = .OK
  · subst hr
    cases found with
    | true =>
      cases h
      exact .bound hdone
    | false =>
      obtain ⟨id, es₂, hcreate⟩ : ∃ id es₂, c₁.ec.es.create type.code = (.OK, id, es₂) :=
        ⟨_, _, c₁.ec.es.create_ok type.code⟩
      have hec : c₁.ec.create type.code = (.OK, id, { es := es₂ }) := by
        rw [ExtentClient.create, hcreate]
      simp only [ne_eq, not_true_eq_false, ↓reduceIte, Bool.false_eq_true, hec] at h
      rcases es₂.get_cases parent with ⟨fault, hget⟩ | ⟨buf, es₃, hget⟩
      · rw [ec_get_error hget] at h
        cases h
      · rw [ec_get hget] at h
        simp only [Except.ok_bind, not_true_eq_false, ↓reduceIte] at h
        cases value with
        | none => exact .of_entry hdone hcreate hget .none h
        | some v =>
          rcases es₃.put_cases id v.bytes with ⟨fault, hput⟩ | ⟨es₄, hput, _⟩
          · simp only [ec_put_error hput] at h
            cases h
          · simp only [ec_put hput, Except.ok_bind, pure_bind] at h
            exact .of_entry hdone hcreate hget (.some hput) h
  · cases hdone with
    | not_dir hdir =>
      cases h
      exact .refused (.not_dir hdir)
    | unreadable hdir hget hparse =>
      cases h
      exact .refused (.unreadable hdir hget hparse)
    | bound _ _ _ _ => exact absurd rfl hr
    | unbound _ _ _ _ => exact absurd rfl hr

/-- The check that `create` makes first is made again by `lookup`. -/
theorem create_eq (c : ChfsClient) (parent : UInt64) (name : CString) (ino : UInt64) :
    c.create parent name ino = c.make_node parent name .T_FILE none ino := by
  have hcheck := check_dir_inode_eq c parent
  unfold create
  dsimp only
  cases hdir : c.isdir parent with
  | true =>
    rw [hdir] at hcheck
    rw [hcheck]
    rfl
  | false =>
    rw [hdir] at hcheck
    rw [hcheck, make_node, lookup_not_dir hdir]
    rfl

theorem create_symbolic_link_eq (c : ChfsClient) (parent : UInt64) (true_file_path name : CString) (ino : UInt64) :
    c.create_symbolic_link parent true_file_path name ino =
      c.make_node parent name .T_SYMBOLIC (some true_file_path) ino := by
  have hcheck := check_dir_inode_eq c parent
  unfold create_symbolic_link
  dsimp only
  cases hdir : c.isdir parent with
  | true =>
    rw [hdir] at hcheck
    rw [hcheck]
    rfl
  | false =>
    rw [hdir] at hcheck
    rw [hcheck, make_node, lookup_not_dir hdir]
    rfl

/-- The names `mkdir` refuses. -/
def Dots (name : CString) : Prop := name.bytes = [46] ∨ name.bytes = [46, 46]

instance (name : CString) : Decidable (Dots name) := inferInstanceAs (Decidable (_ ∨ _))

theorem mkdir_eq (c : ChfsClient) (parent : UInt64) (name : CString) (ino : UInt64) :
    c.mkdir parent name ino =
      if Dots name then .ok (.IOERR, ino, c) else c.make_node parent name .T_DIR none ino := by
  have hcheck := check_dir_inode_eq c parent
  unfold mkdir
  dsimp only
  cases hdir : c.isdir parent with
  | true =>
    rw [hdir] at hcheck
    rw [hcheck]
    rfl
  | false =>
    rw [hdir] at hcheck
    rw [hcheck, make_node, lookup_not_dir hdir]
    by_cases hdots : Dots name
    · rw [if_pos hdots]
      rfl
    · rw [if_neg hdots]
      rfl

/-- What `unlink` can do. -/
inductive UnlinkDone (c : ChfsClient) (parent : UInt64) (name : CString) : Status → ChfsClient → Prop where
  | refused {found : Bool} {ino : UInt64} {c' : ChfsClient}
      (hlookup : LookupDone c parent name false 0 .IOERR found ino c') : UnlinkDone c parent name .IOERR c'
  | unbound {ino : UInt64} {c' : ChfsClient} (hlookup : LookupDone c parent name false 0 .OK false ino c') :
    UnlinkDone c parent name .NOENT c'
  | not_file {ino : UInt64} {c' : ChfsClient} (hlookup : LookupDone c parent name false 0 .OK true ino c')
      (hfile : c'.isfile ino = false) : UnlinkDone c parent name .IOERR c'
  | unreadable {ino : UInt64} {c₁ c' : ChfsClient} {es₂ : ExtentServer} {ret : Status} {list : List Dirent}
      (hlookup : LookupDone c parent name false 0 .OK true ino c₁) (hfile : c₁.isfile ino = true)
      (hremove : c₁.ec.es.remove ino = .ok (.OK, es₂)) (hread : ReaddirDone (c.with_server es₂) parent ret list c')
      (hret : ret ≠ .OK) : UnlinkDone c parent name .IOERR c'
  | unlinked {ino : UInt64} {c₁ c₃ : ChfsClient} {es₂ es₄ : ExtentServer} {list : List Dirent}
      (hlookup : LookupDone c parent name false 0 .OK true ino c₁) (hfile : c₁.isfile ino = true)
      (hremove : c₁.ec.es.remove ino = .ok (.OK, es₂)) (hread : ReaddirDone (c.with_server es₂) parent .OK list c₃)
      (hput : c₃.ec.es.put parent (dir_text (list.filter fun cur => cur.name ≠ name.bytes)) = .ok (.OK, es₄)) :
    UnlinkDone c parent name .OK (c.with_server es₄)

theorem ReaddirDone.with_server {list : List Dirent} (h : ReaddirDone c parent ret list c') :
    c' = c.with_server c'.ec.es := by
  cases h <;> rfl

theorem unlink_done (h : c.unlink parent name = .ok (ret, c')) : UnlinkDone c parent name ret c' := by
  have hcheck := check_dir_inode_eq c parent
  unfold unlink at h
  dsimp only at h
  cases hdir : c.isdir parent with
  | false =>
    rw [hdir] at hcheck
    rw [hcheck] at h
    cases h
    exact .refused (.not_dir hdir)
  | true =>
    rw [hdir] at hcheck
    rw [hcheck] at h
    obtain ⟨⟨r, found, ino, c₁⟩, hlookup, h⟩ := Except.bind_eq_ok_iff.mp h
    have hdone := lookup_done hlookup
    have hserver := hdone.with_server
    by_cases hr : r = .OK
    · subst hr
      cases found with
      | false =>
        cases h
        exact .unbound hdone
      | true =>
        cases hfile : c₁.isfile ino with
        | false =>
          simp only [hfile] at h
          cases h
          exact .not_file hdone hfile
        | true =>
          simp only [ne_self_iff_false, ↓reduceIte, hfile, Bool.true_eq_false, not_true_eq_false] at h
          rcases c₁.ec.es.remove_cases ino with ⟨fault, hremove⟩ | ⟨es₂, hremove⟩
          · rw [ec_remove_error hremove] at h
            cases h
          · simp only [ec_remove hremove, Except.ok_bind, ne_self_iff_false, ↓reduceIte] at h
            obtain ⟨⟨r', list, c₃⟩, hread, h⟩ := Except.bind_eq_ok_iff.mp h
            have hclient : c₁.with_server es₂ = c.with_server es₂ := by
              rw [hserver]
              rfl
            change (c₁.with_server es₂).readdir parent [] = _ at hread
            rw [hclient] at hread
            have hread := readdir_done hread
            by_cases hr' : r' = .OK
            · subst hr'
              rcases c₃.ec.es.put_cases parent (dir_text (list.filter fun cur => cur.name ≠ name.bytes)) with
                ⟨fault, hput⟩ | ⟨es₄, hput, _⟩
              · change (ExtentClient.put c₃.ec parent (dir_text _) >>= _) = _ at h
                rw [ec_put_error hput] at h
                cases h
              · change (ExtentClient.put c₃.ec parent (dir_text _) >>= _) = _ at h
                rw [ec_put hput] at h
                cases h
                have hclient : c₃.with_server es₄ = c.with_server es₄ := by
                  rw [hread.with_server]
                  rfl
                change UnlinkDone c parent name .OK (c₃.with_server es₄)
                rw [hclient]
                exact .unlinked hdone hfile hremove hread hput
            · rw [if_pos hr'] at h
              cases h
              exact .unreadable hdone hfile hremove hread hr'
    · change (if r ≠ Status.OK then _ else _) = _ at h
      rw [if_pos hr] at h
      cases h
      cases hdone with
      | not_dir hdir => exact .refused (.not_dir hdir)
      | unreadable hdir hget hparse => exact .refused (.unreadable hdir hget hparse)
      | bound _ _ _ _ => exact absurd rfl hr
      | unbound _ _ _ _ => exact absurd rfl hr

theorem unlink_not_found (hlookup : c.lookup parent name false 0 = .ok (.OK, false, ino, c₁)) :
    c.unlink parent name = .ok (.NOENT, c₁) := by
  have hcheck := check_dir_inode_eq c parent
  unfold unlink
  dsimp only
  cases hdir : c.isdir parent with
  | false =>
    rw [lookup_not_dir hdir] at hlookup
    cases hlookup
  | true =>
    rw [hdir] at hcheck
    rw [hcheck, hlookup]
    rfl

theorem unlink_not_file (hlookup : c.lookup parent name false 0 = .ok (.OK, true, ino, c₁))
    (hfile : c₁.isfile ino = false) : c.unlink parent name = .ok (.IOERR, c₁) := by
  have hcheck := check_dir_inode_eq c parent
  unfold unlink
  dsimp only
  cases hdir : c.isdir parent with
  | false =>
    rw [lookup_not_dir hdir] at hlookup
    cases hlookup
  | true =>
    rw [hdir] at hcheck
    rw [hcheck, hlookup]
    simp only [↓reduceIte, ne_self_iff_false, Except.ok_bind, Bool.true_eq_false, hfile, Bool.false_eq_true,
      not_false_eq_true]
    rfl

theorem unlink_found {list : List Dirent} (hlookup : c.lookup parent name false 0 = .ok (.OK, true, ino, c₁))
    (hfile : c₁.isfile ino = true) (hremove : c₁.ec.es.remove ino = .ok (.OK, es₂))
    (hread : (c₁.with_server es₂).readdir parent [] = .ok (.OK, list, c.with_server es₃))
    (hput : es₃.put parent (dir_text (list.filter fun cur => cur.name ≠ name.bytes)) = .ok (.OK, es₄)) :
    c.unlink parent name = .ok (.OK, c.with_server es₄) := by
  have hcheck := check_dir_inode_eq c parent
  unfold unlink
  dsimp only
  cases hdir : c.isdir parent with
  | false =>
    rw [lookup_not_dir hdir] at hlookup
    cases hlookup
  | true =>
    rw [hdir] at hcheck
    rw [hcheck, hlookup]
    simp only [↓reduceIte, ne_self_iff_false, Except.ok_bind, Bool.true_eq_false, hfile, not_true_eq_false,
      ec_remove hremove]
    change ((c₁.with_server es₂).readdir parent [] >>= _) = _
    rw [hread]
    change ((ExtentClient.mk es₃).put parent (dir_text _) >>= _) = _
    rw [ec_put hput]
    rfl

end ChfsClient

end chfs
