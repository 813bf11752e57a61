import Chfs.Fuse.Spec
import Chfs.Lib.LittleEndian

namespace chfs

/-- The names the kernel deals in. -/
def ValidName (name : List UInt8) : Prop := 1 ≤ name.length ∧ name.length ≤ 255 ∧ 0 ∉ name ∧ slash ∉ name

/-- What the listings rely on: `fuse_add_dirent` writes as many bytes as `fuse_dirent_size`
    says, a header and its padding have no more than 31, and `decode` takes the records. -/
structure Libfuse.Lawful (lib : Libfuse) (decode : List UInt8 → Option (Dirent × Nat × List UInt8)) : Prop where
  sized : lib.format.Sized
  small : ∀ namelen, lib.dirent_size namelen ≤ namelen + 31
  decodes : lib.format.Decodes (fun e => ValidName e.name) (2 ^ 63) decode

namespace FuseDirent

open LittleEndian

/-- `FUSE_NAME_OFFSET`. -/
def NAME_OFFSET : Nat := 24

/-- A header and a name, padded to a multiple of 8 bytes. -/
def size (namelen : Nat) : Nat := (NAME_OFFSET + namelen + 7) / 8 * 8

/-- A `struct fuse_dirent`: `ino` and `off` take 8 bytes, `namelen` and `type` 4 bytes each.
    The mode the type comes from is 0. -/
def add (name : List UInt8) (ino : UInt64) (off : Nat) : List UInt8 :=
  encode 8 ino.toNat ++ (encode 8 off ++ (encode 4 name.length ++ (encode 4 0 ++
    (name ++ List.replicate (size name.length - (NAME_OFFSET + name.length)) 0))))

/-- Takes the record at the front of the bytes, if it is there as a whole. -/
def decode (bytes : List UInt8) : Option (Dirent × Nat × List UInt8) :=
  if bytes.length < NAME_OFFSET then none
  else
    let ino := LittleEndian.decode (bytes.take 8)
    let off := LittleEndian.decode ((bytes.drop 8).take 8)
    let namelen := LittleEndian.decode ((bytes.drop 16).take 4)
    if bytes.length < size namelen then none
    else some ({ name := (bytes.drop 24).take namelen, inum := UInt64.ofNat ino }, off, bytes.drop (size namelen))

/-- These records. -/
def lib : Libfuse where
  dirent_size := size
  add_dirent := add

variable {name : List UInt8} {ino : UInt64} {off : Nat}

theorem length_add (name : List UInt8) (ino : UInt64) (off : Nat) : (add name ino off).length = size name.length := by
  simp only [add, size, NAME_OFFSET, List.length_append, length_encode, List.length_replicate]
  omega

/-- The fields at the front of a record. -/
theorem fields (name rest : List UInt8) (ino : UInt64) (off : Nat) :
    let bytes := add name ino off ++ rest
    bytes.take 8 = encode 8 ino.toNat ∧ (bytes.drop 8).take 8 = encode 8 off ∧
      (bytes.drop 16).take 4 = encode 4 name.length ∧ (bytes.drop 24).take name.length = name := by
  have h8 : ∀ n, (encode 8 n).length = 8 := length_encode 8
  have h4 : ∀ n, (encode 4 n).length = 4 := length_encode 4
  have h16 : (encode 8 ino.toNat ++ encode 8 off).length = 16 := by rw [List.length_append, h8, h8]
  have h24 : (encode 8 ino.toNat ++ (encode 8 off ++ (encode 4 name.length ++ encode 4 0))).length = 24 := by
    simp only [List.length_append, h8, h4]
  dsimp only
  simp only [add, List.append_assoc]
  refine ⟨List.take_left' (h8 _), ?_, ?_, ?_⟩
  · rw [List.drop_left' (h8 _), List.take_left' (h8 _)]
  · rw [← List.append_assoc (encode 8 ino.toNat), List.drop_left' h16, List.take_left' (h4 _)]
  · have hsplit : encode 8 ino.toNat ++ (encode 8 off ++ (encode 4 name.length ++ (encode 4 0 ++
        (name ++ (List.replicate (size name.length - (NAME_OFFSET + name.length)) 0 ++ rest))))) =
        (encode 8 ino.toNat ++ (encode 8 off ++ (encode 4 name.length ++ encode 4 0))) ++
          (name ++ (List.replicate (size name.length - (NAME_OFFSET + name.length)) 0 ++ rest)) := by
      simp only [List.append_assoc]
    rw [hsplit, List.drop_left' h24, List.take_left]

theorem decode_whole (name rest : List UInt8) (ino : UInt64) (off : Nat) (hname : name.length ≤ 255)
    (hoff : off < 2 ^ 63) :
    decode (add name ino off ++ rest) = some ({ name, inum := ino }, off, rest) := by
  obtain ⟨hino, hnext, hnamelen, hbytes⟩ := fields name rest ino off
  have hlength := length_add name ino off
  have hsize : NAME_OFFSET ≤ size name.length := by
    unfold size NAME_OFFSET
    omega
  have hlt := ino.toNat_lt
  unfold decode
  dsimp only
  rw [hino, hnext, hnamelen, decode_encode 8 _ (by omega), decode_encode 8 _ (by omega), decode_encode 4 _ (by omega),
    hbytes,
    List.length_append, hlength, if_neg (by omega), if_neg (by omega), List.drop_left' hlength, UInt64.ofNat_toNat]

theorem decode_cut (name : List UInt8) (ino : UInt64) (off n : Nat) (hname : name.length ≤ 255)
    (hn : n < size name.length) :
    decode ((add name ino off).take n) = none := by
  have hlength : ((add name ino off).take n).length = n := by
    rw [List.length_take, length_add]
    omega
  unfold decode
  by_cases hshort : n < NAME_OFFSET
  · rw [if_pos (by omega)]
  · obtain ⟨_, _, hnamelen, _⟩ := fields name [] ino off
    rw [List.append_nil] at hnamelen
    have hfield : (((add name ino off).take n).drop 16).take 4 = encode 4 name.length := by
      unfold NAME_OFFSET at hshort
      rw [List.drop_take, List.take_take, min_eq_left (by omega), hnamelen]
    dsimp only
    rw [hfield, decode_encode 4 _ (by omega), hlength, if_neg hshort, if_pos hn]

theorem lawful : lib.Lawful decode where
  sized := fun e next => length_add e.name e.inum next
  small := by
    intro namelen
    change size namelen ≤ _
    unfold size NAME_OFFSET
    omega
  decodes :=
    { nil := rfl
      pos := by
        intro e _
        change 0 < size e.name.length
        unfold size NAME_OFFSET
        omega
      whole := fun e next rest hname hnext => decode_whole e.name rest e.inum next hname.2.1 hnext
      cut := fun e next n hname _ hn => decode_cut e.name e.inum next n hname.2.1 hn }

end FuseDirent

end chfs
