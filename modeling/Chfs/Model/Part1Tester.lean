import Chfs.Lib.Decimal
import Chfs.Lib.StdString
import Chfs.Model.ExtentServer

namespace chfs

/-! `part1_tester.cc`, which tests an extent client with random contents. -/

namespace Part1Tester

def FILE_NUM : Nat := 50

def LARGE_FILE_SIZE_MIN : Nat := 512 * 10

def LARGE_FILE_SIZE_MAX : Nat := 512 * 200

/-- What `rand` returns from now on. -/
abbrev Rand := Nat → Nat

/-- The first number, and those that come after it. -/
def rand (r : Rand) : Nat × Rand := (r 0, fun k => r (k + 1))

/-- The global variables. -/
structure Tester where
  ec : ExtentClient
  total_score : Nat

/-- What `extentid_t` the file `i` of a new server should have. -/
def nth_id (i : Nat) : extentid_t := UInt64.ofNat (i + 2)

/-- The loop of `test_create_and_getattr`, with `n` rounds to go. -/
def create_and_getattr : Nat → Rand → ExtentClient → Nat × ExtentClient
  | 0, _, ec => (0, ec)
  | n + 1, r, ec =>
    let (rnum, r) := rand r
    let type := if rnum % 10 < 3 then FileType.T_DIR else FileType.T_FILE
    let (_, id, ec) := ec.create type.code
    if id.toUInt32 = 0 then (1, ec)
    else
      let (ret, a) := ec.getattr id
      if ret ≠ .OK then (2, ec)
      else if a.type ≠ type.code then (3, ec)
      else create_and_getattr n r ec

def test_create_and_getattr (r : Rand) (t : Tester) : Nat × Tester :=
  let (ret, ec) := create_and_getattr FILE_NUM r t.ec
  if ret ≠ 0 then (ret, { t with ec }) else (0, { ec, total_score := t.total_score + 40 })

/-- The first loop of `test_put_and_get`: files get the digits of a random number. -/
def put_numbers : Nat → Nat → Rand → (Nat → Nat) → ExtentClient → Result (Nat × (Nat → Nat) × ExtentClient)
  | 0, _, _, contents, ec => return (0, contents, ec)
  | n + 1, i, r, contents, ec => do
    let (ret, a) := ec.getattr (nth_id i)
    if ret ≠ .OK then return (1, contents, ec)
    if a.type = FileType.T_FILE.code then
      let (rnum, r) := rand r
      let rnum := rnum % 10000
      let (ret, ec) ← ec.put (nth_id i) (Decimal.print rnum)
      if ret ≠ .OK then return (2, contents, ec)
      put_numbers n (i + 1) r (Function.update contents i rnum) ec
    else put_numbers n (i + 1) r contents ec

/-- The second loop, which compares them. -/
def get_numbers : Nat → Nat → (Nat → Nat) → ExtentClient → Result (Nat × ExtentClient)
  | 0, _, _, ec => return (0, ec)
  | n + 1, i, contents, ec => do
    let (ret, a) := ec.getattr (nth_id i)
    if ret ≠ .OK then return (3, ec)
    if a.type = FileType.T_FILE.code then
      let (ret, buf, ec) ← ec.get (nth_id i)
      if ret ≠ .OK then return (4, ec)
      if buf ≠ Decimal.print (contents i) then return (5, ec)
      get_numbers n (i + 1) contents ec
    else get_numbers n (i + 1) contents ec

/-- The array `contents` is not initialised. -/
def test_put_and_get (r : Rand) (contents : Nat → Nat) (t : Tester) : Result (Nat × Tester) := do
  let (ret, contents, ec) ← put_numbers FILE_NUM 0 r contents t.ec
  if ret ≠ 0 then return (ret, { t with ec })
  let (ret, ec) ← get_numbers FILE_NUM 0 contents ec
  if ret ≠ 0 then return (ret, { t with ec })
  return (0, { ec, total_score := t.total_score + 30 })

/-- The loop of `test_remove`. -/
def remove_and_getattr : Nat → Nat → ExtentClient → Result (Nat × ExtentClient)
  | 0, _, ec => return (0, ec)
  | n + 1, i, ec => do
    let (ret, ec) ← ec.remove (nth_id i)
    if ret ≠ .OK then return (1, ec)
    let (_, a) := ec.getattr (nth_id i)
    if a.type ≠ 0 then return (2, ec)
    remove_and_getattr n (i + 1) ec

def test_remove (t : Tester) : Result (Nat × Tester) := do
  let (ret, ec) ← remove_and_getattr FILE_NUM 0 t.ec
  if ret ≠ 0 then return (ret, { t with ec })
  return (0, { ec, total_score := t.total_score + 20 })

/-- The first loop of `test_indirect`. -/
def create_files : Nat → Nat → (Nat → extentid_t) → ExtentClient → Nat × (Nat → extentid_t) × ExtentClient
  | 0, _, id_list, ec => (0, id_list, ec)
  | n + 1, i, id_list, ec =>
    let (ret, id, ec) := ec.create FileType.T_FILE.code
    if ret ≠ .OK then (1, Function.update id_list i id, ec)
    else create_files n (i + 1) (Function.update id_list i id) ec

/-- `temp[k] = 97 + rand() % 26` for the next `n` positions `k`. -/
def fill_temp : Nat → Nat → Rand → Mem → Mem × Rand
  | 0, _, r, temp => (temp, r)
  | n + 1, k, r, temp =>
    let (rnum, r) := rand r
    fill_temp n (k + 1) r (Function.update temp k (UInt8.ofNat (97 + rnum % 26)))

/-- A random text, as `std::string(temp)` finds it in the buffer. -/
def large_text (r : Rand) : List UInt8 × Rand :=
  let (rnum, r) := rand r
  let size := rnum % (LARGE_FILE_SIZE_MAX - LARGE_FILE_SIZE_MIN) + LARGE_FILE_SIZE_MIN
  let (temp, r) := fill_temp size 0 r Mem.zero
  ((StdString.c_str (temp.bytes LARGE_FILE_SIZE_MAX)).bytes, r)

/-- A round of puts. -/
def put_large : Nat → Nat → Rand → (Nat → extentid_t) → (Nat → List UInt8) → ExtentClient →
    Result (Nat × Rand × (Nat → List UInt8) × ExtentClient)
  | 0, _, r, _, content, ec => return (0, r, content, ec)
  | n + 1, i, r, id_list, content, ec => do
    let (text, r) := large_text r
    let content := Function.update content i text
    let (ret, ec) ← ec.put (id_list i) (content i)
    if ret ≠ .OK then return (1, r, content, ec)
    put_large n (i + 1) r id_list content ec

/-- A round of gets. -/
def get_large : Nat → Nat → (Nat → extentid_t) → (Nat → List UInt8) → ExtentClient → Result (Nat × ExtentClient)
  | 0, _, _, _, ec => return (0, ec)
  | n + 1, i, id_list, content, ec => do
    let (ret, buf, ec) ← ec.get (id_list i)
    if ret ≠ .OK then return (2, ec)
    if buf ≠ content i then return (3, ec)
    get_large n (i + 1) id_list content ec

/-- The rounds of puts and gets. -/
def put_and_get_large : Nat → Rand → (Nat → extentid_t) → (Nat → List UInt8) → ExtentClient →
    Result (Nat × ExtentClient)
  | 0, _, _, _, ec => return (0, ec)
  | n + 1, r, id_list, content, ec => do
    let (ret, r, content, ec) ← put_large FILE_NUM 0 r id_list content ec
    if ret ≠ 0 then return (ret, ec)
    let (ret, ec) ← get_large FILE_NUM 0 id_list content ec
    if ret ≠ 0 then return (ret, ec)
    put_and_get_large n r id_list content ec

/-- The last loop. -/
def remove_files : Nat → Nat → (Nat → extentid_t) → ExtentClient → Result (Nat × ExtentClient)
  | 0, _, _, ec => return (0, ec)
  | n + 1, i, id_list, ec => do
    let (ret, ec) ← ec.remove (id_list i)
    if ret ≠ .OK then return (4, ec)
    remove_files n (i + 1) id_list ec

/-- The array `id_list` is not initialised, and the strings are empty. -/
def test_indirect (r : Rand) (id_list : Nat → extentid_t) (t : Tester) : Result (Nat × Tester) := do
  let (ret, id_list, ec) := create_files FILE_NUM 0 id_list t.ec
  if ret ≠ 0 then return (ret, { t with ec })
  let (ret, ec) ← put_and_get_large 10 r id_list (fun _ => []) ec
  if ret ≠ 0 then return (ret, { t with ec })
  let (ret, ec) ← remove_files FILE_NUM 0 id_list ec
  if ret ≠ 0 then return (ret, { t with ec })
  return (0, { ec, total_score := t.total_score + 10 })

/-- The numbers that come after each call of `srand`, and what the uninitialised arrays hold. -/
structure Surroundings where
  create : Rand
  put : Rand
  indirect : Rand
  contents : Nat → Nat
  id_list : Nat → extentid_t

/-- The global variables in the end, with the score that is printed. -/
def main (garbage : UInt32) (env : Env) (s : Surroundings) : Result Tester := do
  let ec ← ExtentClient.new garbage env
  let (ret, t) := test_create_and_getattr s.create { ec, total_score := 0 }
  if ret ≠ 0 then return t
  let (ret, t) ← test_put_and_get s.put s.contents t
  if ret ≠ 0 then return t
  let (ret, t) ← test_remove t
  if ret ≠ 0 then return t
  let (_, t) ← test_indirect s.indirect s.id_list t
  return t

end Part1Tester

end chfs
