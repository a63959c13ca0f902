import Bakaneko.SystemdUnits
import Bakaneko.Text
import Bakaneko.Library.EscapedText

/-!
# The list of drives

`Info::Drives` reads the lines of `lsblk`, a blank between any two fields. The
name of a device up to its first digit is taken for the drive it belongs to.
The drives stand in a vector, and partitions are added through pointers that
were taken when their drive was; such a pointer is good until the vector
grows.
-/

set_option autoImplicit false

namespace Bakaneko.DriveList
open Bakaneko.Native Bakaneko.Text Bakaneko.Messages Bakaneko.Rest
open Fallible

/-- A `0x` in front of a hexadecimal digit. -/
def hexPrefix : Bytes → ℕ
  | 48::x::d::_ => if (x = 120 ∨ x = 88) ∧ (SystemdUnits.hexDigit d).isSome then 2 else 0
  | _ => 0

/-- `std::stoi` in base 16, with the number of characters read. -/
def stoi16 (s : Bytes) : Except StdException (ℤ × ℕ) :=
  let rest := s.dropWhile isspace
  let negative := rest.head? = some 45
  let sign := if negative ∨ rest.head? = some 43 then 1 else 0
  let digits := SystemdUnits.hexDigits (rest.drop sign)
  let magnitude := digits.foldl (fun n d => 16*n+(SystemdUnits.hexDigit d).getD 0) 0
  let value : ℤ := if negative then -magnitude else magnitude
  if digits = [] then .error (.invalidArgument (bytes "stoi"))
  else if IsInt32 value then
    .ok (value, (s.length-rest.length)+sign+hexPrefix (rest.drop sign)+digits.length)
  else .error (.outOfRange (bytes "stoi"))

/-- `std::stoull` in base 10. -/
def stoull (s : Bytes) : Except StdException ℕ :=
  match strtol s with
  | none => .error (.invalidArgument (bytes "stoull"))
  | some (v, _) =>
    if 18446744073709551616 ≤ v.natAbs then .error (.outOfRange (bytes "stoull"))
    else .ok (v%18446744073709551616).toNat

/-- The loop that puts a byte for each escape, from the character at `a`. A
model is one attribute of the kernel and a mount point one path, so that the
`int` that counts comes to the end of either. -/
def unescapeFrom (s : Bytes) (a : ℕ) : Except StdException Bytes :=
  if a < s.length then
    if s[a]? = some 92 ∧ s[a+1]? = some 120 then
      match stoi16 ((s.drop (a+2)).take 2) with
      | .error e => .error e
      | .ok (charar, idx) =>
        let top := (s.set a (UInt8.ofNat (charar%256).toNat)).take (a+1)
        let bot := s.drop (a+2+idx)
        unescapeFrom (top++bot) (a+1)
    else unescapeFrom s (a+1)
  else .ok s
termination_by s.length-a
decreasing_by
  · simp only [List.length_append, List.length_take, List.length_set, List.length_drop]
    omega
  · omega

def unescape (s : Bytes) : Except StdException Bytes := unescapeFrom s 0

/-- `exec`: the exit status and the output of a command. -/
abbrev Exec := Bytes → Except StdException (ℤ × Bytes)

def raise {α : Type} (x : Except StdException α) : Except Failure α := x.mapError .exception

/-- `info[k]` of a vector. -/
def column (info : List Bytes) (k : ℕ) : Except Failure Bytes :=
  match info[k]? with
  | some field => .ok field
  | none => .error (.undefined .pastEnd)

/-- A pointer into the vector of drives, and the capacity the vector had. -/
structure Pointer where
  index : ℕ
  capacity : ℕ
  deriving DecidableEq

/-- The variables of the loop over the lines. -/
structure Building where
  drives : List Drive := []
  capacity : ℕ := 0
  seen : List Bytes := []
  pointers : List (Bytes × Pointer) := []
  deriving DecidableEq

/-- A full vector doubles its capacity, and every pointer into it is lost. -/
def Building.emplace (b : Building) (drive : Drive) : Building :=
  let capacity := if b.drives.length = b.capacity then max 1 (2*b.capacity) else b.capacity
  { b with
    drives := b.drives++[drive]
    capacity
    pointers := b.pointers++[(drive.devNode, ⟨b.drives.length, capacity⟩)] }

def newDrive (name : Bytes) (info : List Bytes) : Except Failure Drive := do
  let model ← column info 2
  let model ← raise (unescape model)
  let size ← column info 3
  let size ← raise (stoull size)
  return { devNode := name, size, model, manufacturer := [], interface := [], partitions := [] }

/-- The fields of the second line of `df`. Taking out an empty first field
steps in front of the vector. -/
def dfFields (exec : Exec) (name : Bytes) : Except Failure (List Bytes) := do
  let out ← raise (exec (bytes "df -aB1 /dev/"++name))
  let line ← column (split out.2 10 0) 1
  let df := split line 32 0
  if df.head? = some [] then .error (.undefined .pastEnd) else return df.filter (· ≠ [])

/-- The sizes that `lsblk` has not told. -/
def measure (exec : Exec) (name : Bytes) : Except Failure (List Bytes) := do
  let df ← dfFields exec name
  let device ← column df 0
  if device = bytes "/dev/"++name then do
    let size ← column df 1
    let used ← column df 4
    return [size, used]
  else return [[], []]

def newPartition (exec : Exec) (name : Bytes) (info : List Bytes) : Except Failure Partition := do
  let mountpoint ← column info 1
  let mountpoint ← raise (unescape mountpoint)
  let filesystem ← column info 4
  let sizes ← (if info.length ≤ 5 then measure exec name else .ok [])
  let fssize ← column (info++sizes) 5
  if fssize ≠ [] then do
    let size ← raise (stoull fssize)
    let used ← column (info++sizes) 6
    let used ← raise (stoull used)
    return { devNode := name, size, used, mountpoint, filesystem }
  else do
    let size ← column info 3
    let size ← raise (stoull size)
    return { devNode := name, size, used := size, mountpoint, filesystem }

def Building.attach (b : Building) (index : ℕ) (partition : Partition) : Building :=
  { b with
    drives := b.drives.modify index fun drive =>
      { drive with partitions := drive.partitions++[partition] } }

/-- A partition for the drive `drives_.at(owner)` points to. -/
def addPartition (b : Building) (owner : Bytes) (partition : Except Failure Partition) :
    Except Failure Building :=
  match b.pointers.find? (·.1 = owner) with
  | none => .error (.exception (.outOfRange (bytes "map::at")))
  | some (_, pointer) =>
    if pointer.capacity ≠ b.capacity then .error (.undefined .pastEnd)
    else partition.map (b.attach pointer.index)

/-- What stands in front of the first digit, or everything. -/
def baseName (name : Bytes) : Bytes := name.takeWhile fun c => !isdigit c

def numbered (name : Bytes) : Bool := name.any isdigit

/-- A name with nothing to take off is its own beginning. -/
theorem baseName_plain (name : Bytes) (h : numbered name = false) : baseName name = name := by
  rw [numbered, List.any_eq_false] at h
  rw [baseName, List.takeWhile_eq_self_iff]
  simpa using h

/-- `ljh::split` always has a first field. -/
def nameOf (line : Bytes) : Bytes := (split line 32 0).headD []

def readLine (exec : Exec) (b : Building) (line : Bytes) : Except Failure Building :=
  let info := split line 32 0
  let name := nameOf line
  let containsBaseDrive := b.seen.any (· = baseName name)
  if line = [] ∨ b.seen.any (· = name) then .ok b
  else do
    let b ← (if containsBaseDrive then .ok b else (newDrive name info).map b.emplace)
    let b ← (if numbered name then
        addPartition b (if containsBaseDrive then baseName name else name)
          (newPartition exec name info)
      else .ok b)
    return { b with seen := b.seen++[name] }

/-- `substr(2)`. -/
def unitName (drive : Drive) : Except StdException Bytes :=
  if drive.devNode.length < 2 then .error (.outOfRange (bytes "basic_string::substr"))
  else .ok (drive.devNode.drop 2)

/-- The order of the drives: by unit, then against the order of their names. -/
def driveBefore (a b : Drive) : Except StdException Bool := do
  let a2 ← unitName a
  let b2 ← unitName b
  return if a2 = b2 then decide (b.devNode < a.devNode) else decide (a2 < b2)

def sortPartitions (drive : Drive) : Drive :=
  { drive with
    partitions := drive.partitions.insertionSort fun a b => ¬ b.devNode < a.devNode }

/-- The output of the first `lsblk` that goes well, else of the second. -/
def listing (exec : Exec) : Except StdException Bytes := do
  let first ← exec
    (bytes "lsblk -brn --output NAME,MOUNTPOINT,MODEL,SIZE,FSTYPE,FSSIZE,FSUSED")
  if first.1 ≠ 0 then do
    let second ← exec (bytes "lsblk -brn --output NAME,MOUNTPOINT,MODEL,SIZE,FSTYPE")
    return second.2
  else return first.2

def readLines (exec : Exec) (lines : List Bytes) : Except Failure Building :=
  lines.foldlM (readLine exec) {}

def listDrives (exec : Exec) : Except Failure Drives := do
  let out ← raise (listing exec)
  let b ← readLines exec (split out 10 0)
  let drives ← raise (sortWith driveBefore b.drives)
  return { drives := drives.map sortPartitions }

/-- What `stoi` makes of two characters behind a mark. -/
def chararOf (s : Bytes) : Option (UInt8 × ℕ) :=
  match stoi16 (s.take 2) with
  | .error _ => none
  | .ok (charar, idx) => some (UInt8.ofNat (charar%256).toNat, idx)

theorem escape_drop (s : Bytes) (a : ℕ) :
    SystemdUnits.Escape <+: s.drop a ↔ s[a]? = some 92 ∧ s[a+1]? = some 120 := by
  have hhead : ∀ l : Bytes, SystemdUnits.Escape <+: l ↔ l[0]? = some 92 ∧ l[1]? = some 120 := by
    intro l
    match l with
    | [] => simp [SystemdUnits.Escape]
    | [b] => simp [SystemdUnits.Escape]
    | b::c::l => simp [SystemdUnits.Escape, eq_comm]
  rw [hhead, List.getElem?_drop, List.getElem?_drop, Nat.add_zero]

theorem drop_mark (s : Bytes) (a : ℕ) (h : SystemdUnits.Escape <+: s.drop a) :
    s.drop a = SystemdUnits.Escape++s.drop (a+2) := by
  obtain ⟨rest, hr⟩ := h
  rw [← List.drop_drop, ← hr]
  rfl

/-- From the character at `a` on, the loop leaves what the text stands for. -/
theorem unescapeFrom_iff (s : Bytes) (a : ℕ) (t : Bytes) : unescapeFrom s a = .ok t ↔
    ∃ raw, EscapedText.StandsFor SystemdUnits.Escape chararOf (s.drop a) raw ∧
      t = s.take a++raw := by
  have hne : SystemdUnits.Escape ≠ [] := by decide
  fun_induction unescapeFrom s a with
  | case1 s a ha hmark e he =>
    rw [drop_mark s a ((escape_drop s a).mpr hmark)]
    simp [EscapedText.standsFor_escape hne, chararOf, he]
  | case2 s a ha hmark charar idx he top bot ih =>
    have hlen : top.length = a+1 := by
      simp only [top, List.length_take, List.length_set]
      omega
    have htop : top = s.take a++[UInt8.ofNat (charar%256).toNat] := by
      simp [top, List.take_add_one, List.take_set_of_le, ha]
    have hdrop : (top++bot).drop (a+1) = (s.drop (a+2)).drop idx := by
      rw [← hlen, List.drop_left, List.drop_drop]
    have htake : (top++bot).take (a+1) = s.take a++[UInt8.ofNat (charar%256).toNat] := by
      rw [← hlen, List.take_left, htop]
    refine ih.trans ?_
    rw [hdrop, htake, drop_mark s a ((escape_drop s a).mpr hmark)]
    simp only [EscapedText.standsFor_escape hne, chararOf, he, Option.some.injEq, Prod.mk.injEq]
    constructor
    · rintro ⟨raw, hr, rfl⟩
      exact ⟨_, ⟨_, _, raw, ⟨rfl, rfl⟩, rfl, hr⟩, by simp⟩
    · rintro ⟨-, ⟨_, _, raw, ⟨rfl, rfl⟩, rfl, hr⟩, rfl⟩
      exact ⟨raw, hr, by simp⟩
  | case3 s a ha hmark ih =>
    have hplain : ¬ SystemdUnits.Escape <+: s[a]::s.drop (a+1) := by
      rw [← List.drop_eq_getElem_cons ha, escape_drop]
      exact hmark
    refine ih.trans ?_
    have htake : s.take (a+1) = s.take a++[s[a]] := by
      rw [List.take_add_one, List.getElem?_eq_getElem ha, Option.toList_some]
    rw [List.drop_eq_getElem_cons ha, htake]
    simp only [EscapedText.standsFor_plain _ _ _ hplain]
    constructor
    · rintro ⟨raw, hr, rfl⟩
      exact ⟨_, ⟨raw, rfl, hr⟩, List.append_assoc _ _ _⟩
    · rintro ⟨-, ⟨raw, rfl, hr⟩, rfl⟩
      exact ⟨raw, hr, List.append_cons _ _ _⟩
  | case4 s a ha =>
    rw [List.drop_eq_nil_of_le (by omega), List.take_of_length_le (by omega)]
    simp [EscapedText.standsFor_nil hne, eq_comm]

theorem unescape_iff (s t : Bytes) : unescape s = .ok t ↔
    EscapedText.StandsFor SystemdUnits.Escape chararOf s t := by
  rw [unescape, unescapeFrom_iff]
  simp

theorem column_ok (info : List Bytes) (k : ℕ) (field : Bytes) :
    column info k = .ok field ↔ info[k]? = some field := by
  unfold column
  cases info[k]? <;> simp

theorem raise_ok {α : Type} (x : Except StdException α) (a : α) : raise x = .ok a ↔ x = .ok a :=
  mapError_ok x Failure.exception a

/-- The drives that are returned are those of the loop, in order, each with
its partitions in order. -/
theorem listDrives_ok (exec : Exec) (out : Bytes) (drives : Drives) (ho : listing exec = .ok out) :
    listDrives exec = .ok drives ↔ ∃ b sorted, readLines exec (split out 10 0) = .ok b ∧
      sortWith driveBefore b.drives = .ok sorted ∧ drives = ⟨sorted.map sortPartitions⟩ := by
  have hraise : raise (listing exec) = .ok out := (raise_ok _ _).mpr ho
  constructor
  · intro h
    obtain ⟨out', ho', h⟩ := (bind_ok _ _ _).mp h
    cases hraise.symm.trans ho'
    obtain ⟨b, hb, h⟩ := (bind_ok _ _ _).mp h
    obtain ⟨sorted, hs, h⟩ := (bind_ok _ _ _).mp h
    exact ⟨b, sorted, hb, (raise_ok _ _).mp hs, (return_ok _ _).mp h⟩
  · rintro ⟨b, sorted, hb, hs, rfl⟩
    exact (bind_ok _ _ _).mpr ⟨out, hraise, (bind_ok _ _ _).mpr ⟨b, hb, (bind_ok _ _ _).mpr
      ⟨sorted, (raise_ok _ _).mpr hs, rfl⟩⟩⟩

theorem sortPartitions_perm (drive : Drive) :
    (sortPartitions drive).partitions.Perm drive.partitions := List.perm_insertionSort _ _

theorem newDrive_ok (name : Bytes) (info : List Bytes) (drive : Drive)
    (h : newDrive name info = .ok drive) : drive.devNode = name ∧ drive.manufacturer = [] ∧
      drive.interface = [] ∧ drive.partitions = [] ∧
      ∃ field, info[2]? = some field ∧ unescape field = .ok drive.model := by
  obtain ⟨field, hf, h⟩ := (bind_ok _ _ _).mp h
  obtain ⟨model, hm, h⟩ := (bind_ok _ _ _).mp h
  obtain ⟨text, -, h⟩ := (bind_ok _ _ _).mp h
  obtain ⟨size, -, h⟩ := (bind_ok _ _ _).mp h
  rw [(return_ok _ _).mp h]
  exact ⟨rfl, rfl, rfl, rfl, field, (column_ok _ _ _).mp hf, (raise_ok _ _).mp hm⟩

theorem newPartition_ok (exec : Exec) (name : Bytes) (info : List Bytes) (partition : Partition)
    (h : newPartition exec name info = .ok partition) : partition.devNode = name ∧
      (∃ field, info[1]? = some field ∧ unescape field = .ok partition.mountpoint) ∧
      info[4]? = some partition.filesystem := by
  obtain ⟨field, hf, h⟩ := (bind_ok _ _ _).mp h
  obtain ⟨mountpoint, hm, h⟩ := (bind_ok _ _ _).mp h
  obtain ⟨filesystem, hs, h⟩ := (bind_ok _ _ _).mp h
  have hparts : partition.devNode = name ∧ partition.mountpoint = mountpoint ∧
      partition.filesystem = filesystem := by
    obtain ⟨sizes, -, h⟩ := (bind_ok _ _ _).mp h
    obtain ⟨fssize, -, h⟩ := (bind_ok _ _ _).mp h
    split at h
    · obtain ⟨size, -, h⟩ := (bind_ok _ _ _).mp h
      obtain ⟨text, -, h⟩ := (bind_ok _ _ _).mp h
      obtain ⟨used, -, h⟩ := (bind_ok _ _ _).mp h
      rw [(return_ok _ _).mp h]
      exact ⟨rfl, rfl, rfl⟩
    · obtain ⟨text, -, h⟩ := (bind_ok _ _ _).mp h
      obtain ⟨size, -, h⟩ := (bind_ok _ _ _).mp h
      rw [(return_ok _ _).mp h]
      exact ⟨rfl, rfl, rfl⟩
  obtain ⟨hname, hmount, hfs⟩ := hparts
  rw [hmount, hfs]
  exact ⟨hname, ⟨field, (column_ok _ _ _).mp hf, (raise_ok _ _).mp hm⟩, (column_ok _ _ _).mp hs⟩

theorem addPartition_ok (b b' : Building) (owner : Bytes) (partition : Except Failure Partition)
    (h : addPartition b owner partition = .ok b') : ∃ entry ∈ b.pointers, ∃ p,
      partition = .ok p ∧ b' = b.attach entry.2.index p := by
  unfold addPartition at h
  split at h
  · cases h
  · next name pointer hfind =>
    split at h
    · cases h
    · obtain ⟨p, hp, rfl⟩ := (map_ok _ _ _).mp h
      exact ⟨(name, pointer), List.mem_of_find?_eq_some hfind, p, hp, rfl⟩

theorem seen_any (seen : List Bytes) (name : Bytes) :
    seen.any (· = name) = true ↔ name ∈ seen := by
  simp

/-- What the line of a device does that has not been seen. -/
theorem readLine_new (exec : Exec) (b b' : Building) (line : Bytes) (hl : line ≠ [])
    (hn : nameOf line ∉ b.seen) (h : readLine exec b line = .ok b') : ∃ b₁ b₂,
      (baseName (nameOf line) ∈ b.seen ∧ b₁ = b ∨
        baseName (nameOf line) ∉ b.seen ∧ ∃ drive,
          newDrive (nameOf line) (split line 32 0) = .ok drive ∧ b₁ = b.emplace drive) ∧
      (numbered (nameOf line) = false ∧ b₂ = b₁ ∨
        numbered (nameOf line) = true ∧ ∃ entry ∈ b₁.pointers, ∃ partition,
          newPartition exec (nameOf line) (split line 32 0) = .ok partition ∧
            b₂ = b₁.attach entry.2.index partition) ∧
      b' = { b₂ with seen := b₂.seen++[nameOf line] } := by
  have hskip : ¬(line = [] ∨ b.seen.any (· = nameOf line) = true) := by
    rw [seen_any]
    exact not_or.mpr ⟨hl, hn⟩
  unfold readLine at h
  rw [if_neg hskip] at h
  obtain ⟨b₁, h1, h⟩ := (bind_ok _ _ _).mp h
  obtain ⟨b₂, h2, h⟩ := (bind_ok _ _ _).mp h
  refine ⟨b₁, b₂, ?_, ?_, (return_ok _ _).mp h⟩
  · split at h1
    · next hb =>
      cases h1
      exact .inl ⟨(seen_any _ _).mp hb, rfl⟩
    · next hb =>
      obtain ⟨drive, hd, rfl⟩ := (map_ok _ _ _).mp h1
      exact .inr ⟨fun hm => hb ((seen_any _ _).mpr hm), drive, hd, rfl⟩
  · split at h2
    · next hnum => exact .inr ⟨hnum, addPartition_ok _ _ _ _ h2⟩
    · next hnum =>
      cases h2
      exact .inl ⟨by simpa using hnum, rfl⟩

theorem readLine_old (exec : Exec) (b : Building) (line : Bytes)
    (h : line = [] ∨ nameOf line ∈ b.seen) : readLine exec b line = .ok b := by
  unfold readLine
  exact if_pos (h.imp_right (seen_any _ _).mpr)

/-- Every pointer is one into the vector. -/
def Pointed (b : Building) : Prop := ∀ entry ∈ b.pointers, entry.2.index < b.drives.length

theorem emplace_pointed (b : Building) (drive : Drive) (h : Pointed b) :
    Pointed (b.emplace drive) := by
  intro entry he
  simp only [Building.emplace, List.mem_append, List.mem_singleton, List.length_append,
    List.length_singleton] at he ⊢
  rcases he with he | rfl
  · exact Nat.lt_succ_of_lt (h entry he)
  · exact Nat.lt_succ_self _

theorem attach_pointed (b : Building) (index : ℕ) (partition : Partition) (h : Pointed b) :
    Pointed (b.attach index partition) := by
  intro entry he
  simpa [Building.attach] using h entry he

/-- The names in front of the lines, blank lines aside. -/
def names (lines : List Bytes) : List Bytes := (lines.filter (· ≠ [])).map nameOf

theorem names_append (lines : List Bytes) (line : Bytes) :
    names (lines++[line]) = names lines++(if line = [] then [] else [nameOf line]) := by
  by_cases hl : line = [] <;> simp [names, List.filter_append, hl]

theorem readLines_append (exec : Exec) (lines : List Bytes) (line : Bytes) :
    readLines exec (lines++[line]) =
      readLines exec lines >>= fun b => readLine exec b line := by
  rw [readLines, readLines, List.foldlM_append]
  exact congrArg _ (funext fun b => List.foldlM_cons.trans (bind_pure _))

theorem readLine_keeps (exec : Exec) (b b' : Building) (line : Bytes) (hp : Pointed b)
    (h : readLine exec b line = .ok b') : Pointed b' ∧
      ∀ name, name ∈ b'.seen ↔ name ∈ b.seen ∨ line ≠ [] ∧ name = nameOf line := by
  by_cases hold : line = [] ∨ nameOf line ∈ b.seen
  · rw [readLine_old exec b line hold] at h
    cases h
    refine ⟨hp, fun name => ⟨.inl, ?_⟩⟩
    rintro (hn | ⟨hl, rfl⟩)
    · exact hn
    · exact hold.resolve_left hl
  · obtain ⟨hl, hn⟩ := not_or.mp hold
    obtain ⟨b₁, b₂, h1, h2, rfl⟩ := readLine_new exec b b' line hl hn h
    have hb1 : Pointed b₁ ∧ b₁.seen = b.seen := by
      rcases h1 with ⟨-, rfl⟩ | ⟨-, drive, -, rfl⟩
      · exact ⟨hp, rfl⟩
      · exact ⟨emplace_pointed b drive hp, rfl⟩
    have hb2 : Pointed b₂ ∧ b₂.seen = b.seen := by
      rcases h2 with ⟨-, rfl⟩ | ⟨-, entry, -, partition, -, rfl⟩
      · exact hb1
      · exact ⟨attach_pointed b₁ _ partition hb1.1, hb1.2⟩
    refine ⟨hb2.1, fun name => ?_⟩
    simp only [hb2.2, List.mem_append, List.mem_singleton, hl, ne_eq, not_false_eq_true, true_and]

/-- After the lines, the names seen are theirs. -/
theorem readLines_keeps (exec : Exec) (lines : List Bytes) (b : Building)
    (h : readLines exec lines = .ok b) :
    Pointed b ∧ ∀ name, name ∈ b.seen ↔ name ∈ names lines := by
  induction lines using List.reverseRecOn generalizing b with
  | nil =>
    cases h
    exact ⟨by simp [Pointed], by simp [names]⟩
  | append_singleton lines line ih =>
    rw [readLines_append] at h
    obtain ⟨b₀, h0, h⟩ := (bind_ok _ _ _).mp h
    obtain ⟨hp, hseen⟩ := ih b₀ h0
    obtain ⟨hp', hseen'⟩ := readLine_keeps exec b₀ b line hp h
    refine ⟨hp', fun name => ?_⟩
    rw [hseen', hseen, names_append]
    by_cases hl : line = [] <;> simp [hl]

end Bakaneko.DriveList
