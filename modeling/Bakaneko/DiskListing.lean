import Bakaneko.DiskPartitions
import Bakaneko.DriveOrder
import Bakaneko.TableRows

/-!
# What `lsblk` prints of disks and their partitions

The line of a disk comes first and the lines of its partitions follow, with
blanks and unprintable bytes escaped. Where `lsblk` does not know the sizes of
the file systems, `df` is asked for each partition, and the fifth of its columns
is a percentage. Where no disk has a digit in its name, `Info::Drives` makes of
these lines the disks and their partitions again.
-/

set_option autoImplicit false

namespace Bakaneko.DiskListing
open Bakaneko.Native Bakaneko.Text Bakaneko.Messages Bakaneko.DriveList Bakaneko.UnescapeLoops
open Bakaneko.Rest Fallible

/-- Bytes of a file system, and what `df` prints in front of `%`. -/
structure Usage where
  size : ℕ
  used : ℕ
  percent : ℕ
  size_fits : IsUInt64 size
  used_fits : IsUInt64 used
  percent_fits : IsUInt64 percent

/-- What is on a device; only a mounted file system has a usage. -/
structure Filesystem where
  mountpoint : Bytes
  fstype : Bytes
  usage : Option Usage

structure Volume where
  number : ℕ
  size : ℕ
  filesystem : Filesystem
  size_fits : IsUInt64 size

/-- A disk whose name has no digit, with its partitions. -/
structure PlainDisk where
  name : Bytes
  model : Bytes
  size : ℕ
  filesystem : Filesystem
  volumes : List Volume
  letters : ∀ c ∈ name, isalpha c = true
  long : 2 ≤ name.length
  size_fits : IsUInt64 size
  distinct : (volumes.map Volume.number).Nodup

/-- The command that knows the sizes of the file systems. -/
inductive Teller where
  | lsblk
  | df
  deriving DecidableEq

/-- The last two columns, which an old `lsblk` does not have. -/
def Teller.columns : Teller → Option Usage → List Bytes
  | .df, _ => []
  | .lsblk, none => [[], []]
  | .lsblk, some u => [numeral u.size, numeral u.used]

/-- What the fifth column of `df` is taken for. -/
def Teller.used : Teller → Usage → ℕ
  | .lsblk, u => u.used
  | .df, u => u.percent

/-- What `df` prints behind its heading: words with blanks behind them. -/
structure DfLine where
  words : List (Bytes × ℕ)
  plain : ∀ w ∈ words, w.1 ≠ [] ∧ 32 ∉ w.1 ∧ 10 ∉ w.1

def DfLine.fields (l : DfLine) : List Bytes := l.words.flatMap fun w => w.1::List.replicate w.2 []

def DfLine.text (l : DfLine) : Bytes := [32].intercalate l.fields

/-- The line of a mounted device, or the one of another. -/
def DfLine.Tells (l : DfLine) (device : Bytes) : Option Usage → Prop
  | some u => ∃ available rest, l.words.map Prod.fst =
      device::numeral u.size::numeral u.used::available::(numeral u.percent++[37])::rest
  | none => ∃ other rest, l.words.map Prod.fst = other::rest ∧ other ≠ device

def PlainDisk.volumeName (d : PlainDisk) (v : Volume) : Bytes := d.name++numeral v.number

def PlainDisk.names (d : PlainDisk) : List Bytes := d.name::d.volumes.map d.volumeName

section
variable (isprint : UInt8 → Bool) (teller : Teller)

def cells (name model : Bytes) (size : ℕ) (fs : Filesystem) : List Bytes :=
  [name, lsblkEscape isprint fs.mountpoint, lsblkEscape isprint model, numeral size,
    lsblkEscape isprint fs.fstype]++teller.columns fs.usage

def line (name model : Bytes) (size : ℕ) (fs : Filesystem) : Bytes :=
  [32].intercalate (cells isprint teller name model size fs)

def PlainDisk.line (d : PlainDisk) : Bytes :=
  DiskListing.line isprint teller d.name d.model d.size d.filesystem

/-- The line of a partition has no model. -/
def PlainDisk.volumeLine (d : PlainDisk) (v : Volume) : Bytes :=
  DiskListing.line isprint teller (d.volumeName v) [] v.size v.filesystem

def PlainDisk.lines (d : PlainDisk) : List Bytes :=
  d.line isprint teller::d.volumes.map (d.volumeLine isprint teller)

def output (disks : List PlainDisk) : Bytes :=
  unlines (disks.flatMap (PlainDisk.lines isprint teller))

/-- What the commands of a host with these disks print. -/
structure Prints (exec : Exec) (disks : List PlainDisk) : Prop where
  lsblk : DriveList.listing exec = .ok (output isprint teller disks)
  fits : (output isprint teller disks).length < 18446744073709551616
  df : teller = .df → ∀ d ∈ disks, ∀ v ∈ d.volumes, ∃ status heading, ∃ l : DfLine,
    exec (bytes "df -aB1 /dev/"++d.volumeName v) = .ok (status, unlines [heading, l.text]) ∧
    10 ∉ heading ∧ (unlines [heading, l.text]).length < 18446744073709551616 ∧
    l.Tells (bytes "/dev/"++d.volumeName v) v.filesystem.usage

/-- The mount point is read back, the kind of the file system stays escaped. -/
def PlainDisk.partition (d : PlainDisk) (v : Volume) : Partition where
  devNode := d.volumeName v
  size := v.filesystem.usage.elim v.size Usage.size
  used := v.filesystem.usage.elim v.size teller.used
  mountpoint := v.filesystem.mountpoint
  filesystem := lsblkEscape isprint v.filesystem.fstype

def PlainDisk.drive (d : PlainDisk) (volumes : List Volume) : Drive where
  devNode := d.name
  size := d.size
  model := d.model
  manufacturer := []
  interface := []
  partitions := volumes.map (d.partition isprint teller)

/-- A drive with its partitions in the order of their names. -/
def PlainDisk.record (d : PlainDisk) : Drive :=
  sortPartitions (d.drive isprint teller d.volumes)

end

/-- By what stands behind the first two letters, then against the order of the names. -/
def Before (a b : Bytes) : Prop := a.drop 2 < b.drop 2 ∨ a.drop 2 = b.drop 2 ∧ ¬ a < b

instance (a b : Bytes) : Decidable (Before a b) := inferInstanceAs (Decidable (_ ∨ _))

def inOrder (disks : List PlainDisk) : List PlainDisk :=
  disks.insertionSort fun a b => Before a.name b.name

def drivesOf (isprint : UInt8 → Bool) (teller : Teller) (disks : List PlainDisk) : Drives :=
  ⟨(inOrder disks).map (PlainDisk.record isprint teller)⟩

theorem alnum_free (c : UInt8) (h : isalpha c = true ∨ isdigit c = true) : c ≠ 32 ∧ c ≠ 10 := by
  constructor
  · rintro rfl
    revert h
    decide
  · rintro rfl
    revert h
    decide

theorem numeral_alnum (n : ℕ) (c : UInt8) (hc : c ∈ numeral n) :
    isalpha c = true ∨ isdigit c = true :=
  .inr (numeral_mem n c hc)

theorem name_alnum (d : PlainDisk) (c : UInt8) (hc : c ∈ d.name) :
    isalpha c = true ∨ isdigit c = true :=
  .inl (d.letters c hc)

theorem volumeName_alnum (d : PlainDisk) (v : Volume) (c : UInt8) (hc : c ∈ d.volumeName v) :
    isalpha c = true ∨ isdigit c = true :=
  (List.mem_append.mp hc).elim (name_alnum d c) (numeral_alnum v.number c)

theorem free_of_alnum (s : Bytes) (h : ∀ c ∈ s, isalpha c = true ∨ isdigit c = true) :
    32 ∉ s ∧ 10 ∉ s :=
  ⟨fun hc => (alnum_free 32 (h 32 hc)).1 rfl, fun hc => (alnum_free 10 (h 10 hc)).2 rfl⟩

theorem numbered_name (d : PlainDisk) : numbered d.name = false := by
  rw [numbered, List.any_eq_false]
  intro c hc hdigit
  have halpha := (digit_plain c hdigit).2.2.2
  rw [d.letters c hc] at halpha
  cases halpha

/-- The disk of a partition is the base of its name. -/
theorem volumeName_base (d : PlainDisk) (v : Volume) :
    baseName (d.volumeName v) = d.name ∧ numbered (d.volumeName v) = true := by
  have hrun := DiskPartitions.numeral_head v.number []
  rw [List.append_nil] at hrun
  exact DiskPartitions.baseName_run _ _ (numbered_name d) hrun.1 hrun.2

section
variable (isprint : UInt8 → Bool) (hprint : isprint 10 = false)
include hprint

theorem lsblkEscape_free (s : Bytes) :
    32 ∉ lsblkEscape isprint s ∧ 10 ∉ lsblkEscape isprint s := by
  have hfree : ∀ c ∈ lsblkEscape isprint s, c ≠ 32 ∧ c ≠ 10 := by
    intro c hc
    obtain ⟨b, -, hb⟩ := List.mem_flatMap.mp hc
    have hhex : ∀ n < 16, hexLetter n ≠ 32 ∧ hexLetter n ≠ 10 := by decide
    have hlow := b.toNat_lt
    split at hb
    · simp only [List.mem_cons, List.not_mem_nil, or_false] at hb
      rcases hb with rfl | rfl | rfl | rfl
      · decide
      · decide
      · exact hhex _ (by omega)
      · exact hhex _ (by omega)
    · next hsafe =>
      rw [List.mem_singleton.mp hb]
      exact ⟨fun h => hsafe (.inr (.inl h)), fun h => hsafe (.inr (.inr (.inr (h ▸ hprint))))⟩
  exact ⟨fun h => (hfree 32 h).1 rfl, fun h => (hfree 10 h).2 rfl⟩

variable (teller : Teller) (name model : Bytes) (size : ℕ) (fs : Filesystem)
  (hname : ∀ c ∈ name, isalpha c = true ∨ isdigit c = true)
include hname

theorem cells_free (cell : Bytes) (h : cell ∈ cells isprint teller name model size fs) :
    32 ∉ cell ∧ 10 ∉ cell := by
  have hnumeral (n : ℕ) := free_of_alnum (numeral n) (numeral_alnum n)
  simp only [cells, List.cons_append, List.nil_append, List.mem_cons] at h
  rcases h with rfl | rfl | rfl | rfl | rfl | h
  · exact free_of_alnum _ hname
  · exact lsblkEscape_free isprint hprint _
  · exact lsblkEscape_free isprint hprint _
  · exact hnumeral _
  · exact lsblkEscape_free isprint hprint _
  · cases teller with
    | df => cases h
    | lsblk =>
      cases hu : fs.usage with
      | none =>
        rw [hu] at h
        simp only [Teller.columns, List.mem_cons, List.not_mem_nil, or_false, or_self] at h
        simp [h]
      | some u =>
        rw [hu] at h
        simp only [Teller.columns, List.mem_cons, List.not_mem_nil, or_false] at h
        rcases h with rfl | rfl
        · exact hnumeral _
        · exact hnumeral _

theorem line_split
    (hsize : (line isprint teller name model size fs).length < 18446744073709551616) :
    split (line isprint teller name model size fs) 32 0 =
      cells isprint teller name model size fs :=
  split_intercalate 32 _ (by simp [cells])
    (fun cell h => (cells_free isprint hprint teller name model size fs hname cell h).1) hsize

end

theorem intercalate_mem (sep : Bytes) (fields : List Bytes) (c : UInt8)
    (h : c ∈ sep.intercalate fields) : c ∈ sep ∨ ∃ field ∈ fields, c ∈ field := by
  induction fields with
  | nil => cases h
  | cons field fields ih =>
    cases fields with
    | nil =>
      rw [List.intercalate_singleton] at h
      exact .inr ⟨field, List.mem_cons_self, h⟩
    | cons next fields =>
      rw [List.intercalate_cons_cons, List.mem_append, List.mem_append] at h
      rcases h with (h | h) | h
      · exact .inr ⟨field, List.mem_cons_self, h⟩
      · exact .inl h
      · refine (ih h).imp_right ?_
        rintro ⟨f, hf, hc⟩
        exact ⟨f, List.mem_cons_of_mem field hf, hc⟩

theorem unescape_lsblkEscape (isprint : UInt8 → Bool) (s : Bytes) :
    unescape (lsblkEscape isprint s) = .ok s :=
  (unescape_iff _ _).mpr (escaped_standsFor isprint s _ (lsblkEscape_escaped isprint s))

/-- A drive, from its columns. -/
theorem newDrive_value (name model raw : Bytes) (size : ℕ) (info : List Bytes)
    (hm : info[2]? = some model) (hraw : unescape model = .ok raw)
    (hs : info[3]? = some (numeral size)) (hsize : IsUInt64 size) :
    DriveList.newDrive name info = .ok
      { devNode := name, size, model := raw, manufacturer := [], interface := [],
        partitions := [] } := by
  unfold DriveList.newDrive
  simp only [(column_ok _ _ _).mpr hm, (column_ok _ _ _).mpr hs, bind, Except.bind,
    (raise_ok _ _).mpr hraw, (raise_ok _ _).mpr (DriveEntries.stoull_number size hsize)]
  rfl

/-- The text and the numbers of two columns, or the size of the device. -/
def Sizes (fssize fsused : Bytes) (size : ℕ) (usage : Option (ℕ × ℕ)) : Prop :=
  match usage with
  | none => fssize = [] ∧ IsUInt64 size
  | some (a, b) => fssize ≠ [] ∧ DriveList.stoull fssize = .ok a ∧ DriveList.stoull fsused = .ok b

/-- A partition, from its columns. -/
theorem newPartition_value (exec : Exec) (name mountpoint raw fstype fssize fsused : Bytes)
    (size : ℕ) (usage : Option (ℕ × ℕ)) (info sizes : List Bytes)
    (hm : info[1]? = some mountpoint) (hraw : unescape mountpoint = .ok raw)
    (hs : info[3]? = some (numeral size)) (hf : info[4]? = some fstype)
    (hsizes : (if info.length ≤ 5 then DriveList.measure exec name else .ok []) = .ok sizes)
    (h5 : (info++sizes)[5]? = some fssize) (h6 : (info++sizes)[6]? = some fsused)
    (h : Sizes fssize fsused size usage) :
    newPartition exec name info = .ok {
      devNode := name, size := usage.elim size Prod.fst, used := usage.elim size Prod.snd,
      mountpoint := raw, filesystem := fstype } := by
  unfold newPartition
  simp only [(column_ok _ _ _).mpr hm, (column_ok _ _ _).mpr hs, (column_ok _ _ _).mpr hf, hsizes,
    (column_ok _ _ _).mpr h5, (column_ok _ _ _).mpr h6, bind, Except.bind,
    (raise_ok _ _).mpr hraw]
  cases usage with
  | none =>
    rw [if_neg (not_not.mpr h.1), (raise_ok _ _).mpr (DriveEntries.stoull_number size h.2)]
    rfl
  | some sizes =>
    rw [if_pos h.1]
    simp only [(raise_ok _ _).mpr h.2.1, (raise_ok _ _).mpr h.2.2]
    rfl

/-- `stoull` stops in front of the sign. -/
theorem stoull_percent (n : ℕ) (hn : IsUInt64 n) :
    DriveList.stoull (numeral n++[37]) = .ok n := by
  obtain ⟨hne, hall, hvalue⟩ := numeral_digits n
  have hread := strtol_run (numeral n) [37] hne (List.all_eq_true.mp hall) fun c hc => by
    cases hc
    decide
  have hfits : n < 18446744073709551616 := hn
  rw [DriveList.stoull, hread, hvalue]
  dsimp only
  rw [if_neg (by omega)]
  congr 1
  omega

theorem df_fields (l : DfLine) : l.fields.filter (· ≠ []) = l.words.map Prod.fst := by
  have hwords := l.plain
  rw [DfLine.fields]
  generalize l.words = words at hwords
  induction words with
  | nil => rfl
  | cons w words ih =>
    have hne := (hwords w List.mem_cons_self).1
    have hblank : (List.replicate w.2 ([] : Bytes)).filter (· ≠ []) = [] := by
      rw [List.filter_eq_nil_iff]
      intro s hs
      simp [(List.mem_replicate.mp hs).2]
    rw [List.flatMap_cons, List.filter_append, List.filter_cons_of_pos (by simpa using hne), hblank,
      ih fun w hw => hwords w (List.mem_cons_of_mem _ hw)]
    rfl

theorem df_free (l : DfLine) (field : Bytes) (h : field ∈ l.fields) : 32 ∉ field ∧ 10 ∉ field := by
  obtain ⟨w, hw, hfield⟩ := List.mem_flatMap.mp h
  rcases List.mem_cons.mp hfield with rfl | hfield
  · exact (l.plain w hw).2
  · rw [(List.mem_replicate.mp hfield).2]
    exact ⟨List.not_mem_nil, List.not_mem_nil⟩

/-- The words of the second line, however many blanks are between them. -/
theorem dfFields_words (exec : Exec) (name heading first : Bytes) (status : ℤ) (l : DfLine)
    (rest : List Bytes) (hrun : exec (bytes "df -aB1 /dev/"++name) =
      .ok (status, unlines [heading, l.text]))
    (hheading : 10 ∉ heading) (hsize : (unlines [heading, l.text]).length < 18446744073709551616)
    (hwords : l.words.map Prod.fst = first::rest) :
    dfFields exec name = .ok (l.words.map Prod.fst) := by
  obtain ⟨⟨word, pad⟩, words, hl, rfl, rfl⟩ := List.map_eq_cons_iff.mp hwords
  have hfirst : l.fields.head? = some word := by
    rw [DfLine.fields, hl]
    rfl
  have hne : l.fields ≠ [] := by
    intro h
    rw [h] at hfirst
    cases hfirst
  have hword : word ≠ [] := (l.plain (word, pad) (hl ▸ List.mem_cons_self)).1
  have htext : 10 ∉ l.text := by
    intro h
    rcases intercalate_mem _ _ _ h with h | ⟨field, hf, h⟩
    · simp at h
    · exact (df_free l field hf).2 h
  have hlines : split (unlines [heading, l.text]) 10 0 = [heading, l.text, []] := by
    refine split_unlines [heading, l.text] (fun line h => ?_) hsize
    simp only [List.mem_cons, List.not_mem_nil, or_false] at h
    rcases h with rfl | rfl
    · exact hheading
    · exact htext
  have hlen := unlines_length [heading, l.text] l.text (by simp)
  have hsplit : split l.text 32 0 = l.fields :=
    split_intercalate 32 l.fields hne (fun field hf => (df_free l field hf).1) (hlen.trans hsize)
  unfold dfFields
  simp only [(raise_ok _ _).mpr hrun, bind, Except.bind, hlines, column, List.getElem?_cons_succ,
    List.getElem?_cons_zero, hsplit]
  rw [hfirst, if_neg (by simpa using hword), df_fields]
  rfl

/-- What is pushed behind the columns. -/
theorem measure_tells (exec : Exec) (name heading : Bytes) (status : ℤ) (l : DfLine)
    (usage : Option Usage)
    (hrun : exec (bytes "df -aB1 /dev/"++name) = .ok (status, unlines [heading, l.text]))
    (hheading : 10 ∉ heading) (hsize : (unlines [heading, l.text]).length < 18446744073709551616)
    (htells : l.Tells (bytes "/dev/"++name) usage) : DriveList.measure exec name =
      .ok (usage.elim [[], []] fun u => [numeral u.size, numeral u.percent++[37]]) := by
  cases usage with
  | none =>
    obtain ⟨other, rest, hwords, hother⟩ := htells
    have hfields := dfFields_words exec name heading other status l rest hrun hheading hsize hwords
    rw [hwords] at hfields
    unfold DriveList.measure
    simp only [hfields, bind, Except.bind, column, List.getElem?_cons_zero, if_neg hother]
    rfl
  | some u =>
    obtain ⟨available, rest, hwords⟩ := htells
    have hfields := dfFields_words exec name heading _ status l _ hrun hheading hsize hwords
    rw [hwords] at hfields
    unfold DriveList.measure
    simp only [hfields, bind, Except.bind, column, List.getElem?_cons_zero, List.getElem?_cons_succ,
      if_true]
    rfl

/-- What the vector, the map and the set hold behind the lines of some disks. -/
structure Read (isprint : UInt8 → Bool) (teller : Teller) (disks : List PlainDisk) (b : Building) :
    Prop where
  drives : b.drives = disks.map fun d => d.drive isprint teller d.volumes
  seen : b.seen = disks.flatMap PlainDisk.names
  pointers : ∀ p ∈ b.pointers, p.1 ∈ disks.map PlainDisk.name

/-- And of some partitions of one more disk, whose pointer is the last. -/
structure Reading (isprint : UInt8 → Bool) (teller : Teller) (disks : List PlainDisk)
    (d : PlainDisk) (volumes : List Volume) (b : Building) : Prop where
  drives : b.drives = (disks.map fun d => d.drive isprint teller d.volumes)++
    [d.drive isprint teller volumes]
  seen : b.seen = disks.flatMap PlainDisk.names++d.name::volumes.map d.volumeName
  pointers : ∀ p ∈ b.pointers, p.1 ∈ (disks++[d]).map PlainDisk.name
  pointer : ∃ name, b.pointers.find? (·.1 = d.name) = some (name, ⟨disks.length, b.capacity⟩)

theorem mem_names (disks : List PlainDisk) (name : Bytes)
    (h : name ∈ disks.flatMap PlainDisk.names) : baseName name ∈ disks.map PlainDisk.name := by
  obtain ⟨d, hd, hname⟩ := List.mem_flatMap.mp h
  refine List.mem_map.mpr ⟨d, hd, ?_⟩
  rcases List.mem_cons.mp hname with rfl | hname
  · exact (baseName_plain _ (numbered_name d)).symm
  · obtain ⟨v, -, rfl⟩ := List.mem_map.mp hname
    exact (volumeName_base d v).1.symm

theorem volumeName_inj (d : PlainDisk) (v w : Volume) (h : d.volumeName v = d.volumeName w) :
    v.number = w.number :=
  numeral_inj _ _ (List.append_cancel_left h)

section
variable (isprint : UInt8 → Bool) (hprint : isprint 10 = false) (teller : Teller) (exec : Exec)
  (disks : List PlainDisk) (d : PlainDisk) (b : Building)
  (hnew : d.name ∉ disks.map PlainDisk.name)
include hprint

theorem disk_split (hsize : (d.line isprint teller).length < 18446744073709551616) :
    split (d.line isprint teller) 32 0 =
      cells isprint teller d.name d.model d.size d.filesystem :=
  line_split isprint hprint teller _ _ _ _ (name_alnum d) hsize

theorem volume_split (v : Volume)
    (hsize : (d.volumeLine isprint teller v).length < 18446744073709551616) :
    split (d.volumeLine isprint teller v) 32 0 =
      cells isprint teller (d.volumeName v) [] v.size v.filesystem :=
  line_split isprint hprint teller _ _ _ _ (volumeName_alnum d v) hsize

omit hprint in
theorem line_nonempty (name model : Bytes) (size : ℕ) (fs : Filesystem) (h : name ≠ []) :
    line isprint teller name model size fs ≠ [] := by
  obtain ⟨c, rest, rfl⟩ := List.exists_cons_of_ne_nil h
  simp [line, cells, List.intercalate_cons_cons]

omit hprint in
/-- The pointer of a disk that is emplaced. -/
theorem pointer_new (hb : Read isprint teller disks b) (hnew : d.name ∉ disks.map PlainDisk.name) :
    ∃ name, (b.emplace (d.drive isprint teller [])).pointers.find? (·.1 = d.name) =
      some (name, ⟨disks.length, (b.emplace (d.drive isprint teller [])).capacity⟩) := by
  have hnone : b.pointers.find? (·.1 = d.name) = none := by
    rw [List.find?_eq_none]
    intro p hp hname
    exact hnew (of_decide_eq_true hname ▸ hb.pointers p hp)
  have hlen : b.drives.length = disks.length := by
    rw [hb.drives, List.length_map]
  refine ⟨d.name, ?_⟩
  show (b.pointers++[_]).find? _ = _
  rw [List.find?_append, hnone, Option.none_or, List.find?_singleton, hlen]
  simp [PlainDisk.drive, Building.emplace, hlen]

include hnew in
/-- The line of a disk that is new. -/
theorem readLine_disk (hb : Read isprint teller disks b)
    (hsize : (d.line isprint teller).length < 18446744073709551616) :
    ∃ b', readLine exec b (d.line isprint teller) = .ok b' ∧
      Reading isprint teller disks d [] b' := by
  have hsplit := disk_split isprint hprint teller d hsize
  have hnameOf : nameOf (d.line isprint teller) = d.name := by
    rw [nameOf, hsplit]
    rfl
  have hplain := baseName_plain _ (numbered_name d)
  have hunseen : d.name ∉ b.seen := by
    rw [hb.seen]
    intro h
    have hmem := mem_names disks d.name h
    rw [hplain] at hmem
    exact hnew hmem
  have hne : d.name ≠ [] := List.ne_nil_of_length_pos (Nat.lt_of_lt_of_le (by decide) d.long)
  have hbase : b.seen.any (· = d.name) = false := by
    rw [List.any_eq_false]
    intro name hmem hname
    exact hunseen (of_decide_eq_true hname ▸ hmem)
  have hdrive := newDrive_value d.name _ d.model d.size
    (cells isprint teller d.name d.model d.size d.filesystem) rfl
    (unescape_lsblkEscape isprint d.model) rfl d.size_fits
  have hopened : DriveEntries.opened b (d.line isprint teller) =
      .ok (b.emplace (d.drive isprint teller [])) := by
    rw [DriveEntries.opened, hnameOf, hplain, hbase, hsplit, hdrive]
    rfl
  have hline : d.line isprint teller ≠ [] := line_nonempty isprint teller _ _ _ _ hne
  rw [DriveEntries.readLine_new exec b _ hline (hnameOf.symm ▸ hunseen), hopened, hnameOf,
    numbered_name d]
  refine ⟨_, rfl, ?_, ?_, ?_, ?_⟩
  · show b.drives++[_] = _
    rw [hb.drives]
  · show b.seen++[d.name] = _
    rw [hb.seen]
    rfl
  · intro p hp
    rw [List.map_append]
    rcases List.mem_append.mp hp with hp | hp
    · exact List.mem_append_left _ (hb.pointers p hp)
    · rw [List.mem_singleton.mp hp]
      exact List.mem_append_right _ List.mem_cons_self
  · exact pointer_new isprint teller disks d b hb hnew

omit hprint in
/-- The last two columns of a partition, whoever tells the sizes. -/
theorem columns_sizes (hd : d ∈ disks) (v : Volume) (hv : v ∈ d.volumes) (info : List Bytes)
    (hprints : Prints isprint teller exec disks)
    (hinfo : info = cells isprint teller (d.volumeName v) [] v.size v.filesystem) :
    ∃ sizes fssize fsused,
      (if info.length ≤ 5 then DriveList.measure exec (d.volumeName v) else .ok []) = .ok sizes ∧
      (info++sizes)[5]? = some fssize ∧ (info++sizes)[6]? = some fsused ∧
      Sizes fssize fsused v.size (v.filesystem.usage.map fun u => (u.size, teller.used u)) := by
  subst hinfo
  cases teller with
  | lsblk =>
    cases hu : v.filesystem.usage with
    | none =>
      rw [cells, hu]
      exact ⟨[], [], [], rfl, rfl, rfl, rfl, v.size_fits⟩
    | some u =>
      rw [cells, hu]
      exact ⟨[], _, _, rfl, rfl, rfl, (numeral_digits u.size).1,
        DriveEntries.stoull_number _ u.size_fits, DriveEntries.stoull_number _ u.used_fits⟩
  | df =>
    obtain ⟨status, heading, l, hrun, hheading, hsize, htells⟩ := hprints.df rfl d hd v hv
    have hsizes := measure_tells exec (d.volumeName v) heading status l v.filesystem.usage hrun
      hheading hsize htells
    cases hu : v.filesystem.usage with
    | none =>
      rw [hu] at hsizes
      exact ⟨_, [], [], hsizes, rfl, rfl, rfl, v.size_fits⟩
    | some u =>
      rw [hu] at hsizes
      exact ⟨_, _, _, hsizes, rfl, rfl, (numeral_digits u.size).1,
        DriveEntries.stoull_number _ u.size_fits, stoull_percent _ u.percent_fits⟩

omit hprint in
theorem newPartition_volume (hd : d ∈ disks) (v : Volume) (hv : v ∈ d.volumes)
    (hprints : Prints isprint teller exec disks) :
    newPartition exec (d.volumeName v) (cells isprint teller (d.volumeName v) [] v.size
      v.filesystem) = .ok (d.partition isprint teller v) := by
  obtain ⟨sizes, fssize, fsused, hsizes, h5, h6, htold⟩ :=
    columns_sizes isprint teller exec disks d hd v hv _ hprints rfl
  rw [newPartition_value exec (d.volumeName v) _ _ _ fssize fsused v.size _ _ sizes rfl
    (unescape_lsblkEscape isprint v.filesystem.mountpoint) rfl rfl hsizes h5 h6 htold,
    PlainDisk.partition]
  cases v.filesystem.usage with
  | none => rfl
  | some u => rfl

omit hprint in
include hnew in
/-- The name of a partition whose number the disk does not have yet. -/
theorem volume_unseen (volumes : List Volume) (v : Volume)
    (hv : v.number ∉ volumes.map Volume.number) :
    d.volumeName v ∉ disks.flatMap PlainDisk.names++d.name::volumes.map d.volumeName := by
  obtain ⟨hbase, hnum⟩ := volumeName_base d v
  intro h
  rcases List.mem_append.mp h with h | h
  · have hmem := mem_names disks _ h
    rw [hbase] at hmem
    exact hnew hmem
  · rcases List.mem_cons.mp h with h | h
    · rw [h, numbered_name] at hnum
      cases hnum
    · obtain ⟨w, hw, hname⟩ := List.mem_map.mp h
      exact hv (volumeName_inj d w v hname ▸ List.mem_map_of_mem hw)

include hnew in
/-- The line of one more partition of the last disk. -/
theorem readLine_volume (volumes : List Volume) (v : Volume)
    (hb : Reading isprint teller disks d volumes b) (hv : v.number ∉ volumes.map Volume.number)
    (hsize : (d.volumeLine isprint teller v).length < 18446744073709551616)
    (hpartition : newPartition exec (d.volumeName v) (cells isprint teller (d.volumeName v) []
      v.size v.filesystem) = .ok (d.partition isprint teller v)) :
    ∃ b', readLine exec b (d.volumeLine isprint teller v) = .ok b' ∧
      Reading isprint teller disks d (volumes++[v]) b' := by
  have hsplit := volume_split isprint hprint teller d v hsize
  obtain ⟨hbase, hnum⟩ := volumeName_base d v
  have hnameOf : nameOf (d.volumeLine isprint teller v) = d.volumeName v := by
    rw [nameOf, hsplit]
    rfl
  have hunseen : d.volumeName v ∉ b.seen := by
    rw [hb.seen]
    exact volume_unseen disks d hnew volumes v hv
  have hseen : b.seen.any (· = d.name) = true := by
    rw [hb.seen]
    simp
  have hne : d.volumeName v ≠ [] := by
    intro h
    rw [h] at hnum
    cases hnum
  have hline : d.volumeLine isprint teller v ≠ [] := line_nonempty isprint teller _ _ _ _ hne
  obtain ⟨name, hpointer⟩ := hb.pointer
  have hadded : addPartition b d.name (.ok (d.partition isprint teller v)) =
      .ok (b.attach disks.length (d.partition isprint teller v)) := by
    rw [addPartition, hpointer]
    dsimp only
    rw [if_neg (not_not.mpr rfl)]
    rfl
  rw [DriveEntries.readLine_new exec b _ hline (hnameOf.symm ▸ hunseen), DriveEntries.opened,
    DriveEntries.takenBy, hnameOf, hbase, hseen, hnum, hsplit, hpartition, if_pos rfl, if_pos rfl]
  simp only [bind, Except.bind, if_true, hadded]
  refine ⟨_, rfl, ?_, ?_, hb.pointers, name, hpointer⟩
  · have hlast := TableRows.modify_last (fun drive : Drive =>
        { drive with partitions := drive.partitions++[d.partition isprint teller v] })
      (disks.map fun d => d.drive isprint teller d.volumes) (d.drive isprint teller volumes)
    rw [List.length_map] at hlast
    show b.drives.modify _ _ = _
    rw [hb.drives, hlast, PlainDisk.drive, PlainDisk.drive, List.map_append]
    rfl
  · show b.seen++[_] = _
    rw [hb.seen, List.map_append, List.append_assoc]
    rfl

end

section
variable (isprint : UInt8 → Bool) (hprint : isprint 10 = false) (teller : Teller) (exec : Exec)
include hprint

/-- The lines of the partitions of a disk, from some of them on. -/
theorem read_volumes (disks : List PlainDisk) (d : PlainDisk) (front volumes : List Volume)
    (b : Building) (hnew : d.name ∉ disks.map PlainDisk.name)
    (hb : Reading isprint teller disks d front b)
    (hv : ((front++volumes).map Volume.number).Nodup)
    (hsize : ∀ v ∈ volumes, (d.volumeLine isprint teller v).length < 18446744073709551616)
    (hpartition : ∀ v ∈ volumes, newPartition exec (d.volumeName v) (cells isprint teller
      (d.volumeName v) [] v.size v.filesystem) = .ok (d.partition isprint teller v)) :
    ∃ b', (volumes.map (d.volumeLine isprint teller)).foldlM (readLine exec) b = .ok b' ∧
      Reading isprint teller disks d (front++volumes) b' := by
  induction volumes generalizing front b with
  | nil => exact ⟨b, rfl, by rwa [List.append_nil]⟩
  | cons v volumes ih =>
    have hfresh : v.number ∉ front.map Volume.number := by
      rw [List.map_append, List.map_cons] at hv
      intro hmem
      exact (List.nodup_append.mp hv).2.2 _ hmem _ List.mem_cons_self rfl
    obtain ⟨b', hread, hb'⟩ := readLine_volume isprint hprint teller exec disks d b hnew front v hb
      hfresh (hsize v List.mem_cons_self) (hpartition v List.mem_cons_self)
    rw [List.append_cons] at hv ⊢
    obtain ⟨b'', hrest, hb''⟩ := ih (front++[v]) b' hb' hv
      (fun w hw => hsize w (List.mem_cons_of_mem v hw))
      (fun w hw => hpartition w (List.mem_cons_of_mem v hw))
    refine ⟨b'', ?_, hb''⟩
    rw [List.map_cons, List.foldlM_cons, hread]
    exact hrest

/-- The lines of the disks, from some of them on. -/
theorem read_disks (front disks : List PlainDisk) (b : Building)
    (hb : Read isprint teller front b)
    (hd : ((front++disks).map PlainDisk.name).Nodup)
    (hsize : ∀ line ∈ disks.flatMap (PlainDisk.lines isprint teller),
      line.length < 18446744073709551616)
    (hpartition : ∀ d ∈ disks, ∀ v ∈ d.volumes, newPartition exec (d.volumeName v) (cells isprint
      teller (d.volumeName v) [] v.size v.filesystem) = .ok (d.partition isprint teller v)) :
    ∃ b', (disks.flatMap (PlainDisk.lines isprint teller)).foldlM (readLine exec) b = .ok b' ∧
      Read isprint teller (front++disks) b' := by
  induction disks generalizing front b with
  | nil => exact ⟨b, rfl, by rwa [List.append_nil]⟩
  | cons d disks ih =>
    have hnew : d.name ∉ front.map PlainDisk.name := by
      rw [List.map_append, List.map_cons] at hd
      intro hmem
      exact (List.nodup_append.mp hd).2.2 _ hmem _ List.mem_cons_self rfl
    have hlines : ∀ line ∈ d.lines isprint teller, line.length < 18446744073709551616 :=
      fun line hline => hsize line (List.mem_flatMap.mpr ⟨d, List.mem_cons_self, hline⟩)
    obtain ⟨b₁, hfirst, hb₁⟩ := readLine_disk isprint hprint teller exec front d b hnew hb
      (hlines _ List.mem_cons_self)
    obtain ⟨b₂, hvolumes, hb₂⟩ := read_volumes isprint hprint teller exec front d [] d.volumes b₁
      hnew hb₁ d.distinct
      (fun v hv => hlines _ (List.mem_cons_of_mem _ (List.mem_map_of_mem hv)))
      (hpartition d List.mem_cons_self)
    have hread : Read isprint teller (front++[d]) b₂ := by
      refine ⟨?_, ?_, hb₂.pointers⟩
      · rw [hb₂.drives, List.map_append]
        rfl
      · rw [hb₂.seen, List.flatMap_append, List.flatMap_singleton]
        rfl
    rw [List.append_cons] at hd ⊢
    obtain ⟨b₃, hrest, hb₃⟩ := ih (front++[d]) b₂ hread hd
      (fun line hline => hsize line (by
        rw [List.flatMap_cons]
        exact List.mem_append_right _ hline))
      (fun e he => hpartition e (List.mem_cons_of_mem d he))
    refine ⟨b₃, ?_, hb₃⟩
    have hdisk : (d.lines isprint teller).foldlM (readLine exec) b = .ok b₂ := by
      rw [PlainDisk.lines, List.foldlM_cons, hfirst]
      exact hvolumes
    rw [List.flatMap_cons, List.foldlM_append, hdisk]
    exact hrest

variable (disks : List PlainDisk)

theorem output_lines
    (hsize : (output isprint teller disks).length < 18446744073709551616) :
    split (output isprint teller disks) 10 0 =
      disks.flatMap (PlainDisk.lines isprint teller)++[[]] := by
  refine split_unlines _ (fun line hline => ?_) hsize
  have hfree (name model : Bytes) (size : ℕ) (fs : Filesystem)
      (hname : ∀ c ∈ name, isalpha c = true ∨ isdigit c = true) :
      10 ∉ DiskListing.line isprint teller name model size fs := by
    intro h
    rcases intercalate_mem _ _ _ h with h | ⟨cell, hcell, h⟩
    · simp at h
    · exact (cells_free isprint hprint teller name model size fs hname cell hcell).2 h
  obtain ⟨d, -, hline⟩ := List.mem_flatMap.mp hline
  rcases List.mem_cons.mp hline with rfl | hline
  · exact hfree _ _ _ _ (name_alnum d)
  · obtain ⟨v, -, rfl⟩ := List.mem_map.mp hline
    exact hfree _ _ _ _ (volumeName_alnum d v)

/-- Behind all lines there is a drive for each disk, with all its partitions. -/
theorem readLines_output (hd : (disks.map PlainDisk.name).Nodup)
    (hprints : Prints isprint teller exec disks) :
    ∃ b, readLines exec (split (output isprint teller disks) 10 0) = .ok b ∧
      b.drives = disks.map fun d => d.drive isprint teller d.volumes := by
  have hstart : Read isprint teller [] {} := ⟨rfl, rfl, nofun⟩
  obtain ⟨b, hread, hb⟩ := read_disks isprint hprint teller exec [] disks {} hstart hd
    (fun line hline => (unlines_length _ line hline).trans hprints.fits)
    (fun d hdisk v hv => newPartition_volume isprint teller exec disks d hdisk v hv hprints)
  refine ⟨b, ?_, hb.drives⟩
  rw [output_lines isprint hprint teller disks hprints.fits, readLines, List.foldlM_append, hread]
  rfl

end

theorem bytes_lt (s t : Bytes) (h : s ≠ t) : s < t ↔ ¬ t < s := by
  let := DriveOrder.byteOrder
  exact ⟨lt_asymm, fun hlt => (lt_or_gt_of_ne h).resolve_right hlt⟩

/-- The comparison of the source, as an order of the names. -/
theorem driveBefore_before (a b : Drive) (ha : 2 ≤ a.devNode.length)
    (hb : 2 ≤ b.devNode.length) :
    driveBefore b a = .ok !decide (Before a.devNode b.devNode) := by
  have hbefore : Before a.devNode b.devNode ↔
      ¬ if b.devNode.drop 2 = a.devNode.drop 2 then a.devNode < b.devNode
        else b.devNode.drop 2 < a.devNode.drop 2 := by
    rw [Before]
    by_cases hunit : b.devNode.drop 2 = a.devNode.drop 2
    · rw [if_pos hunit, hunit]
      simp [List.lt_irrefl]
    · rw [if_neg hunit, bytes_lt _ _ (Ne.symm hunit)]
      exact or_iff_left fun h => hunit h.1.symm
  rw [driveBefore, DiskPartitions.unitName_ok a ha, DiskPartitions.unitName_ok b hb,
    decide_eq_decide.mpr hbefore, decide_not, Bool.not_not]
  refine congrArg Except.ok ?_
  by_cases hunit : b.devNode.drop 2 = a.devNode.drop 2
  · simp only [if_pos hunit]
  · simp only [if_neg hunit]

/-- The disks and their partitions, in their orders. -/
theorem listDrives_disks (isprint : UInt8 → Bool) (hprint : isprint 10 = false)
    (teller : Teller) (exec : Exec) (disks : List PlainDisk)
    (hd : (disks.map PlainDisk.name).Nodup) (hprints : Prints isprint teller exec disks) :
    listDrives exec = .ok (drivesOf isprint teller disks) := by
  obtain ⟨b, hread, hdrives⟩ := readLines_output isprint hprint teller exec disks hd hprints
  have hsorted : sortWith driveBefore b.drives =
      .ok ((inOrder disks).map fun d => d.drive isprint teller d.volumes) := by
    rw [hdrives, inOrder, List.map_insertionSort (fun a b : PlainDisk => Before a.name b.name)
      (fun a b : Drive => Before a.devNode b.devNode) _ disks fun _ _ _ _ => Iff.rfl]
    refine KeyedSort.sortWith_eq (fun a b : Drive => Before a.devNode b.devNode) _ ?_
    intro a ha b hb
    obtain ⟨c, -, rfl⟩ := List.mem_map.mp ha
    obtain ⟨d, -, rfl⟩ := List.mem_map.mp hb
    exact driveBefore_before _ _ c.long d.long
  refine (listDrives_ok exec _ _ hprints.lsblk).mpr ⟨b, _, hread, hsorted, ?_⟩
  rw [List.map_map]
  rfl

end Bakaneko.DiskListing
