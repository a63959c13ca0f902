import Bakaneko.DriveEntries

/-!
# The partitions of a disk

The base of a name, what stands in front of its first digit, is the disk of a
partition where the name of the disk has no digit. The disks of two of the
three kinds have one: they are listed as their own partitions, and their
partitions as drives.
-/

set_option autoImplicit false

namespace Bakaneko.DiskPartitions
open Bakaneko.Native Bakaneko.Text Bakaneko.Messages Bakaneko.DriveList Bakaneko.UnescapeLoops
open Bakaneko.DriveEntries KeyedRows OwnedNames Fallible

/-- The five columns of the other call, and what `df` tells of a partition. -/
def FiveColumns (exec : Exec) (line : Bytes) : Prop :=
  ∃ name mountpoint model size fstype, split line 32 0 = [name, mountpoint, model, size, fstype] ∧
    WellEscaped mountpoint ∧ WellEscaped model ∧ Numeral size ∧
    (numbered name = true → ∃ fssize fsused, measure exec name = .ok [fssize, fsused] ∧
      (fssize = [] ∨ Numeral fssize ∧ Numeral fsused))

/-- The letters behind `sd`. -/
structure Letters where
  text : Bytes
  nonempty : text ≠ []
  letters : ∀ c ∈ text, isalpha c = true

inductive Disk where
  | sd (letters : Letters)
  | nvme (controller unit : ℕ)
  | mmcblk (number : ℕ)

def Disk.name : Disk → Bytes
  | .sd letters => [115, 100]++letters.text
  | .nvme controller unit => [110, 118, 109, 101]++(numeral controller++110::numeral unit)
  | .mmcblk number => [109, 109, 99, 98, 108, 107]++numeral number

/-- What stands between the name of a disk and the number of a partition. -/
def Disk.mark : Disk → Bytes
  | .sd _ => []
  | _ => [112]

def Disk.IsSd : Disk → Prop
  | .sd _ => True
  | _ => False

inductive Device where
  | disk (d : Disk)
  | partition (d : Disk) (number : ℕ)

def Device.whole : Device → Disk
  | .disk d => d
  | .partition d _ => d

def Device.name : Device → Bytes
  | .disk d => d.name
  | .partition d number => d.name++(d.mark++numeral number)

/-- Every disk is listed before its partitions. -/
def DisksFirst (devices : List Device) : Prop := ∀ front d number rest,
  devices = front++.partition d number::rest → .disk d ∈ front

def diskNames (devices : List Device) : List Bytes := devices.filterMap fun
  | .disk d => some d.name
  | .partition _ _ => none

/-- The partitions of the disk with a name. -/
def partitionNames (name : Bytes) (devices : List Device) : List Bytes := devices.filterMap fun
  | .disk _ => none
  | .partition d number =>
    if d.name = name then some (Device.partition d number).name else none

/-- One drive for each disk, with the partitions of that disk. -/
def Belong (exec : Exec) (devices : List Device) : Prop :=
  ∃ drives, listDrives exec = .ok drives ∧
    (drives.drives.map Drive.devNode).Perm (firsts (diskNames devices)) ∧
    ∀ drive ∈ drives.drives,
      (drive.partitions.map Partition.devNode).Perm (firsts (partitionNames drive.devNode devices))

theorem fiveColumns_reads (exec : Exec) (line : Bytes) (h : FiveColumns exec line) :
    Reads exec line := by
  obtain ⟨name, mountpoint, model, size, fstype, hsplit, hmount, hmodel, hsize, htold⟩ := h
  have hname : nameOf line = name := by rw [nameOf, hsplit]; rfl
  refine ⟨?_, fun hnum => ?_⟩
  · rw [hsplit]
    exact newDrive_returns _ model size _ rfl rfl hmodel hsize
  · rw [hname] at hnum
    obtain ⟨fssize, fsused, hmeasure, htold⟩ := htold hnum
    rw [hsplit, hname]
    exact newPartition_returns exec _ mountpoint size fstype fssize fsused _ [fssize, fsused] rfl
      rfl rfl hmeasure rfl rfl hmount hsize htold

theorem mem_diskNames (devices : List Device) (name : Bytes) :
    name ∈ diskNames devices ↔ ∃ d, .disk d ∈ devices ∧ d.name = name := by
  rw [diskNames, List.mem_filterMap]
  constructor
  · rintro ⟨_ | _, hmem, hname⟩
    · exact ⟨_, hmem, Option.some.inj hname⟩
    · cases hname
  · rintro ⟨d, hmem, rfl⟩
    exact ⟨_, hmem, rfl⟩

theorem mem_partitionNames (devices : List Device) (name part : Bytes) :
    part ∈ partitionNames name devices ↔ ∃ d number, .partition d number ∈ devices ∧
      d.name = name ∧ (Device.partition d number).name = part := by
  rw [partitionNames, List.mem_filterMap]
  constructor
  · rintro ⟨_ | ⟨d, number⟩, hmem, hname⟩
    · cases hname
    · obtain ⟨hd, hpart⟩ := Option.ite_none_right_eq_some.mp hname
      exact ⟨d, number, hmem, hd, Option.some.inj hpart⟩
  · rintro ⟨d, number, hmem, hd, hpart⟩
    exact ⟨_, hmem, Option.ite_none_right_eq_some.mpr ⟨hd, congrArg some hpart⟩⟩

/-- A base ends where the first digit is. -/
theorem baseName_run (front digits : Bytes) (hf : numbered front = false) (hd : digits ≠ [])
    (hall : ∀ c ∈ digits.head?, isdigit c = true) :
    baseName (front++digits) = front ∧ numbered (front++digits) = true := by
  obtain ⟨c, rest, rfl⟩ := List.exists_cons_of_ne_nil hd
  have hc := hall c rfl
  have hfront : ∀ c ∈ front, (!isdigit c) = true := fun c hc => by
    simpa using List.any_eq_false.mp hf c hc
  constructor
  · rw [baseName, List.takeWhile_append_of_pos hfront, List.takeWhile_cons, hc]
    simp
  · rw [numbered, List.any_append, List.any_cons, hc]
    simp

theorem numeral_head (n : ℕ) (rest : Bytes) : numeral n++rest ≠ [] ∧
    ∀ c ∈ (numeral n++rest).head?, isdigit c = true := by
  obtain ⟨hne, hall, -⟩ := numeral_digits n
  obtain ⟨c, cs, hcons⟩ := List.exists_cons_of_ne_nil hne
  rw [hcons] at hall ⊢
  refine ⟨List.cons_ne_nil _ _, fun d hd => ?_⟩
  cases hd
  exact (List.all_eq_true.mp hall) c List.mem_cons_self

theorem sd_plain (letters : Letters) : numbered (Disk.sd letters).name = false := by
  rw [numbered, List.any_eq_false]
  intro c hc hdigit
  rcases List.mem_append.mp hc with hc | hc
  · simp only [List.mem_cons, List.not_mem_nil, or_false] at hc
    rcases hc with rfl | rfl <;> cases hdigit
  · have halpha := (digit_plain c hdigit).2.2.2
    rw [letters.letters c hc] at halpha
    cases halpha

/-- The disk of a partition is its base where the disk has no digit. -/
theorem sd_names (letters : Letters) (number : ℕ) :
    baseName (Device.partition (.sd letters) number).name = (Disk.sd letters).name ∧
      numbered (Device.partition (.sd letters) number).name = true := by
  have hrun := numeral_head number []
  rw [List.append_nil] at hrun
  exact baseName_run _ _ (sd_plain letters) hrun.1 hrun.2

/-- The other disks have a digit, and a base no device has for a name. -/
theorem other_names (d : Disk) (h : ¬ d.IsSd) : numbered d.name = true ∧
    ∃ base : Bytes, baseName d.name = base ∧ base.head? ≠ some 115 := by
  cases d with
  | sd letters => exact absurd trivial h
  | nvme controller unit =>
    obtain ⟨hne, hhead⟩ := numeral_head controller (110::numeral unit)
    obtain ⟨hbase, hnum⟩ := baseName_run [110, 118, 109, 101] _ (by decide) hne hhead
    exact ⟨hnum, _, hbase, by decide⟩
  | mmcblk number =>
    obtain ⟨hne, hhead⟩ := numeral_head number []
    rw [List.append_nil] at hne hhead
    obtain ⟨hbase, hnum⟩ := baseName_run [109, 109, 99, 98, 108, 107] _ (by decide) hne hhead
    exact ⟨hnum, _, hbase, by decide⟩

theorem partition_numbered (d : Disk) (number : ℕ) :
    numbered (Device.partition d number).name = true := by
  obtain ⟨hne, hall, -⟩ := numeral_digits number
  obtain ⟨c, cs, hcons⟩ := List.exists_cons_of_ne_nil hne
  rw [hcons] at hall
  have hc := List.all_eq_true.mp hall c List.mem_cons_self
  rw [numbered, Device.name, hcons]
  simp [hc]

/-- Only the first kind of disks has names without a digit. -/
theorem plain_head (e : Device) (h : numbered e.name = false) : e.name.head? = some 115 := by
  cases e with
  | disk d =>
    cases d with
    | sd letters => rfl
    | nvme controller unit =>
      rw [Device.name, (other_names (.nvme controller unit) id).1] at h
      cases h
    | mmcblk number =>
      rw [Device.name, (other_names (.mmcblk number) id).1] at h
      cases h
  | partition d number =>
    rw [partition_numbered] at h
    cases h

theorem isSd_letters (d : Disk) (h : d.IsSd) : ∃ letters, d = .sd letters := by
  cases d with
  | sd letters => exact ⟨letters, rfl⟩
  | nvme => exact absurd h id
  | mmcblk => exact absurd h id

theorem base_absent (d : Disk) (hd : ¬ d.IsSd) (devices : List Device) :
    baseName d.name ∉ devices.map Device.name := by
  intro hmem
  obtain ⟨e, -, he⟩ := List.mem_map.mp hmem
  obtain ⟨-, base, hbase, hhead⟩ := other_names d hd
  have hplain := baseName_not_numbered d.name
  rw [← he] at hplain
  rw [← hbase, ← he] at hhead
  exact hhead (plain_head e hplain)

theorem first_device (devices : List Device) (name : Bytes) (h : name ∈ devices.map Device.name) :
    ∃ front e rest, devices = front++e::rest ∧ e.name = name ∧ name ∉ front.map Device.name := by
  induction devices with
  | nil => cases h
  | cons e devices ih =>
    by_cases he : e.name = name
    · exact ⟨[], e, devices, rfl, he, List.not_mem_nil⟩
    · rw [List.map_cons] at h
      obtain ⟨front, e', rest, rfl, hname, hfront⟩ :=
        ih ((List.mem_cons.mp h).resolve_left (Ne.symm he))
      exact ⟨e::front, e', rest, rfl, hname, by simp [Ne.symm he, hfront]⟩

section
variable (devices : List Device) (hfirst : DisksFirst devices)
  (hsd : ∀ e ∈ devices, e.whole.IsSd)
include hfirst hsd

/-- A partition belongs to its disk. -/
theorem ownerOf_sd (letters : Letters) (number : ℕ)
    (h : Device.partition (.sd letters) number ∈ devices) :
    ownerOf baseName (firsts (devices.map Device.name))
      (Device.partition (.sd letters) number).name = (Disk.sd letters).name := by
  obtain ⟨front, e, rest, hsplit, hname, hfront⟩ :=
    first_device devices _ (List.mem_map_of_mem h)
  obtain ⟨hbase, hnum⟩ := sd_names letters number
  have he := hsd e (hsplit ▸ List.mem_append_right _ List.mem_cons_self)
  have hearlier : (Disk.sd letters).name ∈ front.map Device.name := by
    cases e with
    | disk d =>
      obtain ⟨other, rfl⟩ := isSd_letters d he
      rw [← hname, Device.name, sd_plain other] at hnum
      cases hnum
    | partition d other =>
      obtain ⟨others, rfl⟩ := isSd_letters d he
      have hsame : (Disk.sd others).name = (Disk.sd letters).name := by
        rw [← hbase, ← hname]
        exact (sd_names others other).1.symm
      rw [← hsame]
      exact List.mem_map_of_mem (hfirst front _ other rest hsplit)
  rw [ownerOf, hbase, hsplit, List.map_append, List.map_cons, hname, takeWhile_firsts _ _ _ hfront]
  exact if_pos ((mem_firsts _ _).mpr hearlier)

theorem mem_driveNames (name : Bytes) :
    name ∈ driveNames (firsts (devices.map Device.name)) ↔ name ∈ diskNames devices := by
  rw [driveNames, mem_owners, mem_diskNames, mem_firsts, List.mem_map]
  constructor
  · rintro ⟨⟨e, he, rfl⟩, howner⟩
    cases e with
    | disk d => exact ⟨d, he, rfl⟩
    | partition d number =>
      obtain ⟨letters, rfl⟩ := isSd_letters d (hsd _ he)
      obtain ⟨-, hnum⟩ := sd_names letters number
      rw [ownerOf_sd devices hfirst hsd letters number he] at howner
      rw [← howner, sd_plain letters] at hnum
      cases hnum
  · rintro ⟨d, hd, rfl⟩
    obtain ⟨letters, rfl⟩ := isSd_letters d (hsd _ hd)
    have hbase := baseName_plain _ (sd_plain letters)
    have hmem : (Disk.sd letters).name ∈ devices.map Device.name := List.mem_map_of_mem hd
    refine ⟨⟨_, hd, rfl⟩, ?_⟩
    exact ((mem_owners _ _).mp (base_owner _ _ ((mem_firsts _ _).mpr hmem) hbase)).2

theorem mem_partitionsOf (name part : Bytes) :
    part ∈ partitionsOf (firsts (devices.map Device.name)) name ↔
      part ∈ partitionNames name devices := by
  rw [partitionsOf, membersOf, List.mem_filter, mem_partitionNames, mem_firsts, List.mem_map,
    Bool.and_eq_true, decide_eq_true_eq]
  constructor
  · rintro ⟨⟨e, he, rfl⟩, hnum, howner⟩
    cases e with
    | disk d =>
      obtain ⟨letters, rfl⟩ := isSd_letters d (hsd _ he)
      rw [Device.name, sd_plain letters] at hnum
      cases hnum
    | partition d number =>
      obtain ⟨letters, rfl⟩ := isSd_letters d (hsd _ he)
      rw [ownerOf_sd devices hfirst hsd letters number he] at howner
      exact ⟨_, number, he, howner, rfl⟩
  · rintro ⟨d, number, he, rfl, rfl⟩
    obtain ⟨letters, rfl⟩ := isSd_letters d (hsd _ he)
    exact ⟨⟨_, he, rfl⟩, partition_numbered _ number,
      ownerOf_sd devices hfirst hsd letters number he⟩

end

theorem unitName_ok (drive : Drive) (h : 2 ≤ drive.devNode.length) :
    unitName drive = .ok (drive.devNode.drop 2) := by
  rw [unitName, if_neg (Nat.not_lt.mpr h)]

theorem sort_returns (drives : List Drive) (h : ∀ drive ∈ drives, 2 ≤ drive.devNode.length) :
    ∃ sorted, sortWith driveBefore drives = .ok sorted := by
  refine sortWith_returns driveBefore drives fun a ha b hb => ?_
  simp only [driveBefore, unitName_ok a (h a ha), unitName_ok b (h b hb), bind, Except.bind]
  exact ⟨_, rfl⟩

/-- The names of a returned drive and of its partitions, as they are listed. -/
theorem returned_shape (sorted drives : List Drive) (hperm : sorted.Perm drives) (drive : Drive) :
    drive ∈ sorted.map sortPartitions → ∃ d ∈ drives, drive.devNode = d.devNode ∧
      (drive.partitions.map Partition.devNode).Perm (d.partitions.map Partition.devNode) := by
  intro hdrive
  obtain ⟨d, hd, rfl⟩ := List.mem_map.mp hdrive
  exact ⟨d, hperm.mem_iff.mp hd, rfl, (sortPartitions_perm d).map _⟩

section
variable (exec : Exec) (out : Bytes) (devices : List Device) (ho : listing exec = .ok out)
  (hnames : names (split out 10 0) = devices.map Device.name)
  (hreads : ∀ line ∈ split out 10 0, line ≠ [] → Reads exec line)
include ho hnames hreads

/-- Where drives are returned no pointer was lost, and they are those that the
lines left. -/
theorem returned_laid (drives : Drives) (h : listDrives exec = .ok drives) :
    PointersKept (listed (split out 10 0)) ∧ ∃ (b : Building) (sorted : List Drive), Laid b ∧
      b.seen = firsts (devices.map Device.name) ∧ sorted.Perm b.drives ∧
      drives.drives = sorted.map sortPartitions := by
  obtain ⟨b, sorted, hb, hsorted, rfl⟩ := (listDrives_ok exec out _ ho).mp h
  obtain ⟨hread, hmoved⟩ := readLines_laid exec _ hreads
  have hkept : PointersKept (listed (split out 10 0)) := by
    by_contra hnot
    cases hb.symm.trans (hmoved hnot)
  obtain ⟨b', hb', hlaid, hseen⟩ := hread hkept
  cases hb.symm.trans hb'
  refine ⟨hkept, b, sorted, hlaid, ?_, sortWith_perm _ _ _ hsorted, rfl⟩
  rw [hseen, listed, hnames]

/-- A disk with a digit would be a drive that has itself for a partition. -/
theorem belong_disk (h : Belong exec devices) (d : Disk) (hd : .disk d ∈ devices) : d.IsSd := by
  by_contra hother
  obtain ⟨drives, hlist, -, hparts⟩ := h
  obtain ⟨-, b, sorted, hlaid, hseen, hperm, hdrives⟩ :=
    returned_laid exec out devices ho hnames hreads drives hlist
  have hentries := hlaid.holds.entries
  rw [hseen] at hentries
  have hmem : d.name ∈ firsts (devices.map Device.name) :=
    (mem_firsts _ _).mpr (List.mem_map_of_mem hd)
  have howner : ownerOf baseName (firsts (devices.map Device.name)) d.name = d.name := by
    rw [ownerOf, if_neg]
    intro hbase
    have hlisted := (mem_firsts _ _).mp ((List.takeWhile_prefix _).subset hbase)
    exact base_absent d hother devices hlisted
  have hdrive : d.name ∈ b.drives.map Drive.devNode := by
    rw [entries_names _ _ _ hentries]
    exact (mem_owners _ _).mpr ⟨hmem, howner⟩
  obtain ⟨drive, hdrive, hname⟩ := List.mem_map.mp hdrive
  have hself : d.name ∈ drive.partitions.map Partition.devNode := by
    rw [(entry_shape _ _ hentries drive hdrive).2, hname, partitionsOf, membersOf, List.mem_filter,
      (other_names d hother).1, howner]
    exact ⟨hmem, by simp⟩
  have hsorted : sortPartitions drive ∈ drives.drives := by
    rw [hdrives]
    exact List.mem_map_of_mem (hperm.mem_iff.mpr hdrive)
  have hpart := (hparts _ hsorted).mem_iff.mp
    (((sortPartitions_perm drive).map _).mem_iff.mpr hself)
  obtain ⟨d', number, -, hd', hpart⟩ := (mem_partitionNames _ _ _).mp ((mem_firsts _ _).mp hpart)
  have hlength := congrArg List.length (hpart.trans (hd'.trans hname).symm)
  have hnumeral := List.length_pos_of_ne_nil (numeral_digits number).1
  simp only [Device.name, List.length_append] at hlength
  omega

variable (hfirst : DisksFirst devices)
include hfirst

theorem belong_of_sd (hsd : ∀ e ∈ devices, e.whole.IsSd)
    (hkept : PointersKept (listed (split out 10 0))) : Belong exec devices := by
  have hlisted : listed (split out 10 0) = firsts (devices.map Device.name) := by
    rw [listed, hnames]
  obtain ⟨b, hb, hlaid, hseen⟩ := (readLines_laid exec _ hreads).1 hkept
  have hdistinct := hlaid.distinct
  have hentries := hlaid.holds.entries
  rw [hseen.trans hlisted] at hdistinct hentries
  have hdrives := entries_names _ _ _ hentries
  have hlong : ∀ drive ∈ b.drives, 2 ≤ drive.devNode.length := by
    intro drive hdrive
    have hmem := (mem_driveNames devices hfirst hsd _).mp (entry_shape _ _ hentries drive hdrive).1
    obtain ⟨d, hd, hname⟩ := (mem_diskNames _ _).mp hmem
    obtain ⟨letters, rfl⟩ := isSd_letters d (hsd _ hd)
    rw [← hname, Disk.name, List.length_append]
    exact Nat.le_add_right 2 _
  obtain ⟨sorted, hsorted⟩ := sort_returns _ hlong
  have hperm := sortWith_perm _ _ _ hsorted
  refine ⟨_, (listDrives_ok exec out _ ho).mpr ⟨b, sorted, hb, hsorted, rfl⟩, ?_, ?_⟩
  · have hreturned : (sorted.map sortPartitions).map Drive.devNode = sorted.map Drive.devNode := by
      rw [List.map_map]
      rfl
    dsimp only
    rw [hreturned]
    refine (hperm.map _).trans ?_
    rw [hdrives, List.perm_ext_iff_of_nodup (owners_nodup _ hdistinct) (firsts_nodup _)]
    intro name
    rw [mem_firsts]
    exact mem_driveNames devices hfirst hsd name
  · intro drive hdrive
    obtain ⟨d, hd, hname, hparts⟩ := returned_shape sorted b.drives hperm drive hdrive
    refine hparts.trans ?_
    rw [(entry_shape _ _ hentries d hd).2, hname,
      List.perm_ext_iff_of_nodup (members_nodup _ _ hdistinct) (firsts_nodup _)]
    intro part
    rw [mem_firsts]
    exact mem_partitionsOf devices hfirst hsd _ part

theorem belong_sd (h : Belong exec devices) (e : Device) (he : e ∈ devices) : e.whole.IsSd := by
  cases e with
  | disk d => exact belong_disk exec out devices ho hnames hreads h d he
  | partition d number =>
    obtain ⟨front, rest, hsplit⟩ := List.append_of_mem he
    have hd := hfirst front d number rest hsplit
    exact belong_disk exec out devices ho hnames hreads h d
      (hsplit ▸ List.mem_append_left _ hd)

end

/-- The partitions go to their disks exactly when every disk is of the first
kind and no partition comes after the vector has moved away from its drive. -/
theorem belong_iff (exec : Exec) (out : Bytes) (devices : List Device)
    (ho : listing exec = .ok out) (hnames : names (split out 10 0) = devices.map Device.name)
    (hcolumns : ∀ line ∈ split out 10 0, line ≠ [] → SevenColumns line ∨ FiveColumns exec line)
    (hfirst : DisksFirst devices) : Belong exec devices ↔
      (∀ e ∈ devices, e.whole.IsSd) ∧ PointersKept (listed (split out 10 0)) := by
  have hreads : ∀ line ∈ split out 10 0, line ≠ [] → Reads exec line := fun line hl hne =>
    (hcolumns line hl hne).elim (sevenColumns_reads exec line) (fiveColumns_reads exec line)
  constructor
  · intro h
    refine ⟨fun e he => belong_sd exec out devices ho hnames hreads hfirst h e he, ?_⟩
    obtain ⟨drives, hlist, -⟩ := h
    exact (returned_laid exec out devices ho hnames hreads drives hlist).1
  · rintro ⟨hsd, hkept⟩
    exact belong_of_sd exec out devices ho hnames hreads hfirst hsd hkept

/-- Every call gives the same output. -/
def tells (out : Bytes) : Exec := fun _ => .ok (0, out)

theorem tells_listing (out : Bytes) : listing (tells out) = .ok out := rfl

def letterA : Letters := ⟨[97], by decide, fun c hc => by rw [List.mem_singleton.mp hc]; rfl⟩

def oneDiskDevices : List Device := [.disk (.sd letterA), .partition (.sd letterA) 1]

theorem belong_iff_oneDisk : Belong (tells oneDisk) oneDiskDevices ↔
    (∀ e ∈ oneDiskDevices, e.whole.IsSd) ∧ PointersKept (listed (split oneDisk 10 0)) := by
  refine belong_iff (tells oneDisk) oneDisk oneDiskDevices (tells_listing _) ?_ ?_ ?_
  · decide
  · intro line hl hne
    rw [oneDisk_lines] at hl
    simp only [List.mem_cons, List.not_mem_nil, or_false] at hl
    rcases hl with rfl | rfl | rfl
    · exact .inl (bareLine_columns sda (by decide))
    · exact .inl (bareLine_columns sda1 (by decide))
    · exact absurd rfl hne
  · intro front d number rest hsplit
    match front with
    | [] => cases hsplit
    | [_] =>
      cases hsplit
      exact List.mem_cons_self
    | _::_::front => simp [oneDiskDevices] at hsplit

def nvme0n1 : Bytes := [110, 118, 109, 101, 48, 110, 49]

def nvmeDisk : Bytes := unlines [bareLine nvme0n1]

/-- A disk that is listed as its own partition. -/
theorem nvmeDisk_not_belong : listing (tells nvmeDisk) = .ok nvmeDisk ∧
    names (split nvmeDisk 10 0) = [Device.disk (.nvme 0 1)].map Device.name ∧
    (∀ line ∈ split nvmeDisk 10 0, line ≠ [] → SevenColumns line) ∧
    DisksFirst [.disk (.nvme 0 1)] ∧ ¬ Belong (tells nvmeDisk) [.disk (.nvme 0 1)] := by
  have hlines : split nvmeDisk 10 0 = [bareLine nvme0n1, []] := by decide
  have hnames : names (split nvmeDisk 10 0) = [Device.disk (.nvme 0 1)].map Device.name := by
    decide
  have hcolumns : ∀ line ∈ split nvmeDisk 10 0, line ≠ [] → SevenColumns line := by
    intro line hl hne
    rw [hlines] at hl
    simp only [List.mem_cons, List.not_mem_nil, or_false] at hl
    rcases hl with rfl | rfl
    · exact bareLine_columns nvme0n1 (by decide)
    · exact absurd rfl hne
  refine ⟨tells_listing _, hnames, hcolumns, fun front d number rest hsplit => ?_, fun h => ?_⟩
  · have hmem : Device.partition d number ∈ [Device.disk (.nvme 0 1)] :=
      hsplit ▸ List.mem_append_right _ List.mem_cons_self
    cases List.mem_singleton.mp hmem
  · exact belong_disk _ _ _ (tells_listing _) hnames
      (fun line hl hne => sevenColumns_reads _ line (hcolumns line hl hne)) h _ List.mem_cons_self

end Bakaneko.DiskPartitions
