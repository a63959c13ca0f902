import Bakaneko.BufferedText
import Bakaneko.DiskListing
import Bakaneko.FieldFidelity
import Bakaneko.PageReports
import Bakaneko.Serialisable

/-!
# The disks of the host

The disks that `lsblk` prints round by round come to the table of the client.
Its rows follow the partitions of a disk, but keep the size and the model they
were made with for as long as the disk is listed.
-/

set_option autoImplicit false

namespace Bakaneko.DiskReports
open Bakaneko.Native Bakaneko.Text Bakaneko.Messages Bakaneko.DriveList Bakaneko.UnescapeLoops
open Bakaneko.Rest Bakaneko.SystemBus Bakaneko.PageReports Bakaneko.TableRows
open Bakaneko.KeyReconciliation Bakaneko.JsonText Bakaneko.JsonValues Bakaneko.Serialisable
open Bakaneko.DiskListing KeyedRows Utf8

theorem record_held (isprint : UInt8 → Bool) (teller : Teller) (d : PlainDisk) :
    (d.record isprint teller).Held := by
  refine ⟨d.size_fits, fun p hp => ?_⟩
  obtain ⟨v, -, rfl⟩ := List.mem_map.mp ((sortPartitions_perm _).mem_iff.mp hp)
  rw [PlainDisk.partition]
  cases v.filesystem.usage with
  | none => exact ⟨v.size_fits, v.size_fits⟩
  | some u =>
    cases teller with
    | lsblk => exact ⟨u.size_fits, u.used_fits⟩
    | df => exact ⟨u.size_fits, u.percent_fits⟩

theorem alnum_valid (s : Bytes) (h : ∀ c ∈ s, isalpha c = true ∨ isdigit c = true) : Valid s := by
  refine valid_ascii s fun c hc => ?_
  rcases h c hc with halpha | hdigit
  · have hlow := BufferedText.isalpha_ascii c halpha
    rwa [UInt8.lt_iff_toNat_lt] at hlow
  · have hlow := (digit_printable c hdigit).2
    rwa [UInt8.lt_iff_toNat_lt] at hlow

section
variable (isprint : UInt8 → Bool)

/-- The texts of a disk that are sent as they are. -/
def DiskUtf8 (d : PlainDisk) : Prop :=
  Valid d.model ∧ ∀ v ∈ d.volumes,
    Valid v.filesystem.mountpoint ∧ Valid (lsblkEscape isprint v.filesystem.fstype)

instance (d : PlainDisk) : Decidable (DiskUtf8 isprint d) :=
  inferInstanceAs (Decidable (_ ∧ ∀ _ ∈ _, _ ∧ _))

theorem record_utf8 (teller : Teller) (d : PlainDisk) :
    DriveUtf8 (d.record isprint teller) ↔ DiskUtf8 isprint d := by
  have hparts : (∀ p ∈ (d.record isprint teller).partitions, PartitionUtf8 p) ↔
      ∀ v ∈ d.volumes, PartitionUtf8 (d.partition isprint teller v) := by
    refine (forall_congr' fun p => imp_congr_left (sortPartitions_perm _).mem_iff).trans ?_
    exact List.forall_mem_map
  rw [driveUtf8_iff, hparts]
  constructor
  · rintro ⟨-, hmodel, -, -, hvolumes⟩
    exact ⟨hmodel, fun v hv => ⟨(hvolumes v hv).mountpoint, (hvolumes v hv).filesystem⟩⟩
  · rintro ⟨hmodel, hvolumes⟩
    exact ⟨alnum_valid _ (name_alnum d), hmodel, valid_nil, valid_nil, fun v hv =>
      ⟨alnum_valid _ (volumeName_alnum d v), (hvolumes v hv).1, (hvolumes v hv).2⟩⟩

theorem inOrder_perm (disks : List PlainDisk) : (inOrder disks).Perm disks :=
  List.perm_insertionSort _ _

theorem drivesOf_names (teller : Teller) (disks : List PlainDisk) :
    (drivesOf isprint teller disks).drives.map Drive.devNode =
      (inOrder disks).map PlainDisk.name := by
  rw [drivesOf, List.map_map]
  rfl

theorem mem_drivesOf (teller : Teller) (disks : List PlainDisk) (name : Bytes) :
    name ∈ (drivesOf isprint teller disks).drives.map Drive.devNode ↔
      name ∈ disks.map PlainDisk.name := by
  rw [drivesOf_names]
  exact ((inOrder_perm disks).map _).mem_iff

/-- A host at one moment, with the disks that its commands print. -/
structure DiskRound where
  host : Host
  manager : Option ServiceManager
  teller : Teller
  exec : Exec
  disks : List PlainDisk
  distinct : (disks.map PlainDisk.name).Nodup
  prints : Prints isprint teller exec disks

variable {isprint}

def DiskRound.report (r : DiskRound isprint) : Report :=
  ⟨{ r.host with drives := (listDrives r.exec).map .ok }, r.manager⟩

def DiskRound.listed (r : DiskRound isprint) : Drives := drivesOf isprint r.teller r.disks

def DiskRound.names (r : DiskRound isprint) : List Bytes := r.disks.map PlainDisk.name

def DiskRound.Sendable (r : DiskRound isprint) : Prop := ∀ d ∈ r.disks, DiskUtf8 isprint d

instance (r : DiskRound isprint) : Decidable r.Sendable :=
  inferInstanceAs (Decidable (∀ _ ∈ _, _))

/-- What the client has been sent of some rounds. -/
def sent (json : Nlohmann) (rounds : List (DiskRound isprint)) : List Drives :=
  drivesPage.received json (rounds.map DiskRound.report)

/-- A row for a disk of the last round: it has the partitions of this round, and
the size and the model of the first one since which the disk has been there. -/
structure ShownSince (rounds : List (DiskRound isprint)) (last : DiskRound isprint)
    (d : PlainDisk) (row : DriveRow) : Prop where
  name : row.1.devNode = d.name
  partitions : row.2.updates = (d.record isprint last.teller).partitions
  since : ∃ before first since, rounds = before++first::since ∧
    (∀ r ∈ first::since, d.name ∈ r.names) ∧ (∀ r ∈ before.getLast?, d.name ∉ r.names) ∧
    ∃ e ∈ first.disks, e.name = d.name ∧ row.1.size = e.size ∧ row.1.model = e.model

theorem listed_utf8 (r : DiskRound isprint) : AllUtf8 r.listed.toJson ↔ r.Sendable := by
  rw [drives_utf8, DiskRound.listed, drivesOf, List.forall_mem_map]
  refine (forall_congr' fun d => imp_congr_left (inOrder_perm r.disks).mem_iff).trans ?_
  exact forall₂_congr fun d _ => record_utf8 isprint r.teller d

theorem sent_eq (hprint : isprint 10 = false) (json : Nlohmann) (hjson : Inverse json)
    (hstrict : Strict json) (rounds : List (DiskRound isprint)) :
    sent json rounds = (rounds.filter (·.Sendable)).map DiskRound.listed := by
  have houtcome : ∀ r : DiskRound isprint,
      drivesPage.outcome r.report = .ok (.ok r.listed) := by
    intro r
    show (listDrives r.exec).map Except.ok = _
    rw [listDrives_disks isprint hprint r.teller r.exec r.disks r.distinct r.prints]
    rfl
  have hheld : ∀ r : DiskRound isprint, r.listed.Held := by
    intro r drive hdrive
    obtain ⟨d, -, rfl⟩ := List.mem_map.mp hdrive
    exact record_held isprint r.teller d
  have hsent := drives_served.received_listed json hjson hstrict DiskRound.report
    DiskRound.listed houtcome hheld rounds
  refine hsent.trans (congrArg (List.map _) (List.filter_congr fun r _ => ?_))
  exact decide_eq_decide.mpr (listed_utf8 r)

theorem listed_nodup (r : DiskRound isprint) : (r.listed.drives.map Drive.devNode).Nodup := by
  rw [DiskRound.listed, drivesOf_names]
  exact ((inOrder_perm r.disks).map _).nodup_iff.mpr r.distinct

/-- The rows after some rounds, the last of which lists the disk. -/
theorem row_since (before : List (DiskRound isprint)) (last : DiskRound isprint) (d : PlainDisk)
    (hd : d ∈ last.disks) (row : DriveRow) (hname : driveKey row = d.name)
    (hrow : row ∈ driveRows (drivesAfter ((before++[last]).map DiskRound.listed))) :
    ShownSince (before++[last]) last d row := by
  have hmem : d.record isprint last.teller ∈ last.listed.drives :=
    List.mem_map_of_mem ((inOrder_perm last.disks).mem_iff.mpr hd)
  have hone : recordsOf Drive.devNode d.name last.listed.drives = [d.record isprint last.teller] :=
    FieldFidelity.recordsOf_unique last.listed.drives (listed_nodup last) _ hmem
  rw [drives_table, List.map_map] at hrow
  refine ⟨hname, ?_, ?_⟩
  · rw [List.map_append, List.map_singleton] at hrow
    exact table_last drives_keeps Drive.partitions (fun r => r.2.updates) (fun _ => rfl)
      (fun _ _ => rfl) _ _ (d.record isprint last.teller) row hrow (hname.symm ▸ hone)
  · have hmake : ∀ m : Drive, (TableRows.newDrive m).1 = { m with partitions := [] } :=
      fun _ => rfl
    have hrefresh : ∀ (m : Drive) (r : DriveRow), (refreshDrive m r).1 = r.1 := fun _ _ => rfl
    obtain ⟨past, first, since, hsplit, hsince, hbefore, m, hm, hdev, hkept⟩ :=
      table_since drives_keeps _ Prod.fst hmake hrefresh _ row hrow
    rw [hname] at hsince hbefore hdev
    obtain ⟨past', tail', hrounds, rfl, htail⟩ := List.map_eq_append_iff.mp hsplit
    obtain ⟨first', since', rfl, rfl, rfl⟩ := List.map_eq_cons_iff.mp htail
    refine ⟨past', first', since', hrounds, ?_, ?_, ?_⟩
    · intro r hr
      rw [← List.map_cons, List.forall_mem_map] at hsince
      exact (mem_drivesOf isprint r.teller r.disks d.name).mp (hsince r hr)
    · intro r hr hnamed
      rw [List.getLast?_map] at hbefore
      refine hbefore _ (Option.mem_map_of_mem _ hr) ?_
      exact (mem_drivesOf isprint r.teller r.disks d.name).mpr hnamed
    · obtain ⟨e, he, rfl⟩ := List.mem_map.mp hm
      refine ⟨e, (inOrder_perm _).mem_iff.mp he, hdev, ?_⟩
      rw [hkept]
      exact ⟨rfl, rfl⟩

/-- The names in the client's table after some rounds. -/
def shownNames (json : Nlohmann) (rounds : List (DiskRound isprint)) : List Bytes :=
  (drivesAfter (sent json rounds)).updates.map Drive.devNode

/-- Whatever disks came and went in the rounds before, behind a round that can be
sent the client's table has the disks of the host, in its own order, and for
each of them a row with its partitions as the host has them now. -/
theorem disks_shown (hprint : isprint 10 = false) (json : Nlohmann) (hjson : Inverse json)
    (hstrict : Strict json) (before : List (DiskRound isprint)) (last : DiskRound isprint)
    (hlast : last.Sendable) :
    Reconciled (shownNames json before) (shownNames json (before++[last]))
      ((inOrder last.disks).map PlainDisk.name) ∧
    ∀ d ∈ last.disks, ∃ row ∈ driveRows (drivesAfter (sent json (before++[last]))),
      ShownSince ((before++[last]).filter (·.Sendable)) last d row := by
  have hrounds : (before++[last]).filter (·.Sendable) = before.filter (·.Sendable)++[last] := by
    rw [List.filter_append, List.filter_cons_of_pos (by simpa using hlast)]
    rfl
  have hsent : sent json (before++[last]) = sent json before++[last.listed] := by
    rw [sent_eq hprint json hjson hstrict, sent_eq hprint json hjson hstrict, hrounds,
      List.map_append]
    rfl
  have hnames := drives_reconciled (sent json before) last.listed
  rw [← hsent] at hnames
  rw [DiskRound.listed, drivesOf_names] at hnames
  refine ⟨hnames, fun d hd => ?_⟩
  have hkey : d.name ∈ shownNames json (before++[last]) := by
    refine (hnames.named d.name).mpr ?_
    exact ((inOrder_perm last.disks).map _).mem_iff.mpr (List.mem_map_of_mem hd)
  rw [shownNames, drives_keys] at hkey
  obtain ⟨row, hrow, hname⟩ := List.mem_map.mp hkey
  refine ⟨row, hrow, ?_⟩
  rw [sent_eq hprint json hjson hstrict, hrounds] at hrow
  rw [hrounds]
  exact row_since _ last d hd row hname hrow

end

def printable (c : UInt8) : Bool := 33 ≤ c && c ≤ 126

theorem small_fits (n : ℕ) (h : n ≤ 8192) : IsUInt64 n := by
  unfold IsUInt64
  omega

theorem sda_letters : ∀ c ∈ bytes "sda", isalpha c = true := by
  have hsda : bytes "sda" = [115, 100, 97] := by decide
  rw [hsda]
  simp only [List.forall_mem_cons, List.not_mem_nil, false_implies, implies_true, and_true]
  decide

theorem sda_long : 2 ≤ (bytes "sda").length := by decide

def kilobyte : Usage where
  size := 1024
  used := 100
  percent := 10
  size_fits := small_fits 1024 (by decide)
  used_fits := small_fits 100 (by decide)
  percent_fits := small_fits 10 (by decide)

def rootVolume : Volume :=
  ⟨1, 2048, ⟨bytes "/", bytes "ext4", some kilobyte⟩, small_fits 2048 (by decide)⟩

/-- A disk in the place of `sda`. -/
def inPlace (model : Bytes) (size : ℕ) (hsize : IsUInt64 size) : PlainDisk where
  name := bytes "sda"
  model := model
  size := size
  filesystem := ⟨[], [], none⟩
  volumes := [rootVolume]
  letters := sda_letters
  long := sda_long
  size_fits := hsize
  distinct := List.nodup_singleton _

def inPlaceRound (model : Bytes) (size : ℕ) (hsize : IsUInt64 size)
    (hfits : (output printable .lsblk [inPlace model size hsize]).length < 18446744073709551616) :
    DiskRound printable where
  host := busDown
  manager := none
  teller := .lsblk
  exec _ := .ok (0, output printable .lsblk [inPlace model size hsize])
  disks := [inPlace model size hsize]
  distinct := List.nodup_singleton _
  prints := ⟨rfl, hfits, nofun⟩

def oldDisk : DiskRound printable :=
  inPlaceRound (bytes "Old Disk") 4096 (small_fits 4096 (by decide)) (by decide +kernel)

def newDisk : DiskRound printable :=
  inPlaceRound (bytes "New Disk") 8192 (small_fits 8192 (by decide)) (by decide +kernel)

/-- A disk that has been exchanged between two rounds keeps its old size. -/
theorem disks_shown_exchanged :
    ∃ row ∈ driveRows (drivesAfter (sent library [oldDisk, newDisk])),
      row.1.size = 4096 ∧ row.1.model = bytes "Old Disk" ∧
      row.2.updates = [⟨bytes "sda1", 1024, 100, bytes "/", bytes "ext4"⟩] := by
  have hboth : [oldDisk, newDisk].filter (·.Sendable) = [oldDisk, newDisk] :=
    List.filter_eq_self.mpr (by decide +kernel)
  obtain ⟨-, hrows⟩ := disks_shown (by decide) library library_inverse library_strict [oldDisk]
    newDisk (by decide +kernel)
  obtain ⟨row, hrow, hshown⟩ := hrows _ List.mem_cons_self
  rw [List.singleton_append, hboth] at hshown
  obtain ⟨before, first, since, hsplit, -, hbefore, e, he, -, hsize, hmodel⟩ := hshown.since
  refine ⟨row, hrow, ?_⟩
  match before with
  | [] =>
    cases hsplit
    rw [List.mem_singleton.mp he] at hsize hmodel
    exact ⟨hsize, hmodel, hshown.partitions.trans (by decide +kernel)⟩
  | [_] =>
    cases hsplit
    have hthere : bytes "sda" ∈ oldDisk.names := List.mem_cons_self
    exact absurd hthere (hbefore oldDisk rfl)
  | _::_::before => simp at hsplit

end Bakaneko.DiskReports
