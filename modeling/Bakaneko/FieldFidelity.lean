import Bakaneko.TableRows

/-!
# What the rows show of a message

A new row copies its record. A row that is already there takes over only the
fields its handler lists: no field of a drive but its partitions, of an
adapter all but three, of a service three. The others are right after a
message exactly when they were right before it.
-/

set_option autoImplicit false

namespace Bakaneko.FieldFidelity
open Bakaneko.Native Bakaneko.Messages Bakaneko.RowModels Bakaneko.TableHandlers Bakaneko.TableRows
open KeyedRows

section
variable {ρ μ κ : Type} [DecidableEq κ]
variable {rowKey : ρ → κ} {recordKey : μ → κ} {refresh : μ → ρ → ρ} {make : μ → ρ}

theorem recordsOf_unique (records : List μ) (hn : (records.map recordKey).Nodup) (m : μ)
    (hm : m ∈ records) : recordsOf recordKey (recordKey m) records = [m] := by
  induction records with
  | nil => cases hm
  | cons n records ih =>
    rw [List.map_cons, List.nodup_cons] at hn
    rw [recordsOf_cons]
    cases hm with
    | head =>
      have hnone : recordsOf recordKey (recordKey m) records = [] := by
        by_contra hne
        exact hn.1 ((mem_records_key _ _).mpr hne)
      rw [if_pos rfl, hnone]
    | tail _ hm =>
      have hne : recordKey n ≠ recordKey m := by
        intro he
        exact hn.1 (he ▸ List.mem_map_of_mem hm)
      rw [if_neg hne, ih hn.2 hm]

/-- A message that names each key once is shown exactly when every row it
names shows it after one refreshment. -/
theorem shown_iff (h : KeepsKey rowKey recordKey refresh make) (Shows : μ → ρ → Prop)
    (hmake : ∀ m, Shows m (make m)) (records : List μ) (rows : List ρ)
    (hn : (records.map recordKey).Nodup) :
    (∀ r ∈ reconcile rowKey recordKey refresh make records rows,
      ∃ m ∈ records, recordKey m = rowKey r ∧ Shows m r) ↔
    ∀ r ∈ rows, ∀ m ∈ records, recordKey m = rowKey r → Shows m (refresh m r) := by
  constructor
  · intro hall r hr m hm hk
    have hkey : rowKey (refresh m r) = recordKey m := h.refresh m r hk.symm
    have hmem : refresh m r ∈ reconcile rowKey recordKey refresh make records rows := by
      rw [reconcile_eq h, List.mem_append]
      left
      apply List.mem_map.mpr
      refine ⟨r, ?_, ?_⟩
      · apply List.mem_filter.mpr
        exact ⟨hr, List.any_eq_true.mpr ⟨m, hm, decide_eq_true hk⟩⟩
      · rw [← hk, recordsOf_unique records hn m hm]
        rfl
    obtain ⟨m', hm', hk', hs⟩ := hall _ hmem
    obtain rfl : m' = m := List.inj_on_of_nodup_map hn hm' hm (hk'.trans hkey)
    exact hs
  · intro hall r hr
    obtain ⟨hne, hcases⟩ := mem_reconcile h records rows r hr
    obtain ⟨m, hm, hk⟩ := List.mem_map.mp ((mem_records_key _ _).mpr hne)
    rw [← hk, recordsOf_unique records hn m hm] at hcases
    refine ⟨m, hm, hk, ?_⟩
    obtain ⟨old, ho, hold, rfl⟩ | ⟨-, hc⟩ := hcases
    · exact hall old ho m hm hold.symm
    · obtain rfl : make m = r := Option.some.inj hc
      exact hmake m

end

/-- Every field a row exposes is its record's. -/
def DriveShows (dinfo : Drive) (r : DriveRow) : Prop :=
  r.1.devNode = dinfo.devNode ∧ r.1.size = dinfo.size ∧ r.1.model = dinfo.model ∧
    r.1.manufacturer = dinfo.manufacturer ∧ r.1.interface = dinfo.interface ∧
    r.2.updates = dinfo.partitions

def AdapterShows (din : Adapter) (r : AdapterRow) : Prop := r.1 = din

def ServiceShows (din cur : Service) : Prop := cur = din

def DrivesShown (info : Drives) (m : DrivesModel) : Prop :=
  ∀ r ∈ driveRows m, ∃ dinfo ∈ info.drives, dinfo.devNode = driveKey r ∧ DriveShows dinfo r

def AdaptersShown (info : Adapters) (m : AdapterModel) : Prop :=
  ∀ r ∈ adapterRows m, ∃ din ∈ info.adapters, din.name = adapterKey r ∧ AdapterShows din r

def ServicesShown (info : Services) (m : ServiceModel) : Prop :=
  ∀ cur ∈ m.updates, ∃ din ∈ info.services, din.id = cur.id ∧ ServiceShows din cur

/-- The fields `handle_drives` leaves alone agree in the rows that stay. -/
def DrivesAgree (info : Drives) (m : DrivesModel) : Prop :=
  ∀ drive ∈ m.updates, ∀ dinfo ∈ info.drives, dinfo.devNode = drive.devNode →
    drive.size = dinfo.size ∧ drive.model = dinfo.model ∧
      drive.manufacturer = dinfo.manufacturer ∧ drive.interface = dinfo.interface

def AdaptersAgree (info : Adapters) (m : AdapterModel) : Prop :=
  ∀ cur ∈ m.updates, ∀ din ∈ info.adapters, din.name = cur.name →
    cur.mtu = din.mtu ∧ cur.macAddress = din.macAddress ∧ cur.ipAddress = din.ipAddress

def ServicesAgree (info : Services) (m : ServiceModel) : Prop :=
  ∀ cur ∈ m.updates, ∀ din ∈ info.services, din.id = cur.id →
    cur.type = din.type ∧ cur.description = din.description

theorem drives_shown_iff (info : Drives) (m : DrivesModel)
    (hn : (info.drives.map Drive.devNode).Nodup) :
    DrivesShown info (handleDrives info m) ↔ DrivesAgree info m := by
  rw [DrivesShown, handleDrives_rows, shown_iff drives_keeps DriveShows
    (fun _ => ⟨rfl, rfl, rfl, rfl, rfl, rfl⟩) info.drives _ hn, DrivesAgree, ← driveRows_updates,
    List.forall_mem_map]
  apply forall₂_congr
  intro r _
  apply forall₂_congr
  intro dinfo _
  apply imp_congr_right
  intro hk
  constructor
  · intro h
    exact ⟨h.2.1, h.2.2.1, h.2.2.2.1, h.2.2.2.2.1⟩
  · intro h
    exact ⟨hk.symm, h.1, h.2.1, h.2.2.1, h.2.2.2, rfl⟩

theorem adapters_shown_iff (info : Adapters) (m : AdapterModel)
    (hn : (info.adapters.map Adapter.name).Nodup) :
    AdaptersShown info (handleAdapters info m) ↔ AdaptersAgree info m := by
  rw [AdaptersShown, handleAdapters_rows, shown_iff adapters_keeps AdapterShows (fun _ => rfl)
    info.adapters _ hn, AdaptersAgree, ← adapterRows_updates, List.forall_mem_map]
  apply forall₂_congr
  intro r _
  apply forall₂_congr
  intro din _
  apply imp_congr_right
  intro hk
  rw [AdapterShows, refreshAdapter, copyAdapter, Adapter.mk.injEq]
  simp only [true_and, and_true]
  exact and_iff_right hk.symm

theorem services_shown_iff (info : Services) (m : ServiceModel)
    (hn : (info.services.map Service.id).Nodup) :
    ServicesShown info (handleServices info m) ↔ ServicesAgree info m := by
  rw [ServicesShown, handleServices_rows, shown_iff services_keeps ServiceShows (fun _ => rfl)
    info.services _ hn, ServicesAgree]
  apply forall₂_congr
  intro cur _
  apply forall₂_congr
  intro din _
  apply imp_congr_right
  intro hk
  rw [ServiceShows, refreshService, Service.mk.injEq]
  simp only [true_and]
  exact and_iff_right hk.symm

/-- After messages that name each key once the rows show their records
exactly when the fields that are not taken over were right before. -/
theorem fields_shown_iff (d : Drives) (drives : DrivesModel) (a : Adapters)
    (adapters : AdapterModel) (s : Services) (services : ServiceModel)
    (hd : (d.drives.map Drive.devNode).Nodup) (ha : (a.adapters.map Adapter.name).Nodup)
    (hs : (s.services.map Service.id).Nodup) :
    DrivesShown d (handleDrives d drives) ∧ AdaptersShown a (handleAdapters a adapters) ∧
        ServicesShown s (handleServices s services) ↔
      DrivesAgree d drives ∧ AdaptersAgree a adapters ∧ ServicesAgree s services :=
  and_congr (drives_shown_iff d drives hd)
    (and_congr (adapters_shown_iff a adapters ha) (services_shown_iff s services hs))

def ethernet : Adapter := ⟨bytes "eth0", 1, 1000, 1500, [], [], 7, 7, 1⟩
def jumbo : Adapter := ⟨bytes "eth0", 1, 1000, 9000, [], [], 8, 8, 2⟩

def oneAdapter : AdapterModel := { updates := [ethernet], prevous := [ethernet] }

def disk (name : Bytes) (partitions : List Partition) : Drive := ⟨name, 512, [], [], [], partitions⟩

/-- A new partition, and a new drive. -/
def partitioned : Drives :=
  ⟨[disk (bytes "sdb") [], disk (bytes "sda") [⟨bytes "sda1", 512, 100, bytes "/", bytes "ext4"⟩],
    disk (bytes "sdc") []]⟩

def twoDisks : DrivesModel := handleDrives ⟨[disk (bytes "sda") [], disk (bytes "sdb") []]⟩ .empty

def wireless (state linkSpeed : ℕ) : Adapter :=
  ⟨bytes "wlan0", state, linkSpeed, 1500, [], [], 5, 5, 1⟩

/-- New counters, and a link that is down. -/
def unplugged : Adapters := ⟨[{ ethernet with bytesRx := 9, time := 2 }, wireless 0 0]⟩

def twoAdapters : AdapterModel :=
  { updates := [wireless 1 300, ethernet], prevous := [wireless 1 300, ethernet] }

def daemon (name : Bytes) (state : State) (enabled : Bool) : Service :=
  ⟨name, state, enabled, bytes "Service", name, bytes "daemon"⟩

/-- A service is stopped and disabled, and another is gone. -/
def stopped : Services := ⟨[daemon (bytes "sshd") .stopped false]⟩

def twoServices : ServiceModel :=
  { updates := [daemon (bytes "cron") .running true, daemon (bytes "sshd") .running true] }

/-- The fields that change are those that are taken over. -/
theorem fields_shown_changed :
    DrivesShown partitioned (handleDrives partitioned twoDisks) ∧
      AdaptersShown unplugged (handleAdapters unplugged twoAdapters) ∧
      ServicesShown stopped (handleServices stopped twoServices) := by
  refine (fields_shown_iff partitioned twoDisks unplugged twoAdapters stopped twoServices
    (by decide) (by decide) (by decide)).mpr ⟨?_, ?_, ?_⟩
  · unfold DrivesAgree
    decide
  · unfold AdaptersAgree
    decide
  · unfold ServicesAgree
    decide

/-- A new `mtu` is not shown. -/
theorem mtu_not_shown :
    ([jumbo].map Adapter.name).Nodup ∧
      ¬ AdaptersShown ⟨[jumbo]⟩ (handleAdapters ⟨[jumbo]⟩ oneAdapter) := by
  refine ⟨by decide, fun h => ?_⟩
  obtain ⟨din, hm, -, hs⟩ := h (⟨bytes "eth0", 1, 1000, 1500, [], [], 8, 8, 2⟩, ethernet)
    (by decide)
  obtain rfl := List.mem_singleton.mp hm
  exact absurd (congrArg Adapter.mtu hs) (by decide)

end Bakaneko.FieldFidelity
