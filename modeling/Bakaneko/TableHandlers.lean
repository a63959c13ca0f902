import Bakaneko.RowModels
import Bakaneko.Library.KeyedRows

/-!
# Bringing the tables up to date

`handle_drives`, `handle_adapters` and `handle_services` are three copies of
one procedure. Rows whose key the message does not name are removed while
the index walks over them; then each record is compared with every row,
changes the rows with its key, and is appended if there was none.
-/

set_option autoImplicit false

namespace Bakaneko.TableHandlers
open Bakaneko.Native Bakaneko.Messages Bakaneko.RowModels

/-- What the three procedures differ in. -/
structure Table (τ μ : Type) where
  rowCount : τ → ℕ
  key : ℕ → τ → Option Bytes
  recordKey : μ → Bytes
  removeRow : ℕ → τ → τ
  update : ℕ → μ → τ → τ
  append : μ → τ → τ

section
variable {τ μ : Type} (T : Table τ μ)

def found (info : List μ) (a : ℕ) (t : τ) : Bool :=
  info.any fun dinfo => T.key a t = some (T.recordKey dinfo)

/-- The loop over the rows; the counter is the number of rows from `a` on. -/
def removeLoop (info : List μ) : ℕ → ℕ → τ → τ
  | 0, _, t => t
  | n+1, a, t =>
    if found T info a t then removeLoop info n (a+1) t
    else removeLoop info n a (T.removeRow a t)

/-- The loop over the rows for one record, with `done`. -/
def updateLoop (din : μ) : ℕ → ℕ → Bool × τ → Bool × τ
  | 0, _, t => t
  | n+1, a, (done, t) =>
    if T.key a t = some (T.recordKey din) then updateLoop din n (a+1) (true, T.update a din t)
    else updateLoop din n (a+1) (done, t)

def place (t : τ) (din : μ) : τ :=
  let (done, t) := updateLoop T din (T.rowCount t) 0 (false, t)
  if done then t else T.append din t

def handle (info : List μ) (t : τ) : τ :=
  info.foldl (place T) (removeLoop T info (T.rowCount t) 0 t)

end

def updatePartition (pinfo pdata : Partition) : Partition :=
  if pdata.devNode ≠ pinfo.devNode then pinfo
  else
    { pdata with
      size := if pdata.size ≠ pinfo.size then pinfo.size else pdata.size
      used := if pdata.used ≠ pinfo.used then pinfo.used else pdata.used
      mountpoint := if pdata.mountpoint ≠ pinfo.mountpoint then pinfo.mountpoint
        else pdata.mountpoint
      filesystem := if pdata.filesystem ≠ pinfo.filesystem then pinfo.filesystem
        else pdata.filesystem }

def updatePartitions (dinfo : Drive) (partitions : PartitionModel) : PartitionModel :=
  let size := dinfo.partitions.length
  let count := partitions.updates.length
  let partitions := if count < size then partitions.insertRows count (size-count) else partitions
  let count := partitions.updates.length
  let partitions := if size < count then partitions.removeRows size (count-size) else partitions
  ⟨List.zipWith updatePartition dinfo.partitions partitions.updates⟩

def updateDrive (a : ℕ) (dinfo : Drive) (m : DrivesModel) : DrivesModel where
  updates := m.updates
  partitions := m.partitions.modify a (updatePartitions dinfo)
  aligned := by rw [List.length_modify, m.aligned]

def copyDrive (dinfo drive : Drive) : Drive :=
  { drive with
    devNode := dinfo.devNode
    size := dinfo.size
    model := dinfo.model
    manufacturer := dinfo.manufacturer
    interface := dinfo.interface }

def appendDrive (dinfo : Drive) (m : DrivesModel) : DrivesModel :=
  let m := m.insertRows m.updates.length 1
  let a := m.updates.length-1
  updateDrive a dinfo {
    updates := m.updates.modify a (copyDrive dinfo)
    partitions := m.partitions
    aligned := by rw [List.length_modify, m.aligned] }

def drives : Table DrivesModel Drive where
  rowCount m := m.updates.length
  key a m := m.updates[a]?.map Drive.devNode
  recordKey := Drive.devNode
  removeRow a m := m.removeRows a 1
  update := updateDrive
  append := appendDrive

def saveCounters (cur pre : Adapter) : Adapter :=
  { pre with bytesRx := cur.bytesRx, bytesTx := cur.bytesTx, time := cur.time }

def copyAdapter (din cur : Adapter) : Adapter :=
  { cur with
    bytesRx := din.bytesRx
    bytesTx := din.bytesTx
    time := din.time
    state := din.state
    linkSpeed := din.linkSpeed }

def updateAdapter (a : ℕ) (din : Adapter) (m : AdapterModel) : AdapterModel where
  updates := m.updates.modify a (copyAdapter din)
  prevous := match m.updates[a]? with
    | none => m.prevous
    | some cur => m.prevous.modify a (saveCounters cur)
  aligned := by cases m.updates[a]? <;> simp [m.aligned]

def appendAdapter (din : Adapter) (m : AdapterModel) : AdapterModel :=
  let m := m.insertRows m.updates.length 1
  let a := m.updates.length-1
  { updates := m.updates.modify a fun _ => din
    prevous := m.prevous.modify a (saveCounters din)
    aligned := by rw [List.length_modify, List.length_modify, m.aligned] }

def adapters : Table AdapterModel Adapter where
  rowCount m := m.updates.length
  key a m := m.updates[a]?.map Adapter.name
  recordKey := Adapter.name
  removeRow a m := m.removeRows a 1
  update := updateAdapter
  append := appendAdapter

def copyService (din cur : Service) : Service :=
  { cur with
    state := if cur.state ≠ din.state then din.state else cur.state
    enabled := if cur.enabled ≠ din.enabled then din.enabled else cur.enabled
    displayName := if cur.displayName ≠ din.displayName then din.displayName
      else cur.displayName }

def appendService (din : Service) (m : ServiceModel) : ServiceModel :=
  let m := m.insertRows m.updates.length 1
  ⟨m.updates.modify (m.updates.length-1) fun _ => din⟩

def services : Table ServiceModel Service where
  rowCount m := m.updates.length
  key a m := m.updates[a]?.map Service.id
  recordKey := Service.id
  removeRow a m := m.removeRows a 1
  update a din m := ⟨m.updates.modify a (copyService din)⟩
  append := appendService

def handleDrives (info : Drives) : DrivesModel → DrivesModel := handle drives info.drives

def handleAdapters (info : Adapters) : AdapterModel → AdapterModel := handle adapters info.adapters

def handleServices (info : Services) : ServiceModel → ServiceModel := handle services info.services

end Bakaneko.TableHandlers
