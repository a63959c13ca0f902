import Bakaneko.TableRows

/-!
# The keys of the tables after each message

Starting from empty tables, after any sequence of messages the keys of a
table are those of the last message. The keys that were there before keep
their order, the new ones follow as the message first names them, and the
second vector of the drives and of the adapters holds, row by row, what
belongs to the key of the first.
-/

set_option autoImplicit false

namespace Bakaneko.KeyReconciliation
open Bakaneko.Native Bakaneko.Messages Bakaneko.RowModels Bakaneko.TableHandlers Bakaneko.TableRows
open KeyedRows

def drivesAfter (history : List Drives) : DrivesModel :=
  history.foldl (fun m info => handleDrives info m) .empty

def adaptersAfter (history : List Adapters) : AdapterModel :=
  history.foldl (fun m info => handleAdapters info m) .empty

def servicesAfter (history : List Services) : ServiceModel :=
  history.foldl (fun m info => handleServices info m) {}

/-- The keys before and after a message that names the keys of the third list. -/
structure Reconciled (before after message : List Bytes) : Prop where
  distinct : after.Nodup
  named : ∀ k, k ∈ after ↔ k ∈ message
  ordered : after = (before.filter fun k => message.any (· = k))++
    firsts (message.filter fun k => !before.any (· = k))

def counters (a : Adapter) : ℕ × ℕ × ℕ := (a.bytesRx, a.bytesTx, a.time)

/-- Each drive has the partitions of the last record with its key. -/
structure PartitionsBelong (info : Drives) (m : DrivesModel) : Prop where
  length : m.partitions.length = m.updates.length
  last : ∀ (i : ℕ) (drive : Drive) (partitions : PartitionModel),
    m.updates[i]? = some drive → m.partitions[i]? = some partitions →
    ∃ dinfo, (info.drives.filter fun d => d.devNode = drive.devNode).getLast? = some dinfo ∧
      partitions.updates = dinfo.partitions

/-- Each adapter has the counters of the last record with its key, and beside
them those of the record before, or its own if it is new. -/
structure PrevousBelong (history : List Adapters) (m : AdapterModel) : Prop where
  length : m.prevous.length = m.updates.length
  before : ∀ (i : ℕ) (cur pre : Adapter), m.updates[i]? = some cur → m.prevous[i]? = some pre →
    ∃ past din, streak Adapter.name cur.name (history.map Adapters.adapters) = past++[din] ∧
      counters cur = counters din ∧ counters pre = counters (past.getLast?.getD din)

section
variable {τ μ ρ ι : Type} {T : Table τ μ} {rows : τ → List ρ} {rowKey : ρ → Bytes}
variable {refresh : μ → ρ → ρ} {make : μ → ρ}

theorem foldl_rows (h : Lawful T rows rowKey refresh make) (records : ι → List μ)
    (history : List ι) (t : τ) (ht : rows t = []) :
    rows (history.foldl (fun t info => handle T (records info) t) t) =
      table rowKey T.recordKey refresh make (history.map records) := by
  induction history using List.reverseRecOn with
  | nil => exact ht
  | append_singleton history info ih =>
    rw [List.foldl_append, List.map_append, List.map_singleton, table_append, ← ih]
    exact handle_rows h (records info) _

theorem table_reconciled (h : KeepsKey rowKey T.recordKey refresh make) (history : List (List μ))
    (records : List μ) :
    Reconciled ((table rowKey T.recordKey refresh make history).map rowKey)
      ((table rowKey T.recordKey refresh make (history++[records])).map rowKey)
      (records.map T.recordKey) where
  distinct := table_nodup h _
  named k := by
    rw [table_append]
    exact mem_reconcile_keys h records _ k
  ordered := by
    rw [table_append, reconcile_keys h]
    simp only [keptKeys, freshKeys, List.any_map, Function.comp_def]

end

theorem drives_table (history : List Drives) :
    driveRows (drivesAfter history) =
      table driveKey Drive.devNode refreshDrive newDrive (history.map Drives.drives) :=
  foldl_rows drives_lawful Drives.drives history .empty rfl

theorem adapters_table (history : List Adapters) :
    adapterRows (adaptersAfter history) =
      table adapterKey Adapter.name refreshAdapter newAdapter (history.map Adapters.adapters) :=
  foldl_rows adapters_lawful Adapters.adapters history .empty rfl

theorem services_table (history : List Services) :
    (servicesAfter history).updates =
      table Service.id Service.id refreshService id (history.map Services.services) :=
  foldl_rows services_lawful Services.services history {} rfl

theorem drives_keys (m : DrivesModel) :
    m.updates.map Drive.devNode = (driveRows m).map driveKey := by
  rw [← driveRows_updates, List.map_map]
  rfl

theorem adapters_keys (m : AdapterModel) :
    m.updates.map Adapter.name = (adapterRows m).map adapterKey := by
  rw [← adapterRows_updates, List.map_map]
  rfl

theorem zip_getElem {α β : Type} (as : List α) (bs : List β) (i : ℕ) (a : α) (b : β)
    (ha : as[i]? = some a) (hb : bs[i]? = some b) : (a, b) ∈ as.zip bs := by
  apply List.mem_of_getElem? (i := i)
  rw [List.getElem?_zip_eq_some]
  exact ⟨ha, hb⟩

theorem partitions_belong (history : List Drives) (info : Drives) :
    PartitionsBelong info (drivesAfter (history++[info])) where
  length := (drivesAfter (history++[info])).aligned
  last := by
    intro i drive partitions hd hp
    have hmem : (drive, partitions) ∈ driveRows (drivesAfter (history++[info])) :=
      zip_getElem _ _ i drive partitions hd hp
    rw [drives_table, List.map_append, List.map_singleton] at hmem
    have hnamed : recordsOf Drive.devNode drive.devNode info.drives ≠ [] := by
      rw [← mem_records_key, ← mem_reconcile_keys drives_keeps, ← table_append]
      exact List.mem_map_of_mem hmem
    obtain ⟨past, dinfo, hs, hp⟩ := content_last Drive.partitions (fun r => r.2.updates)
      (fun _ => rfl) (fun _ _ => rfl) _ _ (table_content drives_keeps _ _ hmem)
    refine ⟨dinfo, ?_, hp⟩
    rw [show driveKey (drive, partitions) = drive.devNode from rfl,
      streak_append _ _ _ hnamed] at hs
    have hlast := congrArg List.getLast? hs
    rw [List.getLast?_append_of_ne_nil _ hnamed, List.getLast?_concat] at hlast
    exact hlast

theorem prevous_belong (history : List Adapters) :
    PrevousBelong history (adaptersAfter history) where
  length := (adaptersAfter history).aligned
  before := by
    intro i cur pre hc hp
    have hmem : (cur, pre) ∈ adapterRows (adaptersAfter history) := zip_getElem _ _ i cur pre hc hp
    rw [adapters_table] at hmem
    have hcontent := table_content adapters_keeps _ _ hmem
    obtain ⟨past, din, hs, hcur⟩ := content_last counters (fun r => counters r.1) (fun _ => rfl)
      (fun _ _ => rfl) _ _ hcontent
    obtain ⟨past', din', hs', hpre⟩ := content_previous counters (fun r => counters r.1)
      (fun r => counters r.2) (fun _ => rfl) (fun _ _ => rfl) (fun _ => rfl) (fun _ _ => rfl) _ _
      hcontent
    obtain ⟨rfl, hd⟩ := List.append_inj' (hs.symm.trans hs') rfl
    obtain rfl : din = din' := List.head_eq_of_cons_eq hd
    exact ⟨past, din, hs, hcur, hpre⟩

theorem drives_reconciled (past : List Drives) (d : Drives) :
    Reconciled ((drivesAfter past).updates.map Drive.devNode)
      ((drivesAfter (past++[d])).updates.map Drive.devNode) (d.drives.map Drive.devNode) := by
  rw [drives_keys, drives_keys, drives_table, drives_table, List.map_append, List.map_singleton]
  exact table_reconciled drives_lawful.keeps _ _

theorem adapters_reconciled (past : List Adapters) (a : Adapters) :
    Reconciled ((adaptersAfter past).updates.map Adapter.name)
      ((adaptersAfter (past++[a])).updates.map Adapter.name) (a.adapters.map Adapter.name) := by
  rw [adapters_keys, adapters_keys, adapters_table, adapters_table, List.map_append,
    List.map_singleton]
  exact table_reconciled adapters_lawful.keeps _ _

theorem services_reconciled (past : List Services) (s : Services) :
    Reconciled ((servicesAfter past).updates.map Service.id)
      ((servicesAfter (past++[s])).updates.map Service.id) (s.services.map Service.id) := by
  rw [services_table, services_table, List.map_append, List.map_singleton]
  exact table_reconciled services_lawful.keeps _ _

/-- One message behind any sequence of messages, for each of the three tables. -/
theorem tables_reconciled (ds : List Drives) (d : Drives) (as : List Adapters) (a : Adapters)
    (ss : List Services) (s : Services) :
    (Reconciled ((drivesAfter ds).updates.map Drive.devNode)
        ((drivesAfter (ds++[d])).updates.map Drive.devNode) (d.drives.map Drive.devNode) ∧
      PartitionsBelong d (drivesAfter (ds++[d]))) ∧
    (Reconciled ((adaptersAfter as).updates.map Adapter.name)
        ((adaptersAfter (as++[a])).updates.map Adapter.name) (a.adapters.map Adapter.name) ∧
      PrevousBelong (as++[a]) (adaptersAfter (as++[a]))) ∧
    Reconciled ((servicesAfter ss).updates.map Service.id)
      ((servicesAfter (ss++[s])).updates.map Service.id) (s.services.map Service.id) :=
  ⟨⟨drives_reconciled ds d, partitions_belong ds d⟩,
    ⟨adapters_reconciled as a, prevous_belong (as++[a])⟩, services_reconciled ss s⟩

end Bakaneko.KeyReconciliation
