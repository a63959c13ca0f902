import Bakaneko.TableHandlers

/-!
# The tables as rows kept by key

A table whose operations act on a list of rows computes on it what the keyed
rows of the library compute: the loop with the falling index is a filter,
the loop over the rows a map. The two vectors of the drives and the adapters
are one list of pairs.
-/

set_option autoImplicit false

namespace Bakaneko.TableRows
open Bakaneko.Native Bakaneko.Messages Bakaneko.RowModels Bakaneko.TableHandlers KeyedRows

section
variable {τ μ ρ : Type} (T : Table τ μ) (rows : τ → List ρ) (rowKey : ρ → Bytes)
variable (refresh : μ → ρ → ρ) (make : μ → ρ)

/-- Each operation does to the rows what its name says. -/
structure Lawful : Prop where
  keeps : KeepsKey rowKey T.recordKey refresh make
  rowCount : ∀ t, T.rowCount t = (rows t).length
  key : ∀ a t, T.key a t = (rows t)[a]?.map rowKey
  removeRow : ∀ a t, rows (T.removeRow a t) = (rows t).eraseIdx a
  update : ∀ a m t, rows (T.update a m t) = (rows t).modify a (refresh m)
  append : ∀ m t, rows (T.append m t) = rows t++[make m]

variable {T rows rowKey refresh make}

theorem key_at (h : Lawful T rows rowKey refresh make) (t : τ) (before : List ρ) (r : ρ)
    (rest : List ρ) (hrows : rows t = before++r::rest) :
    T.key before.length t = some (rowKey r) := by
  rw [h.key, hrows, List.getElem?_append_right le_rfl, Nat.sub_self]
  rfl

theorem found_at (h : Lawful T rows rowKey refresh make) (info : List μ) (t : τ) (before : List ρ)
    (r : ρ) (rest : List ρ) (hrows : rows t = before++r::rest) :
    found T info before.length t = info.any fun m => T.recordKey m = rowKey r := by
  unfold found
  congr 1
  funext m
  simp [key_at h t before r rest hrows, eq_comm]

/-- The loop leaves those of the rows still to come that the message names. -/
theorem removeLoop_rows (h : Lawful T rows rowKey refresh make) (info : List μ)
    (before behind : List ρ) (t : τ) (hrows : rows t = before++behind) :
    rows (removeLoop T info behind.length before.length t) =
      before++prune rowKey T.recordKey info behind := by
  induction behind generalizing before t with
  | nil => exact hrows
  | cons r rest ih =>
    rw [List.length_cons, removeLoop, found_at h info t before r rest hrows, prune_cons]
    split
    · have hnext := ih (before++[r]) t (by rw [hrows, List.append_assoc]; rfl)
      rw [List.length_append, List.length_singleton, List.append_assoc] at hnext
      exact hnext
    · apply ih
      rw [h.removeRow, hrows, List.eraseIdx_append_of_length_le le_rfl, Nat.sub_self]
      rfl

/-- The loop refreshes those of the rows still to come that have the record's
key. -/
theorem updateLoop_rows (h : Lawful T rows rowKey refresh make) (din : μ)
    (before behind : List ρ) (done : Bool) (t : τ) (hrows : rows t = before++behind) :
    (updateLoop T din behind.length before.length (done, t)).1 =
        (done || behind.any fun r => rowKey r = T.recordKey din) ∧
      rows (updateLoop T din behind.length before.length (done, t)).2 = before++
        behind.map fun r => if rowKey r = T.recordKey din then refresh din r else r := by
  induction behind generalizing before done t with
  | nil => exact ⟨(Bool.or_false done).symm, hrows⟩
  | cons r rest ih =>
    rw [List.length_cons, updateLoop, key_at h t before r rest hrows]
    by_cases hk : rowKey r = T.recordKey din
    · have hupdate : rows (T.update before.length din t) = before++[refresh din r]++rest := by
        rw [h.update, hrows, List.modify_eq_take_drop, List.take_left, List.drop_left,
          List.append_assoc]
        rfl
      obtain ⟨hdone, hnext⟩ := ih (before++[refresh din r]) true _ hupdate
      rw [List.length_append, List.length_singleton] at hdone hnext
      rw [if_pos (congrArg some hk)]
      refine ⟨by rw [hdone]; simp [hk], ?_⟩
      rw [hnext]
      simp [hk]
    · obtain ⟨hdone, hnext⟩ := ih (before++[r]) done t (by rw [hrows, List.append_assoc]; rfl)
      rw [List.length_append, List.length_singleton] at hdone hnext
      rw [if_neg fun he => hk (Option.some.inj he), hdone, hnext]
      simp [hk]

theorem place_rows (h : Lawful T rows rowKey refresh make) (t : τ) (din : μ) :
    rows (TableHandlers.place T t din) =
      KeyedRows.place rowKey T.recordKey refresh make (rows t) din := by
  obtain ⟨hdone, hrows⟩ := updateLoop_rows h din [] (rows t) false t rfl
  rw [← h.rowCount, List.length_nil] at hdone hrows
  rw [Bool.false_or] at hdone
  rw [List.nil_append] at hrows
  rw [TableHandlers.place, KeyedRows.place, ← hdone]
  cases hd : updateLoop T din (T.rowCount t) 0 (false, t) with
  | mk done u =>
    rw [hd] at hdone hrows
    cases done with
    | true => exact hrows
    | false =>
      have hnone : ∀ r ∈ rows t, rowKey r ≠ T.recordKey din := by
        simpa using hdone.symm
      have hsame : rows u = rows t := by
        rw [hrows]
        exact (List.map_congr_left fun r hr => if_neg (hnone r hr)).trans (List.map_id' _)
      simp only [h.append, hsame, Bool.false_eq_true, if_false]

/-- A message changes the table as it changes rows kept by key. -/
theorem handle_rows (h : Lawful T rows rowKey refresh make) (info : List μ) (t : τ) :
    rows (handle T info t) = reconcile rowKey T.recordKey refresh make info (rows t) := by
  have hloop : rows (removeLoop T info (T.rowCount t) 0 t) =
      prune rowKey T.recordKey info (rows t) := by
    rw [h.rowCount]
    exact removeLoop_rows h info [] (rows t) t rfl
  rw [handle, reconcile, ← hloop]
  generalize removeLoop T info (T.rowCount t) 0 t = u
  have hfold : ∀ records : List μ, ∀ u,
      rows (records.foldl (TableHandlers.place T) u) =
        records.foldl (KeyedRows.place rowKey T.recordKey refresh make) (rows u) := by
    intro records
    induction records with
    | nil => exact fun u => rfl
    | cons m records ih =>
      intro u
      rw [List.foldl_cons, List.foldl_cons, ih, place_rows h]
  exact hfold info u

end

/-- The partition rows become the partitions of the record. -/
theorem updatePartition_eq (pinfo pdata : Partition) : updatePartition pinfo pdata = pinfo := by
  unfold updatePartition
  by_cases hn : pdata.devNode = pinfo.devNode
  · rw [if_neg (not_not.mpr hn)]
    cases pinfo
    simp_all
  · exact if_pos hn

theorem zipWith_left {α : Type} (f : α → α → α) (hf : ∀ a b, f a b = a) (as bs : List α)
    (hl : as.length = bs.length) : List.zipWith f as bs = as := by
  induction as generalizing bs with
  | nil => rfl
  | cons a as ih =>
    cases bs with
    | nil => simp at hl
    | cons b bs => rw [List.zipWith_cons_cons, hf, ih bs (by simpa using hl)]

theorem updatePartitions_eq (dinfo : Drive) (p : PartitionModel) :
    updatePartitions dinfo p = ⟨dinfo.partitions⟩ := by
  unfold updatePartitions
  dsimp only
  rw [zipWith_left updatePartition updatePartition_eq]
  by_cases hlt : p.updates.length < dinfo.partitions.length
  · have hlen : (p.insertRows p.updates.length
        (dinfo.partitions.length-p.updates.length)).updates.length = dinfo.partitions.length := by
      rw [PartitionModel.insertRows, insertAt_length]
      omega
    rw [if_pos hlt, if_neg (by omega), hlen]
  · rw [if_neg hlt]
    by_cases hgt : dinfo.partitions.length < p.updates.length
    · rw [if_pos hgt, PartitionModel.removeRows, eraseAt_length]
      omega
    · rw [if_neg hgt]
      omega

section
variable {α β : Type}

theorem zip_modify (as : List α) (bs : List β) (a : ℕ) (f : α → α) (g : β → β) :
    (as.modify a f).zip (bs.modify a g) = (as.zip bs).modify a (Prod.map f g) := by
  induction as generalizing bs a with
  | nil => cases a <;> rfl
  | cons x as ih =>
    cases bs with
    | nil => cases a <;> simp
    | cons y bs =>
      cases a with
      | zero => rfl
      | succ a => exact congrArg _ (ih bs a)

theorem zip_eraseIdx (as : List α) (bs : List β) (hl : bs.length = as.length) (a : ℕ) :
    (as.eraseIdx a).zip (bs.eraseIdx a) = (as.zip bs).eraseIdx a := by
  induction as generalizing bs a with
  | nil => cases a <;> rfl
  | cons x as ih =>
    cases bs with
    | nil => simp at hl
    | cons y bs =>
      cases a with
      | zero => rfl
      | succ a => exact congrArg _ (ih bs (by simpa using hl) a)

theorem modify_congr (as : List α) (a : ℕ) (f g : α → α)
    (h : ∀ x, as[a]? = some x → f x = g x) : as.modify a f = as.modify a g := by
  apply List.ext_getElem?
  intro i
  rw [List.getElem?_modify, List.getElem?_modify]
  by_cases hi : a = i
  · subst hi
    cases hx : as[a]? with
    | none => rfl
    | some x => simp [h x hx]
  · simp [hi]

theorem modify_last (f : α → α) (as : List α) (a : α) :
    (as++[a]).modify as.length f = as++[f a] := by
  rw [List.modify_eq_take_drop, List.take_left' rfl, List.drop_left' rfl]
  rfl

end

/-- A drive with its partitions. -/
abbrev DriveRow := Drive × PartitionModel

def driveRows (m : DrivesModel) : List DriveRow := m.updates.zip m.partitions
def driveKey (r : DriveRow) : Bytes := r.1.devNode
def refreshDrive (dinfo : Drive) (r : DriveRow) : DriveRow := (r.1, ⟨dinfo.partitions⟩)
def newDrive (dinfo : Drive) : DriveRow := ({ dinfo with partitions := [] }, ⟨dinfo.partitions⟩)

theorem driveRows_updates (m : DrivesModel) : (driveRows m).map Prod.fst = m.updates :=
  List.map_fst_zip m.aligned.ge

theorem driveRows_length (m : DrivesModel) : (driveRows m).length = m.updates.length := by
  rw [← driveRows_updates, List.length_map]

theorem updateDrive_rows (a : ℕ) (dinfo : Drive) (m : DrivesModel) :
    driveRows (updateDrive a dinfo m) = (driveRows m).modify a (refreshDrive dinfo) := by
  have hz := zip_modify m.updates m.partitions a id (updatePartitions dinfo)
  rw [List.modify_id] at hz
  rw [driveRows, updateDrive]
  apply hz.trans
  apply modify_congr
  intro r _
  rw [Prod.map_apply', updatePartitions_eq]
  rfl

theorem appendDrive_rows (dinfo : Drive) (m : DrivesModel) :
    driveRows (appendDrive dinfo m) = driveRows m++[newDrive dinfo] := by
  have hu : (m.insertRows m.updates.length 1).updates = m.updates++[blankDrive] := insertAt_end _ _
  have hp : (m.insertRows m.updates.length 1).partitions =
      m.partitions++[({} : PartitionModel)] := by
    rw [← m.aligned]
    exact insertAt_end _ m.partitions
  have hlen : (m.updates++[blankDrive]).length-1 = m.updates.length := by simp
  unfold driveRows appendDrive updateDrive
  dsimp only
  rw [hu, hp, hlen, modify_last, ← m.aligned, modify_last, updatePartitions_eq,
    List.zip_append m.aligned.symm]
  rfl

theorem drives_lawful : Lawful drives driveRows driveKey refreshDrive newDrive where
  keeps := ⟨fun _ => rfl, fun _ _ h => h⟩
  rowCount m := (driveRows_length m).symm
  key a m := by
    change m.updates[a]?.map Drive.devNode = _
    rw [← driveRows_updates, List.getElem?_map, Option.map_map]
    rfl
  removeRow a m := by
    change (eraseAt a 1 m.updates).zip (eraseAt a 1 m.partitions) = _
    rw [eraseAt_one, eraseAt_one, zip_eraseIdx m.updates m.partitions m.aligned]
    rfl
  update := updateDrive_rows
  append := appendDrive_rows

theorem drives_keeps : KeepsKey driveKey Drive.devNode refreshDrive newDrive :=
  drives_lawful.keeps

theorem handleDrives_rows (info : Drives) (m : DrivesModel) :
    driveRows (handleDrives info m) =
      reconcile driveKey Drive.devNode refreshDrive newDrive info.drives (driveRows m) :=
  handle_rows drives_lawful info.drives m

/-- An adapter with what the row keeps of the time before. -/
abbrev AdapterRow := Adapter × Adapter

def adapterRows (m : AdapterModel) : List AdapterRow := m.updates.zip m.prevous
def adapterKey (r : AdapterRow) : Bytes := r.1.name
def refreshAdapter (din : Adapter) (r : AdapterRow) : AdapterRow :=
  (copyAdapter din r.1, saveCounters r.1 r.2)
def newAdapter (din : Adapter) : AdapterRow := (din, saveCounters din blankAdapter)

theorem adapterRows_updates (m : AdapterModel) : (adapterRows m).map Prod.fst = m.updates :=
  List.map_fst_zip m.aligned.ge

theorem adapterRows_length (m : AdapterModel) : (adapterRows m).length = m.updates.length := by
  rw [← adapterRows_updates, List.length_map]

theorem updateAdapter_rows (a : ℕ) (din : Adapter) (m : AdapterModel) :
    adapterRows (updateAdapter a din m) = (adapterRows m).modify a (refreshAdapter din) := by
  unfold adapterRows updateAdapter
  dsimp only
  cases hcur : m.updates[a]? with
  | none =>
    have hlen : m.updates.length ≤ a := List.getElem?_eq_none_iff.mp hcur
    have hz := zip_modify m.updates m.prevous a (copyAdapter din) id
    rw [List.modify_id] at hz
    apply hz.trans
    apply modify_congr
    intro r hr
    have := (List.getElem?_eq_some_iff.mp hr).1
    rw [List.length_zip] at this
    omega
  | some cur =>
    apply (zip_modify m.updates m.prevous a (copyAdapter din) (saveCounters cur)).trans
    apply modify_congr
    intro r hr
    have hfirst : r.1 = cur := by
      have := congrArg (Option.map Prod.fst) hr
      rw [← List.getElem?_map, List.map_fst_zip m.aligned.ge, hcur] at this
      exact (Option.some.inj this).symm
    rw [refreshAdapter, hfirst, ← hfirst]
    rfl

theorem appendAdapter_rows (din : Adapter) (m : AdapterModel) :
    adapterRows (appendAdapter din m) = adapterRows m++[newAdapter din] := by
  have hu : (m.insertRows m.updates.length 1).updates = m.updates++[blankAdapter] :=
    insertAt_end _ _
  have hp : (m.insertRows m.updates.length 1).prevous = m.prevous++[blankAdapter] := by
    rw [← m.aligned]
    exact insertAt_end _ m.prevous
  have hlen : (m.updates++[blankAdapter]).length-1 = m.updates.length := by simp
  unfold adapterRows appendAdapter
  dsimp only
  rw [hu, hp, hlen, modify_last, ← m.aligned, modify_last, List.zip_append m.aligned.symm]
  rfl

theorem adapters_lawful : Lawful adapters adapterRows adapterKey refreshAdapter newAdapter where
  keeps := ⟨fun _ => rfl, fun _ _ h => h⟩
  rowCount m := (adapterRows_length m).symm
  key a m := by
    change m.updates[a]?.map Adapter.name = _
    rw [← adapterRows_updates, List.getElem?_map, Option.map_map]
    rfl
  removeRow a m := by
    change (eraseAt a 1 m.updates).zip (eraseAt a 1 m.prevous) = _
    rw [eraseAt_one, eraseAt_one, zip_eraseIdx m.updates m.prevous m.aligned]
    rfl
  update := updateAdapter_rows
  append := appendAdapter_rows

theorem adapters_keeps : KeepsKey adapterKey Adapter.name refreshAdapter newAdapter :=
  adapters_lawful.keeps

theorem handleAdapters_rows (info : Adapters) (m : AdapterModel) :
    adapterRows (handleAdapters info m) =
      reconcile adapterKey Adapter.name refreshAdapter newAdapter info.adapters (adapterRows m) :=
  handle_rows adapters_lawful info.adapters m

def refreshService (din cur : Service) : Service :=
  { cur with state := din.state, enabled := din.enabled, displayName := din.displayName }

theorem copyService_eq (din cur : Service) : copyService din cur = refreshService din cur := by
  unfold copyService refreshService
  congr 1 <;> split <;> simp_all

theorem services_lawful :
    Lawful services ServiceModel.updates Service.id refreshService id where
  keeps := ⟨fun _ => rfl, fun _ _ h => h⟩
  rowCount _ := rfl
  key _ _ := rfl
  removeRow a m := eraseAt_one a m.updates
  update a din m := by
    change m.updates.modify a (copyService din) = _
    congr 1
    funext cur
    exact copyService_eq din cur
  append din m := by
    have hu : (m.insertRows m.updates.length 1).updates = m.updates++[blankService] :=
      insertAt_end _ _
    have hlen : (m.updates++[blankService]).length-1 = m.updates.length := by simp
    change ((m.insertRows m.updates.length 1).updates.modify
      ((m.insertRows m.updates.length 1).updates.length-1) fun _ => din) = _
    rw [hu, hlen, modify_last]
    rfl

theorem services_keeps : KeepsKey Service.id Service.id refreshService id := services_lawful.keeps

theorem handleServices_rows (info : Services) (m : ServiceModel) :
    (handleServices info m).updates =
      reconcile Service.id Service.id refreshService id info.services m.updates :=
  handle_rows services_lawful info.services m

end Bakaneko.TableRows
