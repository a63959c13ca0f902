import Bakaneko.RowModels
import Bakaneko.ServerList
import Bakaneko.Library.Mirror
import Bakaneko.Library.PartialRun

/-!
# What the models announce to their views

`beginInsertRows` and `beginRemoveRows` take the first and the last row. The
models pass `row` and `row + count`, one row too many, the list of service
types announces two rows for one, and a server is appended only after the end
of the change was reported. Removing a server is the one change that is
announced as it happens.
-/

set_option autoImplicit false

namespace Bakaneko.RowSignals
open Bakaneko.Native Bakaneko.Messages Bakaneko.RowModels Bakaneko.ServerList Mirror PartialRun

/-- A call of `insertRows` or `removeRows`. -/
inductive Edit where
  | insertRows (row count : ℕ)
  | removeRows (row count : ℕ)
  deriving DecidableEq, Repr

def edit {M : Type} (insert remove : ℕ → ℕ → M → M) : Edit → Script M
  | .insertRows row count => ⟨.insert row (row+count), insert row count, id⟩
  | .removeRows row count => ⟨.remove row (row+count), remove row count, id⟩

def adapterModel : Edit → Script AdapterModel :=
  edit AdapterModel.insertRows AdapterModel.removeRows

def drivesModel : Edit → Script DrivesModel :=
  edit DrivesModel.insertRows DrivesModel.removeRows

def partitionModel : Edit → Script PartitionModel :=
  edit PartitionModel.insertRows PartitionModel.removeRows

def updateModel : Edit → Script UpdateModel :=
  edit UpdateModel.insertRows UpdateModel.removeRows

def serviceModel : Edit → Script ServiceModel :=
  edit ServiceModel.insertRows ServiceModel.removeRows

def addItem (item : Bytes) (items : List Bytes) : Script (List Bytes) :=
  ⟨.insert items.length (items.length+1), fun items => items++[item], id⟩

/-- `beginRowAppend` and `endRowAppend` stand in front of the `push_back`. -/
def appendServer (temp : Entry) (servers : List Entry) : Script (List Entry) :=
  ⟨.insert servers.length servers.length, id, fun servers => servers++[temp]⟩

def removeServer (index : ℕ) : Script (List Entry) :=
  ⟨.remove index index, fun servers => servers.eraseIdx index, id⟩

/-- The seven models, each with a view that follows it. -/
structure Models where
  adapters : Watched AdapterModel Adapter
  drives : Watched DrivesModel Drive
  partitions : Watched PartitionModel Partition
  updates : Watched UpdateModel Update
  services : Watched ServiceModel Service
  serviceTypes : Watched (List Bytes) Bytes
  servers : Watched (List Entry) Entry

inductive Change where
  | adapters (e : Edit)
  | drives (e : Edit)
  | partitions (e : Edit)
  | updates (e : Edit)
  | services (e : Edit)
  | addItem (item : Bytes)
  | appendServer (temp : Entry)
  | removeServer (index : ℕ)

/-- The iterators of the change lie inside the vector. -/
def Edit.inside (rowCount : ℕ) : Edit → Bool
  | .insertRows row _ => row ≤ rowCount
  | .removeRows row count => row+count ≤ rowCount

def change : Change → Models → Except Undefined Models
  | .adapters e, s =>
    if e.inside s.adapters.model.updates.length then
      .ok { s with adapters := perform AdapterModel.updates (adapterModel e) s.adapters }
    else .error .pastEnd
  | .drives e, s =>
    if e.inside s.drives.model.updates.length then
      .ok { s with drives := perform DrivesModel.updates (drivesModel e) s.drives }
    else .error .pastEnd
  | .partitions e, s =>
    if e.inside s.partitions.model.updates.length then
      .ok { s with partitions := perform PartitionModel.updates (partitionModel e) s.partitions }
    else .error .pastEnd
  | .updates e, s =>
    if e.inside s.updates.model.updates.length then
      .ok { s with updates := perform UpdateModel.updates (updateModel e) s.updates }
    else .error .pastEnd
  | .services e, s =>
    if e.inside s.services.model.updates.length then
      .ok { s with services := perform ServiceModel.updates (serviceModel e) s.services }
    else .error .pastEnd
  | .addItem item, s =>
    .ok { s with
      serviceTypes := perform id (addItem item s.serviceTypes.model) s.serviceTypes }
  | .appendServer temp, s =>
    .ok { s with servers := perform id (appendServer temp s.servers.model) s.servers }
  | .removeServer index, s =>
    if index < s.servers.model.length then
      .ok { s with servers := perform id (removeServer index) s.servers }
    else .error .pastEnd

/-- Every view shows its model, and every change so far was announced exactly. -/
structure Synchronised (s : Models) : Prop where
  adapters : Follows AdapterModel.updates s.adapters
  drives : Follows DrivesModel.updates s.drives
  partitions : Follows PartitionModel.updates s.partitions
  updates : Follows UpdateModel.updates s.updates
  services : Follows ServiceModel.updates s.services
  serviceTypes : Follows id s.serviceTypes
  servers : Follows id s.servers

/-- A change that is carried out is the removal of a server. -/
def OnlyRemoves : Change → Models → Prop
  | .removeServer _, _ => True
  | c, s => ∀ t, change c s ≠ .ok t

section
variable {M ρ : Type} (rows : M → List ρ) (insert remove : ℕ → ℕ → M → M)

/-- `row` and `row + count` are one row more than `count`. -/
theorem edit_inexact
    (hi : ∀ row count m, (rows (insert row count m)).length = (rows m).length+count)
    (hr : ∀ row count m, rows (remove row count m) = eraseAt row count (rows m))
    (e : Edit) (w : Watched M ρ) (hin : e.inside (rows w.model).length = true) :
    ¬ Follows rows (perform rows (edit insert remove e) w) := by
  intro h
  have he := perform_exact _ w h
  cases e with
  | insertRows row count =>
    obtain ⟨-, -, hend, -⟩ := he
    have hlen := hi row count w.model
    dsimp only [edit] at hend
    omega
  | removeRows row count =>
    obtain ⟨-, hlast, hend, -⟩ := he
    dsimp only [edit] at hend hlast
    rw [hr, eraseAt_length] at hend
    omega

end

theorem addItem_inexact (item : Bytes) (w : Watched (List Bytes) Bytes) :
    ¬ Follows id (perform id (addItem item w.model) w) := by
  intro h
  obtain ⟨-, -, hend, -⟩ := perform_exact _ w h
  simp only [addItem, id, List.length_append, List.length_singleton] at hend
  omega

theorem appendServer_inexact (temp : Entry) (w : Watched (List Entry) Entry) :
    ¬ Follows id (perform id (appendServer temp w.model) w) := by
  intro h
  obtain ⟨-, -, hend, -⟩ := perform_exact _ w h
  simp only [appendServer, id] at hend
  omega

theorem removeServer_follows (index : ℕ) (w : Watched (List Entry) Entry) (hw : Follows id w)
    (hi : index < w.model.length) : Follows id (perform id (removeServer index) w) := by
  apply perform_follows (removeServer index) w hw rfl
  refine ⟨le_rfl, hi, ?_, List.eraseIdx_eq_take_drop_succ _ _⟩
  simp only [removeServer, id, List.length_eraseIdx, hi, if_true]
  omega

/-- The guard of a change that is carried out holds. -/
theorem of_guard {p : Bool} {s t : Models}
    (h : (if p then .ok s else .error .pastEnd : Except Undefined Models) = .ok t) :
    p = true ∧ s = t := by
  cases p with
  | false => cases h
  | true => exact ⟨rfl, Except.ok.inj h⟩

theorem change_inexact (c : Change) (s t : Models) (h : change c s = .ok t)
    (hc : ∀ index, c ≠ .removeServer index) : ¬ Synchronised t := by
  intro ht
  cases c with
  | adapters e =>
    obtain ⟨hin, rfl⟩ := of_guard h
    exact edit_inexact _ _ _ (fun _ _ _ => insertAt_length _ _ _ _) (fun _ _ _ => rfl) e _ hin
      ht.adapters
  | drives e =>
    obtain ⟨hin, rfl⟩ := of_guard h
    exact edit_inexact _ _ _ (fun _ _ _ => insertAt_length _ _ _ _) (fun _ _ _ => rfl) e _ hin
      ht.drives
  | partitions e =>
    obtain ⟨hin, rfl⟩ := of_guard h
    exact edit_inexact _ _ _ (fun _ _ _ => insertAt_length _ _ _ _) (fun _ _ _ => rfl) e _ hin
      ht.partitions
  | updates e =>
    obtain ⟨hin, rfl⟩ := of_guard h
    exact edit_inexact _ _ _ (fun _ _ _ => insertAt_length _ _ _ _) (fun _ _ _ => rfl) e _ hin
      ht.updates
  | services e =>
    obtain ⟨hin, rfl⟩ := of_guard h
    exact edit_inexact _ _ _ (fun _ _ _ => insertAt_length _ _ _ _) (fun _ _ _ => rfl) e _ hin
      ht.services
  | addItem item =>
    cases h
    exact addItem_inexact item s.serviceTypes ht.serviceTypes
  | appendServer temp =>
    cases h
    exact appendServer_inexact temp s.servers ht.servers
  | removeServer index => exact hc index rfl

theorem change_synchronised (c : Change) (s : Models) (hs : Synchronised s) :
    OnlyRemoves c s ↔ ∀ t, change c s = .ok t → Synchronised t := by
  by_cases hc : ∀ index, c ≠ .removeServer index
  · have hnone : OnlyRemoves c s ↔ ∀ t, change c s ≠ .ok t := by
      cases c with
      | removeServer index => exact absurd rfl (hc index)
      | _ => exact Iff.rfl
    rw [hnone]
    constructor
    · exact fun h t ht => absurd ht (h t)
    · exact fun h t ht => change_inexact c s t ht hc (h t ht)
  · obtain ⟨index, rfl⟩ := not_forall_not.mp hc
    refine iff_of_true trivial fun t ht => ?_
    rw [change] at ht
    by_cases hi : index < s.servers.model.length
    · rw [if_pos hi] at ht
      cases ht
      exact { hs with servers := removeServer_follows index s.servers hs.servers hi }
    · rw [if_neg hi] at ht
      cases ht

/-- Along a sequence of changes the views stay right, and the announcements
exact, as long as no change but the removal of a server is carried out. -/
theorem views_synchronised_iff (changes : List Change) (s : Models) (hs : Synchronised s) :
    Always change Synchronised changes s ↔ Meets change OnlyRemoves changes s :=
  always_iff_meets change Synchronised (fun _ => True) OnlyRemoves (fun _ _ _ _ _ => trivial)
    (fun c s _ hs => change_synchronised c s hs) changes s trivial hs

def watch {M ρ : Type} (rows : M → List ρ) (model : M) : Watched M ρ :=
  ⟨model, (rows model).map some, []⟩

theorem watch_follows {M ρ : Type} (rows : M → List ρ) (model : M) :
    Follows rows (watch rows model) := ⟨rfl, fun _ h => by cases h⟩

/-- Empty tables and a list of servers, each shown by its view. -/
def shown (servers : List Entry) : Models where
  adapters := watch AdapterModel.updates .empty
  drives := watch DrivesModel.updates .empty
  partitions := watch PartitionModel.updates {}
  updates := watch UpdateModel.updates {}
  services := watch ServiceModel.updates {}
  serviceTypes := watch id []
  servers := watch id servers

theorem shown_synchronised (servers : List Entry) : Synchronised (shown servers) :=
  ⟨watch_follows _ _, watch_follows _ _, watch_follows _ _, watch_follows _ _, watch_follows _ _,
    watch_follows _ _, watch_follows _ _⟩

def twoServers : Models := shown [⟨bytes "a", [], []⟩, ⟨bytes "b", [], []⟩]

/-- Both servers are removed, the first one first. -/
theorem views_synchronised_removals :
    Always change Synchronised [.removeServer 0, .removeServer 0] twoServers :=
  (views_synchronised_iff [.removeServer 0, .removeServer 0] twoServers
    (shown_synchronised _)).mpr ⟨trivial, fun _ _ => ⟨trivial, fun _ _ => trivial⟩⟩

/-- The first adapter of an empty table: rows 0 and 1 are announced, one comes. -/
theorem adapter_row_misannounced :
    Synchronised (shown []) ∧
      ¬ Always change Synchronised [.adapters (.insertRows 0 1)] (shown []) := by
  refine ⟨shown_synchronised [], fun h => ?_⟩
  exact change_inexact (.adapters (.insertRows 0 1)) (shown []) _ rfl (fun _ => by simp)
    (h.2 _ rfl)

end Bakaneko.RowSignals
