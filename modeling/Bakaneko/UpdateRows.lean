import Bakaneko.TableRows

/-!
# The rows of the updates

`handle_updates` gives its table as many rows as the message has updates and
goes through both by position. A row whose name stays is only compared in its
new version; the old version is left to what the row had.
-/

set_option autoImplicit false

namespace Bakaneko.UpdateRows
open Bakaneko.Native Bakaneko.Messages Bakaneko.RowModels

/-- The roles of `UpdateModel`. -/
inductive Role where
  | name
  | oldVersion
  | newVersion
  deriving DecidableEq, Repr

def field (role : Role) (u : Update) : Bytes :=
  match role with
  | .name => u.name
  | .oldVersion => u.oldVersion
  | .newVersion => u.newVersion

def setField (value : Bytes) (role : Role) (u : Update) : Update :=
  match role with
  | .name => { u with name := value }
  | .oldVersion => { u with oldVersion := value }
  | .newVersion => { u with newVersion := value }

def data (index : ℕ) (role : Role) (m : UpdateModel) : Option Bytes :=
  m.updates[index]?.map (field role)

def setData (index : ℕ) (value : Bytes) (role : Role) (m : UpdateModel) : UpdateModel :=
  ⟨m.updates.modify index (setField value role)⟩

def rowCount (m : UpdateModel) : ℕ := m.updates.length

/-- As many rows as the message has updates. -/
def resize (size : ℕ) (m : UpdateModel) : UpdateModel :=
  let m := if rowCount m < size then m.insertRows (rowCount m) (size-rowCount m) else m
  if size < rowCount m then m.removeRows size (rowCount m-size) else m

/-- The body of the loop over the updates. -/
def updateRow (m : UpdateModel) (entry : Update × ℕ) : UpdateModel :=
  let (u, a) := entry
  if data a .name m ≠ some u.name then
    setData a u.newVersion .newVersion (setData a u.oldVersion .oldVersion
      (setData a u.name .name m))
  else if data a .newVersion m ≠ some u.newVersion then setData a u.newVersion .newVersion m
  else m

def handleUpdates (info : Updates) (m : UpdateModel) : UpdateModel :=
  info.updates.zipIdx.foldl updateRow (resize info.updates.length m)

/-- What the handler makes of a row. -/
def settle (u r : Update) : Update :=
  if r.name ≠ u.name then
    { r with name := u.name, oldVersion := u.oldVersion, newVersion := u.newVersion }
  else { r with newVersion := u.newVersion }

/-- A row for each update of the message, which shows it. -/
def Shown (info : Updates) (m : UpdateModel) : Prop :=
  rowCount m = info.updates.length ∧ ∀ (i : ℕ) (u : Update), info.updates[i]? = some u →
    ∀ role, data i role m = some (field role u)

/-- Where the name of a row stays, its old version does too. -/
def NamesKeep (info : Updates) (m : UpdateModel) : Prop :=
  ∀ (i : ℕ) (u : Update), info.updates[i]? = some u →
    (m.updates[i]?.getD blankUpdate).name = u.name →
      (m.updates[i]?.getD blankUpdate).oldVersion = u.oldVersion

theorem insertAt_all (count : ℕ) (rows : List Update) :
    insertAt rows.length count blankUpdate rows = rows++List.replicate count blankUpdate := by
  simp [insertAt]

theorem eraseAt_all (size : ℕ) (rows : List Update) (h : size ≤ rows.length) :
    eraseAt size (rows.length-size) rows = rows.take size := by
  rw [eraseAt, Nat.add_sub_cancel' h, List.drop_length, List.append_nil]

theorem resize_updates (size : ℕ) (m : UpdateModel) : (resize size m).updates =
    m.updates.take size++List.replicate (size-m.updates.length) blankUpdate := by
  unfold resize rowCount
  by_cases hless : m.updates.length < size
  · have hlen : (m.updates++List.replicate (size-m.updates.length) blankUpdate).length = size := by
      rw [List.length_append, List.length_replicate, Nat.add_sub_cancel' (Nat.le_of_lt hless)]
    simp only [if_pos hless, UpdateModel.insertRows, insertAt_all, hlen, lt_irrefl, if_false,
      List.take_of_length_le (Nat.le_of_lt hless)]
  · have hle := Nat.not_lt.mp hless
    simp only [if_neg hless, UpdateModel.removeRows, eraseAt_all size m.updates hle,
      Nat.sub_eq_zero_of_le hle, List.replicate_zero, List.append_nil]
    split
    · rfl
    · next hmore => exact (List.take_of_length_le (Nat.not_lt.mp hmore)).symm

/-- A row that was there stays, the others are blank. -/
theorem resize_row (size : ℕ) (m : UpdateModel) (i : ℕ) (hi : i < size) :
    (resize size m).updates[i]? = some (m.updates[i]?.getD blankUpdate) := by
  rw [resize_updates]
  by_cases hrow : i < m.updates.length
  · rw [List.getElem?_append_left (by rw [List.length_take]; omega), List.getElem?_take_of_lt hi,
      List.getElem?_eq_getElem hrow]
    rfl
  · rw [List.getElem?_append_right (by rw [List.length_take]; omega), List.getElem?_replicate,
      List.length_take, if_pos (by omega), List.getElem?_eq_none (Nat.not_lt.mp hrow)]
    rfl

theorem resize_count (size : ℕ) (m : UpdateModel) : (resize size m).updates.length = size := by
  rw [resize_updates, List.length_append, List.length_take, List.length_replicate]
  omega

theorem updateRow_rows (u : Update) (a : ℕ) (m : UpdateModel) :
    (updateRow m (u, a)).updates = m.updates.modify a (settle u) := by
  have hdata (role : Role) (r : Update) (hr : r ∈ m.updates[a]?) :
      data a role m = some (field role r) := by
    rw [data, Option.mem_def.mp hr]
    rfl
  have hsame : m.updates.modify a id = m.updates := List.modify_id a m.updates
  simp only [updateRow]
  split
  · next hname =>
    simp only [setData, List.modify_modify_eq]
    refine TableRows.modify_congr _ _ _ _ fun r hr => ?_
    have hne : r.name ≠ u.name := fun he => hname ((hdata .name r hr).trans (congrArg some he))
    rw [settle, if_pos hne]
    rfl
  · next hname =>
    have hkeep (r : Update) (hr : r ∈ m.updates[a]?) : r.name = u.name :=
      Option.some.inj ((hdata .name r hr).symm.trans (not_not.mp hname))
    split
    · refine TableRows.modify_congr _ _ _ _ fun r hr => ?_
      rw [settle, if_neg (not_not.mpr (hkeep r hr))]
      rfl
    · next hversion =>
      refine hsame.symm.trans (TableRows.modify_congr _ a id (settle u) fun r hr => ?_)
      have hnew : r.newVersion = u.newVersion :=
        Option.some.inj ((hdata .newVersion r hr).symm.trans (not_not.mp hversion))
      rw [settle, if_neg (not_not.mpr (hkeep r hr)), ← hnew]
      rfl

theorem updateRows_front (us : List Update) (k : ℕ) (m : UpdateModel) (i : ℕ) (hi : i < k) :
    ((us.zipIdx k).foldl updateRow m).updates[i]? = m.updates[i]? := by
  induction us generalizing k m with
  | nil => rfl
  | cons u us ih =>
    rw [List.zipIdx_cons, List.foldl_cons, ih _ _ (Nat.lt_succ_of_lt hi), updateRow_rows,
      List.getElem?_modify_ne _ _ (Nat.ne_of_gt hi)]

/-- Every row is settled by the update at its place. -/
theorem updateRows_row (us : List Update) (k : ℕ) (m : UpdateModel) (i : ℕ) (u : Update)
    (hu : us[i]? = some u) :
    ((us.zipIdx k).foldl updateRow m).updates[k+i]? = m.updates[k+i]?.map (settle u) := by
  induction us generalizing k m i with
  | nil => cases hu
  | cons v us ih =>
    rw [List.zipIdx_cons, List.foldl_cons]
    cases i with
    | zero =>
      cases hu
      change ((us.zipIdx (k+1)).foldl updateRow (updateRow m (u, k))).updates[k]? = _
      rw [updateRows_front us (k+1) _ k (Nat.lt_succ_self k), updateRow_rows,
        List.getElem?_modify_eq]
      rfl
    | succ i =>
      have hplace : k+(i+1) = k+1+i := by omega
      rw [hplace, ih (k+1) _ i hu, updateRow_rows, List.getElem?_modify_ne _ _ (by omega)]

theorem updateRows_count (us : List Update) (k : ℕ) (m : UpdateModel) :
    ((us.zipIdx k).foldl updateRow m).updates.length = m.updates.length := by
  induction us generalizing k m with
  | nil => rfl
  | cons u us ih => rw [List.zipIdx_cons, List.foldl_cons, ih, updateRow_rows, List.length_modify]

theorem handleUpdates_row (info : Updates) (m : UpdateModel) (i : ℕ) (u : Update)
    (hu : info.updates[i]? = some u) :
    (handleUpdates info m).updates[i]? = some (settle u (m.updates[i]?.getD blankUpdate)) := by
  have hrow := updateRows_row info.updates 0 (resize info.updates.length m) i u hu
  have hi : i < info.updates.length := (List.getElem?_eq_some_iff.mp hu).1
  rw [Nat.zero_add, resize_row _ _ _ hi] at hrow
  exact hrow

theorem settle_shows (u r : Update) :
    (∀ role, field role (settle u r) = field role u) ↔
      (r.name = u.name → r.oldVersion = u.oldVersion) := by
  unfold settle
  split
  · next hne =>
    refine iff_of_true (fun role => ?_) fun he => absurd he hne
    cases role <;> rfl
  · next he =>
    have hname := not_not.mp he
    constructor
    · exact fun h _ => h .oldVersion
    · intro h role
      cases role
      · exact hname
      · exact h hname
      · rfl

/-- The rows show the message exactly when none of them keeps its name with
another old version. -/
theorem handleUpdates_shown (info : Updates) (m : UpdateModel) :
    Shown info (handleUpdates info m) ↔ NamesKeep info m := by
  have hcount : rowCount (handleUpdates info m) = info.updates.length :=
    (updateRows_count _ _ _).trans (resize_count _ m)
  have hrow (i : ℕ) (u : Update) (hu : info.updates[i]? = some u) :
      (∀ role, data i role (handleUpdates info m) = some (field role u)) ↔
        ((m.updates[i]?.getD blankUpdate).name = u.name →
          (m.updates[i]?.getD blankUpdate).oldVersion = u.oldVersion) := by
    rw [← settle_shows]
    simp only [data, handleUpdates_row info m i u hu, Option.map_some, Option.some.injEq]
  constructor
  · exact fun h i u hu => (hrow i u hu).mp (h.2 i u hu)
  · exact fun h => ⟨hcount, fun i u hu => (hrow i u hu).mpr (h i u hu)⟩

/-- A package that was updated and has a new update: it is shown as one from
`1` to `3`. -/
theorem handleUpdates_stale : ∃ (info : Updates) (m : UpdateModel),
    info = ⟨[⟨[], [97], [50], [51]⟩]⟩ ∧ m = ⟨[⟨[], [97], [49], [50]⟩]⟩ ∧
      handleUpdates info m = ⟨[⟨[], [97], [49], [51]⟩]⟩ ∧ ¬ Shown info (handleUpdates info m) := by
  refine ⟨_, _, rfl, rfl, rfl, fun h => ?_⟩
  have hold := h.2 0 _ rfl .oldVersion
  revert hold
  decide

end Bakaneko.UpdateRows
