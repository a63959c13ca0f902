import Bakaneko.Messages

/-!
# The models behind the tables

Every table of a server's page is a model over one vector of records. Two of
them keep a second vector beside it: the partitions of each drive, and the
counters an adapter had before. Rows are inserted and removed in both, so the
vectors never differ in length.
-/

set_option autoImplicit false

namespace Bakaneko.RowModels
open Bakaneko.Native Bakaneko.Messages

section
variable {α : Type*}

/-- `insert` of `count` copies in front of `row`, and `erase` of `count` elements. -/
def insertAt (row count : ℕ) (blank : α) (rows : List α) : List α :=
  rows.take row++List.replicate count blank++rows.drop row

def eraseAt (row count : ℕ) (rows : List α) : List α := rows.take row++rows.drop (row+count)

theorem insertAt_length (row count : ℕ) (blank : α) (rows : List α) :
    (insertAt row count blank rows).length = rows.length+count := by
  simp only [insertAt, List.length_append, List.length_take, List.length_replicate,
    List.length_drop]
  omega

theorem eraseAt_length (row count : ℕ) (rows : List α) :
    (eraseAt row count rows).length = min row rows.length+(rows.length-(row+count)) := by
  simp only [eraseAt, List.length_append, List.length_take, List.length_drop]

theorem insertAt_end (blank : α) (rows : List α) :
    insertAt rows.length 1 blank rows = rows++[blank] := by
  simp [insertAt]

theorem eraseAt_one (row : ℕ) (rows : List α) : eraseAt row 1 rows = rows.eraseIdx row :=
  (List.eraseIdx_eq_take_drop_succ rows row).symm

end

def blankDrive : Drive := ⟨[], 0, [], [], [], []⟩
def blankPartition : Partition := ⟨[], 0, 0, [], []⟩
def blankAdapter : Adapter := ⟨[], 0, 0, 0, [], [], 0, 0, 0⟩
def blankUpdate : Update := ⟨[], [], [], []⟩
def blankService : Service := ⟨[], .stopped, false, [], [], []⟩

structure PartitionModel where
  updates : List Partition := []
  deriving DecidableEq

def PartitionModel.insertRows (row count : ℕ) (m : PartitionModel) : PartitionModel :=
  ⟨insertAt row count blankPartition m.updates⟩

def PartitionModel.removeRows (row count : ℕ) (m : PartitionModel) : PartitionModel :=
  ⟨eraseAt row count m.updates⟩

structure DrivesModel where
  updates : List Drive := []
  partitions : List PartitionModel := []
  aligned : partitions.length = updates.length := by rfl
  deriving DecidableEq

def DrivesModel.empty : DrivesModel := {}

def DrivesModel.insertRows (row count : ℕ) (m : DrivesModel) : DrivesModel where
  updates := insertAt row count blankDrive m.updates
  partitions := insertAt row count {} m.partitions
  aligned := by rw [insertAt_length, insertAt_length, m.aligned]

def DrivesModel.removeRows (row count : ℕ) (m : DrivesModel) : DrivesModel where
  updates := eraseAt row count m.updates
  partitions := eraseAt row count m.partitions
  aligned := by rw [eraseAt_length, eraseAt_length, m.aligned]

structure AdapterModel where
  updates : List Adapter := []
  prevous : List Adapter := []
  aligned : prevous.length = updates.length := by rfl
  deriving DecidableEq

def AdapterModel.empty : AdapterModel := {}

def AdapterModel.insertRows (row count : ℕ) (m : AdapterModel) : AdapterModel where
  updates := insertAt row count blankAdapter m.updates
  prevous := insertAt row count blankAdapter m.prevous
  aligned := by rw [insertAt_length, insertAt_length, m.aligned]

def AdapterModel.removeRows (row count : ℕ) (m : AdapterModel) : AdapterModel where
  updates := eraseAt row count m.updates
  prevous := eraseAt row count m.prevous
  aligned := by rw [eraseAt_length, eraseAt_length, m.aligned]

structure ServiceModel where
  updates : List Service := []
  deriving DecidableEq

def ServiceModel.insertRows (row count : ℕ) (m : ServiceModel) : ServiceModel :=
  ⟨insertAt row count blankService m.updates⟩

def ServiceModel.removeRows (row count : ℕ) (m : ServiceModel) : ServiceModel :=
  ⟨eraseAt row count m.updates⟩

structure UpdateModel where
  updates : List Update := []
  deriving DecidableEq

def UpdateModel.insertRows (row count : ℕ) (m : UpdateModel) : UpdateModel :=
  ⟨insertAt row count blankUpdate m.updates⟩

def UpdateModel.removeRows (row count : ℕ) (m : UpdateModel) : UpdateModel :=
  ⟨eraseAt row count m.updates⟩

end Bakaneko.RowModels
