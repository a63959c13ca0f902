import Mathlib.Data.List.Induction
import Mathlib.Tactic.Common

/-!
# Rows that grow by writing

Writing behind the end of a row fills the gap with blanks. A row built by
writes alone is therefore as long as the last column written, and each of
its cells holds what was written there last, or a blank.
-/

set_option autoImplicit false

namespace PaddedRow

variable {α : Type*} (blank : α)

def put (row : List α) (x : ℕ) (c : α) : List α :=
  if x < row.length then row.set x c
  else row++List.replicate (x-row.length) blank++[c]

theorem put_length (row : List α) (x : ℕ) (c : α) :
    (put blank row x c).length = max row.length (x+1) := by
  unfold put
  split
  · rw [List.length_set]
    omega
  · simp only [List.length_append, List.length_replicate, List.length_singleton]
    omega

theorem put_getElem? (row : List α) (x : ℕ) (c : α) (i : ℕ) :
    (put blank row x c)[i]? =
      if i = x then some c else if row.length ≤ i ∧ i < x then some blank else row[i]? := by
  unfold put
  split
  case isTrue hx =>
    rw [List.getElem?_set]
    by_cases hi : i = x
    · simp [hi, hx]
    · rw [if_neg (Ne.symm hi), if_neg hi, if_neg (by omega)]
  case isFalse hx =>
    have hpad : (row++List.replicate (x-row.length) blank).length = x := by
      rw [List.length_append, List.length_replicate]
      omega
    by_cases hi : i = x
    · rw [if_pos hi, hi, List.getElem?_append_right (by omega), hpad, Nat.sub_self]
      rfl
    · rw [if_neg hi, List.getElem?_append, hpad]
      split
      · by_cases hr : i < row.length
        · rw [List.getElem?_append_left hr, if_neg (by omega)]
        · rw [List.getElem?_append_right (by omega), if_pos (by omega),
            List.getElem?_replicate_of_lt (by omega)]
      · rw [List.getElem?_eq_none (by simp; omega), if_neg (by omega),
          List.getElem?_eq_none (by omega)]

/-- Cells written one behind the other. -/
def putAll : List α → ℕ → List α → List α
  | row, _, [] => row
  | row, x, c::cs => putAll (put blank row x c) (x+1) cs

theorem putAll_length (row : List α) (x : ℕ) (cs : List α) :
    (putAll blank row x cs).length = if cs = [] then row.length else max row.length (x+cs.length) := by
  induction cs generalizing row x with
  | nil => rfl
  | cons c cs ih =>
    rw [putAll, ih, put_length, if_neg (List.cons_ne_nil c cs), List.length_cons]
    split
    case isTrue h => simp [h]
    case isFalse => omega

theorem putAll_getElem? (row : List α) (x : ℕ) (cs : List α) (i : ℕ) :
    (putAll blank row x cs)[i]? =
      if x ≤ i ∧ i < x+cs.length then cs[i-x]?
      else if row.length ≤ i ∧ i < x ∧ cs ≠ [] then some blank else row[i]? := by
  induction cs generalizing row x with
  | nil => rw [putAll, if_neg (by simp), if_neg (by simp)]
  | cons c cs ih =>
    rw [putAll, ih, put_length, put_getElem?, List.length_cons]
    by_cases hx : i = x
    · subst hx
      rw [if_neg (by omega), if_neg (by omega), if_pos rfl, if_pos (by omega), Nat.sub_self]
      rfl
    · by_cases hin : x+1 ≤ i ∧ i < x+1+cs.length
      · rw [if_pos hin, if_pos (by omega), show i-x = (i-(x+1))+1 by omega, List.getElem?_cons_succ]
      · have hbehind : ¬ (max row.length (x+1) ≤ i ∧ i < x+1 ∧ cs ≠ []) := by omega
        have hout : ¬ (x ≤ i ∧ i < x+(cs.length+1)) := by omega
        rw [if_neg hin, if_neg hbehind, if_neg hx, if_neg hout]
        simp

/-- The row after a list of writes, each of a column and a cell. -/
def written (writes : List (ℕ × α)) : List α :=
  writes.foldl (fun row write => put blank row write.1 write.2) []

theorem written_append (writes : List (ℕ × α)) (x : ℕ) (c : α) :
    written blank (writes++[(x, c)]) = put blank (written blank writes) x c := by
  rw [written, List.foldl_append]
  rfl

/-- One more than the last column written. -/
def width (writes : List (ℕ × α)) : ℕ := (writes.map fun write => write.1+1).foldr max 0

theorem width_append (writes : List (ℕ × α)) (x : ℕ) (c : α) :
    width (writes++[(x, c)]) = max (width writes) (x+1) := by
  induction writes with
  | nil => simp [width]
  | cons write writes ih =>
    have hcons : ∀ ws : List (ℕ × α), width (write::ws) = max (write.1+1) (width ws) := fun _ => rfl
    rw [List.cons_append, hcons, hcons, ih, Nat.max_assoc]

/-- What was written last in a column. -/
def lastWrite (writes : List (ℕ × α)) (i : ℕ) : Option α :=
  ((writes.filter fun write => write.1 = i).getLast?).map Prod.snd

theorem lt_width (writes : List (ℕ × α)) (write : ℕ × α) (h : write ∈ writes) :
    write.1 < width writes := by
  induction writes with
  | nil => simp at h
  | cons first writes ih =>
    rw [show width (first::writes) = max (first.1+1) (width writes) from rfl]
    rcases List.mem_cons.mp h with rfl | hw
    · omega
    · exact Nat.lt_of_lt_of_le (ih hw) (Nat.le_max_right _ _)

theorem lastWrite_none (writes : List (ℕ × α)) (i : ℕ) (hi : width writes ≤ i) :
    lastWrite writes i = none := by
  have hnil : (writes.filter fun write => write.1 = i) = [] := by
    rw [List.filter_eq_nil_iff]
    intro write hw
    have := lt_width writes write hw
    simp
    omega
  rw [lastWrite, hnil]
  rfl

theorem lastWrite_append (writes : List (ℕ × α)) (x : ℕ) (c : α) (i : ℕ) :
    lastWrite (writes++[(x, c)]) i = if i = x then some c else lastWrite writes i := by
  rw [lastWrite, lastWrite, List.filter_append]
  by_cases hi : i = x
  · simp [hi]
  · simp [hi, Ne.symm hi]

theorem written_length (writes : List (ℕ × α)) :
    (written blank writes).length = width writes := by
  induction writes using List.reverseRecOn with
  | nil => rfl
  | append_singleton writes write ih => rw [written_append, put_length, ih, width_append]

/-- The last write to a column wins. -/
theorem written_getElem? (writes : List (ℕ × α)) (i : ℕ) (hi : i < width writes) :
    (written blank writes)[i]? = some ((lastWrite writes i).getD blank) := by
  induction writes using List.reverseRecOn with
  | nil => simp [width] at hi
  | append_singleton writes write ih =>
    rw [written_append, put_getElem?, lastWrite_append, written_length]
    rw [width_append] at hi
    by_cases hx : i = write.1
    · simp [hx]
    · rw [if_neg hx, if_neg hx]
      by_cases hgap : width writes ≤ i
      · rw [if_pos (by omega), lastWrite_none writes i hgap]
        rfl
      · rw [if_neg (by omega)]
        exact ih (by omega)

end PaddedRow
