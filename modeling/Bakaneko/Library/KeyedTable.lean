import Mathlib.Data.List.Basic
import Mathlib.Data.List.Nodup
import Mathlib.Tactic.Common

/-!
# Tables that make the row they are asked for

A table is a list of rows searched from the front by a key. Asking for a key
that no row has makes a new row at the end, and what is done with the row
that is found or made leaves every other key as it was.
-/

set_option autoImplicit false

namespace KeyedTable

variable {ρ κ : Type*} [DecidableEq κ]

def row? (key : ρ → κ) (k : κ) (rows : List ρ) : Option ρ := rows.find? fun r => key r = k

/-- `f` on the first row with the key `k`, made when there is none. -/
def alter (key : ρ → κ) (make : κ → ρ) (k : κ) (f : ρ → ρ) : List ρ → List ρ
  | [] => [f (make k)]
  | r::rest => if key r = k then f r::rest else r::alter key make k f rest

/-- A new row has the key it was made for, and `f` leaves a key alone. -/
structure KeepsKey (key : ρ → κ) (make : κ → ρ) (f : ρ → ρ) : Prop where
  make : ∀ k, key (make k) = k
  keep : ∀ r, key (f r) = key r

variable {key : ρ → κ} {make : κ → ρ} {f : ρ → ρ}

theorem row?_cons (k : κ) (r : ρ) (rows : List ρ) :
    row? key k (r::rows) = if key r = k then some r else row? key k rows := by
  by_cases hr : key r = k <;> simp [row?, hr]

theorem row?_key (k : κ) (rows : List ρ) (r : ρ) (h : row? key k rows = some r) : key r = k := by
  simpa using List.find?_some h

theorem row?_mem (k : κ) (rows : List ρ) (r : ρ) (h : row? key k rows = some r) : r ∈ rows :=
  List.mem_of_find?_eq_some h

theorem row?_isSome (k : κ) (rows : List ρ) : (row? key k rows).isSome ↔ k ∈ rows.map key := by
  simp [row?, List.find?_isSome]

theorem row?_eq_some (k : κ) (rows : List ρ) (r : ρ) (hd : (rows.map key).Nodup) :
    row? key k rows = some r ↔ r ∈ rows ∧ key r = k := by
  constructor
  · exact fun h => ⟨row?_mem k rows r h, row?_key k rows r h⟩
  · rintro ⟨hr, rfl⟩
    cases hf : row? key (key r) rows with
    | none => simpa [row?] using List.find?_eq_none.mp hf r hr
    | some r' =>
      have hmem := row?_mem _ rows r' hf
      rw [List.inj_on_of_nodup_map hd hmem hr (row?_key _ rows r' hf)]

/-- Distinct keys are found in any order of the rows. -/
theorem row?_perm (k : κ) (rows rows' : List ρ) (hd : (rows.map key).Nodup)
    (h : rows.Perm rows') : row? key k rows = row? key k rows' := by
  ext r
  rw [row?_eq_some k rows r hd, row?_eq_some k rows' r ((h.map key).nodup_iff.mp hd), h.mem_iff]

theorem row?_map (g : ρ → ρ) (hg : ∀ r, key (g r) = key r) (k : κ) (rows : List ρ) :
    row? key k (rows.map g) = (row? key k rows).map g := by
  simp only [row?, List.find?_map, Function.comp_def, hg]

theorem alter_keys (h : KeepsKey key make f) (k : κ) (rows : List ρ) :
    (alter key make k f rows).map key =
      if k ∈ rows.map key then rows.map key else rows.map key++[k] := by
  induction rows with
  | nil => simp [alter, h.make, h.keep]
  | cons r rest ih =>
    rw [alter]
    by_cases hr : key r = k
    · simp [hr, h.keep]
    · rw [if_neg hr, List.map_cons, ih]
      by_cases hk : k ∈ rest.map key
      · simp [hk]
      · simp [hk, Ne.symm hr]

theorem alter_nodup (h : KeepsKey key make f) (k : κ) (rows : List ρ) (hd : (rows.map key).Nodup) :
    ((alter key make k f rows).map key).Nodup := by
  rw [alter_keys h]
  split
  · exact hd
  · next hk => exact List.Nodup.append hd (List.nodup_singleton k) (by simpa using hk)

/-- The altered row under its key, the old rows under the others. -/
theorem row?_alter (h : KeepsKey key make f) (k k' : κ) (rows : List ρ) :
    row? key k' (alter key make k f rows) =
      if k' = k then some (f ((row? key k rows).getD (make k))) else row? key k' rows := by
  induction rows with
  | nil =>
    rw [alter, row?_cons, h.keep, h.make]
    simp [row?, eq_comm]
  | cons r rest ih =>
    rw [alter]
    by_cases hr : key r = k
    · rw [if_pos hr, row?_cons, h.keep, hr, row?_cons, row?_cons, hr]
      by_cases hk : k' = k
      · simp [hk]
      · simp [hk, Ne.symm hk]
    · rw [if_neg hr, row?_cons, ih, row?_cons k, if_neg hr, row?_cons k']
      by_cases hk : k' = k
      · simp [hk, hr]
      · simp [hk]

/-- What holds of every row and of the new one holds afterwards. -/
theorem alter_forall (P : ρ → Prop) (k : κ) (rows : List ρ) (hmake : P (make k))
    (hf : ∀ r, P r → P (f r)) (h : ∀ r ∈ rows, P r) : ∀ r ∈ alter key make k f rows, P r := by
  induction rows with
  | nil => simpa [alter] using hf _ hmake
  | cons r rest ih =>
    have hrest : ∀ s ∈ rest, P s := fun s hs => h s (List.mem_cons_of_mem r hs)
    rw [alter]
    split
    · exact List.forall_mem_cons.mpr ⟨hf r (h r List.mem_cons_self), hrest⟩
    · exact List.forall_mem_cons.mpr ⟨h r List.mem_cons_self, ih hrest⟩

end KeyedTable
