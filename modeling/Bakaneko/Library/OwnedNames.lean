import Mathlib.Data.List.Basic
import Mathlib.Data.List.Nodup
import Mathlib.Data.List.TakeWhile
import Mathlib.Tactic.Common

/-!
# Names that come one after the other

Each name has a base. A name whose base came before it belongs to that base,
any other name to itself; the names that belong to themselves are the owners.
What belongs to a name is settled when it comes and not changed by the names
behind it.
-/

set_option autoImplicit false

namespace OwnedNames

variable {α : Type*} [DecidableEq α] (base : α → α) (counts : α → Bool)

def ownerOf (names : List α) (n : α) : α :=
  if base n ∈ names.takeWhile (· ≠ n) then base n else n

def owners (names : List α) : List α := names.filter fun n => ownerOf base names n = n

/-- The names that count among those that belong to an owner. -/
def membersOf (names : List α) (owner : α) : List α :=
  names.filter fun n => counts n && decide (ownerOf base names n = owner)

variable {base counts}

omit [DecidableEq α] in
theorem takeWhile_old {p : α → Bool} (names : List α) (n m : α) (hm : m ∈ names)
    (hp : p m = false) : (names++[n]).takeWhile p = names.takeWhile p := by
  induction names with
  | nil => cases hm
  | cons k names ih =>
    rw [List.cons_append, List.takeWhile_cons, List.takeWhile_cons]
    cases hk : p k with
    | false => rfl
    | true =>
      rcases List.mem_cons.mp hm with rfl | hm
      · rw [hp] at hk
        cases hk
      · simp only [if_true, ih hm]

theorem takeWhile_new (names : List α) (n : α) (hn : n ∉ names) :
    (names++[n]).takeWhile (· ≠ n) = names := by
  have hall : ∀ m ∈ names, decide (m ≠ n) = true :=
    fun m hm => decide_eq_true fun he => hn (he ▸ hm)
  rw [List.takeWhile_append_of_pos hall]
  simp

theorem ownerOf_old (names : List α) (n m : α) (hm : m ∈ names) :
    ownerOf base (names++[n]) m = ownerOf base names m := by
  rw [ownerOf, takeWhile_old names n m hm (by simp), ownerOf]

theorem ownerOf_new (names : List α) (n : α) (hn : n ∉ names) :
    ownerOf base (names++[n]) n = if base n ∈ names then base n else n := by
  rw [ownerOf, takeWhile_new names n hn]

theorem owners_append (names : List α) (n : α) (hn : n ∉ names) :
    owners base (names++[n]) = owners base names++if base n ∈ names then [] else [n] := by
  have hold : (names.filter fun m => ownerOf base (names++[n]) m = m) = owners base names :=
    List.filter_congr fun m hm => by rw [ownerOf_old names n m hm]
  rw [owners, List.filter_append, hold, List.filter_singleton, ownerOf_new names n hn]
  by_cases hb : base n ∈ names
  · have hne : base n ≠ n := fun he => hn (he ▸ hb)
    simp [hb, hne]
  · simp [hb]

theorem membersOf_append (names : List α) (n owner : α) :
    membersOf base counts (names++[n]) owner = membersOf base counts names owner++
      if counts n = true ∧ ownerOf base (names++[n]) n = owner then [n] else [] := by
  have hold : (names.filter fun m => counts m && decide (ownerOf base (names++[n]) m = owner)) =
      membersOf base counts names owner :=
    List.filter_congr fun m hm => by rw [ownerOf_old names n m hm]
  rw [membersOf, List.filter_append, hold, List.filter_singleton]
  simp

theorem mem_owners (names : List α) (n : α) :
    n ∈ owners base names ↔ n ∈ names ∧ ownerOf base names n = n := by
  simp [owners]

theorem ownerOf_mem (names : List α) (n : α) (hn : n ∈ names) : ownerOf base names n ∈ names := by
  unfold ownerOf
  split
  · next hb => exact (List.takeWhile_prefix _).subset hb
  · exact hn

/-- Nothing belongs to a name that has not come. -/
theorem membersOf_absent (names : List α) (owner : α) (h : owner ∉ names) :
    membersOf base counts names owner = [] := by
  rw [membersOf, List.filter_eq_nil_iff]
  intro n hn
  simp only [Bool.and_eq_true, decide_eq_true_eq, not_and]
  exact fun _ he => h (he ▸ ownerOf_mem names n hn)

/-- A name that is its own base is an owner. -/
theorem base_owner (names : List α) (n : α) (hn : n ∈ names) (hb : base n = n) :
    n ∈ owners base names := by
  rw [mem_owners, ownerOf, if_neg]
  · exact ⟨hn, rfl⟩
  · rw [hb]
    intro h
    simpa using List.mem_takeWhile_imp h

end OwnedNames
