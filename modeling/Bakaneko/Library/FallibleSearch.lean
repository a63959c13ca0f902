import Mathlib.Data.List.TakeWhile
import Mathlib.Tactic.Common

/-!
# A search whose visits may fail

A search visits the elements in order until it finds something. It fails when
a visit in front of the first find does.
-/

set_option autoImplicit false

namespace FallibleSearch

variable {α β ε : Type*} (visit : α → Except ε (Option β))

def search : List α → Except ε (Option β)
  | [] => .ok none
  | a::as => match visit a with
    | .error e => .error e
    | .ok (some b) => .ok (some b)
    | .ok none => search as

/-- What a visit finds when it does not fail. -/
def found (a : α) : Option β :=
  match visit a with
  | .error _ => none
  | .ok r => r

/-- No visit fails in front of the first find. -/
def Clear (as : List α) : Prop :=
  ∀ a ∈ as.takeWhile fun a => (found visit a).isNone, ∃ r, visit a = .ok r

theorem search_ok (as : List α) (r : Option β) :
    search visit as = .ok r ↔ Clear visit as ∧ as.findSome? (found visit) = r := by
  induction as with
  | nil => simp [search, Clear]
  | cons a as ih =>
    cases ha : visit a with
    | error e =>
      have hnone : found visit a = none := by rw [found, ha]
      simp [search, Clear, ha, hnone]
    | ok o =>
      have hsome : found visit a = o := by rw [found, ha]
      cases o with
      | some b => simp [search, Clear, ha, hsome]
      | none =>
        rw [search, ha, List.findSome?_cons, hsome]
        refine ih.trans (and_congr_left' ?_)
        simp [Clear, ha, hsome]

/-- A search that finds nothing has visited everything. -/
theorem clear_none (as : List α) (h : as.findSome? (found visit) = none) :
    Clear visit as ↔ ∀ a ∈ as, ∃ r, visit a = .ok r := by
  have hall : as.takeWhile (fun a => (found visit a).isNone) = as := by
    rw [List.takeWhile_eq_self_iff]
    intro a ha
    rw [List.findSome?_eq_none_iff.mp h a ha]
    rfl
  rw [Clear, hall]

end FallibleSearch
