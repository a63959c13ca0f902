import Mathlib.Data.List.Basic
import Mathlib.Tactic.Common

/-!
# A view that follows announcements

A model announces which rows a change is about to insert or remove, changes
them, and reports the end. A view reads the announced rows at the end and
nothing else. If the announcement is exact, a view that showed the rows of
the model before shows them afterwards.
-/

set_option autoImplicit false

namespace Mirror

variable {M ρ : Type*}

/-- An inclusive range of rows. -/
inductive Announcement where
  | insert (first last : ℕ)
  | remove (first last : ℕ)
  deriving DecidableEq, Repr

/-- One change: what is announced, what is done before the end is reported,
and what is done behind it. -/
structure Script (M : Type*) where
  announced : Announcement
  inside : M → M
  behind : M → M

/-- The rows at the three moments of a change. -/
structure Bracket (ρ : Type*) where
  announced : Announcement
  before : List ρ
  atEnd : List ρ
  after : List ρ

/-- The announced range holds exactly the rows that come or go, and their
number is the difference of the row count at the end. -/
def Bracket.Exact (b : Bracket ρ) : Prop :=
  match b.announced with
  | .insert first last =>
    first ≤ last ∧ first ≤ b.before.length ∧
    b.atEnd.length = b.before.length+(last+1-first) ∧
    ∃ rows, rows.length = last+1-first ∧
      b.after = b.before.take first++rows++b.before.drop first
  | .remove first last =>
    first ≤ last ∧ last < b.before.length ∧
    b.atEnd.length+(last+1-first) = b.before.length ∧
    b.after = b.before.take first++b.before.drop (last+1)

/-- What the view shows after the end is reported; a row it cannot read is empty. -/
def mirror (now : List ρ) : Announcement → List (Option ρ) → List (Option ρ)
  | .insert first last, view =>
    view.take first++(List.range (last+1-first)).map (fun i => now[first+i]?)++view.drop first
  | .remove first last, view => view.take first++view.drop (last+1)

structure Watched (M ρ : Type*) where
  model : M
  view : List (Option ρ)
  brackets : List (Bracket ρ)

variable (rows : M → List ρ)

def perform (s : Script M) (w : Watched M ρ) : Watched M ρ :=
  let inside := s.inside w.model
  let after := s.behind inside
  { model := after
    view := mirror (rows inside) s.announced w.view
    brackets := ⟨s.announced, rows w.model, rows inside, rows after⟩::w.brackets }

/-- The view shows the rows of the model, and every change was announced exactly. -/
def Follows (w : Watched M ρ) : Prop :=
  w.view = (rows w.model).map some ∧ ∀ b ∈ w.brackets, b.Exact

variable {rows}

theorem mirror_insert (before now new : List ρ) (first last : ℕ) (hf : first ≤ before.length)
    (hnew : new.length = last+1-first) (hnow : now = before.take first++new++before.drop first) :
    mirror now (.insert first last) (before.map some) = now.map some := by
  have hlen : (before.take first).length = first := List.length_take_of_le hf
  have hread : (List.range (last+1-first)).map (fun i => now[first+i]?) = new.map some := by
    apply List.ext_getElem
    · simp [hnew]
    · intro i h _
      have hi : i < new.length := by simpa [hnew] using h
      have hget : now[first+i]? = new[i]? := by
        rw [hnow, List.append_assoc, List.getElem?_append_right (by omega), hlen,
          Nat.add_sub_cancel_left, List.getElem?_append_left hi]
      simp [hget, hi]
  rw [mirror, hread, hnow, List.map_append, List.map_append, List.map_take, List.map_drop]

/-- An exact change, finished when its end is reported, keeps the view right. -/
theorem perform_follows (s : Script M) (w : Watched M ρ) (hw : Follows rows w)
    (hs : s.behind (s.inside w.model) = s.inside w.model)
    (he : (⟨s.announced, rows w.model, rows (s.inside w.model),
      rows (s.inside w.model)⟩ : Bracket ρ).Exact) : Follows rows (perform rows s w) := by
  obtain ⟨hview, hbrackets⟩ := hw
  constructor
  · unfold perform
    dsimp only
    rw [hs, hview]
    cases ha : s.announced with
    | insert first last =>
      rw [ha] at he
      obtain ⟨-, hf, -, new, hnew, hafter⟩ := he
      exact mirror_insert _ _ new first last hf hnew hafter
    | remove first last =>
      rw [ha] at he
      obtain ⟨-, -, -, hafter⟩ := he
      rw [mirror, ← List.map_take, ← List.map_drop, ← List.map_append]
      exact congrArg _ hafter.symm
  · intro b hb
    cases hb with
    | head => exact hs.symm ▸ he
    | tail _ hb => exact hbrackets b hb

theorem perform_exact (s : Script M) (w : Watched M ρ) (h : Follows rows (perform rows s w)) :
    (⟨s.announced, rows w.model, rows (s.inside w.model),
      rows (s.behind (s.inside w.model))⟩ : Bracket ρ).Exact :=
  h.2 _ List.mem_cons_self

end Mirror
