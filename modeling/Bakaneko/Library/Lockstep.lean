import Bakaneko.Library.PartialRun
import Mathlib.Data.List.Forall2

/-!
# Two machines in lockstep

Two machines read corresponding inputs. If each pair of steps either fails
on both sides with one error or leads to related states again, then so does
a pair of runs.
-/

set_option autoImplicit false

namespace Lockstep
open PartialRun

variable {ι κ σ τ ε : Type*}

/-- Both sides have failed alike, or both have reached related results. -/
def Matches {α β : Type*} (R : α → β → Prop) : Except ε α → Except ε β → Prop
  | .ok a, .ok b => R a b
  | .error e, .error f => e = f
  | _, _ => False

theorem Matches.map_left {α β α' : Type*} {R : α → β → Prop} {S : α' → β → Prop} (f : α → α')
    (hf : ∀ a b, R a b → S (f a) b) (x : Except ε α) (y : Except ε β) (h : Matches R x y) :
    Matches S (x.map f) y := by
  cases x <;> cases y
  case ok.ok a b => exact hf a b h
  all_goals exact h

/-- What related results have in common is the same on both sides. -/
theorem Matches.map_eq {α β γ : Type*} {R : α → β → Prop} (f : α → γ) (g : β → γ)
    (hfg : ∀ a b, R a b → f a = g b) (x : Except ε α) (y : Except ε β) (h : Matches R x y) :
    x.map f = y.map g := by
  cases x <;> cases y
  case error.error e e' => exact congrArg _ h
  case ok.ok a b => exact congrArg _ (hfg a b h)
  all_goals exact h.elim

variable (step : ι → σ → Except ε σ) (step₂ : κ → τ → Except ε τ)

/-- The inputs that a view does not notice may be left out. -/
theorem run_heard (view : σ → τ) (heard : ι → Option κ)
    (hheard : ∀ i k s, heard i = some k → (step i s).map view = step₂ k (view s))
    (hsilent : ∀ i s, heard i = none → (step i s).map view = .ok (view s)) (is : List ι) (s : σ) :
    (run step is s).map view = run step₂ (is.filterMap heard) (view s) := by
  induction is generalizing s with
  | nil => rfl
  | cons i is ih =>
    rw [run]
    cases hi : heard i with
    | none =>
      have h := hsilent i s hi
      rw [List.filterMap_cons_none hi]
      cases hs : step i s with
      | error e =>
        rw [hs] at h
        cases h
      | ok t =>
        rw [hs] at h
        obtain ht : view t = view s := Except.ok.inj h
        rw [← ht]
        exact ih t
    | some k =>
      rw [List.filterMap_cons_some hi, run, ← hheard i k s hi]
      cases step i s with
      | error e => rfl
      | ok t => exact ih t

/-- The relation may depend on the inputs still to come. -/
theorem run_matches (Q : ι → κ → Prop) (R : List ι → σ → τ → Prop)
    (hstep : ∀ i is j s t, Q i j → R (i::is) s t → Matches (R is) (step i s) (step₂ j t))
    (is : List ι) (js : List κ) (hq : List.Forall₂ Q is js) (s : σ) (t : τ) (h : R is s t) :
    Matches (R []) (run step is s) (run step₂ js t) := by
  induction hq generalizing s t with
  | nil => exact h
  | @cons i j is js hij _ ih =>
    have hm := hstep i is j s t hij h
    rw [run, run]
    cases hs : step i s <;> cases ht : step₂ j t <;> rw [hs, ht] at hm
    case error.error e f => exact hm
    case ok.ok u v => exact ih u v hm
    all_goals exact hm.elim

end Lockstep
