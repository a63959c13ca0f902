import Bakaneko.Library.PartialRun
import Mathlib.Data.Int.ModEq

/-!
# A value kept beside the state it is computed from

The steps of a machine either leave a stored value alone while the value it
stands for moves, or compute it anew. A flag asks for another computation at
the end of the run. The stored value has a fixed width, so that it stands for a
value up to multiples of `m`. It is right at the end exactly if the flag is up
or all that moved since the last computation adds up to a multiple of `m`.
-/

set_option autoImplicit false

namespace CachedValue
open PartialRun

variable {ι σ ε : Type*} (step : ι → σ → Except ε σ) (m : ℤ)

/-- What a step does to a value and the flag. -/
inductive Effect where
  | refresh
  | shift (d : ℤ) (mark : Bool)

/-- Allowed steps have the effects named. -/
structure Cached (allowed : ι → Prop) (Inv : σ → Prop) (stored value : σ → ℤ) (flag : σ → Bool)
    (effect : ι → σ → Effect) : Prop where
  keeps : ∀ i s t, Inv s → step i s = .ok t → Inv t
  refresh : ∀ i s t, allowed i → Inv s → step i s = .ok t → effect i s = .refresh →
    stored t ≡ value t [ZMOD m] ∧ flag t = flag s
  shift : ∀ i s t d mark, allowed i → Inv s → step i s = .ok t → effect i s = .shift d mark →
    stored t = stored s ∧ flag t = (flag s || mark) ∧ value t = value s+d

/-- The flag goes up, or what moved since the last computation adds up to 0. -/
def Settles (effect : ι → σ → Effect) : ℤ → Bool → List ι → σ → Prop
  | moved, flag, [], _ => flag = true ∨ m ∣ moved
  | moved, flag, i::is, s => ∀ t, step i s = .ok t → match effect i s with
    | .refresh => Settles effect 0 flag is t
    | .shift d mark => Settles effect (moved+d) (flag || mark) is t

instance settlesDecidable (effect : ι → σ → Effect) : ∀ moved flag is s,
    Decidable (Settles step m effect moved flag is s)
  | moved, flag, [], _ => inferInstanceAs (Decidable (flag = true ∨ m ∣ moved))
  | moved, flag, i::is, s =>
    match hs : step i s with
    | .error e => isTrue fun t ht => by rw [hs] at ht; cases ht
    | .ok t =>
      have : Decidable (match effect i s with
          | .refresh => Settles step m effect 0 flag is t
          | .shift d mark => Settles step m effect (moved+d) (flag || mark) is t) :=
        match effect i s with
        | .refresh => settlesDecidable effect 0 flag is t
        | .shift d mark => settlesDecidable effect (moved+d) (flag || mark) is t
      decidable_of_iff _ ⟨fun h u hu => by rw [hs] at hu; cases hu; exact h, fun h => h t hs⟩

theorem settles_iff (allowed : ι → Prop) (Inv : σ → Prop) (stored value : σ → ℤ)
    (flag : σ → Bool) (effect : ι → σ → Effect)
    (h : Cached step m allowed Inv stored value flag effect) (is : List ι) (s : σ) (moved : ℤ)
    (ha : ∀ i ∈ is, allowed i) (hs : Inv s) (hmoved : stored s+moved ≡ value s [ZMOD m]) :
    Settles step m effect moved (flag s) is s ↔
      ∀ t, run step is s = .ok t → flag t = true ∨ stored t ≡ value t [ZMOD m] := by
  induction is generalizing s moved with
  | nil =>
    simp only [Settles, run, Except.ok.injEq, forall_eq']
    refine or_congr_right ?_
    rw [Int.modEq_iff_dvd] at hmoved ⊢
    have hsum : value s-stored s = value s-(stored s+moved)+moved := by omega
    rw [hsum, Int.dvd_add_right hmoved]
  | cons i is ih =>
    obtain ⟨hi, his⟩ := List.forall_mem_cons.mp ha
    rw [Settles, run]
    cases hstep : step i s with
    | error e => simp
    | ok t =>
      have ht := h.keeps i s t hs hstep
      simp only [Except.ok.injEq, forall_eq']
      cases heffect : effect i s with
      | refresh =>
        obtain ⟨hv, hf⟩ := h.refresh i s t hi hs hstep heffect
        dsimp only
        rw [← hf]
        exact ih t 0 his ht (by rwa [add_zero])
      | shift d mark =>
        obtain ⟨hc, hf, hv⟩ := h.shift i s t d mark hi hs hstep heffect
        dsimp only
        rw [← hf]
        refine ih t (moved+d) his ht ?_
        rw [hc, hv, ← add_assoc]
        exact hmoved.add_right d

end CachedValue
