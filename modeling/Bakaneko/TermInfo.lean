import Bakaneko.Native
import Mathlib.Data.Nat.Nth

/-!
# The terminal types that are available

A number stands for a terminal type when `term_type` gives it another name
than the one of `Null`; numbers of types that have been removed are gaps. The
settings page numbers the types without the gaps. The loops of `TermInfo`
count the gaps in front of a number.
-/

set_option autoImplicit false

namespace Bakaneko.TermInfo
open Bakaneko.Native

def null : ℕ := 0

/-- `Term::term_type` of a number. -/
def termType : ℕ → Bytes
  | 1 => bytes "Dumb"
  | 2 => bytes "Linux"
  | _ => bytes "Null"

section
variable {τ : Type} [DecidableEq τ] (types : ℕ → τ)

/-- The body of the three loops. -/
def gap (count offset : ℕ) : ℕ := if types count = types null then offset+1 else offset

/-- The offset when the count has come to a bound. -/
def offsetAt : ℕ → ℕ
  | 0 => 0
  | count+1 => gap types count (offsetAt count)

def avalibleTermsCount (iMax : ℕ) : ℕ := iMax-offsetAt types iMax

/-- The loop that no bound ends. -/
def search (index : ℕ) : ℕ → ℕ → ℕ → Option ℕ
  | 0, _, _ => none
  | fuel+1, count, offset =>
    if count-offset ≤ index then search index fuel (count+1) (gap types count offset)
    else some (count-1)

def avalibleToEmun (fuel index : ℕ) : Option ℕ := search types index fuel 0 0

def emunToAvalible (index : ℕ) : ℕ := index-offsetAt types index

/-- The number of a type, not of a gap. -/
def Named (count : ℕ) : Prop := types count ≠ types null

instance : DecidablePred (Named types) := fun _ => inferInstanceAs (Decidable (¬ _))

/-- The numbers of the types that can be chosen. -/
def Available (iMax count : ℕ) : Prop := count < iMax ∧ Named types count

instance (iMax : ℕ) : DecidablePred (Available types iMax) := fun _ =>
  inferInstanceAs (Decidable (_ ∧ _))

/-- The gaps and the types below a number are the numbers below it. -/
theorem offsetAt_count (n : ℕ) : offsetAt types n+Nat.count (Named types) n = n := by
  induction n with
  | zero => rfl
  | succ n ih =>
    rw [offsetAt, gap, Nat.count_succ]
    by_cases h : types n = types null
    · have hgap : ¬ Named types n := not_not.mpr h
      rw [if_pos h, if_neg hgap]
      omega
    · have hnamed : Named types n := h
      rw [if_neg h, if_pos hnamed]
      omega

theorem offset_left (n : ℕ) : n-offsetAt types n = Nat.count (Named types) n := by
  have h := offsetAt_count types n
  omega

/-- The search for the position of a type comes to an end at that type. -/
theorem search_finds (e : ℕ) (he : Named types e) (fuel count : ℕ) (hcount : count ≤ e+1)
    (hfuel : e+1 < count+fuel) :
    search types (Nat.count (Named types) e) fuel count (offsetAt types count) = some e := by
  induction fuel generalizing count with
  | zero => omega
  | succ fuel ih =>
    rw [search, offset_left]
    rcases Nat.lt_or_ge e count with hpast | hbefore
    · obtain rfl : count = e+1 := by omega
      have hover : ¬ Nat.count (Named types) (e+1) ≤ Nat.count (Named types) e :=
        Nat.not_le.mpr (Nat.count_lt_count_succ_iff.mpr he)
      rw [if_neg hover, Nat.add_sub_cancel]
    · rw [if_pos (Nat.count_monotone _ hbefore)]
      exact ih (count+1) (by omega) (by omega)

theorem count_available (iMax n : ℕ) (h : n ≤ iMax) :
    Nat.count (Available types iMax) n = Nat.count (Named types) n := by
  induction n with
  | zero => rfl
  | succ n ih =>
    have hsame : Available types iMax n ↔ Named types n := and_iff_right h
    rw [Nat.count_succ, Nat.count_succ, ih (Nat.le_of_succ_le h), if_congr hsame rfl rfl]

/-- A number and its position, from the number. -/
theorem available_position (iMax e : ℕ) (h : Available types iMax e) :
    emunToAvalible types e = Nat.count (Available types iMax) e ∧
      emunToAvalible types e < avalibleTermsCount types iMax ∧
      ∀ fuel > iMax, avalibleToEmun types fuel (emunToAvalible types e) = some e := by
  have hposition : emunToAvalible types e = Nat.count (Named types) e := offset_left types e
  have hcount : avalibleTermsCount types iMax = Nat.count (Named types) iMax :=
    offset_left types iMax
  rw [hposition, hcount, count_available types iMax e h.1.le]
  refine ⟨rfl, Nat.count_strict_mono h.2 h.1, fun fuel hfuel => ?_⟩
  have hlt := h.1
  exact search_finds types e h.2 fuel 0 (Nat.zero_le _) (by omega)

theorem position_available (iMax index : ℕ) (h : index < avalibleTermsCount types iMax) :
    Available types iMax (Nat.nth (Available types iMax) index) ∧
      Nat.count (Available types iMax) (Nat.nth (Available types iMax) index) = index := by
  rw [avalibleTermsCount, offset_left, ← count_available types iMax iMax le_rfl] at h
  have hcard : ∀ hf : (Set.ofPred (Available types iMax)).Finite, index < hf.toFinset.card :=
    fun hf => h.trans_le (Nat.count_le_card hf iMax)
  exact ⟨Nat.nth_mem index hcard, Nat.count_nth hcard⟩

/-- The search ends for every position in front of the number of the types, with
the type that has this position; the two conversions are inverse. -/
theorem avalible_emun (iMax : ℕ) :
    (∀ index < avalibleTermsCount types iMax, ∀ fuel > iMax,
      avalibleToEmun types fuel index = some (Nat.nth (Available types iMax) index) ∧
        Available types iMax (Nat.nth (Available types iMax) index) ∧
        emunToAvalible types (Nat.nth (Available types iMax) index) = index) ∧
      ∀ e, Available types iMax e → emunToAvalible types e < avalibleTermsCount types iMax ∧
        ∀ fuel > iMax, avalibleToEmun types fuel (emunToAvalible types e) = some e := by
  refine ⟨fun index hindex fuel hfuel => ?_,
    fun e he => (available_position types iMax e he).2⟩
  obtain ⟨havailable, hcount⟩ := position_available types iMax index hindex
  obtain ⟨hposition, -, hback⟩ := available_position types iMax _ havailable
  rw [hcount] at hposition
  have hfound := hback fuel hfuel
  rw [hposition] at hfound
  exact ⟨hfound, havailable, hposition⟩

end

/-- The second type of the program. -/
theorem avalible_emun_linux :
    (avalibleToEmun termType 4 1 = some (Nat.nth (Available termType 3) 1) ∧
      Available termType 3 (Nat.nth (Available termType 3) 1) ∧
      emunToAvalible termType (Nat.nth (Available termType 3) 1) = 1) ∧
    emunToAvalible termType 2 < avalibleTermsCount termType 3 ∧
      avalibleToEmun termType 4 (emunToAvalible termType 2) = some 2 := by
  obtain ⟨hcount, hback⟩ := (avalible_emun termType 3).2 2 (by decide)
  exact ⟨(avalible_emun termType 3).1 1 (by decide) 4 (by decide), hcount, hback 4 (by decide)⟩

example : avalibleToEmun [1, 3, 4].contains 6 1 = some 3 := by decide

end Bakaneko.TermInfo
