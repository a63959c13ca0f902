import Bakaneko.Native

/-!
# Sizes and rates with their units

`bytes_to_string` and `bitrate_to_string` divide a number by a factor and
count until it is below the factor or the count has reached a bound. The
count is then the index of the unit. There are five units of each kind; the
bound of the first loop is their number, that of the second the last index.
-/

set_option autoImplicit false

namespace Bakaneko.ByteUnits
open Bakaneko.Native

def bytesEnd : List Bytes := [bytes " B", bytes "KB", bytes "MB", bytes "GB", bytes "TB"]

def bitrateEnd : List Bytes :=
  [bytes " bps", bytes "kbps", bytes "Mbps", bytes "Gbps", bytes "Tbps"]

/-- The loop, with the rounds its bound leaves. -/
def divide (factor : ℕ) : ℕ → ℕ → ℕ → ℕ × ℕ
  | 0, count, size => (count, size)
  | left+1, count, size =>
    if factor ≤ size then divide factor left (count+1) (size/factor) else (count, size)

def withUnit (sizeEnd : List Bytes) (bound factor size : ℕ) : Except Undefined Bytes :=
  let (count, size) := divide factor bound 0 size
  match sizeEnd[count]? with
  | none => .error .pastEnd
  | some unit => .ok (numeral size++32::unit)

def bytesToString (factor size : ℕ) : Except Undefined Bytes :=
  withUnit bytesEnd bytesEnd.length factor size

def bitrateToString (factor size : ℕ) : Except Undefined Bytes :=
  withUnit bitrateEnd (bitrateEnd.length-1) factor size

/-- Of `n` units, the first that brings the number below the factor, else the
last. -/
def UnitIndex (n factor size k : ℕ) : Prop :=
  k < n ∧ size/factor^k < factor ∧ (∀ j < k, factor ≤ size/factor^j) ∨
    k+1 = n ∧ ∀ j < n, factor ≤ size/factor^j

def Prints (sizeEnd : List Bytes) (factor size : ℕ) (out : Except Undefined Bytes) : Prop :=
  ∃ k unit, UnitIndex sizeEnd.length factor size k ∧ sizeEnd[k]? = some unit ∧
    out = .ok (numeral (size/factor^k)++32::unit)

/-- The loop counts up to the first number below the factor, as far as its
bound allows. -/
theorem divide_counts (factor left count size : ℕ) : ∃ k ≤ left,
    divide factor left count size = (count+k, size/factor^k) ∧
      (∀ j < k, factor ≤ size/factor^j) ∧ (k < left → size/factor^k < factor) := by
  induction left generalizing count size with
  | zero => exact ⟨0, le_rfl, by simp [divide], by simp, by simp⟩
  | succ left ih =>
    have hdiv (j : ℕ) : size/factor/factor^j = size/factor^(j+1) := by
      rw [Nat.div_div_eq_div_mul, ← pow_succ']
    by_cases h : factor ≤ size
    · obtain ⟨k, hk, hrun, hbefore, hstop⟩ := ih (count+1) (size/factor)
      refine ⟨k+1, by omega, ?_, fun j hj => ?_, fun hlt => ?_⟩
      · rw [divide, if_pos h, hrun, hdiv, Nat.add_assoc, Nat.add_comm 1 k]
      · cases j with
        | zero => simpa using h
        | succ j =>
          rw [← hdiv]
          exact hbefore j (by omega)
      · rw [← hdiv]
        exact hstop (by omega)
    · exact ⟨0, Nat.zero_le _, by simp [divide, h], by simp, fun _ => by simpa using h⟩

theorem below_power (factor size k : ℕ) (h : 0 < factor) :
    size/factor^k < factor ↔ size < factor^(k+1) := by
  rw [Nat.div_lt_iff_lt_mul (Nat.pow_pos h), pow_succ']

theorem withUnit_prints (sizeEnd : List Bytes) (bound factor size k : ℕ) (hk : k < sizeEnd.length)
    (hrun : divide factor bound 0 size = (k, size/factor^k))
    (hindex : UnitIndex sizeEnd.length factor size k) :
    Prints sizeEnd factor size (withUnit sizeEnd bound factor size) := by
  have hunit := List.getElem?_eq_getElem hk
  exact ⟨k, sizeEnd[k], hindex, hunit, by simp only [withUnit, hrun, hunit]⟩

/-- With one round less than units, there is a unit for every number. -/
theorem withUnit_last (sizeEnd : List Bytes) (factor size : ℕ) (hne : sizeEnd ≠ []) :
    Prints sizeEnd factor size (withUnit sizeEnd (sizeEnd.length-1) factor size) := by
  have hlen := List.length_pos_iff.mpr hne
  obtain ⟨k, hk, hrun, hbefore, hstop⟩ := divide_counts factor (sizeEnd.length-1) 0 size
  rw [Nat.zero_add] at hrun
  refine withUnit_prints sizeEnd _ factor size k (by omega) hrun ?_
  by_cases hsmall : size/factor^k < factor
  · exact .inl ⟨by omega, hsmall, hbefore⟩
  · have hlast : k+1 = sizeEnd.length := by
      by_contra hne'
      exact hsmall (hstop (by omega))
    refine .inr ⟨hlast, fun j hj => ?_⟩
    rcases Nat.lt_or_ge j k with hlt | hge
    · exact hbefore j hlt
    · obtain rfl : j = k := by omega
      exact Nat.le_of_not_lt hsmall

/-- With as many rounds as units, there is one for the numbers below a power. -/
theorem withUnit_length (sizeEnd : List Bytes) (factor size : ℕ) (hne : sizeEnd ≠ [])
    (h : 0 < factor) :
    Prints sizeEnd factor size (withUnit sizeEnd sizeEnd.length factor size) ↔
      size < factor^sizeEnd.length := by
  obtain ⟨k, hk, hrun, hbefore, hstop⟩ := divide_counts factor sizeEnd.length 0 size
  rw [Nat.zero_add] at hrun
  rcases Nat.lt_or_ge k sizeEnd.length with hlt | hge
  · have hsize : size < factor^(k+1) := (below_power factor size k h).mp (hstop hlt)
    have hbound : size < factor^sizeEnd.length := hsize.trans_le (Nat.pow_le_pow_right h hlt)
    refine iff_of_true (withUnit_prints sizeEnd _ factor size k hlt hrun ?_) hbound
    exact .inl ⟨hlt, hstop hlt, hbefore⟩
  · obtain rfl : k = sizeEnd.length := Nat.le_antisymm hk hge
    have hnone : sizeEnd[sizeEnd.length]? = none := List.getElem?_eq_none le_rfl
    refine iff_of_false ?_ ?_
    · rintro ⟨k, unit, -, -, hout⟩
      simp only [withUnit, hrun, hnone] at hout
      cases hout
    · obtain ⟨n, hn⟩ := Nat.exists_eq_succ_of_ne_zero (List.length_pos_iff.mpr hne).ne'
      rw [hn] at hbefore ⊢
      exact fun hsize => Nat.not_lt.mpr (hbefore n n.lt_succ_self)
        ((below_power factor size n h).mpr hsize)

/-- The sizes from the fifth power of the factor on have no unit; every rate
has one. -/
theorem formatters_iff (factor size : ℕ) (h : 0 < factor) :
    (Prints bytesEnd factor size (bytesToString factor size) ↔ size < factor^5) ∧
      Prints bitrateEnd factor size (bitrateToString factor size) :=
  ⟨withUnit_length bytesEnd factor size (List.cons_ne_nil _ _) h,
    withUnit_last bitrateEnd factor size (List.cons_ne_nil _ _)⟩

/-- A petabyte has none, a petabit has one. -/
theorem formatters_petabyte :
    ¬ Prints bytesEnd 1000 1000000000000000 (bytesToString 1000 1000000000000000) ∧
      Prints bitrateEnd 1000 1000000000000000 (bitrateToString 1000 1000000000000000) :=
  ⟨fun h => absurd ((formatters_iff 1000 1000000000000000 (by decide)).1.mp h) (by decide),
    (formatters_iff 1000 1000000000000000 (by decide)).2⟩

/-- The index is the number of the units. -/
theorem bytesToString_pastEnd : ∃ factor size, (factor = 1000 ∨ factor = 1024) ∧ size < 2^64 ∧
    bytesToString factor size = .error .pastEnd ∧
      ¬ Prints bytesEnd factor size (bytesToString factor size) := by
  have hout : bytesToString 1000 1000000000000000 = .error .pastEnd := rfl
  refine ⟨1000, 1000000000000000, .inl rfl, by decide, hout, ?_⟩
  rintro ⟨k, unit, -, -, hprint⟩
  rw [hout] at hprint
  cases hprint

example : bytesToString 1024 1536 = .ok (bytes "1 KB") := by decide

end Bakaneko.ByteUnits
