import Mathlib.Data.List.Basic
import Mathlib.Tactic

/-!
# Native text and integers

A `std::string` is its list of bytes. An `int` is an integer wrapped to 32
bits in two's complement, and an `int` compared with a `size_t` is first
converted to it. The numeral readers follow `strtol` in the C locale: blanks,
an optional sign, then the longest run of digits.
-/

set_option autoImplicit false

namespace Bakaneko.Native

abbrev Bytes := List UInt8

def bytes (s : String) : Bytes := s.toList.map fun c => UInt8.ofNat c.toNat

theorem bytes_ofList (cs : List Char) :
    bytes (String.ofList cs) = cs.map fun c => UInt8.ofNat c.toNat := by
  rw [bytes, String.toList_ofList]

def int32 (x : ℤ) : ℤ := (x+2147483648)%4294967296-2147483648

def sizeT (x : ℤ) : ℕ := (x%18446744073709551616).toNat

def IsInt32 (x : ℤ) : Prop := -2147483648 ≤ x ∧ x < 2147483648

instance (x : ℤ) : Decidable (IsInt32 x) := inferInstanceAs (Decidable (_ ∧ _))

theorem int32_range (x : ℤ) : IsInt32 (int32 x) := by
  unfold IsInt32 int32
  omega

theorem int32_of_range {x : ℤ} (h : IsInt32 x) : int32 x = x := by
  unfold IsInt32 at h
  unfold int32
  omega

/-- The value of an `int` variable. -/
abbrev CInt := {x : ℤ // IsInt32 x}

def CInt.wrap (x : ℤ) : CInt := ⟨int32 x, int32_range x⟩

@[simp] theorem wrap_val (x : ℤ) : (CInt.wrap x).val = int32 x := rfl

theorem wrap_of_range {x : ℤ} (h : IsInt32 x) : (CInt.wrap x).val = x := int32_of_range h

theorem wrap_self (x : CInt) : CInt.wrap x.val = x := Subtype.ext (int32_of_range x.property)

theorem sizeT_of_nonneg {x : ℤ} (h0 : 0 ≤ x) (h : x < 18446744073709551616) :
    sizeT x = x.toNat := by
  rw [sizeT, Int.emod_eq_of_lt h0 h]

theorem sizeT_of_int32 {x : ℤ} (h0 : 0 ≤ x) (h : IsInt32 x) : sizeT x = x.toNat :=
  sizeT_of_nonneg h0 (by unfold IsInt32 at h; omega)

/-- A negative `int` becomes a `size_t` no container can reach. -/
theorem sizeT_of_neg {x : ℤ} (h0 : x < 0) (h : IsInt32 x) :
    18446744071562067968 ≤ sizeT x := by
  unfold IsInt32 at h
  unfold sizeT
  omega

def isspace (c : UInt8) : Bool := c = 32 || (9 ≤ c && c ≤ 13)

def isdigit (c : UInt8) : Bool := 48 ≤ c && c ≤ 57

def isalpha (c : UInt8) : Bool := (65 ≤ c && c ≤ 90) || (97 ≤ c && c ≤ 122)

/-- A fact about bytes is one about the first 256 numbers. -/
theorem forall_byte {P : UInt8 → Prop} (h : ∀ n < 256, P (UInt8.ofNat n)) (c : UInt8) : P c := by
  have hc := h c.toNat c.toNat_lt
  rwa [UInt8.ofNat_toNat] at hc

def digitsValue (ds : Bytes) : ℕ := ds.foldl (fun n d => 10*n+(d.toNat-48)) 0

/-- The decimal numeral of a number, without leading zeros. -/
def numeral (n : ℕ) : Bytes := (Nat.toDigits 10 n).map fun c => UInt8.ofNat c.toNat

def numeralDigit (k : ℕ) : UInt8 := UInt8.ofNat (48+k)

theorem numeralDigit_spec : ∀ k < 10, isdigit (numeralDigit k) = true ∧
    (numeralDigit k).toNat-48 = k := by decide

theorem numeral_small (n : ℕ) (h : n < 10) : numeral n = [numeralDigit n] := by
  rw [numeral, Nat.toDigits_of_lt_base h]
  interval_cases n <;> rfl

theorem numeral_append (n : ℕ) (h : 10 ≤ n) :
    numeral n = numeral (n/10)++[numeralDigit (n%10)] := by
  rw [← numeral_small (n%10) (Nat.mod_lt n (by decide)), numeral, numeral, numeral,
    Nat.toDigits_of_base_le (by decide) h, Nat.toDigits_of_lt_base (Nat.mod_lt n (by decide)),
    List.map_append]

theorem numeral_digits (n : ℕ) : numeral n ≠ [] ∧ (numeral n).all isdigit = true ∧
    digitsValue (numeral n) = n := by
  induction n using Nat.strongRecOn with
  | ind n ih =>
    by_cases hn : n < 10
    · obtain ⟨hd, hv⟩ := numeralDigit_spec n hn
      rw [numeral_small n hn]
      exact ⟨by simp, by simp [hd], by simp [digitsValue, hv]⟩
    · obtain ⟨-, hall, hvalue⟩ := ih (n/10) (by omega)
      obtain ⟨hd, hv⟩ := numeralDigit_spec (n%10) (Nat.mod_lt n (by decide))
      rw [numeral_append n (by omega)]
      refine ⟨by simp, by simp [hall, hd], ?_⟩
      unfold digitsValue at hvalue ⊢
      rw [List.foldl_append, hvalue, List.foldl_cons, List.foldl_nil, hv]
      omega

theorem numeral_mem (n : ℕ) (c : UInt8) (hc : c ∈ numeral n) : isdigit c = true :=
  List.all_eq_true.mp (numeral_digits n).2.1 c hc

theorem numeral_inj (m n : ℕ) (h : numeral m = numeral n) : m = n := by
  have hm := (numeral_digits m).2.2
  rw [h, (numeral_digits n).2.2] at hm
  exact hm.symm

/-- Digits end where something else begins. -/
theorem digits_end (ds rest : Bytes) (hd : ∀ d ∈ ds, isdigit d = true)
    (hrest : ∀ c ∈ rest.head?, isdigit c = false) :
    (ds++rest).takeWhile isdigit = ds ∧ (ds++rest).dropWhile isdigit = rest := by
  rw [List.takeWhile_append_of_pos hd, List.dropWhile_append_of_pos hd]
  cases rest with
  | nil => exact ⟨List.append_nil ds, rfl⟩
  | cons c rest => simp [hrest c rfl]

/-- The value read and the number of bytes read; nothing without a digit. -/
def strtol (s : Bytes) : Option (ℤ × ℕ) :=
  let blanks := s.takeWhile isspace
  let rest := s.dropWhile isspace
  let negative := rest.head? = some 45
  let sign := if negative ∨ rest.head? = some 43 then 1 else 0
  let digits := (rest.drop sign).takeWhile isdigit
  if digits = [] then none
  else some (if negative then -(digitsValue digits:ℤ) else digitsValue digits,
    blanks.length+sign+digits.length)

/-- No digit is a blank, a sign or a letter. -/
theorem digit_plain (d : UInt8) (hd : isdigit d = true) :
    isspace d = false ∧ d ≠ 45 ∧ d ≠ 43 ∧ isalpha d = false := by
  unfold isdigit at hd
  unfold isspace isalpha
  grind

theorem digit_printable (d : UInt8) (hd : isdigit d = true) : 0x20 ≤ d ∧ d < 128 := by
  unfold isdigit at hd
  grind

/-- A numeral is read to its end. -/
theorem strtol_run (ds rest : Bytes) (hne : ds ≠ []) (hd : ∀ d ∈ ds, isdigit d = true)
    (hrest : ∀ c ∈ rest.head?, isdigit c = false) :
    strtol (ds++rest) = some ((digitsValue ds:ℤ), ds.length) := by
  have htake := (digits_end ds rest hd hrest).1
  obtain ⟨d, ds, rfl⟩ := List.exists_cons_of_ne_nil hne
  obtain ⟨hspace, hminus, hplus, -⟩ := digit_plain d (hd d List.mem_cons_self)
  have hblank : (d::ds++rest).takeWhile isspace = [] := by
    rw [List.cons_append, List.takeWhile_cons, hspace]
    rfl
  have hdrop : (d::ds++rest).dropWhile isspace = d::ds++rest := by
    rw [List.cons_append, List.dropWhile_cons, hspace]
    rfl
  have hhead : (d::ds++rest).head? = some d := rfl
  rw [strtol]
  simp only [hblank, hdrop, hhead, Option.some.injEq, hminus, hplus, or_self, if_false,
    List.drop_zero, htake, List.length_nil, Nat.zero_add]
  rw [if_neg hne]

theorem strtol_digits (ds rest : Bytes) (c : UInt8) (hne : ds ≠ [])
    (hd : ∀ d ∈ ds, isdigit d = true) (hc : isdigit c = false) :
    strtol (ds++c::rest) = some ((digitsValue ds:ℤ), ds.length) :=
  strtol_run ds (c::rest) hne hd fun _ hd => by cases hd; exact hc

/-- What starts no numeral is read as none. -/
theorem strtol_none (rest : Bytes) (c : UInt8)
    (hc : isdigit c = false ∧ isspace c = false ∧ c ≠ 45 ∧ c ≠ 43) : strtol (c::rest) = none := by
  simp [strtol, hc]

inductive StoiError where
  | invalidArgument
  | outOfRange
  deriving DecidableEq, Repr

def stoi (s : Bytes) : Except StoiError (ℤ × ℕ) :=
  match strtol s with
  | none => .error .invalidArgument
  | some (v, n) => if -2147483648 ≤ v ∧ v < 2147483648 then .ok (v, n) else .error .outOfRange

/-- The 64-bit result of `strtol` cut to an `int`; 0 without a digit. -/
def atoi (s : Bytes) : ℤ :=
  match strtol s with
  | none => 0
  | some (v, _) => int32 (max (-9223372036854775808) (min v 9223372036854775807))

theorem atoi_digits (ds rest : Bytes) (c : UInt8) (hd : ∀ d ∈ ds, isdigit d = true)
    (hc : isdigit c = false ∧ isspace c = false ∧ c ≠ 45 ∧ c ≠ 43) :
    atoi (ds++c::rest) = int32 (min (digitsValue ds:ℤ) 9223372036854775807) := by
  by_cases hne : ds = []
  · subst hne
    rw [atoi, List.nil_append, strtol_none rest c hc]
    rfl
  · rw [atoi, strtol_digits ds rest c hne hd hc.1]
    dsimp only
    rw [max_eq_right (by omega)]

example : stoi (bytes " -12;7m") = .ok (-12, 4) := by decide

/-- The exceptions of the standard library, with their `what`. -/
inductive StdException where
  | invalidArgument (what : Bytes)
  | outOfRange (what : Bytes)
  | badOptionalAccess
  | runtimeError (what : Bytes)
  | logicError (what : Bytes)
  | ioError (what : Bytes)
  | json
  deriving DecidableEq, Repr

inductive Undefined where
  | pastEnd
  | nullPointer
  deriving DecidableEq, Repr

/-- How a function ends without a value. `ljh::unix::dbus::error` is not an
exception of the standard library. -/
inductive Failure where
  | exception (e : StdException)
  | dbusError
  | undefined (u : Undefined)
  deriving DecidableEq, Repr

end Bakaneko.Native
