import Mathlib.Data.List.Basic
import Mathlib.Tactic.Common

/-!
# Base 64 text

Three bytes are four digits of six bits. A last group of one or two bytes is
filled up with zero bits and its text with padding. The text is over any
alphabet of 64 letters and a padding that is none of them.
-/

set_option autoImplicit false

namespace Base64Text

def digits : List UInt8 → List ℕ
  | [] => []
  | [x] => [x.toNat/4, x.toNat%4*16]
  | [x, y] => [x.toNat/4, x.toNat%4*16+y.toNat/16, y.toNat%16*4]
  | x::y::z::rest =>
    x.toNat/4::(x.toNat%4*16+y.toNat/16)::(y.toNat%16*4+z.toNat/64)::z.toNat%64::digits rest

def padding (length : ℕ) : ℕ := (3-length%3)%3

variable {α : Type*} (letter : ℕ → α) (pad : α)

def text (message : List UInt8) : List α :=
  (digits message).map letter++List.replicate (padding message.length) pad

/-- 64 letters, none of them the padding. -/
structure Alphabet : Prop where
  letters : ∀ m < 64, ∀ n < 64, letter m = letter n → m = n
  padding : ∀ n < 64, letter n ≠ pad

theorem digits_lt (message : List UInt8) : ∀ n ∈ digits message, n < 64 := by
  induction message using digits.induct with
  | case1 => simp [digits]
  | case2 x =>
    have := x.toNat_lt
    simp only [digits, List.mem_cons, List.not_mem_nil, or_false, forall_eq_or_imp, forall_eq]
    omega
  | case3 x y =>
    have := x.toNat_lt
    have := y.toNat_lt
    simp only [digits, List.mem_cons, List.not_mem_nil, or_false, forall_eq_or_imp, forall_eq]
    omega
  | case4 x y z rest ih =>
    have := x.toNat_lt
    have := y.toNat_lt
    have := z.toNat_lt
    simp only [digits, List.mem_cons, forall_eq_or_imp]
    refine ⟨?_, ?_, ?_, ?_, ih⟩ <;> omega

/-- The first two digits determine the first byte. -/
theorem first_byte (x x' : UInt8) (s t : ℕ) (hs : s < 16) (ht : t < 16)
    (h0 : x.toNat/4 = x'.toNat/4) (h1 : x.toNat%4*16+s = x'.toNat%4*16+t) :
    x = x' ∧ s = t := by
  have hx : x.toNat = x'.toNat := by omega
  exact ⟨UInt8.toNat_inj.mp hx, by omega⟩

theorem second_byte (y y' : UInt8) (s t : ℕ) (hs : s < 4) (ht : t < 4)
    (h0 : y.toNat/16 = y'.toNat/16) (h1 : y.toNat%16*4+s = y'.toNat%16*4+t) :
    y = y' ∧ s = t := by
  have hy : y.toNat = y'.toNat := by omega
  exact ⟨UInt8.toNat_inj.mp hy, by omega⟩

theorem third_byte (z z' : UInt8) (h0 : z.toNat/64 = z'.toNat/64)
    (h1 : z.toNat%64 = z'.toNat%64) : z = z' :=
  UInt8.toNat_inj.mp (by omega)

theorem high_lt (y : UInt8) : y.toNat/16 < 16 ∧ y.toNat/64 < 4 := by
  have := y.toNat_lt
  omega

/-- No two messages have the same digits. -/
theorem digits_injective (message other : List UInt8) (h : digits message = digits other) :
    message = other := by
  induction message using digits.induct generalizing other with
  | case1 =>
    match other with
    | [] => rfl
    | [_] | [_, _] | _::_::_::_ => simp [digits] at h
  | case2 x =>
    match other with
    | [x'] =>
      simp only [digits, List.cons.injEq, and_true] at h
      obtain ⟨rfl, -⟩ := first_byte x x' 0 0 (by decide) (by decide) h.1 h.2
      rfl
    | [] | [_, _] | _::_::_::_ => simp [digits] at h
  | case3 x y =>
    match other with
    | [x', y'] =>
      simp only [digits, List.cons.injEq, and_true] at h
      obtain ⟨rfl, hy⟩ := first_byte x x' _ _ (high_lt y).1 (high_lt y').1 h.1 h.2.1
      obtain ⟨rfl, -⟩ := second_byte y y' 0 0 (by decide) (by decide) hy h.2.2
      rfl
    | [] | [_] | _::_::_::_ => simp [digits] at h
  | case4 x y z rest ih =>
    match other with
    | x'::y'::z'::rest' =>
      simp only [digits, List.cons.injEq] at h
      obtain ⟨h0, h1, h2, h3, hrest⟩ := h
      obtain ⟨rfl, hy⟩ := first_byte x x' _ _ (high_lt y).1 (high_lt y').1 h0 h1
      obtain ⟨rfl, hz⟩ := second_byte y y' _ _ (high_lt z).2 (high_lt z').2 hy h2
      rw [third_byte z z' hz h3, ih rest' hrest]
    | [] | [_] | [_, _] => simp [digits] at h

variable {letter pad}

theorem pad_not_mem (h : Alphabet letter pad) (message : List UInt8) :
    pad ∉ (digits message).map letter := by
  intro hm
  obtain ⟨n, hn, he⟩ := List.mem_map.mp hm
  exact h.padding n (digits_lt message n hn) he

theorem map_letter_injective (h : Alphabet letter pad) (s t : List ℕ) (hs : ∀ n ∈ s, n < 64)
    (ht : ∀ n ∈ t, n < 64) (he : s.map letter = t.map letter) : s = t := by
  induction s generalizing t with
  | nil => exact (List.map_eq_nil_iff.mp he.symm).symm
  | cons m s ih =>
    cases t with
    | nil => simp at he
    | cons n t =>
      simp only [List.map_cons, List.cons.injEq] at he
      rw [h.letters m (hs m (by simp)) n (ht n (by simp)) he.1,
        ih t (fun k hk => hs k (by simp [hk])) (fun k hk => ht k (by simp [hk])) he.2]

/-- No two messages have the same text. -/
theorem text_injective (h : Alphabet letter pad) (message other : List UInt8)
    (he : text letter pad message = text letter pad other) : message = other := by
  classical
  have hfilter : ∀ m, (text letter pad m).filter (· ≠ pad) = (digits m).map letter := by
    intro m
    rw [text, List.filter_append, List.filter_replicate, List.filter_eq_self.mpr]
    · simp
    · intro a ha
      exact decide_eq_true fun hp => pad_not_mem h m (hp ▸ ha)
  have hmap : (digits message).map letter = (digits other).map letter := by
    rw [← hfilter, ← hfilter, he]
  exact digits_injective message other
    (map_letter_injective h _ _ (digits_lt message) (digits_lt other) hmap)

end Base64Text
