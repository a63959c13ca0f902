import Bakaneko.Text
import Bakaneko.Library.Base64Text

/-!
# Base64 of the common library

`encode` collects three characters in 24 bits. A character is a signed `char`
and is widened with its sign, so a byte from 128 on overwrites the bytes in
front of it. `decode` accepts no letter of index 0 and strips the zero bytes
at the end. What a text becomes on the way there and back is computed here
from its bytes.
-/

set_option autoImplicit false

namespace Bakaneko.Base64
open Bakaneko.Native

def table : Bytes := bytes "ABCDEFGHIJKLMNOPQRSTUVWXYZabcdefghijklmnopqrstuvwxyz0123456789+/"

/-- `value <<= 8` and `value |= uint32_t(c)` for a signed `char`. -/
def push (value : BitVec 24) (c : UInt8) : BitVec 24 :=
  value <<< 8 ||| c.toBitVec.signExtend 24

def letter (value : BitVec 24) (count b : ℕ) : UInt8 :=
  if b < count then table.getD (value >>> (6*(3-b)) &&& 0b111111).toNat 0 else 61

def letters (value : BitVec 24) (count : ℕ) : Bytes := (List.range 4).map (letter value count)

def encodeGroups : Bytes → Bytes
  | [] => []
  | [x] => letters (push 0 x <<< 8 <<< 8) 2
  | [x, y] => letters (push (push 0 x) y <<< 8) 3
  | x::y::z::rest => letters (push (push (push 0 x) y) z) 4++encodeGroups rest

/-- The counter of the loop is an `int`, which overflows behind longer messages. -/
def encode (message : Bytes) : Option Bytes :=
  if message.length ≤ 2147483646 then some (encodeGroups message) else none

/-- The index `decode` shifts in, nothing where it throws. -/
def index (c : UInt8) : Option ℕ :=
  if ¬ (0 < table.idxOf c ∧ table.idxOf c < table.length) ∧ c ≠ 61 then none
  else some (if c = 61 then 0 else table.idxOf c)

-- a letter that is not known would have the whole table evaluated
attribute [irreducible] index

def characters (value : BitVec 24) : Bytes :=
  (List.range 3).map fun a => UInt8.ofNat (value >>> (8*(2-a)) &&& 0xFF).toNat

def unknownCharacter : StdException := .outOfRange (bytes "(Base64::decode) Unknown character")

def decodeLoop : BitVec 24 → ℕ → Bytes → Bytes → Except StdException Bytes
  | _, _, output, [] => .ok output
  | value, shifts, output, c::message => match index c with
    | none => .error unknownCharacter
    | some n =>
      let value := value <<< 6 ||| BitVec.ofNat 24 n
      if shifts+1 = 4 then decodeLoop 0 0 (output++characters value) message
      else decodeLoop value (shifts+1) output message

def stripNul (s : Bytes) : Bytes := s.rdropWhile (· = 0)

def decode (message : Bytes) : Except StdException Bytes :=
  (decodeLoop 0 0 [] message).map stripNul

/-- The letters of the standard, without the table of the code. -/
def alphabet (n : ℕ) : UInt8 :=
  UInt8.ofNat (if n < 26 then 65+n else if n < 52 then 71+n else if n < 62 then n-4
    else if n = 62 then 43 else 47)

/-- The text the standard gives a message. -/
def rfc4648 (message : Bytes) : Bytes := Base64Text.text alphabet 61 message

/-- The bytes of a message as they stand in the groups of `encode`. -/
def smear : Bytes → Bytes
  | [] => []
  | [x] => [x]
  | [x, y] => if 128 ≤ y then [255, y] else [x, y]
  | x::y::z::rest =>
    (if 128 ≤ z then [255, 255, z] else if 128 ≤ y then [255, y, z] else [x, y, z])++smear rest

/-- Some six bits that make a letter are all zero. -/
def zeroDigit : Bytes → Prop
  | [] => False
  | [x] => x.toNat/4 = 0 ∨ x.toNat%4*16 = 0
  | [x, y] => x.toNat/4 = 0 ∨ x.toNat%4*16+y.toNat/16 = 0 ∨ y.toNat%16*4 = 0
  | x::y::z::rest =>
    x.toNat/4 = 0 ∨ x.toNat%4*16+y.toNat/16 = 0 ∨ y.toNat%16*4+z.toNat/64 = 0 ∨
      z.toNat%64 = 0 ∨ zeroDigit rest

theorem msb_char (c : UInt8) : c.toBitVec.msb = decide (128 ≤ c.toNat) := by
  rw [BitVec.msb_eq_decide]
  rfl

theorem push_low (value : BitVec 24) (c : UInt8) (h : c.toNat < 128) :
    (push value c).toNat = value.toNat%65536*256+c.toNat := by
  have hmsb : c.toBitVec.msb = false := by
    rw [msb_char]
    exact decide_eq_false (by omega)
  have hs : value.toNat <<< 8 % 2^24 = 2^8*(value.toNat%65536) := by
    rw [Nat.shiftLeft_eq]
    omega
  have hc : c.toBitVec.toNat % 2^24 = c.toNat := Nat.mod_eq_of_lt (by have := c.toBitVec.isLt; omega)
  rw [push, BitVec.signExtend_eq_setWidth_of_msb_false hmsb, BitVec.toNat_or,
    BitVec.toNat_shiftLeft, BitVec.toNat_setWidth, hs, hc,
    ← Nat.two_pow_add_eq_or_of_lt (by omega)]
  omega

/-- The sign of the character replaces everything in front of it. -/
theorem push_high (value : BitVec 24) (c : UInt8) (h : 128 ≤ c.toNat) :
    (push value c).toNat = 16776960+c.toNat := by
  have hmsb : c.toBitVec.msb = true := by
    rw [msb_char]
    exact decide_eq_true h
  have hor : push value c = c.toBitVec.signExtend 24 := by
    unfold push
    ext i hi
    by_cases h8 : i < 8
    · simp [h8]
    · simp [BitVec.getElem_signExtend, h8, hmsb]
  have hlt := c.toNat_lt
  have hc : c.toBitVec.toNat = c.toNat := rfl
  rw [hor, BitVec.toNat_signExtend, hmsb, BitVec.toNat_setWidth, hc]
  simp only [if_true]
  omega

theorem shift_eight (value : BitVec 24) :
    (value <<< 8).toNat = value.toNat%65536*256 := by
  rw [BitVec.toNat_shiftLeft, Nat.shiftLeft_eq]
  omega

/-- The three bytes of a value as a number. -/
def triple (x y z : UInt8) : ℕ := x.toNat*65536+y.toNat*256+z.toNat

/-- The last byte of a value is the character, whatever its sign. -/
theorem push_last (value : BitVec 24) (c : UInt8) : (push value c).toNat%256 = c.toNat := by
  have hc := c.toNat_lt
  obtain h | h := Nat.lt_or_ge c.toNat 128
  · rw [push_low value c h]
    omega
  · rw [push_high value c h]
    omega

theorem push_one (x : UInt8) : (push 0 x <<< 8 <<< 8).toNat = triple x 0 0 := by
  have hx := push_last 0 x
  rw [shift_eight, shift_eight]
  change _ = x.toNat*65536+0*256+0
  omega

theorem push_two (x y : UInt8) :
    (push (push 0 x) y <<< 8).toNat = if 128 ≤ y then triple 255 y 0 else triple x y 0 := by
  have hx := push_last 0 x
  have hy := y.toNat_lt
  rw [shift_eight]
  have hle : 128 ≤ y ↔ 128 ≤ y.toNat := Iff.rfl
  simp only [hle]
  split
  case isTrue h =>
    rw [push_high _ y h]
    change _ = 255*65536+y.toNat*256+0
    omega
  case isFalse h =>
    rw [push_low _ y (by omega)]
    change _ = x.toNat*65536+y.toNat*256+0
    omega

theorem push_three (x y z : UInt8) : (push (push (push 0 x) y) z).toNat =
    if 128 ≤ z then triple 255 255 z else if 128 ≤ y then triple 255 y z else triple x y z := by
  have hx := push_last 0 x
  have hy := y.toNat_lt
  have hle : ∀ c : UInt8, 128 ≤ c ↔ 128 ≤ c.toNat := fun c => Iff.rfl
  simp only [hle]
  split
  case isTrue h =>
    rw [push_high _ z h]
    simp [triple]
  case isFalse h =>
    rw [push_low _ z (by omega)]
    split
    case isTrue h =>
      rw [push_high _ y h]
      simp [triple]
      omega
    case isFalse h =>
      rw [push_low _ y (by omega), triple]
      omega

/-- The six bits behind letter `b`. -/
def sextet (value : BitVec 24) (b : ℕ) : ℕ := value.toNat/2^(6*(3-b))%64

theorem letter_eq (value : BitVec 24) (count b : ℕ) :
    letter value count b = if b < count then table.getD (sextet value b) 0 else 61 := by
  have hand : (value >>> (6*(3-b)) &&& 0b111111).toNat = sextet value b := by
    rw [BitVec.toNat_and, BitVec.toNat_ushiftRight, Nat.shiftRight_eq_div_pow]
    exact Nat.and_two_pow_sub_one_eq_mod _ 6
  rw [letter, hand]

theorem alphabet_toNat (n : ℕ) (hn : n < 64) : (alphabet n).toNat =
    if n < 26 then 65+n else if n < 52 then 71+n else if n < 62 then n-4
      else if n = 62 then 43 else 47 := by
  rw [alphabet, UInt8.toNat_ofNat', Nat.mod_eq_of_lt]
  split_ifs <;> omega

theorem alphabet_lawful : Base64Text.Alphabet alphabet 61 where
  letters := by
    intro m hm n hn h
    have hvalue := congrArg UInt8.toNat h
    rw [alphabet_toNat m hm, alphabet_toNat n hn] at hvalue
    grind
  padding := by
    intro n hn h
    have hvalue := congrArg UInt8.toNat h
    have hpad : (61 : UInt8).toNat = 61 := rfl
    rw [alphabet_toNat n hn] at hvalue
    grind

/-- The table of the code is the alphabet of the standard. -/
theorem table_eq : table = (List.range 64).map alphabet :=
  (bytes_ofList ((List.range 64).map fun n => Char.ofNat (alphabet n).toNat)).trans (by decide)

theorem table_length : table.length = 64 := by rw [table_eq, List.length_map, List.length_range]

theorem alphabet_table (n : ℕ) (hn : n < 64) : table.getD n 0 = alphabet n := by
  rw [table_eq, List.getD_eq_getElem?_getD, List.getElem?_map, List.getElem?_range hn]
  rfl

theorem table_nodup : table.Nodup := by
  rw [table_eq]
  refine List.nodup_range.map_on fun m hm n hn h => ?_
  exact alphabet_lawful.letters m (List.mem_range.mp hm) n (List.mem_range.mp hn) h

theorem index_padding : index 61 = some 0 := by simp [index]

theorem index_table (n : ℕ) (hn : n < 64) :
    index (table.getD n 0) = if n = 0 then none else some n := by
  have hpad : table.getD n 0 ≠ 61 := by
    rw [alphabet_table n hn]
    exact alphabet_lawful.padding n hn
  have hat : table.idxOf (table.getD n 0) = n := by
    have hlt : n < table.length := by rwa [table_length]
    rw [List.getD_eq_getElem?_getD, List.getElem?_eq_getElem hlt]
    exact table_nodup.idxOf_getElem n hlt
  rw [index, hat, table_length, if_neg hpad]
  by_cases h0 : n = 0
  · rw [if_pos ⟨by omega, hpad⟩, if_pos h0]
  · rw [if_neg fun h => h.1 ⟨by omega, hn⟩, if_neg h0]

theorem index_alphabet (n : ℕ) (hn : n < 64) (h0 : n ≠ 0) : index (alphabet n) = some n := by
  rw [← alphabet_table n hn, index_table n hn, if_neg h0]

theorem index_letter (value : BitVec 24) (count b : ℕ) (hpad : count ≤ b → sextet value b = 0) :
    index (letter value count b) =
      if b < count ∧ sextet value b = 0 then none else some (sextet value b) := by
  rw [letter_eq]
  by_cases hb : b < count
  · rw [if_pos hb, index_table (sextet value b) (Nat.mod_lt _ (by decide))]
    simp [hb]
  · rw [if_neg hb, if_neg (by omega), hpad (by omega), index_padding]

theorem index_lt (c : UInt8) (n : ℕ) (h : index c = some n) : n < 64 := by
  have hl := table_length
  unfold index at h
  split at h
  · cases h
  case isFalse hc =>
    cases h
    by_cases h61 : c = 61
    · simp [h61]
    · rw [not_and', not_not] at hc
      have := hc h61
      rw [if_neg h61]
      omega

theorem shift_six (value : BitVec 24) (n : ℕ) (hn : n < 64) :
    (value <<< 6 ||| BitVec.ofNat 24 n).toNat = value.toNat%262144*64+n := by
  have hs : value.toNat <<< 6 % 2^24 = 2^6*(value.toNat%262144) := by
    rw [Nat.shiftLeft_eq]
    omega
  have hm : n % 2^24 = n := Nat.mod_eq_of_lt (by omega)
  rw [BitVec.toNat_or, BitVec.toNat_shiftLeft, BitVec.toNat_ofNat, hs, hm,
    ← Nat.two_pow_add_eq_or_of_lt hn]
  omega

/-- The value of four indices. -/
def quad (a b c d : ℕ) : BitVec 24 := BitVec.ofNat 24 (a*262144+b*4096+c*64+d)

theorem decodeLoop_four (output message : Bytes) (l m n o : UInt8) (a b c d : ℕ)
    (hl : index l = some a) (hm : index m = some b) (hn : index n = some c)
    (ho : index o = some d) :
    decodeLoop 0 0 output (l::m::n::o::message) =
      decodeLoop 0 0 (output++characters (quad a b c d)) message := by
  have ha := index_lt l a hl
  have hb := index_lt m b hm
  have hc := index_lt n c hn
  have hd := index_lt o d ho
  have hv : ((((0#24 <<< 6 ||| BitVec.ofNat 24 a) <<< 6 ||| BitVec.ofNat 24 b) <<< 6 |||
      BitVec.ofNat 24 c) <<< 6 ||| BitVec.ofNat 24 d) = quad a b c d := by
    apply BitVec.eq_of_toNat_eq
    rw [shift_six _ d hd, shift_six _ c hc, shift_six _ b hb, shift_six _ a ha, quad,
      BitVec.toNat_ofNat, BitVec.toNat_ofNat]
    omega
  rw [← hv]
  simp [decodeLoop, hl, hm, hn, ho]

theorem quad_sextets (value : BitVec 24) :
    quad (sextet value 0) (sextet value 1) (sextet value 2) (sextet value 3) = value := by
  apply BitVec.eq_of_toNat_eq
  have := value.isLt
  rw [quad, BitVec.toNat_ofNat]
  simp only [sextet]
  omega

theorem decodeLoop_unknown (value : BitVec 24) (shifts : ℕ) (output message : Bytes) (c : UInt8)
    (hc : c ∈ message) (hn : index c = none) :
    decodeLoop value shifts output message = .error unknownCharacter := by
  induction message generalizing value shifts output with
  | nil => cases hc
  | cons d message ih =>
    rw [decodeLoop]
    cases hd : index d with
    | none => rfl
    | some n =>
      have hrest : c ∈ message := by
        refine (List.mem_cons.mp hc).resolve_left ?_
        rintro rfl
        rw [hn] at hd
        cases hd
      dsimp only
      split <;> exact ih _ _ _ hrest

/-- Four letters of `encode` give back their value unless one of them is `A`. -/
theorem decodeLoop_letters (value : BitVec 24) (count : ℕ) (output message : Bytes)
    (hpad : ∀ b, count ≤ b → b < 4 → sextet value b = 0) :
    ((∃ b < 4, b < count ∧ sextet value b = 0) ∧
      decodeLoop 0 0 output (letters value count++message) = .error unknownCharacter) ∨
    ((¬ ∃ b < 4, b < count ∧ sextet value b = 0) ∧
      decodeLoop 0 0 output (letters value count++message) =
        decodeLoop 0 0 (output++characters value) message) := by
  have hi : ∀ b < 4, index (letter value count b) =
      if b < count ∧ sextet value b = 0 then none else some (sextet value b) :=
    fun b hb => index_letter value count b fun hc => hpad b hc hb
  by_cases h : ∃ b < 4, b < count ∧ sextet value b = 0
  · refine .inl ⟨h, ?_⟩
    obtain ⟨b, hb, hz⟩ := h
    refine decodeLoop_unknown _ _ _ _ (letter value count b) ?_ (by rw [hi b hb, if_pos hz])
    exact List.mem_append_left _ (List.mem_map.mpr ⟨b, List.mem_range.mpr hb, rfl⟩)
  · refine .inr ⟨h, ?_⟩
    have hsome : ∀ b < 4, index (letter value count b) = some (sextet value b) := by
      intro b hb
      rw [hi b hb, if_neg fun hz => h ⟨b, hb, hz⟩]
    refine (decodeLoop_four output message _ _ _ _ _ _ _ _ (hsome 0 (by decide))
      (hsome 1 (by decide)) (hsome 2 (by decide)) (hsome 3 (by decide))).trans ?_
    rw [quad_sextets]

theorem characters_triple (value : BitVec 24) (x y z : UInt8) (h : value.toNat = triple x y z) :
    characters value = [x, y, z] := by
  have hx := x.toNat_lt
  have hy := y.toNat_lt
  have hz := z.toNat_lt
  have hand : ∀ k, (value >>> k &&& 0xFF).toNat = value.toNat/2^k%256 := by
    intro k
    rw [BitVec.toNat_and, BitVec.toNat_ushiftRight, Nat.shiftRight_eq_div_pow]
    exact Nat.and_two_pow_sub_one_eq_mod _ 8
  have hbyte : ∀ (n : ℕ) (c : UInt8), n = c.toNat → UInt8.ofNat n = c := by
    rintro n c rfl
    exact UInt8.ofNat_toNat
  have h0 : (value >>> 16 &&& 0xFF).toNat = x.toNat := by rw [hand, h, triple]; omega
  have h1 : (value >>> 8 &&& 0xFF).toNat = y.toNat := by rw [hand, h, triple]; omega
  have h2 : (value >>> 0 &&& 0xFF).toNat = z.toNat := by rw [hand, h, triple]; omega
  change [UInt8.ofNat (value >>> 16 &&& 0xFF).toNat, UInt8.ofNat (value >>> 8 &&& 0xFF).toNat,
    UInt8.ofNat (value >>> 0 &&& 0xFF).toNat] = [x, y, z]
  rw [hbyte _ x h0, hbyte _ y h1, hbyte _ z h2]

theorem sextet_triple (value : BitVec 24) (x y z : UInt8) (h : value.toNat = triple x y z) :
    sextet value 0 = x.toNat/4 ∧ sextet value 1 = x.toNat%4*16+y.toNat/16 ∧
      sextet value 2 = y.toNat%16*4+z.toNat/64 ∧ sextet value 3 = z.toNat%64 := by
  have hx := x.toNat_lt
  have hy := y.toNat_lt
  have hz := z.toNat_lt
  simp only [sextet, h, triple]
  omega

theorem below_four (p : ℕ → Prop) : (∃ b < 4, p b) ↔ p 0 ∨ p 1 ∨ p 2 ∨ p 3 := by
  constructor
  · rintro ⟨b, hb, hp⟩
    interval_cases b <;> simp [hp]
  · rintro (h | h | h | h)
    exacts [⟨0, by decide, h⟩, ⟨1, by decide, h⟩, ⟨2, by decide, h⟩, ⟨3, by decide, h⟩]

theorem zeroDigit_cons (x y z : UInt8) (rest : Bytes) (value : BitVec 24)
    (h : value.toNat = triple x y z) :
    zeroDigit (x::y::z::rest) ↔ (∃ b < 4, b < 4 ∧ sextet value b = 0) ∨ zeroDigit rest := by
  obtain ⟨h0, h1, h2, h3⟩ := sextet_triple value x y z h
  rw [zeroDigit, below_four, h0, h1, h2, h3]
  simp [or_assoc]

theorem smear_two (x y : UInt8) : ∃ x', smear [x, y] = [x', y] ∧
    (push (push 0 x) y <<< 8).toNat = triple x' y 0 := by
  rw [push_two, smear]
  split
  · exact ⟨255, rfl, rfl⟩
  · exact ⟨x, rfl, rfl⟩

theorem smear_three (x y z : UInt8) (rest : Bytes) :
    ∃ x' y', smear (x::y::z::rest) = x'::y'::z::smear rest ∧
      (push (push (push 0 x) y) z).toNat = triple x' y' z := by
  rw [push_three, smear]
  split
  · exact ⟨255, 255, rfl, rfl⟩
  split
  · exact ⟨255, y, rfl, rfl⟩
  · exact ⟨x, y, rfl, rfl⟩

/-- The padded group at the end gives its bytes and zeros for the rest. -/
theorem decodeLoop_padded (value : BitVec 24) (count : ℕ) (output bytes : Bytes) (x y z : UInt8)
    (hv : value.toNat = triple x y z) (hpad : ∀ b, count ≤ b → b < 4 → sextet value b = 0)
    (k : ℕ) (hz : (∃ b < 4, b < count ∧ sextet value b = 0) ↔ zeroDigit bytes)
    (hk : [x, y, z] = bytes++List.replicate k 0) :
    (zeroDigit bytes ∧ decodeLoop 0 0 output (letters value count) = .error unknownCharacter) ∨
    (¬ zeroDigit bytes ∧ ∃ k, decodeLoop 0 0 output (letters value count) =
      .ok (output++bytes++List.replicate k 0)) := by
  have hl := decodeLoop_letters value count output [] hpad
  rw [List.append_nil, hz, characters_triple value x y z hv] at hl
  refine hl.imp_right fun h => ⟨h.1, k, ?_⟩
  rw [h.2, hk, decodeLoop, List.append_assoc]

theorem letters_eq (value : BitVec 24) (count : ℕ) : letters value count =
    (List.range 4).map fun b => if b < count then alphabet (sextet value b) else 61 := by
  refine List.map_congr_left fun b _ => ?_
  rw [letter_eq, alphabet_table (sextet value b) (Nat.mod_lt _ (by decide))]

theorem rfc4648_one (x : UInt8) (value : BitVec 24) (h : value.toNat = triple x 0 0) :
    rfc4648 [x] = letters value 2 := by
  obtain ⟨h0, h1, -, -⟩ := sextet_triple value x 0 0 h
  rw [letters_eq]
  change _ = [alphabet (sextet value 0), alphabet (sextet value 1), 61, 61]
  rw [h0, h1]
  rfl

theorem rfc4648_two (x y : UInt8) (value : BitVec 24) (h : value.toNat = triple x y 0) :
    rfc4648 [x, y] = letters value 3 := by
  obtain ⟨h0, h1, h2, -⟩ := sextet_triple value x y 0 h
  rw [letters_eq]
  change _ = [alphabet (sextet value 0), alphabet (sextet value 1), alphabet (sextet value 2), 61]
  rw [h0, h1, h2]
  rfl

theorem rfc4648_three (x y z : UInt8) (rest : Bytes) (value : BitVec 24)
    (h : value.toNat = triple x y z) :
    rfc4648 (x::y::z::rest) = letters value 4++rfc4648 rest := by
  obtain ⟨h0, h1, h2, h3⟩ := sextet_triple value x y z h
  have hpad : Base64Text.padding (x::y::z::rest).length = Base64Text.padding rest.length := by
    simp only [Base64Text.padding, List.length_cons]
    omega
  rw [letters_eq, rfc4648, Base64Text.text, hpad]
  change _ = [alphabet (sextet value 0), alphabet (sextet value 1), alphabet (sextet value 2),
    alphabet (sextet value 3)]++rfc4648 rest
  rw [h0, h1, h2, h3]
  rfl

/-- `encode` gives the standard text of the smeared message. -/
theorem encodeGroups_eq (message : Bytes) : encodeGroups message = rfc4648 (smear message) := by
  induction message using encodeGroups.induct with
  | case1 => rfl
  | case2 x => rw [encodeGroups, smear, rfc4648_one x _ (push_one x)]
  | case3 x y =>
    obtain ⟨x', hs, hv⟩ := smear_two x y
    rw [encodeGroups, hs, rfc4648_two x' y _ hv]
  | case4 x y z rest ih =>
    obtain ⟨x', y', hs, hv⟩ := smear_three x y z rest
    rw [encodeGroups, hs, rfc4648_three x' y' z _ _ hv, ih]

theorem triple_value (x y z : UInt8) : (BitVec.ofNat 24 (triple x y z)).toNat = triple x y z := by
  have hx := x.toNat_lt
  have hy := y.toNat_lt
  have hz := z.toNat_lt
  rw [BitVec.toNat_ofNat]
  exact Nat.mod_eq_of_lt (by unfold triple; omega)

/-- What `decode` makes of the standard text of a message: an exception where
some six bits are zero, else its bytes up to zeros in the last group. -/
theorem decodeLoop_rfc4648 (message output : Bytes) :
    (zeroDigit message ∧ decodeLoop 0 0 output (rfc4648 message) = .error unknownCharacter) ∨
    (¬ zeroDigit message ∧ ∃ k, decodeLoop 0 0 output (rfc4648 message) =
      .ok (output++message++List.replicate k 0)) := by
  induction message using Base64Text.digits.induct generalizing output with
  | case1 => exact .inr ⟨id, 0, by simp [rfc4648, Base64Text.text, Base64Text.digits,
      Base64Text.padding, decodeLoop]⟩
  | case2 x =>
    have hv := triple_value x 0 0
    obtain ⟨h0, h1, h2, h3⟩ := sextet_triple _ x 0 0 hv
    rw [rfc4648_one x _ hv]
    have hpad : ∀ b, 2 ≤ b → b < 4 → sextet (BitVec.ofNat 24 (triple x 0 0)) b = 0 := by
      intro b hb hb4
      interval_cases b
      exacts [h2, h3]
    apply decodeLoop_padded _ 2 output [x] x 0 0 hv hpad 2 _ rfl
    rw [below_four, h0, h1]
    simp [zeroDigit]
  | case3 x y =>
    have hv := triple_value x y 0
    obtain ⟨h0, h1, h2, h3⟩ := sextet_triple _ x y 0 hv
    rw [rfc4648_two x y _ hv]
    have hpad : ∀ b, 3 ≤ b → b < 4 → sextet (BitVec.ofNat 24 (triple x y 0)) b = 0 := by
      intro b hb hb4
      interval_cases b
      exact h3
    apply decodeLoop_padded _ 3 output [x, y] x y 0 hv hpad 1 _ rfl
    rw [below_four, h0, h1, h2]
    simp [zeroDigit]
  | case4 x y z rest ih =>
    have hv := triple_value x y z
    have hl := decodeLoop_letters (BitVec.ofNat 24 (triple x y z)) 4 output (rfc4648 rest)
      (fun b hb hb4 => by omega)
    rw [rfc4648_three x y z rest _ hv, zeroDigit_cons x y z rest _ hv]
    obtain ⟨hd, hl⟩ | ⟨hd, hl⟩ := hl
    · exact .inl ⟨.inl hd, hl⟩
    · rw [hl, characters_triple _ x y z hv]
      obtain ⟨hr, he⟩ | ⟨hr, k, he⟩ := ih (output++[x, y, z])
      · exact .inl ⟨.inr hr, he⟩
      · refine .inr ⟨fun h => h.elim hd hr, k, ?_⟩
        rw [he]
        simp

theorem stripNul_zeros (s : Bytes) (k : ℕ) : stripNul (s++List.replicate k 0) = stripNul s := by
  induction k with
  | zero => simp
  | succ k ih =>
    rw [List.replicate_succ', ← List.append_assoc]
    exact (List.rdropWhile_concat_pos _ _ _ (by decide)).trans ih

theorem decode_rfc4648 (message : Bytes) :
    (zeroDigit message ∧ decode (rfc4648 message) = .error unknownCharacter) ∨
    (¬ zeroDigit message ∧ decode (rfc4648 message) = .ok (stripNul message)) := by
  obtain ⟨hz, he⟩ | ⟨hz, k, he⟩ := decodeLoop_rfc4648 message []
  · exact .inl ⟨hz, by rw [decode, he]; rfl⟩
  · refine .inr ⟨hz, ?_⟩
    rw [decode, he, List.nil_append, Except.map, stripNul_zeros]

theorem decode_encodeGroups (message : Bytes) :
    (zeroDigit (smear message) ∧ decode (encodeGroups message) = .error unknownCharacter) ∨
    (¬ zeroDigit (smear message) ∧
      decode (encodeGroups message) = .ok (stripNul (smear message))) := by
  rw [encodeGroups_eq]
  exact decode_rfc4648 (smear message)

theorem stripNul_eq (s t : Bytes) (h : stripNul s = t) : ∃ k, s = t++List.replicate k 0 := by
  induction s using List.reverseRecOn generalizing t with
  | nil => exact ⟨0, by rw [← h]; rfl⟩
  | append_singleton s c ih =>
    by_cases hc : c = 0
    · obtain ⟨k, hk⟩ := ih t ((List.rdropWhile_concat_pos _ s c (by simp [hc])).symm.trans h)
      refine ⟨k+1, ?_⟩
      rw [List.replicate_succ', ← List.append_assoc, ← hk, hc]
    · refine ⟨0, ?_⟩
      rw [← h]
      exact ((List.append_nil _).trans (List.rdropWhile_concat_neg _ s c (by simp [hc]))).symm

theorem stripNul_append (s t : Bytes) (c : UInt8) (hc : c ≠ 0) :
    stripNul (s++c::t) = s++c::stripNul t := by
  induction t using List.reverseRecOn with
  | nil => exact List.rdropWhile_concat_neg _ s c (by simp [hc])
  | append_singleton t d ih =>
    have hassoc : s++c::(t++[d]) = (s++c::t)++[d] := by simp
    by_cases hd : d = 0
    · have hl := List.rdropWhile_concat_pos (fun x : UInt8 => decide (x = 0)) (s++c::t) d (by simp [hd])
      have hr := List.rdropWhile_concat_pos (fun x : UInt8 => decide (x = 0)) t d (by simp [hd])
      rw [hassoc]
      unfold stripNul at *
      rw [hl, hr, ih]
    · have hl := List.rdropWhile_concat_neg (fun x : UInt8 => decide (x = 0)) (s++c::t) d (by simp [hd])
      have hr := List.rdropWhile_concat_neg (fun x : UInt8 => decide (x = 0)) t d (by simp [hd])
      rw [hassoc]
      unfold stripNul
      rw [hl, hr, hassoc]

/-- The bytes of smeared text are the old ones or all ones. -/
theorem smear_bytes (message : Bytes) :
    List.Forall₂ (fun c d => d = c ∨ d = 255) message (smear message) := by
  induction message using encodeGroups.induct with
  | case1 => exact .nil
  | case2 x => exact .cons (.inl rfl) .nil
  | case3 x y =>
    rw [smear]
    split
    · exact .cons (.inr rfl) (.cons (.inl rfl) .nil)
    · exact .cons (.inl rfl) (.cons (.inl rfl) .nil)
  | case4 x y z rest ih =>
    rw [smear]
    split
    · exact .cons (.inr rfl) (.cons (.inr rfl) (.cons (.inl rfl) ih))
    split
    · exact .cons (.inr rfl) (.cons (.inl rfl) (.cons (.inl rfl) ih))
    · exact .cons (.inl rfl) (.cons (.inl rfl) (.cons (.inl rfl) ih))

/-- A part of smeared text without all ones stood in the message. -/
theorem smear_prefix (message s t : Bytes) (hs : ∀ c ∈ s, c ≠ 255) (h : smear message = s++t) :
    ∃ t', message = s++t' := by
  have hf := smear_bytes message
  rw [h] at hf
  clear h
  induction s generalizing message with
  | nil => exact ⟨message, rfl⟩
  | cons d s ih =>
    cases hf with
    | @cons c _ rest _ hd hf =>
      obtain ⟨t', rfl⟩ := ih rest (fun c hc => hs c (List.mem_cons_of_mem d hc)) hf
      obtain rfl := hd.resolve_right (hs d List.mem_cons_self)
      exact ⟨t', rfl⟩

end Bakaneko.Base64
