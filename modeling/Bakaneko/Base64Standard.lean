import Bakaneko.AuthorizationHeader

/-!
# Base64 and its standard

The standard text of a message is that of RFC 4648. `encode` gives it to the
messages whose groups the sign of a character leaves alone, and `decode`
takes apart the texts without the letter A. A text of any other shape that
consists of readable letters is decoded to something, too.
-/

set_option autoImplicit false

namespace Bakaneko.Base64Standard
open Bakaneko.Native Bakaneko.Base64 Bakaneko.AuthorizationHeader Fallible

/-- No byte from 128 on stands in a group behind a byte that is not all ones. -/
def PlainGroups : Bytes → Prop
  | [] => True
  | [_] => True
  | [x, y] => 128 ≤ y → x = 255
  | x::y::z::rest =>
    (128 ≤ y → x = 255) ∧ (128 ≤ z → x = 255 ∧ y = 255) ∧ PlainGroups rest

theorem rfc4648_injective (message other : Bytes) (h : rfc4648 message = rfc4648 other) :
    message = other := Base64Text.text_injective alphabet_lawful message other h

theorem smear_plain (message : Bytes) : smear message = message ↔ PlainGroups message := by
  induction message using encodeGroups.induct with
  | case1 => simp [smear, PlainGroups]
  | case2 x => simp [smear, PlainGroups]
  | case3 x y =>
    rw [smear, PlainGroups]
    by_cases hy : 128 ≤ y
    · simp [hy, eq_comm]
    · simp [hy]
  | case4 x y z rest ih =>
    rw [smear, PlainGroups, ← ih]
    by_cases hz : 128 ≤ z
    · have h255 : (128:UInt8) ≤ 255 := by decide
      simp only [hz, if_true, List.cons_append, List.nil_append, List.cons.injEq, true_and,
        forall_const]
      constructor
      · rintro ⟨rfl, rfl, hr⟩
        exact ⟨fun _ => rfl, ⟨rfl, rfl⟩, hr⟩
      · rintro ⟨-, ⟨rfl, rfl⟩, hr⟩
        exact ⟨rfl, rfl, hr⟩
    · by_cases hy : 128 ≤ y
      · simp [hz, hy, eq_comm]
      · simp [hz, hy]

/-- `encode` is the standard encoding exactly for messages that are not too
long and whose groups stay as they are. -/
theorem encode_standard (message : Bytes) :
    encode message = some (rfc4648 message) ↔
      message.length ≤ 2147483646 ∧ PlainGroups message := by
  have hiff : encodeGroups message = rfc4648 message ↔ PlainGroups message := by
    rw [encodeGroups_eq, ← smear_plain]
    exact ⟨rfc4648_injective _ _, fun h => by rw [h]⟩
  unfold encode
  by_cases hl : message.length ≤ 2147483646
  · rw [if_pos hl, Option.some.injEq, hiff]
    exact ⟨fun h => ⟨hl, h⟩, fun h => h.2⟩
  · rw [if_neg hl]
    simp [hl]

/-- The two bytes of an e with an acute accent. -/
theorem encode_accent :
    encode [195, 169] = some (bytes "/6k=") ∧ rfc4648 [195, 169] = bytes "w6k=" ∧
      encode [195, 169] ≠ some (rfc4648 [195, 169]) := by
  have hsmeared : rfc4648 (smear [195, 169]) = bytes "/6k=" :=
    ((bytes_ofList ['/', '6', 'k', '=']).trans (by decide)).symm
  have hstandard : rfc4648 [195, 169] = bytes "w6k=" :=
    ((bytes_ofList ['w', '6', 'k', '=']).trans (by decide)).symm
  have hencode : encode [195, 169] = some (bytes "/6k=") := by
    rw [encode, if_pos (by decide), encodeGroups_eq, hsmeared]
  refine ⟨hencode, hstandard, ?_⟩
  rw [hencode, hstandard]
  decide

/-- The padding, or a letter of the alphabet other than the first. -/
def Readable (c : UInt8) : Prop := c = 61 ∨ ∃ n < 64, n ≠ 0 ∧ c = alphabet n

theorem index_readable (c : UInt8) : (∃ n, index c = some n) ↔ Readable c := by
  constructor
  · rintro ⟨n, hn⟩
    by_cases h0 : n = 0
    · exact .inl (index_pad c (h0 ▸ hn))
    · have hlt := index_lt c n hn
      exact .inr ⟨n, hlt, h0, index_digit c n hn h0⟩
  · rintro (rfl | ⟨n, hn, h0, rfl⟩)
    · exact ⟨0, index_padding⟩
    · exact ⟨n, index_alphabet n hn h0⟩

theorem decodeLoop_readable (value : BitVec 24) (shifts : ℕ) (output message : Bytes)
    (h : ∀ c ∈ message, Readable c) : ∃ r, decodeLoop value shifts output message = .ok r := by
  induction message generalizing value shifts output with
  | nil => exact ⟨output, rfl⟩
  | cons c message ih =>
    obtain ⟨n, hn⟩ := (index_readable c).mpr (h c List.mem_cons_self)
    have hrest : ∀ d ∈ message, Readable d := fun d hd => h d (List.mem_cons_of_mem c hd)
    rw [decodeLoop, hn]
    dsimp only
    split
    · exact ih _ _ _ hrest
    · exact ih _ _ _ hrest

/-- Text is decoded or refused by its letters alone. -/
theorem decode_cases (message : Bytes) :
    ((∀ c ∈ message, Readable c) ∧ ∃ r, decode message = .ok r) ∨
    (¬(∀ c ∈ message, Readable c) ∧ decode message = .error unknownCharacter) := by
  by_cases h : ∀ c ∈ message, Readable c
  · obtain ⟨r, hr⟩ := decodeLoop_readable 0 0 [] message h
    exact .inl ⟨h, stripNul r, by rw [decode, hr]; rfl⟩
  · refine .inr ⟨h, ?_⟩
    push Not at h
    obtain ⟨c, hc, hn⟩ := h
    have hnone : index c = none := by
      cases hi : index c with
      | none => rfl
      | some n => exact absurd ((index_readable c).mp ⟨n, hi⟩) hn
    rw [decode, decodeLoop_unknown 0 0 [] message c hc hnone]
    rfl

theorem last_ne_zero (message : Bytes) (h : ¬ zeroDigit message) (hne : message ≠ []) :
    message.getLast hne ≠ 0 := by
  induction message using Base64Text.digits.induct with
  | case1 => exact absurd rfl hne
  | case2 x =>
    rintro rfl
    simp [zeroDigit] at h
  | case3 x y =>
    intro hy
    obtain rfl : y = 0 := hy
    simp [zeroDigit] at h
  | case4 x y z rest ih =>
    rw [zeroDigit] at h
    push Not at h
    by_cases hr : rest = []
    · subst hr
      intro hz
      obtain rfl : z = 0 := hz
      simp at h
    · have hlast : (x::y::z::rest).getLast hne = rest.getLast hr := by
        rw [List.getLast_cons (by simp), List.getLast_cons (by simp), List.getLast_cons hr]
      rw [hlast]
      exact ih h.2.2.2.2 hr

theorem stripNul_kept (message : Bytes) (h : ¬ zeroDigit message) : stripNul message = message := by
  rw [stripNul, List.rdropWhile_eq_self_iff]
  intro hne
  simpa using last_ne_zero message h hne

/-- The text of a message is decoded to it exactly when its letters are readable. -/
theorem decode_text (message : Bytes) :
    decode (rfc4648 message) = .ok message ↔ ∀ c ∈ rfc4648 message, Readable c := by
  obtain ⟨hr, r, hd⟩ | ⟨hr, hd⟩ := decode_cases (rfc4648 message)
  · refine ⟨fun _ => hr, fun _ => ?_⟩
    obtain ⟨-, he⟩ | ⟨hz, he⟩ := decode_rfc4648 message
    · rw [hd] at he
      cases he
    · rw [he, stripNul_kept message hz]
  · refine ⟨fun h => ?_, fun h => absurd h hr⟩
    rw [hd] at h
    cases h

/-- What `decode` owes a text: the message it is the text of, or an exception. -/
def DecodesAsStandard (text : Bytes) : Prop :=
  (∀ message, text = rfc4648 message → decode text = .ok message) ∧
  ((∀ message, text ≠ rfc4648 message) → ∃ what, decode text = .error (.outOfRange what))

/-- `decode` does as the standard says exactly when the text is that of a
message and readable, or neither. -/
theorem decode_standard (text : Bytes) :
    DecodesAsStandard text ↔ ((∃ message, text = rfc4648 message) ↔ ∀ c ∈ text, Readable c) := by
  constructor
  · rintro ⟨hright, hwrong⟩
    constructor
    · rintro ⟨message, rfl⟩
      exact (decode_text message).mp (hright message rfl)
    · intro hread
      by_contra hn
      obtain ⟨what, he⟩ := hwrong fun message h => hn ⟨message, h⟩
      obtain ⟨-, r, hd⟩ | ⟨hr, -⟩ := decode_cases text
      · rw [hd] at he
        cases he
      · exact hr hread
  · intro h
    constructor
    · rintro message rfl
      exact (decode_text message).mpr (h.mp ⟨message, rfl⟩)
    · intro hn
      obtain ⟨hr, -⟩ | ⟨-, hd⟩ := decode_cases text
      · obtain ⟨message, hm⟩ := h.mpr hr
        exact absurd hm (hn message)
      · exact ⟨_, hd⟩

theorem decode_zero : ¬ DecodesAsStandard (bytes "AA==") := by
  intro h
  have htext : bytes "AA==" = rfc4648 [0] := (bytes_ofList ['A', 'A', '=', '=']).trans (by decide)
  have hd := h.1 [0] htext
  obtain ⟨-, he⟩ | ⟨hz, -⟩ := decode_rfc4648 [0]
  · rw [htext, he] at hd
    cases hd
  · exact hz (.inl rfl)

end Bakaneko.Base64Standard
