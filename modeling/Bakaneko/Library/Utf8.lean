import Mathlib.Data.List.Basic
import Mathlib.Tactic.Common

/-!
# UTF-8 text and its pieces

The bytes of a text are the encodings of its characters. A piece of such
bytes ends between two characters or inside one. Decoding with replacement
takes a piece on its own: what is no character becomes replacement
characters, at least one for a part of a character.
-/

set_option autoImplicit false

namespace Utf8

def encode (text : List Char) : List UInt8 := text.flatMap String.utf8EncodeChar

def Valid (s : List UInt8) : Prop := ∃ text, s = encode text

/-- A byte that begins no character. -/
def Inner (b : UInt8) : Prop := ¬ b.IsUTF8FirstByte

def decodeChar? (s : List UInt8) : Option Char := s.toByteArray.utf8DecodeChar? 0

theorem decodeChar?_encode (c : Char) (rest : List UInt8) :
    decodeChar? (String.utf8EncodeChar c++rest) = some c := by
  rw [decodeChar?, List.toByteArray_append]
  exact ByteArray.utf8DecodeChar?_utf8EncodeChar_append

theorem encode_of_decodeChar? (s : List UInt8) (c : Char) (h : decodeChar? s = some c) :
    ∃ rest, s = String.utf8EncodeChar c++rest := by
  obtain ⟨rest, hr⟩ := ByteArray.exists_of_utf8DecodeChar?_eq_some h
  refine ⟨rest.data.toList, ?_⟩
  have hl := congrArg (fun b => b.data.toList) hr
  simpa using hl

theorem encode_append (s t : List Char) : encode (s++t) = encode s++encode t :=
  List.flatMap_append

theorem encode_cons (c : Char) (t : List Char) :
    encode (c::t) = String.utf8EncodeChar c++encode t := List.flatMap_cons

/-- Two texts that begin with the same bytes begin with the same character. -/
theorem encodeChar_unique (c d : Char) (s t : List UInt8)
    (h : String.utf8EncodeChar c++s = String.utf8EncodeChar d++t) : c = d ∧ s = t := by
  have hc := decodeChar?_encode c s
  rw [h, decodeChar?_encode] at hc
  cases hc
  exact ⟨rfl, List.append_cancel_left h⟩

theorem encode_injective (s t : List Char) (h : encode s = encode t) : s = t := by
  induction s generalizing t with
  | nil =>
    cases t with
    | nil => rfl
    | cons d t => simp [encode] at h
  | cons c s ih =>
    cases t with
    | nil => simp [encode] at h
    | cons d t =>
      rw [encode_cons, encode_cons] at h
      obtain ⟨rfl, hst⟩ := encodeChar_unique c d _ _ h
      rw [ih t hst]

def decodeLoop : ℕ → List UInt8 → Option (List Char)
  | _, [] => some []
  | 0, _ => none
  | fuel+1, s => match decodeChar? s with
    | none => none
    | some c => (decodeLoop fuel (s.drop (String.utf8EncodeChar c).length)).map (c::·)

def decode? (s : List UInt8) : Option (List Char) := decodeLoop s.length s

theorem decodeLoop_encode (fuel : ℕ) (text : List Char) (h : (encode text).length ≤ fuel) :
    decodeLoop fuel (encode text) = some text := by
  induction fuel generalizing text with
  | zero =>
    have hnil : encode text = encode [] := List.length_eq_zero_iff.mp (Nat.le_zero.mp h)
    rw [encode_injective text [] hnil]
    rfl
  | succ fuel ih =>
    cases text with
    | nil => rfl
    | cons c text =>
      rw [encode_cons] at h ⊢
      have hne := List.length_pos_iff.mpr (String.utf8EncodeChar_ne_nil (c := c))
      rw [List.length_append] at h
      rw [decodeLoop, decodeChar?_encode]
      · simp only [List.drop_left]
        rw [ih text (by omega), Option.map_some]
      · intro hnil
        rw [(List.append_eq_nil_iff.mp hnil).1] at hne
        exact absurd hne (by simp)

theorem encode_decodeLoop (fuel : ℕ) (s : List UInt8) (text : List Char)
    (h : decodeLoop fuel s = some text) : s = encode text := by
  induction fuel generalizing s text with
  | zero =>
    cases s with
    | nil =>
      cases h
      rfl
    | cons b s => cases h
  | succ fuel ih =>
    cases s with
    | nil =>
      cases h
      rfl
    | cons b s =>
      rw [decodeLoop] at h
      · split at h
        · cases h
        · next c hc =>
          obtain ⟨rest, hrest, rfl⟩ := Option.map_eq_some_iff.mp h
          obtain ⟨tail, hs⟩ := encode_of_decodeChar? (b::s) c hc
          rw [hs, List.drop_left] at hrest
          rw [hs, ih tail rest hrest, encode_cons]
      · simp

theorem decode?_iff (s : List UInt8) (text : List Char) :
    decode? s = some text ↔ s = encode text := by
  constructor
  · exact encode_decodeLoop s.length s text
  · rintro rfl
    exact decodeLoop_encode _ text (Nat.le_refl _)

instance : DecidablePred Valid := fun s =>
  decidable_of_iff ((decode? s).isSome = true) (by
    simp only [Option.isSome_iff_exists, decode?_iff, Valid])

example : ¬ Valid [0x66, 0xC3] := by decide +kernel

/-- A character is a first byte with inner bytes behind it. -/
theorem encodeChar_shape (c : Char) : ∃ b tail, String.utf8EncodeChar c = b::tail ∧
    b.IsUTF8FirstByte ∧ ∀ d ∈ tail, Inner d := by
  have hi := fun i hi => @UInt8.isUTF8FirstByte_getElem_utf8EncodeChar c i hi
  cases hc : String.utf8EncodeChar c with
  | nil => exact absurd hc String.utf8EncodeChar_ne_nil
  | cons b tail =>
    rw [hc] at hi
    refine ⟨b, tail, rfl, (hi 0 (by simp)).mpr rfl, fun d hd hfirst => ?_⟩
    obtain ⟨i, hlt, rfl⟩ := List.mem_iff_getElem.mp hd
    have h := (hi (i+1) (by simpa using hlt)).mp (by simpa using hfirst)
    omega

theorem encodeChar_ascii : ∀ n < 128, String.utf8EncodeChar (Char.ofNat n) = [UInt8.ofNat n] ∧
    (UInt8.ofNat n).IsUTF8FirstByte := by decide +kernel

/-- A byte below 128 is a character of its own. -/
theorem ascii_mem (b : UInt8) (hb : b.toNat < 128) (c : Char) (h : b ∈ String.utf8EncodeChar c) :
    String.utf8EncodeChar c = [b] := by
  obtain ⟨henc, hfirst⟩ := encodeChar_ascii b.toNat hb
  rw [UInt8.ofNat_toNat] at henc hfirst
  obtain ⟨first, tail, hc, -, htail⟩ := encodeChar_shape c
  rw [hc, List.mem_cons] at h
  rcases h with rfl | h
  · have heq : String.utf8EncodeChar c++[] = String.utf8EncodeChar (Char.ofNat b.toNat)++tail := by
      rw [hc, henc, List.append_nil, List.singleton_append]
    rw [hc, ← (encodeChar_unique c _ _ _ heq).2]
  · exact absurd hfirst (htail b h)

theorem high_length (c : Char) (hc : 128 ≤ c.toNat) : 2 ≤ (String.utf8EncodeChar c).length := by
  rw [String.length_utf8EncodeChar, Char.utf8Size]
  split
  case isTrue h =>
    have hle : c.toNat ≤ 127 := h
    omega
  split
  · omega
  split <;> omega

/-- Behind U+007F no byte is below 128. -/
theorem high_mem (c : Char) (hc : 128 ≤ c.toNat) (b : UInt8) (h : b ∈ String.utf8EncodeChar c) :
    128 ≤ b.toNat := by
  by_contra hb
  have hlen := high_length c hc
  rw [ascii_mem b (Nat.lt_of_not_le hb) c h] at hlen
  simp at hlen

theorem valid_nil : Valid [] := ⟨[], rfl⟩

/-- A text is cut in two at any of its characters below 128. -/
theorem valid_cut (b : UInt8) (hb : b.toNat < 128) (s t : List UInt8) :
    Valid (s++b::t) ↔ Valid s ∧ Valid t := by
  constructor
  · rintro ⟨text, h⟩
    induction text generalizing s with
    | nil => simp [encode] at h
    | cons c text ih =>
      rw [encode_cons] at h
      rcases List.append_eq_append_iff.mp h with ⟨a, hc, ht⟩ | ⟨s', rfl, ht⟩
      · cases a with
        | nil =>
          rw [List.append_nil] at hc
          exact ⟨⟨[c], by simp [encode, hc]⟩, (ih [] ht).2⟩
        | cons d a =>
          obtain ⟨rfl, rfl⟩ := List.cons.inj ht
          have hone := ascii_mem b hb c (by simp [hc])
          rw [hone] at hc
          cases s with
          | nil =>
            cases (List.cons.inj hc).2
            exact ⟨valid_nil, text, rfl⟩
          | cons e s => simp at hc
      · obtain ⟨⟨first, rfl⟩, hvalid⟩ := ih s' ht.symm
        exact ⟨⟨c::first, rfl⟩, hvalid⟩
  · rintro ⟨⟨first, rfl⟩, rest, rfl⟩
    have henc := (encodeChar_ascii b.toNat hb).1
    rw [UInt8.ofNat_toNat] at henc
    exact ⟨first++Char.ofNat b.toNat::rest, by rw [encode_append, encode_cons, henc]; rfl⟩

theorem valid_ascii (s : List UInt8) (h : ∀ b ∈ s, b.toNat < 128) : Valid s := by
  induction s with
  | nil => exact valid_nil
  | cons b s ih =>
    have hrest := ih fun c hc => h c (List.mem_cons_of_mem b hc)
    exact (valid_cut b (h b List.mem_cons_self) [] s).mpr ⟨valid_nil, hrest⟩

/-- The beginning of a character that is not all of it. -/
def Begun (b : List UInt8) : Prop :=
  ∃ c tail, tail ≠ [] ∧ b++tail = String.utf8EncodeChar c

theorem begun_nil : Begun [] :=
  ⟨'a', String.utf8EncodeChar 'a', String.utf8EncodeChar_ne_nil, rfl⟩

/-- What is left of a begun character are inner bytes. -/
theorem rest_inner (c : Char) (b rest : List UInt8) (hb : b ≠ [])
    (h : b++rest = String.utf8EncodeChar c) : ∀ d ∈ rest, Inner d := by
  obtain ⟨first, tail, hc, -, htail⟩ := encodeChar_shape c
  cases b with
  | nil => exact absurd rfl hb
  | cons x b =>
    rw [hc, List.cons_append, List.cons.injEq] at h
    exact fun d hd => htail d (h.2 ▸ List.mem_append_right b hd)

/-- A begun character is none. -/
theorem decodeChar?_begun (b : List UInt8) (h : Begun b) : decodeChar? b = none := by
  obtain ⟨c, tail, hne, hc⟩ := h
  cases hd : decodeChar? b with
  | none => rfl
  | some d =>
    obtain ⟨rest, rfl⟩ := encode_of_decodeChar? b d hd
    rw [List.append_assoc, ← List.append_nil (String.utf8EncodeChar c)] at hc
    have hrest := (encodeChar_unique d c _ _ hc).2
    exact absurd (List.append_eq_nil_iff.mp hrest).2 hne

theorem decodeChar?_inner (d : UInt8) (s : List UInt8) (h : Inner d) :
    decodeChar? (d::s) = none := by
  cases hc : decodeChar? (d::s) with
  | none => rfl
  | some c =>
    obtain ⟨rest, he⟩ := encode_of_decodeChar? (d::s) c hc
    obtain ⟨b, tail, hb, hfirst, -⟩ := encodeChar_shape c
    rw [hb, List.cons_append, List.cons.injEq] at he
    exact absurd (he.1 ▸ hfirst) h

/-- How a piece takes from the bytes that are left: `a` is the rest of a begun
character and `text` what follows it, `a'` and `text'` the same behind it. -/
inductive Cut : List UInt8 → List Char → List UInt8 → List UInt8 → List Char → Prop where
  | inside (piece a' : List UInt8) (text : List Char) :
      a' ≠ [] → Cut (piece++a') text piece a' text
  | whole (a : List UInt8) (t text' : List Char) : Cut a (t++text') (a++encode t) [] text'
  | broken (a b a' : List UInt8) (t : List Char) (c : Char) (text' : List Char) :
      b ≠ [] → a' ≠ [] → b++a' = String.utf8EncodeChar c →
      Cut a (t++c::text') (a++encode t++b) a' text'

theorem encode_cut (text : List Char) (s rest : List UInt8) (h : encode text = s++rest) :
    ∃ a' text', Cut [] text s a' text' ∧ rest = a'++encode text' := by
  induction text generalizing s with
  | nil =>
    obtain ⟨rfl, rfl⟩ := List.append_eq_nil_iff.mp h.symm
    exact ⟨[], [], .whole [] [] [], rfl⟩
  | cons c text ih =>
    rw [encode_cons] at h
    rcases List.append_eq_append_iff.mp h with ⟨s', rfl, hrest⟩ | ⟨a', hc, rfl⟩
    · obtain ⟨a'', text', hcut, hr⟩ := ih s' hrest
      refine ⟨a'', text', ?_, hr⟩
      generalize hnil : ([] : List UInt8) = nothing at hcut
      cases hcut with
      | inside piece a' text hne =>
        exact absurd (List.append_eq_nil_iff.mp hnil.symm).2 hne
      | whole a t text' =>
        subst hnil
        exact .whole [] (c::t) text'
      | broken a b a' t d text' hb ha hd =>
        subst hnil
        have hbroken := Cut.broken [] b a'' (c::t) d text' hb ha hd
        simpa [encode_cons] using hbroken
    · by_cases hs : s = []
      · subst hs
        refine ⟨[], c::text, .whole [] [] (c::text), ?_⟩
        rw [List.nil_append] at hc
        rw [← hc, List.nil_append, encode_cons]
      by_cases ha : a' = []
      · subst ha
        rw [List.append_nil] at hc
        subst hc
        have hwhole := Cut.whole [] [c] text
        rw [encode_cons, List.nil_append] at hwhole
        exact ⟨[], text, by simpa [encode] using hwhole, rfl⟩
      · exact ⟨a', text, .broken [] s a' [] c text hs ha hc.symm, rfl⟩

theorem exists_cut (a : List UInt8) (text : List Char) (piece rest : List UInt8)
    (h : piece++rest = a++encode text) :
    ∃ a' text', Cut a text piece a' text' ∧ rest = a'++encode text' := by
  rcases List.append_eq_append_iff.mp h with ⟨a', rfl, rfl⟩ | ⟨s, rfl, hs⟩
  · by_cases ha : a' = []
    · subst ha
      refine ⟨[], text, ?_, rfl⟩
      have hwhole := Cut.whole (piece++[]) [] text
      simpa [encode] using hwhole
    · exact ⟨a', text, .inside piece a' text ha, rfl⟩
  · obtain ⟨a', text', hcut, hr⟩ := encode_cut text s rest hs
    refine ⟨a', text', ?_, hr⟩
    generalize hnil : ([] : List UInt8) = nothing at hcut
    cases hcut with
    | inside piece a' text hne => exact absurd (List.append_eq_nil_iff.mp hnil.symm).2 hne
    | whole a₀ t text' =>
      subst hnil
      exact .whole a t text'
    | broken a₀ b a' t c text' hb ha hc =>
      subst hnil
      simpa using Cut.broken a b a' t c text' hb ha hc

/-- The rest of a begun character stays one. -/
theorem cut_inner (a : List UInt8) (text : List Char) (piece a' : List UInt8)
    (text' : List Char) (h : Cut a text piece a' text') (ha : ∀ d ∈ a, Inner d) :
    ∀ d ∈ a', Inner d := by
  cases h with
  | inside => exact fun d hd => ha d (List.mem_append_right piece hd)
  | whole => simp
  | broken a b a' t c text' hb ha' hc => exact rest_inner c b a' hb hc

/-- Whole characters, and behind them at most the beginning of one whose other
bytes come first in `rest`. -/
def Aligned (s rest : List UInt8) : Prop := ∃ whole begun owed later,
  s = encode whole++begun ∧ rest = owed++encode later ∧
    (begun = [] ∧ owed = [] ∨
      begun ≠ [] ∧ owed ≠ [] ∧ ∃ c, begun++owed = String.utf8EncodeChar c)

/-- However a text is cut in two, the cut is aligned. -/
theorem aligned_of_valid (s rest : List UInt8) (h : Valid (s++rest)) : Aligned s rest := by
  obtain ⟨text, htext⟩ := h
  obtain ⟨owed, later, hcut, hrest⟩ := encode_cut text s rest htext.symm
  generalize hnil : ([] : List UInt8) = nothing at hcut
  cases hcut with
  | inside s owed text hne => exact absurd (List.append_eq_nil_iff.mp hnil.symm).2 hne
  | whole a t later =>
    subst hnil
    exact ⟨t, [], [], later, by simp, hrest, .inl ⟨rfl, rfl⟩⟩
  | broken a begun owed t c later hb ho hc =>
    subst hnil
    exact ⟨t, begun, owed, later, rfl, hrest, .inr ⟨hb, ho, c, hc⟩⟩

theorem valid_append (s t : List UInt8) (hs : Valid s) (ht : Valid t) : Valid (s++t) := by
  obtain ⟨first, rfl⟩ := hs
  obtain ⟨second, rfl⟩ := ht
  exact ⟨first++second, (encode_append first second).symm⟩

def replacement : Char := '\uFFFD'

def mark : Char := '\uFEFF'

/-- Some decoders take a byte order mark off the front of what they decode. -/
def withoutMark (strips : Bool) (text : List Char) : List Char :=
  if strips && text.head? = some mark then text.tail else text

/-- Decoding with replacement, of bytes that are part of a text. -/
def Replaces (decode : List UInt8 → List Char) (strips : Bool) : Prop :=
  ∀ a text b, (∀ d ∈ a, Inner d) → Begun b → ∃ m n,
    decode (a++encode text++b) =
      List.replicate m replacement++(if a = [] then withoutMark strips text else text)++
        List.replicate n replacement ∧
    (m = 0 ↔ a = []) ∧ (n = 0 ↔ b = [])

section Pieces
variable {decode : List UInt8 → List Char} {strips : Bool}

theorem withoutMark_mem (text : List Char) (c : Char) (h : c ∈ withoutMark strips text) :
    c ∈ text := by
  unfold withoutMark at h
  split at h
  · exact List.mem_of_mem_tail h
  · exact h

theorem withoutMark_other (text : List Char) (c : Char) (hc : c ≠ mark) :
    (withoutMark strips text).count c = text.count c := by
  unfold withoutMark
  split
  · next h =>
    simp only [Bool.and_eq_true, decide_eq_true_eq] at h
    cases text with
    | nil => rfl
    | cons d text =>
      obtain rfl : d = mark := Option.some.inj h.2
      rw [List.tail_cons, List.count_cons_of_ne (Ne.symm hc)]
  · rfl

theorem decode_whole (h : Replaces decode strips) (text : List Char) :
    decode (encode text) = withoutMark strips text := by
  obtain ⟨m, n, hd, hm, hn⟩ := h [] text [] (by simp) begun_nil
  rw [hm.mpr rfl, hn.mpr rfl] at hd
  simpa using hd

/-- A begun character is owed a replacement character. -/
def owed (a : List UInt8) : ℕ := if a = [] then 0 else 1

theorem owed_nil : owed [] = 0 := rfl

theorem owed_begun (a : List UInt8) (h : a ≠ []) : owed a = 1 := if_neg h

theorem owed_le (a : List UInt8) (m : ℕ) (h : m = 0 ↔ a = []) : owed a ≤ m := by
  by_cases ha : a = []
  · simp [ha, owed_nil]
  · rw [owed_begun a ha]
    exact Nat.one_le_iff_ne_zero.mpr fun h0 => ha (h.mp h0)

/-- What shows of a text: all of it but a mark that is stripped. -/
theorem shown_mem (first : Prop) [Decidable first] (t : List Char) (c : Char)
    (h : c ∈ if first then withoutMark strips t else t) : c ∈ t := by
  split at h
  · exact withoutMark_mem t c h
  · exact h

theorem shown_count (first : Prop) [Decidable first] (t : List Char) :
    (if first then withoutMark strips t else t).count replacement = t.count replacement := by
  split
  · exact withoutMark_other t replacement (by decide)
  · rfl

/-- What comes of one piece: a part of the text between replacement
characters, one at least for a begun character at either end. -/
theorem decode_cut (h : Replaces decode strips) (a : List UInt8) (text : List Char)
    (piece a' : List UInt8) (text' : List Char) (hcut : Cut a text piece a' text')
    (ha : ∀ d ∈ a, Inner d) :
    (∀ c ∈ decode piece, c = replacement ∨ c ∈ text) ∧
    text.count replacement+owed a ≤
      (decode piece).count replacement+text'.count replacement+owed a' ∧
    (a = [] → text.count replacement ≤
      (decode piece).count replacement+text'.count replacement) := by
  cases hcut with
  | inside piece a' text hne =>
    obtain ⟨m, n, hd, -, -⟩ := h piece [] [] (fun d hd => ha d (List.mem_append_left a' hd))
      begun_nil
    have hempty : (if piece = [] then withoutMark strips [] else []) = ([] : List Char) := by
      split
      · simp [withoutMark]
      · rfl
    rw [hempty] at hd
    simp only [encode, List.flatMap_nil, List.append_nil] at hd
    refine ⟨fun c hc => ?_, ?_, fun hnil => absurd (List.append_eq_nil_iff.mp hnil).2 hne⟩
    · rw [hd, ← List.replicate_add] at hc
      exact .inl (List.eq_of_mem_replicate hc)
    · rw [owed_begun a' hne, owed_begun _ fun hnil => hne (List.append_eq_nil_iff.mp hnil).2]
      omega
  | whole a t text' =>
    obtain ⟨m, n, hd, hm, hn⟩ := h a t [] ha begun_nil
    rw [List.append_nil, hn.mpr rfl, List.replicate_zero, List.append_nil] at hd
    have hle := owed_le a m hm
    have hcount : (decode (a++encode t)).count replacement = m+t.count replacement := by
      rw [hd, List.count_append, List.count_replicate_self, shown_count]
    refine ⟨fun c hc => ?_, ?_, fun _ => ?_⟩
    · rw [hd, List.mem_append] at hc
      exact hc.imp List.eq_of_mem_replicate fun hc => List.mem_append_left text' (shown_mem _ t c hc)
    · rw [hcount, List.count_append]
      omega
    · rw [hcount, List.count_append]
      omega
  | broken a b a' t c text' hb ha' hc =>
    obtain ⟨m, n, hd, hm, hn⟩ := h a t b ha ⟨c, a', ha', hc⟩
    have hle := owed_le a m hm
    have hn1 : 1 ≤ n := Nat.one_le_iff_ne_zero.mpr fun h0 => hb (hn.mp h0)
    have hc1 : (c::text').count replacement ≤ text'.count replacement+1 := by
      rw [List.count_cons]
      split <;> omega
    have hcount : (decode (a++encode t++b)).count replacement = m+t.count replacement+n := by
      rw [hd, List.count_append, List.count_append, List.count_replicate_self,
        List.count_replicate_self, shown_count]
    refine ⟨fun d hd' => ?_, ?_, fun _ => ?_⟩
    · rw [hd, List.mem_append, List.mem_append] at hd'
      rcases hd' with (hd' | hd') | hd'
      · exact .inl (List.eq_of_mem_replicate hd')
      · exact .inr (List.mem_append_left _ (shown_mem _ t d hd'))
      · exact .inl (List.eq_of_mem_replicate hd')
    · rw [hcount, List.count_append]
      omega
    · rw [hcount, List.count_append]
      omega

theorem cut_mem (a : List UInt8) (text : List Char) (piece a' : List UInt8) (text' : List Char)
    (h : Cut a text piece a' text') : ∀ c ∈ text', c ∈ text := by
  cases h with
  | inside => exact fun c hc => hc
  | whole a t => exact fun c hc => List.mem_append_right t hc
  | broken a b a' t d => exact fun c hc => List.mem_append_right t (List.mem_cons_of_mem d hc)

/-- A piece from between two characters to between two characters is a text. -/
theorem cut_valid (a : List UInt8) (text : List Char) (piece a' : List UInt8)
    (text' : List Char) (h : Cut a text piece a' text') (ha : a = []) (ha' : a' = []) :
    Valid piece := by
  cases h with
  | inside piece a' text hne => exact absurd ha' hne
  | whole a t text' => exact ⟨t, by rw [ha, List.nil_append]⟩
  | broken a b a' t c text' hb hne => exact absurd ha' hne

/-- Decoding the pieces of a text gives replacement characters and what is in it. -/
theorem mem_pieces (h : Replaces decode strips) (pieces : List (List UInt8)) (a : List UInt8)
    (text : List Char) (ha : ∀ d ∈ a, Inner d) (hp : pieces.flatten = a++encode text) :
    ∀ c ∈ pieces.flatMap decode, c = replacement ∨ c ∈ text := by
  induction pieces generalizing a text with
  | nil => simp
  | cons piece pieces ih =>
    obtain ⟨a', text', hcut, hr⟩ := exists_cut a text piece pieces.flatten hp
    have hmem := (decode_cut h a text piece a' text' hcut ha).1
    intro c hc
    rw [List.flatMap_cons, List.mem_append] at hc
    rcases hc with hc | hc
    · exact hmem c hc
    · exact (ih a' text' (cut_inner a text piece a' text' hcut ha) hr c hc).imp_right
        (cut_mem a text piece a' text' hcut c)

/-- Pieces never lose a replacement character, and a broken one adds some. -/
theorem count_pieces (h : Replaces decode strips) (pieces : List (List UInt8)) (a : List UInt8)
    (text : List Char) (ha : ∀ d ∈ a, Inner d) (hp : pieces.flatten = a++encode text) :
    text.count replacement+owed a ≤ (pieces.flatMap decode).count replacement ∧
    (a = [] → (∃ piece ∈ pieces, ¬ Valid piece) →
      text.count replacement < (pieces.flatMap decode).count replacement) := by
  induction pieces generalizing a text with
  | nil =>
    obtain ⟨rfl, htext⟩ := List.append_eq_nil_iff.mp hp.symm
    obtain rfl : text = [] := encode_injective text [] htext
    simp [owed_nil]
  | cons piece pieces ih =>
    obtain ⟨a', text', hcut, hr⟩ := exists_cut a text piece pieces.flatten hp
    obtain ⟨-, hle, hnil⟩ := decode_cut h a text piece a' text' hcut ha
    obtain ⟨hrest, hmore⟩ := ih a' text' (cut_inner a text piece a' text' hcut ha) hr
    rw [List.flatMap_cons, List.count_append]
    refine ⟨by omega, ?_⟩
    rintro rfl ⟨bad, hbad, hinvalid⟩
    have hfirst := hnil rfl
    by_cases ha' : a' = []
    · have hvalid := cut_valid [] text piece a' text' hcut rfl ha'
      have hmem := (List.mem_cons.mp hbad).resolve_left fun he => hinvalid (he ▸ hvalid)
      have := hmore ha' ⟨bad, hmem, hinvalid⟩
      omega
    · rw [owed_begun a' ha'] at hrest
      omega

theorem valid_pieces (pieces : List (List UInt8)) (h : ∀ piece ∈ pieces, Valid piece) :
    ∃ texts : List (List Char), pieces = texts.map encode := by
  induction pieces with
  | nil => exact ⟨[], rfl⟩
  | cons piece pieces ih =>
    obtain ⟨t, rfl⟩ := h piece List.mem_cons_self
    obtain ⟨texts, rfl⟩ := ih fun p hp => h p (List.mem_cons_of_mem _ hp)
    exact ⟨t::texts, rfl⟩

theorem flatten_encode (texts : List (List Char)) :
    (texts.map encode).flatten = encode texts.flatten := by
  induction texts with
  | nil => rfl
  | cons t texts ih => rw [List.map_cons, List.flatten_cons, ih, List.flatten_cons, encode_append]

/-- Begins with a byte order mark. -/
def Marked (text : List Char) : Prop := text.head? = some mark

theorem withoutMark_unmarked (text : List Char) (h : strips = true → ¬ Marked text) :
    withoutMark strips text = text := by
  unfold withoutMark
  rw [if_neg]
  simp only [Bool.and_eq_true, decide_eq_true_eq]
  exact fun hm => h hm.1 hm.2

theorem withoutMark_length (text : List Char) : (withoutMark strips text).length ≤ text.length ∧
    (strips = true → Marked text → (withoutMark strips text).length < text.length) := by
  unfold withoutMark
  constructor
  · split <;> simp
  · intro hs hm
    have hne : text ≠ [] := fun hnil => by simp [hnil, Marked] at hm
    have hhead : text.head? = some mark := hm
    rw [if_pos (by simp [hs, hhead]), List.length_tail]
    have := List.length_pos_iff.mpr hne
    omega

theorem unmarked_flatten (texts : List (List Char)) :
    (texts.flatMap (withoutMark strips)).length ≤ texts.flatten.length ∧
    (texts.flatMap (withoutMark strips) = texts.flatten ↔
      (strips = true → ∀ t ∈ texts, ¬ Marked t)) := by
  induction texts with
  | nil => simp
  | cons t texts ih =>
    obtain ⟨hlen, hiff⟩ := ih
    obtain ⟨htlen, htlt⟩ := @withoutMark_length strips t
    refine ⟨by simp only [List.flatMap_cons, List.flatten_cons, List.length_append]; omega, ?_⟩
    constructor
    · intro he hs
      have hl := congrArg List.length he
      simp only [List.flatMap_cons, List.flatten_cons, List.length_append] at hl
      have ht : ¬ Marked t := fun hm => by
        have := htlt hs hm
        omega
      rw [List.flatMap_cons, withoutMark_unmarked t fun _ => ht, List.flatten_cons] at he
      exact List.forall_mem_cons.mpr ⟨ht, hiff.mp (List.append_cancel_left he) hs⟩
    · intro h
      rw [List.flatMap_cons, List.flatten_cons, withoutMark_unmarked t fun hs => h hs t (by simp),
        hiff.mpr fun hs t ht => h hs t (List.mem_cons_of_mem _ ht)]

/-- A byte order mark in front of the whole is taken off there, too. -/
theorem marked_flatten (texts : List (List Char)) :
    texts.flatMap (withoutMark strips) = withoutMark strips texts.flatten ↔
      (strips = true → ∀ t ∈ (texts.filter fun t => t ≠ []).tail, ¬ Marked t) := by
  induction texts with
  | nil => simp [withoutMark]
  | cons t texts ih =>
    by_cases ht : t = []
    · subst ht
      simpa [withoutMark] using ih
    · have hfilter : ((t::texts).filter fun t => t ≠ []).tail = texts.filter fun t => t ≠ [] := by
        simp [ht]
      have hhead : withoutMark strips (t++texts.flatten) =
          withoutMark strips t++texts.flatten := by
        unfold withoutMark
        rw [List.head?_append_of_ne_nil _ ht]
        split
        · rw [List.tail_append_of_ne_nil ht]
        · rfl
      rw [hfilter, List.flatMap_cons, List.flatten_cons, hhead, List.append_cancel_left_eq,
        (unmarked_flatten texts).2]
      refine imp_congr_right fun _ => ⟨fun h t ht => h t (List.mem_of_mem_filter ht), ?_⟩
      intro h t ht hm
      have hne : t ≠ [] := fun hnil => by simp [hnil, Marked] at hm
      exact h t (List.mem_filter.mpr ⟨ht, by simpa using hne⟩) hm

/-- Decoding piece by piece is decoding the whole exactly when every piece is
a text and, for a decoder that strips the byte order mark, none but the first
that is not empty begins with one. -/
theorem pieces_iff (h : Replaces decode strips) (pieces : List (List UInt8)) (text : List Char)
    (hp : pieces.flatten = encode text) :
    pieces.flatMap decode = decode (encode text) ↔
      ∃ texts : List (List Char), pieces = texts.map encode ∧
        (strips = true → ∀ t ∈ (texts.filter fun t => t ≠ []).tail, ¬ Marked t) := by
  have hwhole : ∀ texts : List (List Char), pieces = texts.map encode →
      (pieces.flatMap decode = decode (encode text) ↔
        texts.flatMap (withoutMark strips) = withoutMark strips texts.flatten) := by
    rintro texts rfl
    rw [flatten_encode] at hp
    rw [decode_whole h, ← encode_injective _ _ hp, List.flatMap_map]
    simp only [decode_whole h]
  constructor
  · intro he
    have hvalid : ∀ piece ∈ pieces, Valid piece := by
      by_contra hn
      push Not at hn
      obtain ⟨piece, hm, hbad⟩ := hn
      have hlt := (count_pieces h pieces [] text (by simp) hp).2 rfl ⟨piece, hm, hbad⟩
      rw [he, decode_whole h, withoutMark_other text replacement (by decide)] at hlt
      exact Nat.lt_irrefl _ hlt
    obtain ⟨texts, ht⟩ := valid_pieces pieces hvalid
    exact ⟨texts, ht, (marked_flatten texts).mp ((hwhole texts ht).mp he)⟩
  · rintro ⟨texts, ht, hm⟩
    exact (hwhole texts ht).mpr ((marked_flatten texts).mpr hm)

end Pieces

/-- A replacement character for every byte that begins no whole character; the
number counts the bytes a character still covers. -/
def replaceFrom : ℕ → List UInt8 → List Char
  | _, [] => []
  | covered+1, _::rest => replaceFrom covered rest
  | 0, b::rest => match decodeChar? (b::rest) with
    | some c => c::replaceFrom (c.utf8Size-1) rest
    | none => replacement::replaceFrom 0 rest

theorem replaceFrom_covered (s rest : List UInt8) :
    replaceFrom s.length (s++rest) = replaceFrom 0 rest := by
  induction s with
  | nil => rfl
  | cons b s ih => exact ih

theorem replaceFrom_encode (text : List Char) (rest : List UInt8) :
    replaceFrom 0 (encode text++rest) = text++replaceFrom 0 rest := by
  induction text with
  | nil => rfl
  | cons c text ih =>
    have hc := decodeChar?_encode c (encode text++rest)
    obtain ⟨b, tail, hb, -, -⟩ := encodeChar_shape c
    have hsize : c.utf8Size-1 = tail.length := by
      rw [← String.length_utf8EncodeChar, hb]
      rfl
    rw [hb] at hc
    rw [encode_cons, hb, List.append_assoc, List.cons_append, replaceFrom]
    rw [List.cons_append] at hc
    rw [hc]
    dsimp only
    rw [hsize, replaceFrom_covered, ih]
    rfl

theorem replaceFrom_inner (a rest : List UInt8) (h : ∀ d ∈ a, Inner d) :
    replaceFrom 0 (a++rest) = List.replicate a.length replacement++replaceFrom 0 rest := by
  induction a with
  | nil => rfl
  | cons d a ih =>
    rw [List.cons_append, replaceFrom, decodeChar?_inner d _ (h d List.mem_cons_self)]
    dsimp only
    rw [ih fun e he => h e (List.mem_cons_of_mem d he)]
    rfl

theorem replaceFrom_begun (b : List UInt8) (h : Begun b) :
    replaceFrom 0 b = List.replicate b.length replacement := by
  have hnone := decodeChar?_begun b h
  obtain ⟨c, tail, -, hc⟩ := h
  obtain ⟨first, rest, hfirst, -, hinner⟩ := encodeChar_shape c
  cases b with
  | nil => rfl
  | cons d b =>
    rw [hfirst, List.cons_append, List.cons.injEq] at hc
    have hb : ∀ e ∈ b, Inner e := fun e he => hinner e (hc.2 ▸ List.mem_append_left tail he)
    have hrest := replaceFrom_inner b [] hb
    rw [List.append_nil] at hrest
    rw [replaceFrom, hnone]
    dsimp only
    rw [hrest]
    simp [replaceFrom, List.replicate_succ]

theorem replaceFrom_replaces : Replaces (replaceFrom 0) false := by
  intro a text b ha hb
  refine ⟨a.length, b.length, ?_, List.length_eq_zero_iff, List.length_eq_zero_iff⟩
  rw [List.append_assoc, replaceFrom_inner a _ ha, replaceFrom_encode, replaceFrom_begun b hb]
  simp [withoutMark]

end Utf8
