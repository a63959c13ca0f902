import Bakaneko.JsonValues

/-!
# The text of a JSON value

`dump` without indentation, as the serializer writes it: objects in the order
of their keys, and no text at all when a string is not UTF-8. The reader takes
such texts; blanks, fractions and the escapes that `dump` never writes are
left out. The two undo each other.
-/

set_option autoImplicit false

namespace Bakaneko.JsonText
open Bakaneko.Native Bakaneko.Messages Bakaneko.JsonValues

def hexLetter (n : UInt8) : UInt8 := if n < 10 then 48+n else 87+n

def hexValue (s : Bytes) : ℕ :=
  s.foldl (fun n c => 16*n+(if c ≤ 57 then c.toNat-48 else c.toNat-87)) 0

/-- The letter behind the backslash, for the characters that have one. -/
def shortEscape (c : UInt8) : Option UInt8 :=
  if c = 8 then some 98
  else if c = 9 then some 116
  else if c = 10 then some 110
  else if c = 12 then some 102
  else if c = 13 then some 114
  else if c = 34 then some 34
  else if c = 92 then some 92
  else none

/-- A byte of a string as `dump_escaped` writes it. -/
def escape (c : UInt8) : Bytes :=
  match shortEscape c with
  | some letter => [92, letter]
  | none => if c ≤ 31 then [92, 117, 48, 48, hexLetter (c/16), hexLetter (c%16)] else [c]

def quoted (s : Bytes) : Bytes := 34::(s.flatMap escape++[34])

def integer : ℤ → Bytes
  | .ofNat n => numeral n
  | .negSucc n => 45::numeral (n+1)

mutual

def print : Json → Bytes
  | .null => bytes "null"
  | .boolean true => bytes "true"
  | .boolean false => bytes "false"
  | .number n => integer n
  | .float n => integer n++bytes ".0"
  | .text s => quoted s
  | .array [] => [91, 93]
  | .array (j::elements) => 91::(print j++printElements elements)
  | .object [] => [123, 125]
  | .object ((key, j)::fields) => 123::(quoted key++58::(print j++printMembers fields))

def printElements : List Json → Bytes
  | [] => [93]
  | j::elements => 44::(print j++printElements elements)

def printMembers : List (Bytes × Json) → Bytes
  | [] => [125]
  | (key, j)::fields => 44::(quoted key++58::(print j++printMembers fields))

end

instance : DecidablePred AllUtf8 := fun j =>
  inferInstanceAs (Decidable (∀ s ∈ strings j, Utf8.Valid s))

def dump (j : Json) : Except StdException Bytes :=
  if AllUtf8 j then .ok (print (ordered j)) else .error .json

/-- What a letter behind a backslash stands for. -/
def shortCharacter (letter : UInt8) : Option UInt8 :=
  if letter = 98 then some 8
  else if letter = 116 then some 9
  else if letter = 110 then some 10
  else if letter = 102 then some 12
  else if letter = 114 then some 13
  else if letter = 34 then some 34
  else if letter = 92 then some 92
  else none

def readCharacter : Bytes → Option (UInt8 × Bytes)
  | [] => none
  | c::rest =>
    if c = 92 then match rest with
      | [] => none
      | letter::rest =>
        if letter = 117 then some (UInt8.ofNat (hexValue (rest.take 4)), rest.drop 4)
        else (shortCharacter letter).map fun c => (c, rest)
    else if c ≤ 31 then none
    else some (c, rest)

/-- A string up to its closing quote. -/
def readText : ℕ → Bytes → Option (Bytes × Bytes)
  | 0, _ => none
  | fuel+1, s =>
    if s.head? = some 34 then some ([], s.tail)
    else do
      let (c, rest) ← readCharacter s
      let (text, rest) ← readText fuel rest
      return (c::text, rest)

def readNumeral (s : Bytes) : Option (ℕ × Bytes) :=
  if s.takeWhile isdigit = [] then none
  else some (digitsValue (s.takeWhile isdigit), s.dropWhile isdigit)

def readLiteral (tail : Bytes) (value : Json) (s : Bytes) : Option (Json × Bytes) :=
  if tail <+: s then some (value, s.drop tail.length) else none

def expect (c : UInt8) : Bytes → Option Bytes
  | [] => none
  | d::rest => if d = c then some rest else none

mutual

def readValue : ℕ → Bytes → Option (Json × Bytes)
  | 0, _ => none
  | _, [] => none
  | fuel+1, c::rest =>
    if c = 91 then
      if rest.head? = some 93 then some (.array [], rest.tail)
      else do
        let (j, rest) ← readValue fuel rest
        let (elements, rest) ← readElements fuel rest
        return (.array (j::elements), rest)
    else if c = 123 then
      if rest.head? = some 125 then some (.object [], rest.tail)
      else do
        let rest ← expect 34 rest
        let (key, rest) ← readText fuel rest
        let rest ← expect 58 rest
        let (j, rest) ← readValue fuel rest
        let (fields, rest) ← readMembers fuel rest
        return (.object ((key, j)::fields), rest)
    else if c = 110 then readLiteral (bytes "ull") .null rest
    else if c = 116 then readLiteral (bytes "rue") (.boolean true) rest
    else if c = 102 then readLiteral (bytes "alse") (.boolean false) rest
    else if c = 34 then (readText fuel rest).map fun r => (.text r.1, r.2)
    else if c = 45 then (readNumeral rest).map fun r => (.number (-r.1), r.2)
    else (readNumeral (c::rest)).map fun r => (.number r.1, r.2)

def readElements : ℕ → Bytes → Option (List Json × Bytes)
  | 0, _ => none
  | _, [] => none
  | fuel+1, c::rest =>
    if c = 93 then some ([], rest)
    else if c = 44 then do
      let (j, rest) ← readValue fuel rest
      let (elements, rest) ← readElements fuel rest
      return (j::elements, rest)
    else none

def readMembers : ℕ → Bytes → Option (List (Bytes × Json) × Bytes)
  | 0, _ => none
  | _, [] => none
  | fuel+1, c::rest =>
    if c = 125 then some ([], rest)
    else if c = 44 then do
      let rest ← expect 34 rest
      let (key, rest) ← readText fuel rest
      let rest ← expect 58 rest
      let (j, rest) ← readValue fuel rest
      let (fields, rest) ← readMembers fuel rest
      return ((key, j)::fields, rest)
    else none

end

def parse (body : Bytes) : Except StdException Json :=
  match readValue body.length body with
  | some (j, []) => .ok j
  | _ => .error .json

theorem shortCharacter_escape (c letter : UInt8) (h : shortEscape c = some letter) :
    letter ≠ 117 ∧ shortCharacter letter = some c := by
  unfold shortEscape at h
  split_ifs at h with h8 h9 h10 h12 h13 h34 h92
  all_goals
    cases h
    subst c
    decide

theorem hexValue_control (c : UInt8) : c ≤ 31 →
    hexValue [48, 48, hexLetter (c/16), hexLetter (c%16)] = c.toNat :=
  forall_byte (P := fun c => c ≤ 31 →
    hexValue [48, 48, hexLetter (c/16), hexLetter (c%16)] = c.toNat) (by decide +kernel) c

theorem readCharacter_escape (c : UInt8) (rest : Bytes) :
    (escape c++rest).head? ≠ some 34 ∧ readCharacter (escape c++rest) = some (c, rest) := by
  unfold escape
  split
  · next letter hl =>
    obtain ⟨hu, hc⟩ := shortCharacter_escape c letter hl
    refine ⟨by simp, ?_⟩
    simp only [List.cons_append, List.nil_append, readCharacter, if_true, if_neg hu, hc,
      Option.map_some]
  · next hnone =>
    split
    · next hctl =>
      refine ⟨by simp, ?_⟩
      simp only [List.cons_append, List.nil_append, readCharacter, if_true]
      simp [hexValue_control c hctl]
    · next hctl =>
      have hquote : c ≠ 34 := by
        rintro rfl
        cases hnone
      have hback : c ≠ 92 := by
        rintro rfl
        cases hnone
      refine ⟨by simpa using hquote, ?_⟩
      simp only [List.cons_append, List.nil_append, readCharacter, if_neg hback, if_neg hctl]

theorem escape_ne_nil (c : UInt8) : 0 < (escape c).length := by
  unfold escape
  split
  · simp
  · split <;> simp

theorem readText_quoted (s rest : Bytes) (fuel : ℕ) (h : (s.flatMap escape).length < fuel) :
    readText fuel (s.flatMap escape++34::rest) = some (s, rest) := by
  induction s generalizing fuel with
  | nil =>
    cases fuel with
    | zero => exact absurd h (Nat.not_lt_zero _)
    | succ fuel => rfl
  | cons c s ih =>
    rw [List.flatMap_cons, List.length_append] at h
    have hpos := escape_ne_nil c
    cases fuel with
    | zero => exact absurd h (Nat.not_lt_zero _)
    | succ fuel =>
      obtain ⟨hhead, hchar⟩ := readCharacter_escape c (s.flatMap escape++34::rest)
      rw [List.flatMap_cons, List.append_assoc, readText, if_neg hhead, hchar]
      simp [ih fuel (by omega)]

/-- What follows a value never goes on with a digit. -/
def Ends (rest : Bytes) : Prop := ∀ c ∈ rest.head?, isdigit c = false

theorem readNumeral_numeral (n : ℕ) (rest : Bytes) (h : Ends rest) :
    readNumeral (numeral n++rest) = some (n, rest) := by
  obtain ⟨hne, hall, hvalue⟩ := numeral_digits n
  obtain ⟨htake, hdrop⟩ := digits_end (numeral n) rest (List.all_eq_true.mp hall) h
  rw [readNumeral, htake, hdrop, if_neg hne, hvalue]

/-- The reader gives `j` back from its text. -/
def ReadsBack (j : Json) : Prop := ∀ fuel rest, (print j).length ≤ fuel → Ends rest →
  readValue fuel (print j++rest) = some (j, rest)

/-- The first byte of a text uses up one fuel. -/
theorem readsBack_cons (j : Json) (c : UInt8) (tail : Bytes) (hp : print j = c::tail)
    (hr : ∀ fuel rest, tail.length ≤ fuel → Ends rest →
      readValue (fuel+1) (c::(tail++rest)) = some (j, rest)) : ReadsBack j := by
  intro fuel rest hfuel hends
  rw [hp] at hfuel ⊢
  cases fuel with
  | zero => exact absurd hfuel (Nat.not_succ_le_zero _)
  | succ fuel => exact hr fuel rest (Nat.le_of_succ_le_succ hfuel) hends

theorem readsBack_literal (j : Json) (c : UInt8) (tail : Bytes) (hp : print j = c::tail)
    (hr : ∀ fuel rest, readValue (fuel+1) (c::rest) = readLiteral tail j rest) : ReadsBack j := by
  apply readsBack_cons j c tail hp
  intro fuel rest _ _
  rw [hr, readLiteral, if_pos (List.prefix_append tail rest), List.drop_left]

/-- The first byte of a numeral starts no other value. -/
theorem digit_starts (d : UInt8) (hd : isdigit d = true) : d ≠ 91 ∧ d ≠ 123 ∧ d ≠ 110 ∧ d ≠ 116 ∧
    d ≠ 102 ∧ d ≠ 34 ∧ d ≠ 45 ∧ d ≠ 93 := by
  unfold isdigit at hd
  grind

theorem numeral_cons (n : ℕ) : ∃ d ds, numeral n = d::ds ∧ isdigit d = true := by
  obtain ⟨hne, hall, -⟩ := numeral_digits n
  cases h : numeral n with
  | nil => exact absurd h hne
  | cons d ds =>
    rw [h] at hall
    exact ⟨d, ds, rfl, List.all_eq_true.mp hall d List.mem_cons_self⟩

theorem readsBack_number (n : ℤ) : ReadsBack (.number n) := by
  cases n with
  | ofNat n =>
    obtain ⟨d, ds, hd, hdigit⟩ := numeral_cons n
    obtain ⟨h91, h123, h110, h116, h102, h34, h45, -⟩ := digit_starts d hdigit
    apply readsBack_cons (.number (.ofNat n)) d ds (by rw [print, integer, hd])
    intro fuel rest _ hends
    have hread := readNumeral_numeral n rest hends
    rw [hd, List.cons_append] at hread
    rw [readValue, if_neg h91, if_neg h123, if_neg h110, if_neg h116, if_neg h102, if_neg h34,
      if_neg h45, hread]
    rfl
  | negSucc n =>
    apply readsBack_cons _ 45 (numeral (n+1)) rfl
    intro fuel rest _ hends
    have hread : readValue (fuel+1) (45::(numeral (n+1)++rest)) =
        (readNumeral (numeral (n+1)++rest)).map fun r => (.number (-r.1), r.2) := rfl
    rw [hread, readNumeral_numeral (n+1) rest hends]
    rfl

theorem readsBack_text (s : Bytes) : ReadsBack (.text s) := by
  apply readsBack_cons _ 34 (s.flatMap escape++[34]) rfl
  intro fuel rest hfuel _
  rw [List.length_append] at hfuel
  have hread : readValue (fuel+1) (34::(s.flatMap escape++34::rest)) =
      (readText fuel (s.flatMap escape++34::rest)).map fun r => (.text r.1, r.2) := rfl
  rw [List.append_assoc, List.singleton_append, hread, readText_quoted s rest fuel hfuel]
  rfl

theorem printElements_ends (elements : List Json) (rest : Bytes) :
    Ends (printElements elements++rest) := by
  cases elements <;> simp [Ends, printElements, isdigit]

theorem printMembers_ends (fields : List (Bytes × Json)) (rest : Bytes) :
    Ends (printMembers fields++rest) := by
  cases fields <;> simp [Ends, printMembers, isdigit]

theorem readElements_print (elements : List Json) (h : ∀ j ∈ elements, ReadsBack j) (fuel : ℕ)
    (rest : Bytes) (hfuel : (printElements elements).length ≤ fuel) :
    readElements fuel (printElements elements++rest) = some (elements, rest) := by
  induction elements generalizing fuel with
  | nil =>
    cases fuel with
    | zero => exact absurd hfuel (Nat.not_succ_le_zero _)
    | succ fuel => rfl
  | cons j elements ih =>
    cases fuel with
    | zero => exact absurd hfuel (Nat.not_succ_le_zero _)
    | succ fuel =>
      simp only [printElements, List.length_cons, List.length_append] at hfuel
      have hj := h j List.mem_cons_self fuel (printElements elements++rest) (by omega)
        (printElements_ends elements rest)
      have hr := ih (fun k hk => h k (List.mem_cons_of_mem j hk)) fuel (by omega)
      rw [printElements, List.cons_append, List.append_assoc, readElements, if_neg (by decide),
        if_pos rfl, hj]
      simp [hr]

/-- A key, a colon and a value, in front of the members that are left. -/
theorem readMember_print (key : Bytes) (j : Json) (fields : List (Bytes × Json))
    (h : ReadsBack j) (fuel : ℕ) (rest : Bytes)
    (hfuel : (quoted key++58::(print j++printMembers fields)).length ≤ fuel) :
    expect 34 (quoted key++58::(print j++printMembers fields)++rest) =
        some (key.flatMap escape++34::58::(print j++(printMembers fields++rest))) ∧
      readText fuel (key.flatMap escape++34::58::(print j++(printMembers fields++rest))) =
        some (key, 58::(print j++(printMembers fields++rest))) ∧
      readValue fuel (print j++(printMembers fields++rest)) =
        some (j, printMembers fields++rest) := by
  simp only [quoted, List.length_append, List.length_cons, List.length_nil] at hfuel
  refine ⟨?_, ?_, ?_⟩
  · simp [quoted, expect]
  · exact readText_quoted key _ fuel (by omega)
  · exact h fuel _ (by omega) (printMembers_ends fields rest)

theorem readMembers_print (fields : List (Bytes × Json)) (h : ∀ f ∈ fields, ReadsBack f.2)
    (fuel : ℕ) (rest : Bytes) (hfuel : (printMembers fields).length ≤ fuel) :
    readMembers fuel (printMembers fields++rest) = some (fields, rest) := by
  induction fields generalizing fuel with
  | nil =>
    cases fuel with
    | zero => exact absurd hfuel (Nat.not_succ_le_zero _)
    | succ fuel => rfl
  | cons f fields ih =>
    obtain ⟨key, j⟩ := f
    cases fuel with
    | zero => exact absurd hfuel (Nat.not_succ_le_zero _)
    | succ fuel =>
      rw [printMembers, List.length_cons] at hfuel
      obtain ⟨hquote, htext, hvalue⟩ := readMember_print key j fields
        (h (key, j) List.mem_cons_self) fuel rest (Nat.le_of_succ_le_succ hfuel)
      simp only [List.length_cons, List.length_append] at hfuel
      have hr := ih (fun f hf => h f (List.mem_cons_of_mem _ hf)) fuel (by omega)
      rw [printMembers, List.cons_append, readMembers, if_neg (by decide), if_pos rfl, hquote]
      simp [htext, expect, hvalue, hr]

theorem integer_head (n : ℤ) (rest : Bytes) : (integer n++rest).head? ≠ some 93 := by
  cases n with
  | ofNat n =>
    obtain ⟨d, ds, hd, hdigit⟩ := numeral_cons n
    obtain ⟨-, -, -, -, -, -, -, h93⟩ := digit_starts d hdigit
    simpa [integer, hd] using h93
  | negSucc n => simp [integer]

/-- No value begins like the end of an array. -/
theorem print_head (j : Json) (rest : Bytes) : (print j++rest).head? ≠ some 93 := by
  cases j with
  | null => exact fun h => by cases h
  | boolean b => cases b <;> exact fun h => by cases h
  | number n => exact integer_head n rest
  | float n =>
    rw [print, List.append_assoc]
    exact integer_head n _
  | text s => simp [print, quoted]
  | array elements => cases elements <;> simp [print]
  | object fields => cases fields <;> simp [print]

theorem readsBack_array (elements : List Json) (h : ∀ j ∈ elements, ReadsBack j) :
    ReadsBack (.array elements) := by
  cases elements with
  | nil => exact readsBack_cons _ 91 [93] rfl fun _ _ _ _ => rfl
  | cons j elements =>
    apply readsBack_cons _ 91 (print j++printElements elements) (by rw [print])
    intro fuel rest hfuel _
    rw [List.length_append] at hfuel
    have hj := h j List.mem_cons_self fuel (printElements elements++rest) (by omega)
      (printElements_ends elements rest)
    have hr := readElements_print elements (fun k hk => h k (List.mem_cons_of_mem j hk)) fuel
      rest (by omega)
    rw [List.append_assoc, readValue, if_pos rfl, if_neg (print_head j _), hj]
    simp [hr]

theorem readsBack_object (fields : List (Bytes × Json)) (h : ∀ f ∈ fields, ReadsBack f.2) :
    ReadsBack (.object fields) := by
  cases fields with
  | nil => exact readsBack_cons _ 123 [125] rfl fun _ _ _ _ => rfl
  | cons f fields =>
    obtain ⟨key, j⟩ := f
    apply readsBack_cons _ 123 (quoted key++58::(print j++printMembers fields)) (by rw [print])
    intro fuel rest hfuel _
    obtain ⟨hquote, htext, hvalue⟩ := readMember_print key j fields
      (h (key, j) List.mem_cons_self) fuel rest hfuel
    simp only [List.length_cons, List.length_append] at hfuel
    have hr := readMembers_print fields (fun f hf => h f (List.mem_cons_of_mem _ hf)) fuel rest
      (by omega)
    have hhead : (quoted key++58::(print j++printMembers fields)++rest).head? ≠ some 125 := by
      simp [quoted]
    rw [readValue, if_neg (by decide), if_pos rfl, if_neg hhead, hquote]
    simp [htext, expect, hvalue, hr]

theorem readsBack_exact (j : Json) (h : Exact j) : ReadsBack j := by
  induction h with
  | null => exact readsBack_literal _ 110 (bytes "ull") rfl fun _ _ => rfl
  | boolean b =>
    cases b with
    | true => exact readsBack_literal _ 116 (bytes "rue") rfl fun _ _ => rfl
    | false => exact readsBack_literal _ 102 (bytes "alse") rfl fun _ _ => rfl
  | number n => exact readsBack_number n
  | text s => exact readsBack_text s
  | array elements _ ih => exact readsBack_array elements ih
  | object fields _ _ ih => exact readsBack_object fields ih

theorem parse_print (j : Json) (h : Exact j) : parse (print j) = .ok j := by
  have hread := readsBack_exact j h (print j).length [] le_rfl (by simp [Ends])
  rw [List.append_nil] at hread
  rw [parse, hread]

/-- The library, on texts that it has written. -/
def library : Nlohmann := { parse, dump }

theorem library_inverse : Inverse library := by
  intro j hj hs
  exact ⟨print (ordered j), if_pos hs, parse_print (ordered j) (exact_ordered j hj)⟩

theorem library_strict : Strict library := by
  intro j
  constructor
  · rintro ⟨body, hb⟩
    by_contra hs
    have hdump : dump j = .error .json := if_neg hs
    cases hdump.symm.trans hb
  · exact fun hs => ⟨print (ordered j), if_pos hs⟩

end Bakaneko.JsonText
