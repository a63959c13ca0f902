import Bakaneko.Erasing
import Bakaneko.Library.Lockstep

/-!
# The order of Unicode output

A character of more than one byte is held back until a letter of one byte
arrives, and the control characters act at once. The terminal therefore
handles a text in another order than it is in: what is held back is stored in
front of the next letter, and not at all if none comes.
-/

set_option autoImplicit false

namespace Bakaneko.UnicodeOrder
open Bakaneko.Native Bakaneko.Terminal Bakaneko.TerminalFrame Bakaneko.TerminalColumns
open Bakaneko.TerminalStates PartialRun PaddedRow
open Bakaneko.TerminalEquivalence (byte)
open Lockstep (Matches)

/-- A code point handled on its own. -/
def handle (c : Char) (t : Linux) : Except Fault Linux :=
  if c = '\n' then .ok (newline t)
  else if c = '\r' then .ok { t with currentChar := .wrap 0 }
  else if c = '\x07' then .ok t
  else addLetter c.toNat t

abbrev handleAll : List Char → Linux → Except Fault Linux := PartialRun.run handle

def shown (t : Linux) : List (List Symbol) × CInt × CInt := (t.data, t.currentLine, t.currentChar)

/-- However the text is cut into calls, the terminal ends as its code points,
handled one by one in order, leave it. -/
def Shows (t : Linux) (text : List Char) : Prop := ∀ calls : List Call,
  calls.flatMap Call.text = text →
    (run (addTexts calls) t).map shown = (handleAll text t).map shown

/-- The text is shown in order, and so is each beginning of it with a letter of
one byte behind it. -/
def Orderly (t : Linux) (text : List Char) : Prop := Shows t text ∧
  ∀ begun x, begun <+: text → 0x20 ≤ x.toNat → x.toNat < 128 → Shows t (begun++[x])

/-- No `\n` or `\r`, nor the end, comes while a character is held back. -/
def inOrder : Bool → List Char → Bool
  | held, [] => !held
  | held, c::text =>
    if 128 ≤ c.toNat then inOrder true text
    else if c = '\n' ∨ c = '\r' then !held && inOrder false text
    else if c = '\x07' then inOrder held text
    else inOrder false text

/-- The characters of a text in the order in which they take effect, behind
those held back in front of it. -/
def delayed : List Char → List Char → List Char
  | _, [] => []
  | held, c::text =>
    if 128 ≤ c.toNat then delayed (held++[c]) text
    else if c = '\n' ∨ c = '\r' ∨ c = '\x07' then c::delayed held text
    else held++c::delayed [] text

def heldBack : List Char → List Char → List Char
  | held, [] => held
  | held, c::text =>
    if 128 ≤ c.toNat then heldBack (held++[c]) text
    else if c = '\n' ∨ c = '\r' ∨ c = '\x07' then heldBack held text
    else heldBack [] text

def PlainText (text : List Char) : Prop := ∀ c ∈ text, c ∉ ['\x00', '\x08', '\x1b']

def High (text : List Char) : Prop := ∀ c ∈ text, 128 ≤ c.toNat

/-- The first byte says how many come behind it. -/
theorem utf32From_lead (n : ℕ) (hn : n < 256) (bs : Bytes) :
    utf32From 0 0 0 (UInt8.ofNat n::bs) =
      if n < 0x80 then (utf32From 0 0 0 bs).map (n::·)
      else if n < 0xC0 then none
      else if n < 0xE0 then utf32From 1 (n-0xC0) 0x80 bs
      else if n < 0xF0 then utf32From 2 (n-0xE0) 0x800 bs
      else if n < 0xF8 then utf32From 3 (n-0xF0) 0x10000 bs
      else none := by
  rw [utf32From, UInt8.toNat_ofNat_of_lt' hn]

/-- One inner byte carries six bits. -/
theorem utf32From_inner (owed value least n : ℕ) (rest : Bytes) :
    utf32From (owed+1) value least (UInt8.ofNat (n%64+0x80)::rest) =
      if owed = 0 then
        if least ≤ 64*value+n%64 ∧ 64*value+n%64 ≤ 0x10FFFF then
          (utf32From 0 0 0 rest).map ((64*value+n%64)::·) else none
      else utf32From owed (64*value+n%64) least rest := by
  rw [utf32From, UInt8.toNat_ofNat_of_lt' (by change _ < 256; omega), if_pos (by omega),
    Nat.add_sub_cancel]

theorem utf32From_char (c : Char) (rest : Bytes) :
    utf32From 0 0 0 (String.utf8EncodeChar c++rest) =
      (utf32From 0 0 0 rest).map (c.toNat::·) := by
  have hc : c.toNat ≤ 0x10FFFF := by
    have h := c.valid
    simp only [UInt32.isValidChar, Nat.isValidChar] at h
    change c.val.toNat ≤ _
    omega
  unfold String.utf8EncodeChar
  rw [show c.val.toNat = c.toNat from rfl]
  dsimp only
  split
  case isTrue h1 =>
    rw [List.cons_append, utf32From_lead _ (by omega), if_pos (by omega), List.nil_append]
  split
  case isTrue h2 =>
    rw [List.cons_append, List.cons_append, utf32From_lead _ (by omega), if_neg (by omega),
      if_neg (by omega), if_pos (by omega), utf32From_inner, if_pos rfl, if_pos (by omega)]
    rw [show 64*(c.toNat/64%32+192-192)+c.toNat%64 = c.toNat by omega]
    rfl
  split
  case isTrue h3 =>
    rw [List.cons_append, List.cons_append, List.cons_append, utf32From_lead _ (by omega),
      if_neg (by omega), if_neg (by omega), if_neg (by omega), if_pos (by omega), utf32From_inner,
      if_neg (by decide), utf32From_inner, if_pos rfl, if_pos (by omega)]
    rw [show 64*(64*(c.toNat/4096%16+224-224)+c.toNat/64%64)+c.toNat%64 = c.toNat by omega]
    rfl
  case isFalse h3 =>
    rw [List.cons_append, List.cons_append, List.cons_append, List.cons_append,
      utf32From_lead _ (by omega), if_neg (by omega), if_neg (by omega), if_neg (by omega),
      if_neg (by omega), if_pos (by omega), utf32From_inner, if_neg (by decide), utf32From_inner,
      if_neg (by decide), utf32From_inner, if_pos rfl, if_pos (by omega)]
    rw [show 64*(64*(64*(c.toNat/262144%8+240-240)+c.toNat/4096%64)+c.toNat/64%64)+c.toNat%64 =
      c.toNat by omega]
    rfl

/-- What `to_utf32` makes of encoded characters are the characters. -/
theorem toUtf32_encode (text : List Char) :
    toUtf32 (Utf8.encode text) = some (text.map Char.toNat) := by
  rw [toUtf32]
  induction text with
  | nil => rfl
  | cons c text ih => rw [Utf8.encode_cons, utf32From_char, ih, Option.map_some, List.map_cons]

/-- All that storing letters and the controls look at is the same. -/
structure Alike (s r : Linux) : Prop where
  data : s.data = r.data
  line : s.currentLine = r.currentLine
  char : s.currentChar = r.currentChar
  foreground : s.foreground = r.foreground
  background : s.background = r.background

theorem addLetter_alike (letter : ℕ) (s r : Linux) (h : Alike s r) :
    Matches Alike (addLetter letter s) (addLetter letter r) := by
  have hstore : ∀ line, storeLetter letter s line = storeLetter letter r line := by
    intro line
    rw [storeLetter, storeLetter, symbol, symbol, symbol, symbol, h.char, h.foreground,
      h.background]
  rw [addLetter, addLetter, h.data, h.line]
  split
  · exact h
  cases r.data[sizeT r.currentLine.val]? with
  | none => rfl
  | some line =>
    dsimp only
    rw [hstore]
    cases storeLetter letter r line with
    | none => rfl
    | some line => exact ⟨rfl, rfl, by rw [h.char], h.foreground, h.background⟩

theorem addLetters_alike (letters : List ℕ) (s r : Linux) (h : Alike s r) :
    Matches Alike (addLetters letters s) (addLetters letters r) := by
  rw [addLetters_run, addLetters_run]
  refine Lockstep.run_matches addLetter addLetter (· = ·) (fun _ => Alike) ?_ letters letters
    (List.forall₂_same.mpr fun _ _ => rfl) s r h
  rintro letter _ _ s r rfl hsr
  exact addLetter_alike letter s r hsr

theorem newline_alike (s r : Linux) (h : Alike s r) : Alike (newline s) (newline r) := by
  rw [newline, newline, h.line, h.data]
  split
  · exact ⟨rfl, rfl, h.char, h.foreground, h.background⟩
  · exact ⟨rfl, rfl, h.char, h.foreground, h.background⟩

/-- No `\n`, `\r` or `\a`. -/
def Stored (c : Char) : Prop := ¬ (c = '\n' ∨ c = '\r' ∨ c = '\x07')

theorem handle_stored (c : Char) (t : Linux) (hc : Stored c) :
    handle c t = addLetter c.toNat t := by
  rw [Stored, not_or, not_or] at hc
  rw [handle, if_neg hc.1, if_neg hc.2.1, if_neg hc.2.2]

theorem handleAll_stored (text : List Char) (t : Linux) (h : ∀ c ∈ text, Stored c) :
    handleAll text t = addLetters (text.map Char.toNat) t := by
  induction text generalizing t with
  | nil => rfl
  | cons c text ih =>
    obtain ⟨hc, hrest⟩ := List.forall_mem_cons.mp h
    rw [handleAll, PartialRun.run, handle_stored c t hc, List.map_cons, addLetters]
    cases addLetter c.toNat t with
    | error e => rfl
    | ok u => exact ih u hrest

theorem high_stored (c : Char) (h : 128 ≤ c.toNat) : Stored c := by
  rintro (rfl | rfl | rfl) <;> exact absurd h (by decide)

theorem stored_behind (held : List Char) (hh : High held) (x : Char) (hx : Stored x) :
    ∀ c ∈ held++[x], Stored c := by
  intro c hc
  rcases List.mem_append.mp hc with hc | hc
  · exact high_stored c (hh c hc)
  · rwa [List.mem_singleton.mp hc]

/-- The terminal shows what the reference shows, and holds these characters back. -/
def Holding (held : List Char) (s r : Linux) : Prop :=
  Alike s r ∧ s.commandBuffer = Utf8.encode held

theorem held_head (held : List Char) (hh : High held) : (Utf8.encode held).head? ≠ some 27 := by
  intro h
  obtain ⟨c, hc, hb⟩ := List.mem_flatMap.mp (List.mem_of_head? h)
  exact absurd (Utf8.high_mem c (hh c hc) 27 hb) (by decide)

theorem run_high (s : Bytes) (hs : ∀ c ∈ s, 128 ≤ c) (e : ℕ → Env) (t : Linux)
    (hb : t.commandBuffer.head? ≠ some 27) :
    run (bytesOf e s) t = .ok { t with commandBuffer := t.commandBuffer++s } := by
  induction s generalizing e t with
  | nil =>
    rw [List.append_nil]
    rfl
  | cons c s ih =>
    obtain ⟨hc, hrest⟩ := List.forall_mem_cons.mp hs
    obtain ⟨hstep, hhead⟩ := high_collected (e 0) c t hb hc
    rw [bytesOf_cons, Terminal.run, PartialRun.run, step, hstep]
    refine (ih hrest (later 1 e) (append c t) hhead).trans ?_
    simp [append]

theorem byte_inj (c d : Char) (hc : c.toNat < 128) (hd : d.toNat < 128) :
    byte c = byte d ↔ c = d := by
  refine ⟨fun h => Char.toNat_inj.mp ?_, fun h => h ▸ rfl⟩
  rw [← byte_toNat c hc, ← byte_toNat d hd, h]

/-- What one of the characters below U+0080 does. -/
theorem action_char (c : Char) (hlt : c.toNat < 128) (hplain : c ∉ ['\x00', '\x08', '\x1b'])
    (t : Linux) (hb : t.commandBuffer.head? ≠ some 27) : action (byte c) t =
      if c = '\n' then .newline else if c = '\r' then .carriageReturn
      else if c = '\x07' then .beep else .flush := by
  have hhigh : ¬ 128 ≤ byte c := by
    rw [UInt8.le_iff_toNat_le, byte_toNat c hlt]
    exact Nat.not_le.mpr hlt
  have hline : byte c = 10 ↔ c = '\n' := byte_inj c '\n' hlt (by decide)
  have hreturn : byte c = 13 ↔ c = '\r' := byte_inj c '\r' hlt (by decide)
  have hbeep : byte c = 7 ↔ c = '\x07' := byte_inj c '\x07' hlt (by decide)
  have hback : byte c = 8 ↔ c = '\x08' := byte_inj c '\x08' hlt (by decide)
  have hescape : byte c = 27 ↔ c = '\x1b' := byte_inj c '\x1b' hlt (by decide)
  simp only [List.mem_cons, List.not_mem_nil, or_false, not_or] at hplain
  simp only [action, hb, hhigh, hline, hreturn, hbeep, hback, hescape, hplain.2.1, hplain.2.2,
    if_false]

/-- What one character does to the terminal and to what is shown. -/
theorem char_matches (c : Char) (hplain : c ∉ ['\x00', '\x08', '\x1b']) (held : List Char)
    (hh : High held) (e : ℕ → Env) (s r : Linux) (h : Holding held s r) :
    Matches (Holding (heldBack held [c])) (run (bytesOf e (String.utf8EncodeChar c)) s)
      (handleAll (delayed held [c]) r) := by
  obtain ⟨halike, hb⟩ := h
  have hhead := held_head held hh
  rw [← hb] at hhead
  rw [heldBack, delayed]
  by_cases hhigh : 128 ≤ c.toNat
  · have hbytes : ∀ b ∈ String.utf8EncodeChar c, 128 ≤ b := fun b hb =>
      UInt8.le_iff_toNat_le.mpr (Utf8.high_mem c hhigh b hb)
    rw [if_pos hhigh, if_pos hhigh, run_high _ hbytes e s hhead]
    refine ⟨⟨halike.1, halike.2, halike.3, halike.4, halike.5⟩, ?_⟩
    rw [hb, heldBack, Utf8.encode_append]
    simp [Utf8.encode]
  have hlt : c.toNat < 128 := Nat.not_le.mp hhigh
  have hact := action_char c hlt hplain s hhead
  have hrun : run (bytesOf e (String.utf8EncodeChar c)) s = perform (e 0) (byte c)
      (action (byte c) s) s := by
    rw [encode_ascii c hlt, bytesOf_cons, Terminal.run]
    exact (run_singleton step _ s).trans (feed_action _ _ _)
  rw [if_neg hhigh, if_neg hhigh, hrun, hact]
  by_cases hstored : Stored c
  case neg =>
    rw [if_pos (not_not.mp hstored), if_pos (not_not.mp hstored), heldBack, delayed, handleAll,
      run_singleton]
    rcases not_not.mp hstored with rfl | rfl | rfl
    · refine ⟨newline_alike s r halike, ?_⟩
      rw [newline]
      split <;> exact hb
    · exact ⟨⟨halike.1, halike.2, rfl, halike.4, halike.5⟩, hb⟩
    · exact ⟨halike, hb⟩
  have hnot := hstored
  rw [Stored, not_or, not_or] at hnot
  rw [if_neg hstored, if_neg hstored, if_neg hnot.1, if_neg hnot.2.1, if_neg hnot.2.2, heldBack,
    delayed, perform, flush]
  have henc : (append (byte c) s).commandBuffer = Utf8.encode (held++[c]) := by
    rw [append, hb, Utf8.encode_append, Utf8.encode_cons, encode_ascii c hlt]
    rfl
  rw [henc, toUtf32_encode, handleAll_stored _ r (stored_behind held hh c hstored)]
  exact Matches.map_left _ (fun u v huv => ⟨⟨huv.1, huv.2, huv.3, huv.4, huv.5⟩, rfl⟩) _ _
    (addLetters_alike _ (append (byte c) s) r ⟨halike.1, halike.2, halike.3, halike.4, halike.5⟩)

theorem heldBack_high (held text : List Char) (hh : High held) : High (heldBack held text) := by
  induction text generalizing held with
  | nil => exact hh
  | cons c text ih =>
    rw [heldBack]
    split
    case isTrue hc =>
      refine ih (held++[c]) fun d hd => ?_
      rcases List.mem_append.mp hd with hd | hd
      · exact hh d hd
      · rwa [List.mem_singleton.mp hd]
    split
    · exact ih held hh
    · exact ih [] (by simp [High])

theorem delayed_append (held text rest : List Char) :
    delayed held (text++rest) = delayed held text++delayed (heldBack held text) rest ∧
      heldBack held (text++rest) = heldBack (heldBack held text) rest := by
  induction text generalizing held with
  | nil => exact ⟨rfl, rfl⟩
  | cons c text ih =>
    rw [List.cons_append, delayed, delayed, heldBack, heldBack]
    split
    · exact ih _
    split
    · obtain ⟨hd, hb⟩ := ih held
      exact ⟨by rw [hd, List.cons_append], hb⟩
    · obtain ⟨hd, hb⟩ := ih []
      exact ⟨by rw [hd, List.append_assoc, List.cons_append], hb⟩

/-- Matching runs, one behind the other. -/
theorem append_matches {R S : Linux → Linux → Prop} (events rest : List Event)
    (text more : List Char) (s r : Linux) (h : Matches R (run events s) (handleAll text r))
    (hrest : ∀ u v, R u v → Matches S (run rest u) (handleAll more v)) :
    Matches S (run (events++rest) s) (handleAll (text++more) r) := by
  rw [Terminal.run, handleAll, run_append, run_append]
  cases hs : PartialRun.run step events s <;> cases hr : PartialRun.run handle text r <;>
    rw [Terminal.run, handleAll, hs, hr] at h
  case error.error => exact h
  case ok.ok u v => exact hrest u v h
  all_goals exact h.elim

theorem text_matches (text : List Char) (hplain : PlainText text) (held : List Char)
    (hh : High held) (e : ℕ → Env) (s r : Linux) (h : Holding held s r) :
    Matches (Holding (heldBack held text)) (run (bytesOf e (Utf8.encode text)) s)
      (handleAll (delayed held text) r) := by
  induction text generalizing held e s r with
  | nil => exact h
  | cons c text ih =>
    obtain ⟨hc, hrest⟩ := List.forall_mem_cons.mp hplain
    obtain ⟨hdelayed, hback⟩ := delayed_append held [c] text
    rw [List.singleton_append] at hdelayed hback
    rw [Utf8.encode_cons, bytesOf_append, hdelayed, hback]
    exact append_matches _ _ _ _ s r (char_matches c hc held hh e s r h) fun u v huv =>
      ih hrest _ (heldBack_high held [c] hh) _ u v huv

/-- A call ends with what was held back. -/
theorem addText_matches (call : Call) (hplain : PlainText call.text) (held : List Char)
    (hh : High held) (s r : Linux) (h : Holding held s r) :
    Matches (Holding (heldBack held call.text)) (run (addText call) s)
      (handleAll (delayed held call.text) r) := by
  have hnul : '\x00' ∉ call.text := fun h0 => hplain _ h0 (by decide)
  have hbytes := text_matches call.text hplain held hh call.env s r h
  rw [addText_bytesOf, input_encode call.text hnul,
    ← List.append_nil (delayed held call.text)]
  refine append_matches _ _ _ _ s r hbytes fun u v huv => ?_
  obtain ⟨⟨h1, h2, h3, h4, h5⟩, hb⟩ := huv
  rw [TerminalEquivalence.finishEvent, Terminal.run, run_singleton, step]
  split <;> exact ⟨⟨h1, h2, h3, h4, h5⟩, hb⟩

/-- The calls do to the terminal what the characters do to it in their delayed
order, however the text is cut. -/
theorem addTexts_matches (calls : List Call) (hplain : PlainText (calls.flatMap Call.text))
    (held : List Char) (hh : High held) (s r : Linux) (h : Holding held s r) :
    Matches (Holding (heldBack held (calls.flatMap Call.text))) (run (addTexts calls) s)
      (handleAll (delayed held (calls.flatMap Call.text)) r) := by
  induction calls generalizing held s r with
  | nil => exact h
  | cons call calls ih =>
    rw [List.flatMap_cons] at hplain ⊢
    obtain ⟨hdelayed, hback⟩ := delayed_append held call.text (calls.flatMap Call.text)
    rw [addTexts, List.flatMap_cons, hdelayed, hback]
    refine append_matches _ _ _ _ s r (addText_matches call
      (fun c hc => hplain c (List.mem_append_left _ hc)) held hh s r h) fun u v huv => ?_
    exact ih (fun c hc => hplain c (List.mem_append_right _ hc)) _
      (heldBack_high held call.text hh) u v huv

theorem shows_iff (t : Linux) (ht : t.commandBuffer = []) (text : List Char)
    (hplain : PlainText text) : Shows t text ↔
      (handleAll (delayed [] text) t).map shown = (handleAll text t).map shown := by
  have hcalls : ∀ calls : List Call, calls.flatMap Call.text = text →
      (run (addTexts calls) t).map shown = (handleAll (delayed [] text) t).map shown := by
    rintro calls rfl
    refine Matches.map_eq shown shown (fun u v huv => ?_) _ _
      (addTexts_matches calls hplain [] (by simp [High]) t t ⟨⟨rfl, rfl, rfl, rfl, rfl⟩, ht⟩)
    rw [shown, shown, huv.1.data, huv.1.line, huv.1.char]
  constructor
  · intro h
    have hone : [(⟨text, fun _ => plainEnv⟩ : Call)].flatMap Call.text = text := by simp
    rw [← hcalls _ hone, h _ hone]
  · intro h calls hc
    rw [hcalls calls hc, h]

theorem handleAll_congr (text a b : List Char) (h : ∀ r, handleAll a r = handleAll b r)
    (r : Linux) : handleAll (text++a) r = handleAll (text++b) r := by
  rw [handleAll, run_append, run_append]
  cases PartialRun.run handle text r with
  | error e => rfl
  | ok u => exact h u

theorem handleAll_beep (text rest : List Char) (r : Linux) :
    handleAll (text ++ '\x07'::rest) r = handleAll (text++rest) r :=
  handleAll_congr text ('\x07'::rest) rest (fun _ => rfl) r

/-- What the order of a text tells its characters apart by. -/
inductive Kind (c : Char) : Prop where
  | high (h : 128 ≤ c.toNat)
  | lineBreak (h : c = '\n' ∨ c = '\r')
  | beep (h : c = '\x07')
  | letter (h : c.toNat < 128) (hs : Stored c)

theorem kind (c : Char) : Kind c := by
  by_cases hhigh : 128 ≤ c.toNat
  · exact .high hhigh
  by_cases hbreak : c = '\n' ∨ c = '\r'
  · exact .lineBreak hbreak
  by_cases hbeep : c = '\x07'
  · exact .beep hbeep
  · exact .letter (Nat.not_le.mp hhigh) fun h => hbreak ((or_assoc.mpr h).resolve_right hbeep)

section
variable (c : Char) (text : List Char)

theorem at_high (h : 128 ≤ c.toNat) : (∀ held, inOrder held (c::text) = inOrder true text) ∧
    ∀ held, delayed held (c::text) = delayed (held++[c]) text ∧
      heldBack held (c::text) = heldBack (held++[c]) text := by
  simp [inOrder, delayed, heldBack, h]

theorem at_break (h : c = '\n' ∨ c = '\r') :
    (∀ held, inOrder held (c::text) = (!held && inOrder false text)) ∧
    ∀ held, delayed held (c::text) = c::delayed held text ∧
      heldBack held (c::text) = heldBack held text := by
  rcases h with rfl | rfl <;> simp [inOrder, delayed, heldBack]

theorem at_beep : (∀ held, inOrder held ('\x07'::text) = inOrder held text) ∧
    ∀ held, delayed held ('\x07'::text) = '\x07'::delayed held text ∧
      heldBack held ('\x07'::text) = heldBack held text := by
  simp [inOrder, delayed, heldBack]

theorem at_letter (h : c.toNat < 128) (hs : Stored c) :
    (∀ held, inOrder held (c::text) = inOrder false text) ∧
    ∀ held, delayed held (c::text) = held++c::delayed [] text ∧
      heldBack held (c::text) = heldBack [] text := by
  have hnot := hs
  rw [Stored, not_or, not_or] at hnot
  simp [inOrder, delayed, heldBack, Nat.not_le.mpr h, hnot]

end

/-- In order, the delay changes nothing. -/
theorem inOrder_handled (held text : List Char) (h : inOrder (!held.isEmpty) text = true)
    (r : Linux) : handleAll (delayed held text) r = handleAll (held++text) r := by
  induction text generalizing held r with
  | nil =>
    obtain rfl : held = [] := by simpa [inOrder] using h
    rfl
  | cons c text ih =>
    cases kind c with
    | high hc =>
      obtain ⟨hin, hat⟩ := at_high c text hc
      rw [hin] at h
      rw [(hat held).1, ih (held++[c]) (by cases held <;> exact h), List.append_assoc,
        List.singleton_append]
    | lineBreak hc =>
      obtain ⟨hin, hat⟩ := at_break c text hc
      rw [hin, Bool.and_eq_true] at h
      obtain rfl : held = [] := by simpa using h.1
      rw [(hat []).1]
      exact handleAll_congr [c] _ _ (ih [] h.2) r
    | beep hc =>
      subst hc
      obtain ⟨hin, hat⟩ := at_beep text
      rw [hin] at h
      rw [(hat held).1, handleAll_beep]
      exact (handleAll_beep [] _ r).trans (ih held h r)
    | letter hc hs =>
      obtain ⟨hin, hat⟩ := at_letter c text hc hs
      rw [hin] at h
      rw [(hat held).1]
      exact handleAll_congr held _ _ (handleAll_congr [c] _ _ (ih [] h)) r

theorem inOrder_begun (held : Bool) (begun rest : List Char) (x : Char) (hx : x.toNat < 128)
    (hs : Stored x) (h : inOrder held (begun++rest) = true) :
    inOrder held (begun++[x]) = true := by
  induction begun generalizing held with
  | nil => exact (at_letter x [] hx hs).1 held
  | cons c begun ih =>
    rw [List.cons_append] at h ⊢
    cases kind c with
    | high hc =>
      rw [(at_high c _ hc).1] at h ⊢
      exact ih true h
    | lineBreak hc =>
      rw [(at_break c _ hc).1, Bool.and_eq_true] at h ⊢
      exact ⟨h.1, ih false h.2⟩
    | beep hc =>
      subst hc
      rw [(at_beep _).1] at h ⊢
      exact ih held h
    | letter hc hs =>
      rw [(at_letter c _ hc hs).1] at h ⊢
      exact ih false h

theorem letter_stored (x : Char) (hx : 0x20 ≤ x.toNat) :
    Stored x ∧ x ∉ ['\x00', '\x08', '\x1b'] := by
  constructor
  · rintro (rfl | rfl | rfl) <;> exact absurd hx (by decide)
  · simp only [List.mem_cons, List.not_mem_nil, or_false]
    rintro (rfl | rfl | rfl) <;> exact absurd hx (by decide)

theorem plain_begun (begun text : List Char) (x : Char) (hx : 0x20 ≤ x.toNat)
    (hplain : PlainText text) (hb : begun <+: text) : PlainText (begun++[x]) := by
  intro c hc
  rcases List.mem_append.mp hc with hc | hc
  · exact hplain c (hb.subset hc)
  · rw [List.mem_singleton.mp hc]
    exact (letter_stored x hx).2

theorem inOrder_orderly (t : Linux) (ht : t.commandBuffer = []) (text : List Char)
    (hplain : PlainText text) (h : inOrder false text = true) : Orderly t text := by
  have hshows : ∀ s, PlainText s → inOrder false s = true → Shows t s := fun s hs hin =>
    (shows_iff t ht s hs).mpr (congrArg (Except.map shown) (inOrder_handled [] s hin t))
  refine ⟨hshows text hplain h, fun begun x hb hx hlt => ?_⟩
  have hplain' := plain_begun begun text x hx hplain hb
  obtain ⟨rest, rfl⟩ := hb
  exact hshows _ hplain' (inOrder_begun false begun rest x hlt (letter_stored x hx).1 h)

theorem delayed_length (held text : List Char) :
    (delayed held text).length+(heldBack held text).length = held.length+text.length := by
  induction text generalizing held with
  | nil => simp [delayed, heldBack]
  | cons c text ih =>
    rw [delayed, heldBack]
    split
    · have h := ih (held++[c])
      rw [List.length_append, List.length_singleton] at h
      rw [List.length_cons]
      omega
    split
    · have h := ih held
      rw [List.length_cons, List.length_cons]
      omega
    · have h := ih []
      rw [List.length_nil] at h
      rw [List.length_append, List.length_cons, List.length_cons]
      omega

/-- Where a text is out of order first, characters are held back, and nothing
in front of it has changed its place. -/
theorem out_of_order (held text : List Char) (h : inOrder (!held.isEmpty) text = false) :
    ∃ begun rest, text = begun++rest ∧ heldBack held begun ≠ [] ∧
      (∀ r, handleAll (held++begun) r = handleAll (delayed held begun++heldBack held begun) r) ∧
      (rest = [] ∨ ∃ c more, rest = c::more ∧ (c = '\n' ∨ c = '\r')) := by
  induction text generalizing held with
  | nil =>
    have hne : held ≠ [] := by
      rintro rfl
      cases h
    exact ⟨[], [], rfl, hne, by simp [delayed, heldBack], .inl rfl⟩
  | cons c text ih =>
    cases kind c with
    | high hc =>
      rw [(at_high c text hc).1] at h
      obtain ⟨begun, rest, rfl, hne, hsame, hrest⟩ := ih (held++[c]) (by cases held <;> exact h)
      obtain ⟨hd, hb⟩ := (at_high c begun hc).2 held
      refine ⟨c::begun, rest, rfl, by rwa [hb], fun r => ?_, hrest⟩
      rw [hd, hb, ← hsame, List.append_assoc, List.singleton_append]
    | lineBreak hc =>
      by_cases hempty : held = []
      case neg =>
        exact ⟨[], c::text, rfl, hempty, by simp [delayed, heldBack], .inr ⟨c, text, rfl, hc⟩⟩
      subst hempty
      rw [(at_break c text hc).1] at h
      obtain ⟨begun, rest, rfl, hne, hsame, hrest⟩ := ih [] h
      obtain ⟨hd, hb⟩ := (at_break c begun hc).2 []
      refine ⟨c::begun, rest, rfl, by rwa [hb], fun r => ?_, hrest⟩
      rw [hd, hb]
      exact handleAll_congr [c] _ _ hsame r
    | beep hc =>
      subst hc
      rw [(at_beep text).1] at h
      obtain ⟨begun, rest, rfl, hne, hsame, hrest⟩ := ih held h
      refine ⟨_::begun, rest, rfl, hne, fun r => ?_, hrest⟩
      rw [handleAll_beep]
      exact (hsame r).trans (handleAll_beep [] _ r).symm
    | letter hc hs =>
      rw [(at_letter c text hc hs).1] at h
      obtain ⟨begun, rest, rfl, hne, hsame, hrest⟩ := ih [] h
      obtain ⟨hd, hb⟩ := (at_letter c begun hc hs).2 held
      refine ⟨c::begun, rest, rfl, by rwa [hb], fun r => ?_, hrest⟩
      rw [hd, hb, List.append_assoc]
      exact handleAll_congr held _ _ (handleAll_congr [c] _ _ hsame) r

/-- The cursor is in the last row, and neither rows nor columns are more than
the characters handled. -/
structure Grid (n : ℕ) (s : Linux) : Prop where
  line : s.currentLine.val = s.data.length-1
  rows : 0 < s.data.length ∧ s.data.length ≤ n+1
  column : 0 ≤ s.currentChar.val ∧ s.currentChar.val ≤ n

theorem Grid.present {n : ℕ} {s : Linux} (h : Grid n s) : RowPresent s := by
  have hline := h.line
  have hrows := h.rows
  rw [RowPresent, sizeT_of_int32 (by omega) s.currentLine.property]
  omega

theorem Grid.later {n m : ℕ} {s : Linux} (h : Grid n s) (hle : n ≤ m) : Grid m s := by
  have hrows := h.rows
  have hcolumn := h.column
  exact ⟨h.line, ⟨hrows.1, by omega⟩, ⟨hcolumn.1, by omega⟩⟩

theorem Grid.returned {n : ℕ} {s : Linux} (h : Grid n s) :
    Grid n { s with currentChar := .wrap 0 } := by
  have hzero : (CInt.wrap 0).val = 0 := by decide
  exact ⟨h.line, h.rows, by rw [hzero]; exact ⟨Int.le_refl 0, Int.natCast_nonneg n⟩⟩

/-- A line feed in the last row adds a row. -/
theorem newline_grid (n : ℕ) (s : Linux) (h : Grid n s) (hn : n+1 < 2147483648) :
    newline s = { s with
      currentLine := .wrap s.data.length, data := s.data++[[]], linesAdded := true } := by
  have hline := h.line
  have hrows := h.rows
  have hnext : int32 (s.currentLine.val+1) = s.data.length := by
    rw [hline, int32_of_range (by unfold IsInt32; omega)]
    omega
  have hsize : sizeT (s.data.length:ℤ) = s.data.length := by
    rw [sizeT_of_nonneg (by omega) (by omega)]
    omega
  rw [newline, hnext, hsize, if_pos rfl]

theorem newline_row (n : ℕ) (s : Linux) (h : Grid n s) (hn : n+1 < 2147483648) :
    Erasing.row (newline s) = s.data.length ∧ (newline s).data[s.data.length]? = some [] ∧
      (newline s).currentChar = s.currentChar := by
  have hrows := h.rows
  rw [newline_grid n s h hn]
  refine ⟨?_, by simp, rfl⟩
  rw [Erasing.row, wrap_of_range (by unfold IsInt32; omega),
    sizeT_of_nonneg (by omega) (by omega)]
  omega

/-- Letters are written one behind the other. -/
theorem letters_put (text : List Char) (hs : ∀ c ∈ text, Stored c) (n : ℕ) (s : Linux)
    (h : Grid n s) (hn : n+text.length ≤ 2147483648) :
    handleAll text s = .ok (moved s (onRow s fun line => putAll (symbol 32 s) line
      s.currentChar.val.toNat (text.map fun c => symbol c.toNat s)) text.length) := by
  have hcolumn := h.column
  have hput := addLetters_put (text.map Char.toNat) s h.present hcolumn.1
    (by rw [List.length_map]; omega)
  rw [List.length_map, List.map_map] at hput
  rw [handleAll_stored text s hs, hput]
  rfl

theorem handle_grid (c : Char) (n : ℕ) (s : Linux) (h : Grid n s) (hn : n+1 < 2147483648) :
    ∃ u, handle c s = .ok u ∧ Grid (n+1) u := by
  obtain ⟨hline, hrows, hcolumn⟩ := h
  have hg : Grid n s := ⟨hline, hrows, hcolumn⟩
  by_cases hstored : Stored c
  · have hput := letters_put [c] (by simpa using hstored) n s hg (by simp; omega)
    rw [handleAll, run_singleton] at hput
    refine ⟨_, hput, ?_, ?_, ?_⟩
    · simpa [moved, onRow] using hline
    · simp only [moved, onRow, List.length_modify]
      omega
    · rw [moved, wrap_val, int32_of_range (by unfold IsInt32; simp; omega)]
      simp
      omega
  rcases not_not.mp hstored with rfl | rfl | rfl
  · refine ⟨newline s, rfl, ?_⟩
    rw [newline_grid n s hg hn]
    refine ⟨?_, by simp; omega, by simpa using ⟨hcolumn.1, by omega⟩⟩
    rw [wrap_of_range (by unfold IsInt32; omega), List.length_append, List.length_singleton]
    omega
  · exact ⟨_, rfl, hg.returned.later (Nat.le_succ n)⟩
  · exact ⟨s, rfl, hg.later (Nat.le_succ n)⟩

/-- Letters behind a line feed fill the new row up to their column with blanks. -/
theorem newline_cell (first : Char) (rest : List Char) (hs : ∀ c ∈ first::rest, Stored c) (n : ℕ)
    (s : Linux) (h : Grid n s) (hn : n+1+(first::rest).length < 2147483648) (i : ℕ)
    (hi : i ≤ s.currentChar.val.toNat) : ∃ u, handleAll ('\n'::first::rest) s = .ok u ∧
      (Erasing.cell u.data s.data.length i).map Symbol.letter =
        some (if i = s.currentChar.val.toNat then first.toNat else 32) := by
  obtain ⟨v, hv, hgrid⟩ := handle_grid '\n' n s h (by omega)
  obtain rfl : newline s = v := Except.ok.inj hv
  obtain ⟨hrow, hline, hchar⟩ := newline_row n s h (by omega)
  have hput := letters_put (first::rest) hs (n+1) (newline s) hgrid (by omega)
  refine ⟨_, (congrArg _ rfl).trans hput, ?_⟩
  rw [moved, Erasing.cell_onRow, if_pos hrow, hline, hchar, Option.bind_some, putAll_getElem?]
  by_cases hcolumn : i = s.currentChar.val.toNat
  · rw [if_pos (by simp; omega), if_pos hcolumn, hcolumn, Nat.sub_self]
    rfl
  · rw [if_neg (by omega), if_pos (by simp; omega), if_neg hcolumn]
    rfl

theorem handleAll_grid (text : List Char) (n : ℕ) (s : Linux) (h : Grid n s)
    (hn : n+text.length < 2147483648) :
    ∃ u, handleAll text s = .ok u ∧ Grid (n+text.length) u := by
  induction text generalizing n s with
  | nil => exact ⟨s, rfl, h⟩
  | cons c text ih =>
    rw [List.length_cons] at hn ⊢
    obtain ⟨u, hu, hg⟩ := handle_grid c n s h (by omega)
    obtain ⟨v, hv, hg'⟩ := ih (n+1) u hg (by omega)
    refine ⟨v, ?_, by rwa [show n+(text.length+1) = n+1+text.length by omega]⟩
    rw [handleAll, PartialRun.run, hu]
    exact hv

section
variable (n : ℕ) (s : Linux) (h : Grid n s) (held : List Char) (hh : High held) (hne : held ≠ [])
include h hh hne

/-- What is held back at the end is missing. -/
theorem end_differs (hn : n+held.length < 2147483648) :
    (handleAll [] s).map shown ≠ (handleAll held s).map shown := by
  have hput := letters_put held (fun c hc => high_stored c (hh c hc)) n s h (by omega)
  have hcolumn := h.column
  have hpos := List.length_pos_iff.mpr hne
  rw [hput]
  intro heq
  have hchar := congrArg (fun x => x.2.2.val) (Except.ok.inj heq)
  change s.currentChar.val = int32 (s.currentChar.val+held.length) at hchar
  rw [int32_of_range (by unfold IsInt32; omega)] at hchar
  omega

/-- Behind `\r`, what was held back takes columns of its own. -/
theorem return_differs (x : Char) (hx : Stored x) (hn : n+held.length+2 < 2147483648) :
    (handleAll ('\r'::(held++[x])) s).map shown ≠ (handleAll (held++['\r', x]) s).map shown := by
  have hpos := List.length_pos_iff.mpr hne
  obtain ⟨u, hu, hgrid⟩ := handleAll_grid held n s h (by omega)
  have hcode := letters_put (held++[x]) (stored_behind held hh x hx) n _ h.returned
    (by simp; omega)
  have href := letters_put [x] (by simpa using hx) _ _ hgrid.returned (by simp; omega)
  have hlast : handleAll (held++['\r', x]) s =
      handleAll [x] { u with currentChar := .wrap 0 } := by
    rw [handleAll, run_after handle held ['\r', x] s u hu]
    rfl
  have hfirst : handleAll ('\r'::(held++[x])) s =
      handleAll (held++[x]) { s with currentChar := .wrap 0 } := rfl
  rw [hfirst, hlast, hcode, href]
  intro heq
  have hchar := congrArg (fun x => x.2.2.val) (Except.ok.inj heq)
  simp only [shown, moved, wrap_val, List.length_append, List.length_singleton] at hchar
  unfold int32 at hchar
  omega

/-- Behind `\n`, what was held back is in the new row, where a blank should be. -/
theorem newline_differs (x : Char) (hx : Stored x) (hn : n+held.length+2 < 2147483648) :
    (handleAll ('\n'::(held++[x])) s).map shown ≠ (handleAll (held++['\n', x]) s).map shown := by
  obtain ⟨first, rest, rfl⟩ := List.exists_cons_of_ne_nil hne
  have hcolumn := h.column
  have hput := letters_put _ (fun c hc => high_stored c (hh c hc)) n s h (by omega)
  obtain ⟨u, hu, hgrid⟩ := handleAll_grid (first::rest) n s h (by omega)
  obtain rfl := Except.ok.inj (hput.symm.trans hu)
  have hrows : ∀ f, (moved s (onRow s f) (first::rest).length).data.length = s.data.length :=
    fun f => List.length_modify ..
  have hmoved : ∀ data, (moved s data (first::rest).length).currentChar.val =
      s.currentChar.val+(first::rest).length := fun _ =>
    wrap_of_range (by unfold IsInt32; omega)
  obtain ⟨v, hv, hletter⟩ := newline_cell first (rest++[x]) (stored_behind _ hh x hx) n s h
    (by simp at hn ⊢; omega) _ (Nat.le_refl _)
  obtain ⟨w, hw, hblank⟩ := newline_cell x [] (by simpa using hx) _ _ hgrid
    (by simp at hn ⊢; omega) s.currentChar.val.toNat (by rw [hmoved]; omega)
  rw [hrows, hmoved, if_neg (by simp; omega)] at hblank
  rw [if_pos rfl] at hletter
  have hlast : handleAll (first::rest++['\n', x]) s = .ok w := by
    rw [handleAll, run_after handle (first::rest) ['\n', x] s _ hu]
    exact hw
  rw [hlast, show handleAll ('\n'::(first::rest++[x])) s = .ok v from hv]
  intro heq
  have hdata : v.data = w.data := congrArg Prod.fst (Except.ok.inj heq)
  rw [hdata, hblank] at hletter
  have hhigh := hh first List.mem_cons_self
  have hsame : 32 = first.toNat := Option.some.inj hletter
  omega

end

theorem init_grid : Grid 0 init := ⟨by decide, by decide, by decide⟩

theorem orderly_inOrder (text : List Char) (hplain : PlainText text)
    (hlen : text.length+1 < 2147483648) (h : Orderly init text) : inOrder false text = true := by
  by_contra hno
  obtain ⟨begun, rest, rfl, hne, hsame, hrest⟩ :=
    out_of_order [] text (Bool.eq_false_of_not_eq_true hno)
  have hh := heldBack_high [] begun (by simp [High])
  have hcount := delayed_length [] begun
  rw [List.length_nil, Nat.zero_add] at hcount
  rw [List.length_append] at hlen
  obtain ⟨s, hs, hgrid⟩ := handleAll_grid (delayed [] begun) 0 init init_grid (by omega)
  rw [Nat.zero_add] at hgrid
  -- what the characters in front lead to without those held back
  have hreferred : ∀ more, handleAll (begun++more) init =
      handleAll (heldBack [] begun++more) s := by
    intro more
    have hfront := (hsame init).trans (run_after handle _ (heldBack [] begun) init s hs)
    rw [List.nil_append, handleAll] at hfront
    rw [handleAll, run_append, run_append handle (heldBack [] begun), hfront]
  rcases hrest with rfl | ⟨c, more, rfl, hc⟩
  · have hshows := (shows_iff init rfl _ hplain).mp h.1
    rw [List.append_nil] at hshows
    have hlast := hreferred []
    rw [List.append_nil, List.append_nil] at hlast
    rw [hlast, hs] at hshows
    exact end_differs _ s hgrid _ hh hne (by omega) hshows
  · rw [List.length_cons] at hlen
    have hbegun : begun++[c] <+: begun++c::more := ⟨more, by simp⟩
    have hshows := (shows_iff init rfl _ (plain_begun _ _ 'A' (by decide) hplain hbegun)).mp
      (h.2 _ 'A' hbegun (by decide) (by decide))
    have hdelayed : delayed [] (begun++[c]++['A']) =
        delayed [] begun++c::(heldBack [] begun++['A']) := by
      rw [List.append_assoc, (delayed_append [] begun _).1]
      rcases hc with rfl | rfl <;> rfl
    rw [hdelayed, List.append_assoc, hreferred, handleAll, run_after handle _ _ init s hs] at hshows
    have hletter := (letter_stored 'A' (by decide)).1
    rcases hc with rfl | rfl
    · exact newline_differs _ s hgrid _ hh hne 'A' hletter (by omega) hshows
    · exact return_differs _ s hgrid _ hh hne 'A' hletter (by omega) hshows

/-- A text is shown in order exactly if no line feed, carriage return or end
comes while a character is held back. -/
theorem orderly_iff (text : List Char) (hplain : PlainText text) :
    (inOrder false text = true → ∀ t, t.commandBuffer = [] → Orderly t text) ∧
      (text.length+1 < 2147483648 → Orderly init text → inOrder false text = true) :=
  ⟨fun h t ht => inOrder_orderly t ht text hplain h, orderly_inOrder text hplain⟩

theorem orderly_accent : Orderly init ['é', '\x07', 'A', '\n'] :=
  (orderly_iff ['é', '\x07', 'A', '\n'] (by simp [PlainText])).1 (by decide) init rfl

/-- An e with an acute accent in front of `\n` and a letter is shown behind the
line feed. -/
theorem not_in_order : PlainText ['é', '\n', 'A'] ∧ ¬ Shows init ['é', '\n', 'A'] := by
  refine ⟨by simp [PlainText], fun h => ?_⟩
  have hshown := h [⟨['é', '\n', 'A'], fun _ => plainEnv⟩] rfl
  exact absurd hshown (by decide)

end Bakaneko.UnicodeOrder
