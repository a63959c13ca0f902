import Bakaneko.DumbTerminal
import Bakaneko.Library.Lockstep
import Mathlib.Data.List.TakeWhile

/-!
# The two terminals on plain text

Without escape sequences and `\b` the two emulators store the same letters
at the same places. They part over `\n` only: the dumb terminal always adds
a row, the Linux terminal adds one if the new row number equals the number
of rows, which an `int` no longer does after 2^31 line feeds.
-/

set_option autoImplicit false

namespace Bakaneko.TerminalEquivalence
open Bakaneko.Native Lockstep
open Bakaneko.Terminal (Symbol Linux Fault Env Event Call padTo maxSize input addTexts plainEnv)
open Bakaneko.DumbTerminal (Dumb char32)

/-- A byte of U+0001 to U+007F that is neither ESC nor `\b`. -/
def Plain (c : UInt8) : Prop := 1 ≤ c ∧ c < 128 ∧ c ≠ 27 ∧ c ≠ 8

def letters (line : List Symbol) : List ℕ := line.map Symbol.letter

/-- The states correspond up to the bytes the Linux terminal has collected,
and `n` more line feeds leave the row an `int`. -/
structure Alike (n : ℕ) (t : Linux) (d : Dumb) : Prop where
  rows : d.data.map letters = t.data.map letters
  char : d.currentChar = t.currentChar
  line : d.currentLine = t.currentLine
  added : d.linesAdded = t.linesAdded
  first : 0 ≤ t.currentLine.val
  last : t.currentLine.val+1 = t.data.length
  room : t.currentLine.val+n < 2147483648

structure Agree (n : ℕ) (t : Linux) (d : Dumb) : Prop extends Alike n t d where
  idle : t.commandBuffer = []

theorem padTo_letters (b b' : Symbol) (target room : ℕ) (line line' : List Symbol)
    (hb : b'.letter = b.letter) (hl : letters line' = letters line) :
    (padTo b' target room line').map letters = (padTo b target room line).map letters := by
  have hlen : line'.length = line.length := by
    simpa [letters] using congrArg List.length hl
  induction room generalizing line line' with
  | zero =>
    rw [padTo, padTo, hlen]
    split
    · simpa using hl
    · rfl
  | succ room ih =>
    rw [padTo, padTo, hlen]
    split
    · simpa using hl
    · have hnext : letters (line'++[b']) = letters (line++[b]) := by
        simpa [letters, hb] using hl
      exact ih _ _ hnext (by simp [hlen])

theorem map_append_letter (line line' : Option (List Symbol)) (s s' : Symbol)
    (hs : s'.letter = s.letter) (hl : line'.map letters = line.map letters) :
    (line'.map (·++[s'])).map letters = (line.map (·++[s])).map letters := by
  cases line <;> cases line' <;> simp_all [letters]

theorem storeLetter_letters (letter : ℕ) (t : Linux) (d : Dumb) (line line' : List Symbol)
    (hc : d.currentChar = t.currentChar) (hl : letters line' = letters line) :
    (DumbTerminal.storeLetter letter d line').map letters =
      (Terminal.storeLetter letter t line).map letters := by
  have hlen : line'.length = line.length := by
    simpa [letters] using congrArg List.length hl
  unfold DumbTerminal.storeLetter Terminal.storeLetter
  simp only [hc, hlen]
  split
  · exact map_append_letter (some line) (some line') _ _ rfl (by simpa using hl)
  split
  · have hset : letters (line'.set (sizeT t.currentChar.val) (DumbTerminal.symbol letter)) =
        letters (line.set (sizeT t.currentChar.val) (Terminal.symbol letter t)) := by
      unfold letters at hl ⊢
      rw [List.map_set, List.map_set, hl]
      rfl
    simpa using hset
  · exact map_append_letter _ _ _ _ rfl (padTo_letters _ _ _ _ line line' rfl hl)

/-- Both emulators find the same row and store or fail alike. -/
theorem addLetter_matches (n letter : ℕ) (t : Linux) (d : Dumb) (h : Alike n t d) :
    Matches (Alike n) (Terminal.addLetter letter t) (DumbTerminal.addLetter letter d) := by
  have hrow : sizeT t.currentLine.val = t.currentLine.val.toNat :=
    sizeT_of_int32 h.first t.currentLine.property
  have hlast := h.last
  have hfirst := h.first
  have hin : sizeT t.currentLine.val < t.data.length := by omega
  have hlines : d.data[sizeT t.currentLine.val]?.map letters =
      t.data[sizeT t.currentLine.val]?.map letters := by
    rw [← List.getElem?_map, ← List.getElem?_map, h.rows]
  unfold Terminal.addLetter DumbTerminal.addLetter
  rw [if_neg (show ¬ t.data.length < sizeT t.currentLine.val by omega), h.line]
  cases ht : t.data[sizeT t.currentLine.val]? with
  | none => exact absurd (List.getElem?_eq_none_iff.mp ht) (by omega)
  | some line =>
    cases hd : d.data[sizeT t.currentLine.val]? with
    | none => simp [ht, hd] at hlines
    | some line' =>
      have hl : letters line' = letters line := by simpa [ht, hd] using hlines
      have hs := storeLetter_letters letter t d line line' h.char hl
      dsimp only
      cases hst : Terminal.storeLetter letter t line <;>
        cases hsd : DumbTerminal.storeLetter letter d line' <;> rw [hst, hsd] at hs
      case none.none => rfl
      case some.some stored stored' =>
        have hstored : letters stored' = letters stored := by simpa using hs
        exact {
          rows := by simp only [List.map_set, h.rows, hstored]
          char := by simp only [h.char]
          line := rfl
          added := h.added
          first := h.first
          last := by simpa using h.last
          room := h.room }
      all_goals simp at hs

/-- A line feed in the last row adds one, while the rows can be counted. -/
theorem newline_last (t : Linux) (hfirst : 0 ≤ t.currentLine.val)
    (hlast : t.currentLine.val+1 = t.data.length) (hroom : t.currentLine.val+1 < 2147483648) :
    int32 (t.currentLine.val+1) = t.currentLine.val+1 ∧ Terminal.newline t = { t with
      currentLine := .wrap (t.currentLine.val+1), data := t.data++[[]], linesAdded := true } := by
  have hin : IsInt32 (t.currentLine.val+1) := by unfold IsInt32; omega
  have hline : int32 (t.currentLine.val+1) = t.currentLine.val+1 := int32_of_range hin
  have hsize : sizeT (t.currentLine.val+1) = t.data.length := by
    rw [sizeT_of_int32 (by omega) hin]
    omega
  exact ⟨hline, by simp only [Terminal.newline, hline, hsize, if_true]⟩

theorem newline_matches (n : ℕ) (t : Linux) (d : Dumb) (h : Agree (n+1) t d) :
    Agree n (Terminal.newline t) (DumbTerminal.newline d) := by
  have hfirst := h.first
  have hlast := h.last
  have hroom := h.room
  obtain ⟨hline, hnew⟩ := newline_last t hfirst (by omega) (by omega)
  rw [hnew]
  exact {
    rows := by simp [DumbTerminal.newline, h.rows]
    char := h.char
    line := by simp only [DumbTerminal.newline, h.line]
    added := rfl
    idle := h.idle
    first := by rw [wrap_val, hline]; omega
    last := by rw [wrap_val, hline, List.length_append, List.length_singleton]; omega
    room := by rw [wrap_val, hline]; omega }

/-- A plain byte is its own UTF-8 and UTF-32 text. -/
theorem flush_plain (c : UInt8) (t : Linux) (hi : t.commandBuffer = []) (hc : c < 128) :
    Terminal.flush (Terminal.append c t) =
      (Terminal.addLetter c.toNat (Terminal.append c t)).map
        fun t => { t with commandBuffer := [] } := by
  have hb : (Terminal.append c t).commandBuffer = [c] := by simp [Terminal.append, hi]
  have hlt : c.toNat < 128 := hc
  have hu : Terminal.toUtf32 [c] = some [c.toNat] := by
    simp [Terminal.toUtf32, Terminal.utf32From, hlt]
  rw [Terminal.flush, hb, hu]
  dsimp only
  rw [Terminal.addLetters]
  cases Terminal.addLetter c.toNat (Terminal.append c t) <;> rfl

/-- The inputs correspond: one plain byte, or the end of the call. -/
inductive Same : Event → Event → Prop where
  | letter (e f : Env) (c : UInt8) (hc : Plain c) : Same (.letter e c) (.letter f c)
  | finish (e f : Env) : Same (.finish e) (.finish f)

def lineFeeds : Event → ℕ
  | .letter _ c => if c = 10 then 1 else 0
  | .finish _ => 0

theorem letter_matches (e f : Env) (c : UInt8) (hc : Plain c) (n : ℕ) (t : Linux) (d : Dumb)
    (h : Agree ((if c = 10 then 1 else 0)+n) t d) :
    Matches (Agree n) (Terminal.feed e c t) (DumbTerminal.feed f c d) := by
  obtain ⟨-, hascii, hesc, hback⟩ := hc
  have hhead : t.commandBuffer.head? ≠ some 27 := by simp [h.idle]
  have hhigh : ¬ 128 ≤ c := UInt8.not_le.mpr hascii
  unfold Terminal.feed DumbTerminal.feed
  rw [if_neg hhead, if_neg hhigh, if_neg hesc, if_neg hback, if_neg hback]
  by_cases hnl : c = 10
  · rw [if_pos hnl, Nat.add_comm] at h
    rw [if_pos hnl, if_pos hnl]
    exact newline_matches n t d h
  rw [if_neg hnl, Nat.zero_add] at h
  rw [if_neg hnl, if_neg hnl]
  by_cases hcr : c = 13
  · rw [if_pos hcr, if_pos hcr]
    exact { h with char := rfl }
  rw [if_neg hcr, if_neg hcr]
  by_cases hbeep : c = 7
  · rw [if_pos hbeep, if_pos hbeep]
    exact h
  rw [if_neg hbeep, if_neg hbeep, flush_plain c t h.idle hascii,
    show char32 c = c.toNat from if_neg hhigh]
  have hm := addLetter_matches n c.toNat (Terminal.append c t) d { h.toAlike with }
  exact hm.map_left _ (fun u v huv => { huv with idle := rfl }) _ _

/-- Another count of the lines is not seen. -/
theorem agree_counted (n : ℕ) (t : Linux) (d : Dumb) (count count' : CInt) (h : Agree n t d) :
    Agree n { t with lineWrapCount := count, linesAdded := false }
      { d with lineWrapCount := count', linesAdded := false } :=
  ⟨⟨h.rows, h.char, h.line, rfl, h.first, h.last, h.room⟩, h.idle⟩

theorem linux_finish (env : Env) (t : Linux) : ∃ count, Terminal.step (.finish env) t =
    .ok { t with lineWrapCount := count, linesAdded := false } := by
  rw [Terminal.step]
  split
  · exact ⟨(Terminal.lineRecount env t).lineWrapCount, rfl⟩
  · exact ⟨t.lineWrapCount, rfl⟩

theorem dumb_finish (env : Env) (d : Dumb) : ∃ count, DumbTerminal.step (.finish env) d =
    .ok { d with lineWrapCount := count, linesAdded := false } := by
  rw [DumbTerminal.step]
  split
  · exact ⟨(DumbTerminal.lineRecount env d).lineWrapCount, rfl⟩
  · exact ⟨d.lineWrapCount, rfl⟩

theorem finish_matches (e f : Env) (n : ℕ) (t : Linux) (d : Dumb) (h : Agree n t d) :
    Matches (Agree n) (Terminal.step (.finish e) t) (DumbTerminal.step (.finish f) d) := by
  obtain ⟨count, ht⟩ := linux_finish e t
  obtain ⟨count', hd⟩ := dumb_finish f d
  rw [ht, hd]
  exact agree_counted n t d count count' h

theorem step_matches (n : ℕ) (i j : Event) (t : Linux) (d : Dumb) (hij : Same i j)
    (h : Agree (lineFeeds i+n) t d) :
    Matches (Agree n) (Terminal.step i t) (DumbTerminal.step j d) := by
  cases hij with
  | letter e f c hc => exact letter_matches e f c hc n t d h
  | finish e f => exact finish_matches e f n t d (by simpa [lineFeeds] using h)

def lineFeedsOf (events : List Event) : ℕ := (events.map lineFeeds).sum

theorem events_match (n : ℕ) (is js : List Event) (hij : List.Forall₂ Same is js) (t : Linux)
    (d : Dumb) (h : Agree (lineFeedsOf is+n) t d) :
    Matches (Agree n) (PartialRun.run Terminal.step is t)
      (PartialRun.run DumbTerminal.step js d) := by
  have hstep : ∀ i rest j t d, Same i j → Agree (lineFeedsOf (i::rest)+n) t d →
      Matches (Agree (lineFeedsOf rest+n)) (Terminal.step i t) (DumbTerminal.step j d) := by
    intro i rest j t d hs ha
    rw [lineFeedsOf, List.map_cons, List.sum_cons, Nat.add_assoc] at ha
    exact step_matches _ i j t d hs ha
  have hm := run_matches Terminal.step DumbTerminal.step Same (fun is => Agree (lineFeedsOf is+n))
    hstep is js hij t d h
  simpa [lineFeedsOf] using hm

/-- The bytes of a call, and whether it has counted the lines again. -/
def letterEvents (call : Call) : List Event :=
  (input call.text).mapIdx fun i c => .letter (call.env i) c

def finishEvent (call : Call) : Event := .finish (call.env (input call.text).length)

section
variable {σ : Type*} (step : Event → σ → Except Fault σ) (added : σ → Bool)

/-- One call of `add_text`, with a note of whether it counts the lines again. -/
def addTextNoted (call : Call) (s : σ × List Bool) : Except Fault (σ × List Bool) :=
  match PartialRun.run step (letterEvents call) s.1 with
  | .error e => .error e
  | .ok t => (step (finishEvent call) t).map (·, s.2++[added t])

end

/-- What the claim of equivalence compares. -/
structure Shown where
  rows : List (List ℕ)
  currentLine : CInt
  currentChar : CInt
  recounts : List Bool
  deriving DecidableEq

def onLinux (calls : List Call) : Except Fault Shown :=
  (PartialRun.run (addTextNoted Terminal.step Linux.linesAdded) calls (Terminal.init, [])).map
    fun s => ⟨s.1.data.map letters, s.1.currentLine, s.1.currentChar, s.2⟩

def onDumb (calls : List Call) : Except Fault Shown :=
  (PartialRun.run (addTextNoted DumbTerminal.step Dumb.linesAdded) calls
    (DumbTerminal.init, [])).map
    fun s => ⟨s.1.data.map letters, s.1.currentLine, s.1.currentChar, s.2⟩

/-- A character of U+0001 to U+007F that is neither ESC nor `\b`. -/
def PlainChar (c : Char) : Prop := 1 ≤ c.toNat ∧ c.toNat ≤ 127 ∧ c.toNat ≠ 27 ∧ c.toNat ≠ 8

instance (c : Char) : Decidable (PlainChar c) := inferInstanceAs (Decidable (_ ∧ _ ∧ _ ∧ _))

def PlainText (call : Call) : Prop := ∀ c ∈ call.text, PlainChar c

instance (call : Call) : Decidable (PlainText call) :=
  inferInstanceAs (Decidable (∀ c ∈ call.text, PlainChar c))

def newlines (calls : List Call) : ℕ := (calls.map fun call => call.text.count '\n').sum

def byte (c : Char) : UInt8 := UInt8.ofNat c.toNat

theorem byte_plain (c : Char) (hc : PlainChar c) : Plain (byte c) := by
  obtain ⟨h1, h127, hesc, hback⟩ := hc
  have hn : (byte c).toNat = c.toNat := by
    rw [byte, UInt8.toNat_ofNat']
    omega
  refine ⟨UInt8.le_iff_toNat_le.mpr ?_, UInt8.lt_iff_toNat_lt.mpr ?_, fun h => hesc ?_,
    fun h => hback ?_⟩
  · simpa [hn] using h1
  · rw [hn]
    exact Nat.lt_succ_of_le h127
  · rw [← hn, h]
    rfl
  · rw [← hn, h]
    rfl

theorem encode_plain (c : Char) (hc : PlainChar c) : String.utf8EncodeChar c = [byte c] :=
  if_pos hc.2.1

theorem input_plain (text : List Char) (h : ∀ c ∈ text, PlainChar c) :
    input text = text.map byte := by
  have henc : text.flatMap String.utf8EncodeChar = text.map byte := by
    induction text with
    | nil => rfl
    | cons c text ih =>
      rw [List.flatMap_cons, encode_plain c (h c (by simp)), ih fun d hd => h d (by simp [hd])]
      rfl
  rw [input, henc]
  apply List.takeWhile_eq_self_iff.mpr
  intro b hb
  obtain ⟨c, hc, rfl⟩ := List.mem_map.mp hb
  have hpos : (1:UInt8) ≤ byte c := (byte_plain c (h c hc)).1
  rw [decide_eq_true_iff]
  rintro hz
  rw [hz] at hpos
  exact absurd hpos (by decide)

theorem count_plain (text : List Char) (h : ∀ c ∈ text, PlainChar c) :
    (text.map byte).count 10 = text.count '\n' := by
  induction text with
  | nil => rfl
  | cons c text ih =>
    have hc := h c (by simp)
    have hiff : byte c = 10 ↔ c = '\n' := by
      constructor
      · intro hb
        have hn : (byte c).toNat = c.toNat := by
          rw [byte, UInt8.toNat_ofNat']
          have := hc.2.1
          omega
        rw [hb] at hn
        exact Char.toNat_inj.mp hn.symm
      · rintro rfl
        rfl
    rw [List.map_cons, List.count_cons, List.count_cons, ih fun d hd => h d (by simp [hd])]
    simp [hiff]

theorem letters_same (bs : Bytes) (e f : ℕ → Env) (h : ∀ c ∈ bs, Plain c) :
    List.Forall₂ Same (bs.mapIdx fun i c => .letter (e i) c)
      (bs.mapIdx fun i c => .letter (f i) c) := by
  induction bs generalizing e f with
  | nil => exact .nil
  | cons c bs ih =>
    rw [List.mapIdx_cons, List.mapIdx_cons]
    exact .cons (.letter _ _ c (h c (by simp)))
      (ih (fun i => e (i+1)) (fun i => f (i+1)) fun d hd => h d (by simp [hd]))

theorem letters_lineFeeds (bs : Bytes) (e : ℕ → Env) :
    lineFeedsOf (bs.mapIdx fun i c => .letter (e i) c) = bs.count 10 := by
  induction bs generalizing e with
  | nil => rfl
  | cons c bs ih =>
    rw [List.mapIdx_cons, lineFeedsOf, List.map_cons, List.sum_cons, List.count_cons, Nat.add_comm]
    exact congrArg₂ _ (ih fun i => e (i+1)) (by simp [lineFeeds])

/-- After each call the terminals correspond and have made the same notes. -/
def AgreeNoted (calls : List Call) (s : Linux × List Bool) (t : Dumb × List Bool) : Prop :=
  Agree (newlines calls) s.1 t.1 ∧ t.2 = s.2

theorem addText_matches (call : Call) (calls : List Call) (call' : Call)
    (s : Linux × List Bool) (t : Dumb × List Bool)
    (hc : call'.text = call.text ∧ PlainText call) (h : AgreeNoted (call::calls) s t) :
    Matches (AgreeNoted calls) (addTextNoted Terminal.step Linux.linesAdded call s)
      (addTextNoted DumbTerminal.step Dumb.linesAdded call' t) := by
  obtain ⟨htext, hplain⟩ := hc
  have hbytes : ∀ b ∈ input call.text, Plain b := by
    rw [input_plain call.text hplain]
    intro b hb
    obtain ⟨c, hc, rfl⟩ := List.mem_map.mp hb
    exact byte_plain c (hplain c hc)
  have hsame : List.Forall₂ Same (letterEvents call) (letterEvents call') := by
    rw [letterEvents, letterEvents, htext]
    exact letters_same _ _ _ hbytes
  have hcount : lineFeedsOf (letterEvents call)+newlines calls = newlines (call::calls) := by
    rw [letterEvents, letters_lineFeeds, input_plain call.text hplain,
      count_plain call.text hplain]
    rfl
  have hm := events_match (newlines calls) _ _ hsame s.1 t.1 (hcount ▸ h.1)
  unfold addTextNoted
  cases hs : PartialRun.run Terminal.step (letterEvents call) s.1 <;>
    cases ht : PartialRun.run DumbTerminal.step (letterEvents call') t.1 <;> rw [hs, ht] at hm
  case error.error e f => exact hm
  case ok.ok u v =>
    have hf := finish_matches (call.env (input call.text).length)
      (call'.env (input call'.text).length) _ u v hm
    dsimp only
    rw [finishEvent, finishEvent]
    cases hu : Terminal.step (.finish (call.env (input call.text).length)) u <;>
      cases hv : DumbTerminal.step (.finish (call'.env (input call'.text).length)) v <;>
      rw [hu, hv] at hf
    case error.error e f => exact hf
    case ok.ok u' v' =>
      have hnotes : t.2++[v.linesAdded] = s.2++[u.linesAdded] := by rw [h.2, hm.added]
      exact ⟨hf, hnotes⟩
    all_goals exact hf.elim
  all_goals exact hm.elim

theorem init_agree (n : ℕ) (hn : n < 2147483648) : Agree n Terminal.init DumbTerminal.init where
  rows := rfl
  char := rfl
  line := rfl
  added := rfl
  idle := rfl
  first := by decide
  last := by decide
  room := by
    have h0 : Terminal.init.currentLine.val = 0 := by decide
    rw [h0]
    omega

/-- On plain texts with fewer than 2^31 line feeds the terminals show the
same, count the lines in the same calls and fail at the same byte if at all. -/
theorem terminals_agree (calls calls' : List Call)
    (htexts : calls'.map Call.text = calls.map Call.text)
    (hplain : ∀ call ∈ calls, PlainText call) (hn : newlines calls < 2147483648) :
    onLinux calls = onDumb calls' := by
  have hcalls : List.Forall₂ (fun call call' => call'.text = call.text ∧ PlainText call)
      calls calls' := by
    have hlen : calls.length = calls'.length := by
      simpa using (congrArg List.length htexts).symm
    apply List.forall₂_iff_get.mpr
    refine ⟨hlen, fun i h h' => ⟨?_, hplain _ (List.get_mem _ _)⟩⟩
    simpa [h, h'] using congrArg (·[i]?) htexts
  have hm := run_matches (addTextNoted Terminal.step Linux.linesAdded)
    (addTextNoted DumbTerminal.step Dumb.linesAdded) _ AgreeNoted
    (fun call rest call' s t hc h => addText_matches call rest call' s t hc h)
    calls calls' hcalls (Terminal.init, []) (DumbTerminal.init, []) ⟨init_agree _ hn, rfl⟩
  apply hm.map_eq
  rintro ⟨t, notes⟩ ⟨d, notes'⟩ ⟨ha, rfl⟩
  rw [Shown.mk.injEq]
  exact ⟨ha.rows.symm, ha.line.symm, ha.char.symm, rfl⟩

/-- Two calls with an overwritten letter, padding and a new row. -/
theorem terminals_agree_padded :
    onLinux [⟨['a', 'b', '\r', 'c', '\n'], fun _ => plainEnv⟩, ⟨['d'], fun _ => plainEnv⟩] =
      onDumb [⟨['a', 'b', '\r', 'c', '\n'], fun _ => plainEnv⟩, ⟨['d'], fun _ => plainEnv⟩] :=
  terminals_agree _ _ rfl (by simp [PlainText, PlainChar]) (by decide)

/-- A call with a line feed. -/
def lineFeed : Call := ⟨['\n'], fun _ => plainEnv⟩

theorem lineFeed_events : letterEvents lineFeed = [.letter plainEnv 10] := rfl

/-- What a call with a line feed leaves of the rows. -/
theorem linux_lineFeed (t : Linux) (notes : List Bool) (hb : t.commandBuffer = []) :
    ∃ u notes', addTextNoted Terminal.step Linux.linesAdded lineFeed (t, notes) =
        .ok (u, notes') ∧ u.data = (Terminal.newline t).data ∧
      u.currentLine = (Terminal.newline t).currentLine ∧ u.commandBuffer = [] := by
  have hstep : Terminal.step (.letter plainEnv 10) t = .ok (Terminal.newline t) := by
    simp [Terminal.step, Terminal.feed, hb]
  have hbuffer : (Terminal.newline t).commandBuffer = [] := by
    simp only [Terminal.newline]
    split <;> exact hb
  obtain ⟨count, hfinish⟩ := linux_finish plainEnv (Terminal.newline t)
  have hend : finishEvent lineFeed = .finish plainEnv := rfl
  rw [addTextNoted, lineFeed_events, PartialRun.run_singleton, hstep]
  dsimp only
  rw [hend, hfinish]
  exact ⟨_, _, rfl, rfl, rfl, hbuffer⟩

theorem dumb_lineFeed (d : Dumb) (notes : List Bool) :
    ∃ u notes', addTextNoted DumbTerminal.step Dumb.linesAdded lineFeed (d, notes) =
      .ok (u, notes') ∧ u.data = d.data++[[]] := by
  have hstep : DumbTerminal.step (.letter plainEnv 10) d = .ok (DumbTerminal.newline d) := rfl
  obtain ⟨count, hfinish⟩ := dumb_finish plainEnv (DumbTerminal.newline d)
  have hend : finishEvent lineFeed = .finish plainEnv := rfl
  rw [addTextNoted, lineFeed_events, PartialRun.run_singleton, hstep]
  dsimp only
  rw [hend, hfinish]
  exact ⟨_, _, rfl, rfl⟩

theorem dumb_feeds (n : ℕ) (d : Dumb) (notes : List Bool) : ∃ u notes',
    PartialRun.run (addTextNoted DumbTerminal.step Dumb.linesAdded) (List.replicate n lineFeed)
      (d, notes) = .ok (u, notes') ∧ u.data.length = d.data.length+n := by
  induction n generalizing d notes with
  | zero => exact ⟨d, notes, rfl, rfl⟩
  | succ n ih =>
    obtain ⟨v, later, hv, hdata⟩ := dumb_lineFeed d notes
    obtain ⟨u, notes', hu, hlen⟩ := ih v later
    refine ⟨u, notes', ?_, ?_⟩
    · rw [List.replicate_succ, PartialRun.run, hv]
      exact hu
    · rw [hlen, hdata, List.length_append, List.length_singleton]
      omega

/-- The line feed that makes the row negative adds none. -/
theorem linux_feeds (n : ℕ) (t : Linux) (notes : List Bool) (hb : t.commandBuffer = [])
    (h0 : 0 ≤ t.currentLine.val) (hlast : t.currentLine.val+1 = t.data.length)
    (hn : t.currentLine.val+n = 2147483648) : ∃ u notes',
    PartialRun.run (addTextNoted Terminal.step Linux.linesAdded) (List.replicate n lineFeed)
      (t, notes) = .ok (u, notes') ∧ u.data.length = 2147483648 := by
  have hrange := t.currentLine.property
  induction n generalizing t notes with
  | zero =>
    unfold IsInt32 at hrange
    omega
  | succ n ih =>
    obtain ⟨v, later, hv, hdata, hline, hbuffer⟩ := linux_lineFeed t notes hb
    rw [List.replicate_succ, PartialRun.run, hv]
    dsimp only
    by_cases hmore : n = 0
    · subst hmore
      refine ⟨v, later, rfl, ?_⟩
      have hnegative : int32 (t.currentLine.val+1) = -2147483648 := by
        rw [show t.currentLine.val+1 = 2147483648 by omega]
        rfl
      have hsize : sizeT (-2147483648) ≠ t.data.length := by
        have := sizeT_of_neg (show (-2147483648:ℤ) < 0 by decide) (by decide)
        omega
      rw [hdata]
      simp only [Terminal.newline, hnegative, if_neg hsize]
      omega
    · obtain ⟨hnext, hnew⟩ := newline_last t h0 hlast (by omega)
      rw [hnew] at hdata hline
      dsimp only at hdata hline
      have hval : v.currentLine.val = t.currentLine.val+1 := by rw [hline, wrap_val, hnext]
      apply ih v later hbuffer
      · omega
      · rw [hval, hdata, List.length_append, List.length_singleton]
        omega
      · omega
      · exact v.currentLine.property

/-- As many calls as `int` has numbers from zero on. -/
def flood : List Call := List.replicate 2147483648 lineFeed

/-- After 2^31 line feeds the dumb terminal has one row more. -/
theorem rows_differ_after_flood :
    (∀ call ∈ flood, PlainText call) ∧ onLinux flood ≠ onDumb flood := by
  constructor
  · intro call hcall c hc
    rw [List.eq_of_mem_replicate hcall] at hc
    rw [List.mem_singleton.mp hc]
    decide
  · obtain ⟨t, notes, ht, hrows⟩ := linux_feeds 2147483648 Terminal.init [] rfl
      (by decide) (by decide) (by decide)
    obtain ⟨d, notes', hd, hrows'⟩ := dumb_feeds 2147483648 DumbTerminal.init []
    intro h
    rw [onLinux, onDumb, flood, ht, hd] at h
    have hlengths := congrArg (fun s : Shown => s.rows.length) (Except.ok.inj h)
    dsimp only at hlengths
    rw [List.length_map, List.length_map, hrows, hrows'] at hlengths
    have hfirst : DumbTerminal.init.data.length = 1 := rfl
    omega

end Bakaneko.TerminalEquivalence
