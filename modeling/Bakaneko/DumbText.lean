import Bakaneko.TerminalStates

/-!
# Text on the dumb terminal

The dumb terminal writes the bytes of a text one behind the other into the
row of the cursor, each widened from a signed `char`. The symbols are the
letters of the text exactly where the text is ASCII.
-/

set_option autoImplicit false

namespace Bakaneko.DumbText
open Bakaneko.Native Bakaneko.DumbTerminal Bakaneko.TerminalStates PaddedRow
open Bakaneko.Terminal (Symbol Fault Env Event Call padTo maxSize input addText addTexts plainEnv)
open Bakaneko.TerminalEquivalence (byte finishEvent)

inductive Reachable : Dumb → Prop where
  | init : Reachable init
  | addText (call : Call) (d u : Dumb) (hd : Reachable d)
      (hu : PartialRun.run step (addText call) d = .ok u) : Reachable u
  | recount (env : Env) (d : Dumb) (hd : Reachable d) : Reachable (lineRecount env d)

def RowPresent (d : Dumb) : Prop := sizeT d.currentLine.val < d.data.length

instance (d : Dumb) : Decidable (RowPresent d) := inferInstanceAs (Decidable (_ < _))

def ShortLines (d : Dumb) : Prop := ∀ line ∈ d.data, line.length ≤ 2147483648

/-- The row with the cursor, after a change to it. -/
def onRow (d : Dumb) (f : List Symbol → List Symbol) : List (List Symbol) :=
  d.data.modify (sizeT d.currentLine.val) f

def moved (d : Dumb) (data : List (List Symbol)) (count : ℕ) : Dumb :=
  { d with data := data, currentChar := .wrap (d.currentChar.val+count) }

theorem column_small (d : Dumb) (h0 : 0 ≤ d.currentChar.val) :
    sizeT d.currentChar.val = d.currentChar.val.toNat ∧
      d.currentChar.val.toNat < 2147483648 := by
  have hr := d.currentChar.property
  have hs := sizeT_of_int32 h0 hr
  unfold IsInt32 at hr
  exact ⟨hs, by omega⟩

theorem addLetter_put (letter : ℕ) (d : Dumb) (hp : RowPresent d) (h0 : 0 ≤ d.currentChar.val) :
    addLetter letter d = .ok (moved d (onRow d fun line =>
      put (symbol 32) line d.currentChar.val.toNat (symbol letter)) 1) := by
  obtain ⟨hs, hlt⟩ := column_small d h0
  have hstore : ∀ line, storeLetter letter d line =
      some (put (symbol 32) line d.currentChar.val.toNat (symbol letter)) := by
    intro line
    rw [storeLetter]
    rw [hs]
    exact padded_put _ _ _ _ hlt
  rw [addLetter, List.getElem?_eq_getElem hp]
  dsimp only
  rw [hstore, moved, onRow, List.modify_eq_set_getElem?, List.getElem?_eq_getElem hp]
  rfl

/-- A letter that is stored finds its row and a column from 0 on. -/
theorem addLetter_needs (letter : ℕ) (d u : Dumb) (hs : ShortLines d)
    (h : addLetter letter d = .ok u) : RowPresent d ∧ 0 ≤ d.currentChar.val := by
  rw [addLetter] at h
  cases hr : d.data[sizeT d.currentLine.val]? with
  | none => simp [hr] at h
  | some line =>
    refine ⟨(List.getElem?_eq_some_iff.mp hr).1, ?_⟩
    by_contra hneg
    have hc := sizeT_of_neg (Int.not_le.mp hneg) d.currentChar.property
    have hl := hs line (List.mem_of_getElem? hr)
    have hm := TerminalColumns.maxSize_lt
    have hnone : storeLetter letter d line = none := by
      rw [storeLetter]
      rw [if_neg (by omega), if_neg (by omega), TerminalColumns.padTo_fails _ _ _ _ (by omega)]
      rfl
    rw [hr] at h
    dsimp only at h
    rw [hnone] at h
    cases h

theorem onRow_short (d : Dumb) (f : List Symbol → List Symbol) (hs : ShortLines d)
    (hf : ∀ line, line.length ≤ 2147483648 → (f line).length ≤ 2147483648) :
    ∀ line ∈ onRow d f, line.length ≤ 2147483648 := by
  intro line hl
  obtain ⟨i, hi⟩ := List.mem_iff_getElem?.mp hl
  rw [onRow, List.getElem?_modify] at hi
  obtain ⟨old, hold, rfl⟩ := Option.map_eq_some_iff.mp hi
  have := hs old (List.mem_of_getElem? hold)
  split
  · exact hf old this
  · exact this

theorem addLetter_short (letter : ℕ) (d u : Dumb) (hs : ShortLines d)
    (h : addLetter letter d = .ok u) : ShortLines u := by
  obtain ⟨hp, h0⟩ := addLetter_needs letter d u hs h
  rw [addLetter_put letter d hp h0] at h
  cases h
  refine onRow_short d _ hs fun line hl => ?_
  have := (column_small d h0).2
  rw [put_length]
  omega

theorem step_short (i : Event) (d u : Dumb) (hs : ShortLines d) (h : step i d = .ok u) :
    ShortLines u := by
  cases i with
  | finish env =>
    cases h
    by_cases hl : d.linesAdded <;> simpa [hl, lineRecount, ShortLines] using hs
  | letter env c =>
    rw [step, feed] at h
    split at h
    · cases h
      intro line hl
      rcases List.mem_append.mp hl with hold | hnew
      · exact hs line hold
      · simp [List.mem_singleton.mp hnew]
    split at h
    · cases h
      exact hs
    split at h
    · cases h
      unfold backspace
      dsimp only
      split <;> exact hs
    split at h
    · cases h
      exact hs
    exact addLetter_short _ d u hs h

theorem init_short : ShortLines init := by
  intro line hl
  rw [List.mem_singleton.mp hl]
  decide

theorem Reachable.short {d : Dumb} (h : Reachable d) : ShortLines d := by
  induction h with
  | init => exact init_short
  | addText call d u _ hu ih => exact PartialRun.run_keeps step ShortLines step_short _ d u ih hu
  | recount env d _ ih => exact ih

theorem addText_quiet (call : Call) (d u : Dumb)
    (h : PartialRun.run step (addText call) d = .ok u) : u.linesAdded = false := by
  rw [addText_bytesOf, PartialRun.run_append] at h
  split at h
  · cases h
  · cases h
    rfl

theorem Reachable.quiet {d : Dumb} (h : Reachable d) : d.linesAdded = false := by
  induction h with
  | init => rfl
  | addText call d u _ hu _ => exact addText_quiet call d u hu
  | recount env d _ ih => exact ih

/-- The controls of the dumb terminal. -/
def Control (c : UInt8) : Prop := c = 10 ∨ c = 13 ∨ c = 8 ∨ c = 7

theorem feed_letter (env : Env) (c : UInt8) (d : Dumb) (hc : ¬ Control c) :
    feed env c d = addLetter (char32 c) d := by
  simp only [Control, not_or] at hc
  obtain ⟨hn, hr, hb, ha⟩ := hc
  rw [feed, if_neg hn, if_neg hr, if_neg hb, if_neg ha]

theorem bytesOf_letters (e : ℕ → Env) (s : Bytes) (d : Dumb) (hs : ∀ c ∈ s, ¬ Control c) :
    PartialRun.run step (bytesOf e s) d = PartialRun.run addLetter (s.map char32) d := by
  induction s generalizing e d with
  | nil => rfl
  | cons c s ih =>
    rw [bytesOf_cons, List.map_cons, PartialRun.run, PartialRun.run, step,
      feed_letter _ c d (hs c List.mem_cons_self)]
    cases addLetter (char32 c) d with
    | error e => rfl
    | ok u => exact ih _ u fun b hb => hs b (List.mem_cons_of_mem c hb)

/-- Letters that fit are written one behind the other. -/
theorem letters_put (letters : List ℕ) (d : Dumb) (hp : RowPresent d)
    (h0 : 0 ≤ d.currentChar.val) (hroom : d.currentChar.val+letters.length ≤ 2147483648) :
    PartialRun.run addLetter letters d = .ok (moved d (onRow d fun line =>
      putAll (symbol 32) line d.currentChar.val.toNat (letters.map symbol)) letters.length) := by
  induction letters generalizing d with
  | nil =>
    have hsame : (onRow d fun line => line) = d.data := List.modify_id _ _
    simp [PartialRun.run, moved, putAll, hsame, wrap_self]
  | cons letter letters ih =>
    rw [PartialRun.run, addLetter_put letter d hp h0]
    dsimp only
    by_cases hlast : letters = []
    · subst hlast
      rfl
    · have hpos := List.length_pos_iff.mpr hlast
      rw [List.length_cons] at hroom
      have hv : (moved d (onRow d fun line =>
          put (symbol 32) line d.currentChar.val.toNat (symbol letter)) 1).currentChar.val =
          d.currentChar.val+1 := wrap_of_range (by unfold IsInt32; omega)
      rw [ih _ (by simpa [RowPresent, moved, onRow] using hp) (by omega) (by omega)]
      simp only [moved] at hv ⊢
      simp only [hv, onRow, List.modify_modify_eq, List.length_cons, List.map_cons, putAll]
      have hcol : (d.currentChar.val+1).toNat = d.currentChar.val.toNat+1 := by omega
      rw [hcol]
      congr 3
      push_cast
      ring

/-- Letters that are stored fit. -/
theorem letters_fit (letters : List ℕ) (d u : Dumb) (hs : ShortLines d) (hne : letters ≠ [])
    (h : PartialRun.run addLetter letters d = .ok u) :
    RowPresent d ∧ 0 ≤ d.currentChar.val ∧ d.currentChar.val+letters.length ≤ 2147483648 := by
  induction letters generalizing d with
  | nil => exact absurd rfl hne
  | cons letter letters ih =>
    rw [PartialRun.run] at h
    split at h
    · cases h
    case _ v hv =>
      obtain ⟨hp, h0⟩ := addLetter_needs letter d v hs hv
      have hr := d.currentChar.property
      have hc : v.currentChar.val = int32 (d.currentChar.val+1) := by
        rw [addLetter_put letter d hp h0] at hv
        cases hv
        rfl
      refine ⟨hp, h0, ?_⟩
      rw [List.length_cons]
      by_cases hlast : letters = []
      · subst hlast
        unfold IsInt32 at hr
        simp
        omega
      · obtain ⟨-, hv0, hroom⟩ := ih v (addLetter_short letter d v hs hv) hlast h
        unfold IsInt32 at hr
        unfold int32 at hc
        push_cast
        omega

/-- Neither NUL nor `\n`, `\r`, `\b` and `\a`. -/
def Printed (c : Char) : Prop := c ∉ ['\x00', '\n', '\r', '\x08', '\x07']

instance (c : Char) : Decidable (Printed c) := inferInstanceAs (Decidable (_ ∉ _))

theorem printed_bytes (c : Char) (hc : Printed c) (b : UInt8) (hb : b ∈ String.utf8EncodeChar c) :
    ¬ Control b := by
  by_cases hlt : c.toNat < 128
  · rw [encode_ascii c hlt, List.mem_singleton] at hb
    have hn := byte_toNat c hlt
    intro hcontrol
    have heq : ∀ d : Char, d.toNat = b.toNat → c = d := fun d hd =>
      Char.toNat_inj.mp (by rw [← hn, ← hb, hd])
    simp only [Printed, List.mem_cons, List.not_mem_nil, or_false, not_or] at hc
    rcases hcontrol with rfl | rfl | rfl | rfl
    · exact hc.2.1 (heq '\n' rfl)
    · exact hc.2.2.1 (heq '\r' rfl)
    · exact hc.2.2.2.1 (heq '\x08' rfl)
    · exact hc.2.2.2.2 (heq '\x07' rfl)
  · have hhigh := Utf8.high_mem c (by omega) b hb
    rintro (rfl | rfl | rfl | rfl) <;> exact absurd hhigh (by decide)

theorem encode_length (text : List Char) : text.length ≤ (Utf8.encode text).length ∧
    ((Utf8.encode text).length = text.length → ∀ c ∈ text, c.toNat < 128) := by
  induction text with
  | nil => simp [Utf8.encode]
  | cons c text ih =>
    obtain ⟨hle, heq⟩ := ih
    rw [Utf8.encode_cons, List.length_append, List.length_cons]
    by_cases hlt : c.toNat < 128
    · rw [encode_ascii c hlt, List.length_singleton]
      exact ⟨by omega, fun h => List.forall_mem_cons.mpr ⟨hlt, heq (by omega)⟩⟩
    · have hhigh := Utf8.high_length c (by omega)
      exact ⟨by omega, fun h => by omega⟩

theorem char32_byte (c : Char) (h : c.toNat < 128) : char32 (byte c) = c.toNat := by
  have hn := byte_toNat c h
  have hb : ¬ 128 ≤ byte c := by
    rw [UInt8.le_iff_toNat_le, hn]
    exact Nat.not_le.mpr h
  rw [char32, if_neg hb, hn]

theorem char32_text (text : List Char) (h : ∀ c ∈ text, c.toNat < 128) :
    (Utf8.encode text).map char32 = text.map Char.toNat := by
  rw [encode_ascii_text text h, List.map_map]
  exact List.map_congr_left fun c hc => char32_byte c (h c hc)

/-- One symbol for each character of the text, from the cursor on. -/
def Stores (call : Call) (d : Dumb) : Prop :=
  ∃ u, PartialRun.run step (addText call) d = .ok u ∧
    u.data = (onRow d fun line => putAll (symbol 32) line d.currentChar.val.toNat
      (call.text.map fun c => symbol c.toNat)) ∧
    u.currentLine = d.currentLine ∧ u.currentChar.val = d.currentChar.val+call.text.length

theorem addLetter_added (letter : ℕ) (d u : Dumb) (h : addLetter letter d = .ok u) :
    u.linesAdded = d.linesAdded := by
  rw [addLetter] at h
  split at h
  · cases h
  · split at h <;> cases h
    rfl

theorem finish_quiet (env : Env) (d : Dumb) (h : d.linesAdded = false) :
    step (.finish env) d = .ok d := by
  rw [step, h]
  simp only [Bool.false_eq_true, if_false]
  rw [← h]

theorem addText_letters (call : Call) (d : Dumb) (hd : d.linesAdded = false)
    (ht : ∀ c ∈ call.text, Printed c) :
    PartialRun.run step (addText call) d =
      PartialRun.run addLetter ((Utf8.encode call.text).map char32) d := by
  have hnul : '\x00' ∉ call.text := fun h => ht _ h (by simp)
  have hbytes : ∀ b ∈ input call.text, ¬ Control b := by
    rw [input_encode call.text hnul]
    intro b hb
    obtain ⟨c, hc, hb⟩ := List.mem_flatMap.mp hb
    exact printed_bytes c (ht c hc) b hb
  rw [addText_bytesOf, PartialRun.run_append, bytesOf_letters _ _ d hbytes,
    input_encode call.text hnul]
  cases h : PartialRun.run addLetter ((Utf8.encode call.text).map char32) d with
  | error e => rfl
  | ok u =>
    have hu : u.linesAdded = false :=
      PartialRun.run_keeps addLetter (fun d => d.linesAdded = false)
        (fun letter v w hv hw => (addLetter_added letter v w hw).trans hv) _ d u hd h
    dsimp only
    rw [PartialRun.run, finishEvent, finish_quiet _ u hu]
    rfl

/-- A text is stored letter by letter exactly if it is ASCII and fits behind
the cursor in an existing row. -/
theorem stores_iff (call : Call) (d : Dumb) (hd : Reachable d)
    (ht : ∀ c ∈ call.text, Printed c) :
    Stores call d ↔ call.text = [] ∨ (RowPresent d ∧ 0 ≤ d.currentChar.val ∧
      d.currentChar.val+call.text.length < 2147483648 ∧ ∀ c ∈ call.text, c.toNat < 128) := by
  rw [Stores, addText_letters call d hd.quiet ht]
  obtain ⟨hle, hascii⟩ := encode_length call.text
  have hlen : ((Utf8.encode call.text).map char32).length = (Utf8.encode call.text).length :=
    List.length_map _
  by_cases hne : call.text = []
  · have hsame : (onRow d fun line => line) = d.data := List.modify_id _ _
    refine iff_of_true ⟨d, ?_, ?_, rfl, ?_⟩ (.inl hne)
    · rw [hne]
      rfl
    · simp [hne, putAll, hsame]
    · simp [hne]
  have hpos := List.length_pos_iff.mpr hne
  constructor
  · rintro ⟨u, hu, -, -, hc⟩
    have hletters : (Utf8.encode call.text).map char32 ≠ [] :=
      List.length_pos_iff.mp (by omega)
    obtain ⟨hp, h0, hroom⟩ := letters_fit _ d u hd.short hletters hu
    rw [letters_put _ d hp h0 hroom] at hu
    cases hu
    rw [moved, wrap_val, int32] at hc
    exact .inr ⟨hp, h0, by omega, hascii (by omega)⟩
  · rintro (h | ⟨hp, h0, hroom, hall⟩)
    · exact absurd h hne
    have hfits : d.currentChar.val+(call.text.map Char.toNat).length < 2147483648 := by
      rwa [List.length_map]
    rw [char32_text call.text hall, letters_put _ d hp h0 hfits.le]
    refine ⟨_, rfl, ?_, rfl, ?_⟩
    · rw [moved, List.map_map]
      rfl
    · rw [moved, List.length_map]
      exact wrap_of_range (by unfold IsInt32; omega)

theorem stores_hello : Stores ⟨['h', 'i'], fun _ => plainEnv⟩ init :=
  (stores_iff ⟨['h', 'i'], fun _ => plainEnv⟩ init .init (by simp [Printed])).mpr
    (.inr ⟨by decide, by decide, by decide, by simp⟩)

def accented : Call := ⟨['é'], fun _ => plainEnv⟩

/-- The two bytes of an e with an acute accent become two symbols. -/
theorem accent_not_stored : Reachable init ∧ (∀ c ∈ accented.text, Printed c) ∧
    ¬ Stores accented init ∧
    ∃ u, PartialRun.run step (addText accented) init = .ok u ∧
      u.data = [[symbol 4294967235, symbol 4294967209]] := by
  refine ⟨.init, by simp [accented, Printed], ?_, ⟨_, rfl, rfl⟩⟩
  rintro ⟨u, hu, -, -, hc⟩
  have hr : (PartialRun.run step (addText accented) init).map (·.currentChar.val) = .ok 2 := by
    rfl
  rw [hu] at hr
  have htwo : u.currentChar.val = 2 := Except.ok.inj hr
  rw [htwo] at hc
  exact absurd hc (by decide)

end Bakaneko.DumbText
