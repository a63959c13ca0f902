import Bakaneko.TerminalSequences
import Bakaneko.TerminalEquivalence
import Bakaneko.PtyDecoding
import Bakaneko.Library.PaddedRow

/-!
# The states a terminal can reach

A terminal changes by calls of `add_text` that return and by the slot
`line_recount`, which the screen calls when its size changes. In every state
these lead to, rows are short and few, the palette index is in range, and no
call is in progress. A letter that is stored is written to its row, which
grows up to the column.
-/

set_option autoImplicit false

namespace Bakaneko.TerminalStates
open Bakaneko.Native Bakaneko.Terminal Bakaneko.TerminalFrame Bakaneko.TerminalColumns
open Bakaneko.TerminalSequences Bakaneko.TerminalEquivalence PartialRun PaddedRow

inductive Reachable : Linux → Prop where
  | init : Reachable init
  | addText (call : Call) (t u : Linux) (ht : Reachable t)
      (hu : run (addText call) t = .ok u) : Reachable u
  | recount (env : Env) (t : Linux) (ht : Reachable t) : Reachable (lineRecount env t)

/-- What surrounds the later bytes of a text. -/
def later (n : ℕ) (e : ℕ → Env) : ℕ → Env := fun i => e (n+i)

/-- The bytes of a text without the end of its call. -/
def bytesOf (e : ℕ → Env) (s : Bytes) : List Event := s.mapIdx fun i c => .letter (e i) c

theorem bytesOf_cons (e : ℕ → Env) (c : UInt8) (s : Bytes) :
    bytesOf e (c::s) = .letter (e 0) c::bytesOf (later 1 e) s := by
  rw [bytesOf, List.mapIdx_cons, bytesOf]
  congr 2
  funext i d
  rw [later, Nat.add_comm]

theorem bytesOf_append (e : ℕ → Env) (s r : Bytes) :
    bytesOf e (s++r) = bytesOf e s++bytesOf (later s.length e) r := by
  rw [bytesOf, List.mapIdx_append, bytesOf, bytesOf]
  congr 2
  funext i d
  rw [later, Nat.add_comm]

theorem addText_bytesOf (call : Call) :
    addText call = bytesOf call.env (input call.text)++[finishEvent call] := rfl

theorem input_encode (text : List Char) (h : '\x00' ∉ text) :
    input text = Utf8.encode text := by
  rw [input]
  refine List.takeWhile_eq_self_iff.mpr fun b hb => ?_
  rw [decide_eq_true_eq]
  rintro rfl
  obtain ⟨c, hc, hc0⟩ := List.mem_flatMap.mp hb
  exact h ((PtyDecoding.nul_encode c).mp hc0 ▸ hc)

theorem encode_ascii (c : Char) (h : c.toNat < 128) : String.utf8EncodeChar c = [byte c] :=
  if_pos (Nat.le_of_lt_succ h)

theorem byte_toNat (c : Char) (h : c.toNat < 128) : (byte c).toNat = c.toNat := by
  rw [byte, UInt8.toNat_ofNat']
  omega

theorem encode_ascii_text (text : List Char) (h : ∀ c ∈ text, c.toNat < 128) :
    Utf8.encode text = text.map byte := by
  induction text with
  | nil => rfl
  | cons c text ih =>
    rw [Utf8.encode_cons, encode_ascii c (h c List.mem_cons_self),
      ih fun d hd => h d (List.mem_cons_of_mem c hd)]
    rfl

/-- Outside a sequence a byte behind 127 is held back. -/
theorem high_collected (env : Env) (c : UInt8) (t : Linux) (hb : t.commandBuffer.head? ≠ some 27)
    (hc : 128 ≤ c) : feed env c t = .ok (append c t) ∧
      (append c t).commandBuffer.head? ≠ some 27 := by
  have hne : c ≠ 27 := by
    rintro rfl
    exact absurd hc (by decide)
  refine ⟨by rw [feed, if_neg hb, if_pos hc], ?_⟩
  cases hcs : t.commandBuffer with
  | nil => simpa [append, hcs] using hne
  | cons d rest => simpa [append, hcs] using hb

/-- A row number that an `int` can hold always becomes a new row. -/
def FewRows (t : Linux) : Prop := t.data.length ≤ 2147483648

theorem newline_few (t : Linux) (h : FewRows t) : FewRows (newline t) := by
  unfold newline
  dsimp only
  split
  case isTrue hs =>
    have hr := int32_range (t.currentLine.val+1)
    have hlt : t.data.length < 2147483648 := by
      by_cases h0 : 0 ≤ int32 (t.currentLine.val+1)
      · rw [sizeT_of_int32 h0 hr] at hs
        unfold IsInt32 at hr
        omega
      · have := sizeT_of_neg (Int.not_le.mp h0) hr
        unfold FewRows at h
        omega
    unfold FewRows
    dsimp only
    rw [List.length_append, List.length_singleton]
    omega
  case isFalse => exact h

theorem escape_rows (env : Env) (b : Bytes) (final : Final) (t u : Linux)
    (h : escape env b final t = .ok u) :
    u.data.length = t.data.length ∨ u.data = [[]] := by
  cases final with
  | H => cases h; exact .inl rfl
  | J => cases h; exact .inr rfl
  | m => exact .inl (parseM_sameText b t u h).sameRows.rows
  | K => exact .inl (parseK_stored env b t u h).rows
  | D => obtain ⟨value, -, rfl⟩ := (Fallible.map_ok _ _ _).mp h; exact .inl rfl
  | C => obtain ⟨value, -, rfl⟩ := (Fallible.map_ok _ _ _).mp h; exact .inl rfl
  | A => obtain ⟨value, -, rfl⟩ := (Fallible.map_ok _ _ _).mp h; exact .inl rfl
  | B => obtain ⟨value, -, rfl⟩ := (Fallible.map_ok _ _ _).mp h; exact .inl rfl
  | other => cases h; exact .inl rfl

theorem step_few (i : Event) (t u : Linux) (ht : FewRows t) (h : step i t = .ok u) :
    FewRows u := by
  cases i with
  | finish env =>
    cases h
    by_cases hl : t.linesAdded <;> simpa [hl, lineRecount, FewRows] using ht
  | letter env c =>
    rw [step, feed_action] at h
    cases ha : action c t with
    | collect => rw [ha] at h; cases h; exact ht
    | newline => rw [ha] at h; cases h; exact newline_few t ht
    | carriageReturn => rw [ha] at h; cases h; exact ht
    | backspace => rw [ha] at h; rwa [FewRows, (backspace_stored env t u h).rows]
    | beep => rw [ha] at h; cases h; exact ht
    | flush => rw [ha] at h; rwa [FewRows, (flush_stored (append c t) u h).rows]
    | sequence final b =>
      rw [ha] at h
      obtain ⟨v, hv, rfl⟩ := (Fallible.map_ok _ _ _).mp h
      rcases escape_rows env b final t v hv with hr | hr
      · rwa [FewRows, clear, hr]
      · rw [FewRows, clear, hr]
        decide

/-- What holds in every reachable state. -/
structure Sound (t : Linux) : Prop where
  short : ShortLines t
  few : FewRows t
  palette : PaletteSafe t

theorem Sound.run {t u : Linux} (h : Sound t) (events : List Event) (hu : run events t = .ok u) :
    Sound u :=
  run_keeps step Sound (fun i v w hv hw => ⟨step_short i v w hv.short hw,
    step_few i v w hv.few hw, step_palette i v w hv.palette hw⟩) events t u h hu

theorem init_sound : Sound init := ⟨init_short, by unfold FewRows; decide, init_palette⟩

theorem Reachable.sound {t : Linux} (h : Reachable t) : Sound t := by
  induction h with
  | init => exact init_sound
  | addText call t u _ hu ih => exact ih.run _ hu
  | recount env t _ ih => exact ⟨ih.short, ih.few, ih.palette⟩

theorem addText_quiet (call : Call) (t u : Linux) (h : run (addText call) t = .ok u) :
    u.linesAdded = false := by
  rw [addText_bytesOf, Terminal.run, run_append] at h
  split at h
  · cases h
  · cases h
    rfl

theorem Reachable.quiet {t : Linux} (h : Reachable t) : t.linesAdded = false := by
  induction h with
  | init => rfl
  | addText call t u _ hu _ => exact addText_quiet call t u hu
  | recount env t _ ih => exact ih

theorem padTo_eq (blank : Symbol) (target room : ℕ) (line l : List Symbol)
    (hle : line.length ≤ target) (h : padTo blank target room line = some l) :
    l = line++List.replicate (target-line.length) blank := by
  induction room generalizing line with
  | zero =>
    rw [padTo] at h
    split at h
    · cases h
      simp [show target-l.length = 0 by omega]
    · cases h
  | succ room ih =>
    rw [padTo] at h
    split at h
    · cases h
      simp [show target-l.length = 0 by omega]
    · rw [ih _ (by simp; omega) h, List.length_append, List.length_singleton, List.append_assoc,
        ← List.replicate_one, List.replicate_append_replicate]
      congr 2
      omega

/-- Padding up to a column of an `int` and one letter more is one write. -/
theorem padded_put (blank letter : Symbol) (line : List Symbol) (column : ℕ)
    (hc : column < 2147483648) :
    (if column = line.length then some (line++[letter])
      else if column < line.length then some (line.set column letter)
      else (padTo blank column (maxSize-line.length) line).map (·++[letter])) =
      some (put blank line column letter) := by
  have hm := maxSize_ge
  unfold put
  split
  · rw [if_neg (by omega), show column-line.length = 0 by omega]
    simp
  split
  · rfl
  · obtain ⟨l, hl⟩ := padTo_reaches blank column (maxSize-line.length) line (by omega) (by omega)
    rw [hl, padTo_eq blank column _ line l (by omega) hl]
    rfl

theorem storeLetter_put (letter : ℕ) (t : Linux) (line : List Symbol) (h : ColumnSafe t) :
    storeLetter letter t line =
      some (put (symbol 32 t) line t.currentChar.val.toNat (symbol letter t)) := by
  obtain ⟨hs, hlt⟩ := column_nonneg t h
  rw [storeLetter]
  rw [hs] at hlt ⊢
  exact padded_put _ _ _ _ hlt

/-- The row with the cursor, after a change to it. -/
def onRow (t : Linux) (f : List Symbol → List Symbol) : List (List Symbol) :=
  t.data.modify (sizeT t.currentLine.val) f

/-- The terminal with its rows changed and its column moved on. -/
def moved (t : Linux) (data : List (List Symbol)) (count : ℕ) : Linux :=
  { t with data := data, currentChar := .wrap (t.currentChar.val+count) }

theorem addLetter_put (letter : ℕ) (t : Linux) (hp : RowPresent t) (hs : ColumnSafe t) :
    addLetter letter t = .ok (moved t (onRow t fun line =>
      put (symbol 32 t) line t.currentChar.val.toNat (symbol letter t)) 1) := by
  unfold RowPresent at hp
  rw [addLetter, if_neg (by omega), List.getElem?_eq_getElem hp]
  dsimp only
  rw [storeLetter_put letter t _ hs, moved, onRow, List.modify_eq_set_getElem?,
    List.getElem?_eq_getElem hp]
  rfl

theorem onRow_present (t : Linux) (f : List Symbol → List Symbol) (count : ℕ)
    (hp : RowPresent t) : RowPresent (moved t (onRow t f) count) := by
  simpa [RowPresent, moved, onRow] using hp

/-- Letters that fit are written one behind the other. -/
theorem addLetters_put (letters : List ℕ) (t : Linux) (hp : RowPresent t) (hs : ColumnSafe t)
    (hroom : t.currentChar.val+letters.length ≤ 2147483648) :
    addLetters letters t = .ok (moved t (onRow t fun line =>
      putAll (symbol 32 t) line t.currentChar.val.toNat (letters.map fun l => symbol l t))
        letters.length) := by
  induction letters generalizing t with
  | nil =>
    have hsame : (onRow t fun line => line) = t.data := List.modify_id _ _
    simp [addLetters, moved, putAll, hsame, wrap_self]
  | cons letter letters ih =>
    rw [addLetters, addLetter_put letter t hp hs]
    dsimp only
    unfold ColumnSafe at hs
    by_cases hlast : letters = []
    · subst hlast
      rfl
    · have hpos := List.length_pos_iff.mpr hlast
      rw [List.length_cons] at hroom
      have hv : (moved t (onRow t fun line =>
          put (symbol 32 t) line t.currentChar.val.toNat (symbol letter t)) 1).currentChar.val =
          t.currentChar.val+1 := wrap_of_range (by unfold IsInt32; omega)
      rw [ih _ (onRow_present t _ 1 hp) (by unfold ColumnSafe; omega) (by omega)]
      simp only [moved] at hv ⊢
      simp only [hv, onRow, List.modify_modify_eq, List.length_cons, List.map_cons, putAll]
      have hcol : (t.currentChar.val+1).toNat = t.currentChar.val.toNat+1 := by omega
      rw [hcol]
      congr 3
      push_cast
      ring

/-- Letters that are stored in a row of the text fit. -/
theorem addLetters_fit (letters : List ℕ) (t u : Linux) (hs : ShortLines t) (hp : RowPresent t)
    (hne : letters ≠ []) (h : addLetters letters t = .ok u) :
    ColumnSafe t ∧ t.currentChar.val+letters.length ≤ 2147483648 := by
  induction letters generalizing t with
  | nil => exact absurd rfl hne
  | cons letter letters ih =>
    have h0 : ColumnSafe t := by
      by_contra hneg
      rw [addLetters, addLetter_negative letter t hs hp hneg] at h
      cases h
    have hr := t.currentChar.property
    rw [addLetters, addLetter_put letter t hp h0] at h
    refine ⟨h0, ?_⟩
    unfold IsInt32 at hr
    unfold ColumnSafe at h0
    rw [List.length_cons]
    by_cases hlast : letters = []
    · subst hlast
      simp
      omega
    · obtain ⟨hv0, hroom⟩ := ih _ (addLetter_short letter t _ hs (addLetter_put letter t hp h0))
        (onRow_present t _ 1 hp) hlast h
      rw [ColumnSafe, moved, wrap_val, int32] at hv0
      rw [moved, wrap_val, int32] at hroom
      push_cast at hv0 hroom ⊢
      omega

/-- The blanks of `K`, from a column on. -/
theorem eraseLoop_put (n : ℕ) (a : ℤ) (t : Linux) (hp : RowPresent t) (h0 : 0 ≤ a)
    (hroom : a+n < 2147483648) : ∃ u, eraseLoop n a t = .ok u ∧
      u = { t with
        data := onRow t fun line =>
          putAll (symbol 32 t) line a.toNat (List.replicate n (symbol 32 t))
        currentChar := u.currentChar } := by
  induction n generalizing a t with
  | zero =>
    have hsame : (onRow t fun line => line) = t.data := List.modify_id _ _
    exact ⟨t, rfl, by simp [putAll, hsame]⟩
  | succ n ih =>
    have hw : (CInt.wrap a).val = a := wrap_of_range (by unfold IsInt32; omega)
    have hput := addLetter_put 32 { t with currentChar := .wrap a } hp (by rwa [ColumnSafe, hw])
    obtain ⟨u, hu, hsame⟩ := ih (a+1) _ (onRow_present { t with currentChar := .wrap a } _ 1 hp)
      (by omega) (by push_cast at hroom; omega)
    refine ⟨u, by rw [eraseLoop, hput]; exact hu, hsame.trans ?_⟩
    have hcol : (a+1).toNat = a.toNat+1 := by omega
    simp only [moved, onRow, hw, symbol, List.modify_modify_eq, List.replicate_succ, putAll, hcol]
    rfl

theorem utf32From_ne (owed value least : ℕ) (s : Bytes) (letters : List ℕ)
    (h : utf32From owed value least s = some letters) (hne : s ≠ [] ∨ owed ≠ 0) :
    letters ≠ [] := by
  induction s generalizing owed value least with
  | nil =>
    cases owed with
    | zero => exact absurd hne (by simp)
    | succ owed => cases h
  | cons b s ih =>
    cases owed with
    | zero =>
      rw [utf32From] at h
      split at h
      · obtain ⟨rest, -, rfl⟩ := Option.map_eq_some_iff.mp h
        exact List.cons_ne_nil _ _
      split at h
      · cases h
      split at h
      · exact ih _ _ _ h (.inr (by decide))
      split at h
      · exact ih _ _ _ h (.inr (by decide))
      split at h
      · exact ih _ _ _ h (.inr (by decide))
      · cases h
    | succ owed =>
      rw [utf32From] at h
      split at h
      · dsimp only at h
        split at h
        · split at h
          · obtain ⟨rest, -, rfl⟩ := Option.map_eq_some_iff.mp h
            exact List.cons_ne_nil _ _
          · cases h
        case isFalse ho => exact ih _ _ _ h (.inr ho)
      · cases h

/-- A flush that returns passes its letters by, or writes them. -/
theorem flush_cases (t u : Linux) (hs : ShortLines t) (hb : t.commandBuffer ≠ [])
    (h : flush t = .ok u) : ∃ letters, toUtf32 t.commandBuffer = some letters ∧
      ((¬ RowPresent t ∧ u = clear t) ∨
      (RowPresent t ∧ ColumnSafe t ∧ t.currentChar.val+letters.length ≤ 2147483648 ∧
        u = clear (moved t (onRow t fun line => putAll (symbol 32 t) line
          t.currentChar.val.toNat (letters.map fun l => symbol l t)) letters.length))) := by
  rw [flush] at h
  cases hu : toUtf32 t.commandBuffer with
  | none => simp [hu] at h
  | some letters =>
    rw [hu] at h
    obtain ⟨v, hv, rfl⟩ := (Fallible.map_ok _ _ _).mp h
    refine ⟨letters, rfl, ?_⟩
    by_cases hp : RowPresent t
    · have hne := utf32From_ne 0 0 0 _ letters hu (.inl hb)
      obtain ⟨h0, hroom⟩ := addLetters_fit letters t v hs hp hne hv
      rw [addLetters_put letters t hp h0 hroom] at hv
      cases hv
      exact .inr ⟨hp, h0, hroom, rfl⟩
    · rcases addLetters_absent letters t hp with hk | hk <;> rw [hk] at hv <;> cases hv
      exact .inl ⟨hp, rfl⟩

theorem eraseLoop_passes (n : ℕ) (a : ℤ) (t u : Linux) (hp : ¬ RowPresent t)
    (h : eraseLoop n a t = .ok u) : u = { t with currentChar := u.currentChar } := by
  induction n generalizing a t with
  | zero =>
    cases h
    rfl
  | succ n ih =>
    rw [eraseLoop] at h
    rcases addLetter_absent 32 { t with currentChar := .wrap a } hp with hk | hk
    · rw [hk] at h
      exact ih (a+1) { t with currentChar := .wrap a } hp h
    · rw [hk] at h
      cases h

/-- `K` that returns leaves all as it is, or writes blanks. -/
theorem parseK_cases (env : Env) (b : Bytes) (t u : Linux) (hs : ShortLines t)
    (h : parseK env b t = .ok u) :
    (¬ ((eraseBounds env b t).1.val < (eraseBounds env b t).2.val ∧ RowPresent t) ∧ u = t) ∨
    (RowPresent t ∧ 0 ≤ (eraseBounds env b t).1.val ∧
      (eraseBounds env b t).1.val < (eraseBounds env b t).2.val ∧
      u = { t with data := (onRow t fun line => putAll (symbol 32 t) line
        (eraseBounds env b t).1.val.toNat (List.replicate
          ((eraseBounds env b t).2.val-(eraseBounds env b t).1.val).toNat (symbol 32 t))) }) := by
  have herasable := (parseK_returns env b t hs).mpr ⟨u, h⟩
  have hstop := (eraseBounds env b t).2.property
  unfold IsInt32 at hstop
  have hmap : (eraseLoop ((eraseBounds env b t).2.val-(eraseBounds env b t).1.val).toNat
      (eraseBounds env b t).1.val t).map (fun u => { u with currentChar := t.currentChar }) =
      .ok u := h
  obtain ⟨v, hv, rfl⟩ := (Fallible.map_ok _ _ _).mp hmap
  by_cases hlt : (eraseBounds env b t).1.val < (eraseBounds env b t).2.val
  case neg =>
    rw [Int.toNat_of_nonpos (by omega)] at hv
    cases hv
    exact .inl ⟨fun h => hlt h.1, rfl⟩
  rcases herasable hlt with habove | ⟨hp, h0⟩
  · have hp : ¬ RowPresent t := by
      unfold RowPresent
      omega
    refine .inl ⟨fun h => hp h.2, ?_⟩
    rw [eraseLoop_passes _ _ t v hp hv]
  · obtain ⟨w, hw, hsame⟩ := eraseLoop_put _ _ t hp h0
      (show _+(((eraseBounds env b t).2.val-(eraseBounds env b t).1.val).toNat:ℤ) < 2147483648 by
        omega)
    obtain rfl : v = w := Except.ok.inj (hv.symm.trans hw)
    refine .inr ⟨hp, h0, hlt, ?_⟩
    rw [hsame]

theorem backspace_cases (env : Env) (t u : Linux) (h : backspace env t = .ok u) :
    RowPresent t ∧ ((t.currentChar.val ≤ 0 ∧ u = t) ∨ (0 < t.currentChar.val ∧ u = { t with
      data := onRow t (backspaceLine t)
      currentChar := .wrap (t.currentChar.val-1)
      linesAdded := t.linesAdded || decide ((t.currentChar.val-1).tmod env.columns.val = 0) })) := by
  have hr := t.currentChar.property
  unfold IsInt32 at hr
  rw [backspace] at h
  cases hline : t.data[sizeT t.currentLine.val]? with
  | none => simp [hline] at h
  | some line =>
    refine ⟨(List.getElem?_eq_some_iff.mp hline).1, ?_⟩
    rw [hline] at h
    dsimp only at h
    split at h
    case isTrue hpos =>
      cases h
      refine .inr ⟨hpos, ?_⟩
      have hv : int32 (t.currentChar.val-1) = t.currentChar.val-1 :=
        int32_of_range (by unfold IsInt32; omega)
      rw [hv, onRow, List.modify_eq_set_getElem?, hline]
      rfl
    case isFalse hpos =>
      cases h
      exact .inl ⟨Int.not_lt.mp hpos, rfl⟩

end Bakaneko.TerminalStates
