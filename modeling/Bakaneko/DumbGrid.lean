import Bakaneko.DumbText

/-!
# The dumb terminal as a grid

A walk over a text keeps the cursor and notes every letter with the place it
is written to. On ASCII text the terminal shows what the walk says: a row is
as long as the last column written in it, and a cell shows what was written
there last.
-/

set_option autoImplicit false

namespace Bakaneko.DumbGrid
open Bakaneko.Native Bakaneko.DumbTerminal Bakaneko.DumbText PaddedRow
open Bakaneko.TerminalStates (bytesOf bytesOf_cons later addText_bytesOf input_encode encode_ascii_text byte_toNat)
open Bakaneko.Terminal (Symbol Fault Env Event Call input addText addTexts plainEnv)
open Bakaneko.TerminalEquivalence (byte flood lineFeed finishEvent)

/-- The cursor of the walk and all that was written: row, column and letter. -/
structure Walk where
  row : ℕ
  column : ℕ
  writes : List (ℕ × ℕ × Char)

def Walk.step (w : Walk) (c : Char) : Walk :=
  if c = '\n' then { w with row := w.row+1 }
  else if c = '\r' then { w with column := 0 }
  else if c = '\x08' then { w with column := w.column-1 }
  else if c = '\x07' then w
  else { w with column := w.column+1, writes := w.writes++[(w.row, w.column, c)] }

def Walk.start : Walk := ⟨0, 0, []⟩

def walk (text : List Char) : Walk := text.foldl Walk.step .start

/-- The writes to one row. -/
def Walk.onRow (w : Walk) (r : ℕ) : List (ℕ × Symbol) :=
  (w.writes.filter fun write => write.1 = r).map fun write => (write.2.1, symbol write.2.2.toNat)

def allText (calls : List Call) : List Char := calls.flatMap Call.text

def AsciiTexts (calls : List Call) : Prop := ∀ c ∈ allText calls, 1 ≤ c.toNat ∧ c.toNat < 128

/-- The cursor of the walk is never behind what an `int` holds. -/
def InRange (text : List Char) : Prop :=
  ∀ q, q <+: text → (walk q).row < 2147483648 ∧ (walk q).column < 2147483648

/-- The calls return, with the cursor, the rows and the cells of the walk. -/
def IsGrid (calls : List Call) : Prop :=
  ∃ d, PartialRun.run step (addTexts calls) init = .ok d ∧
    d.data.length = 1+(allText calls).count '\n' ∧
    d.currentLine.val = (walk (allText calls)).row ∧
    d.currentChar.val = (walk (allText calls)).column ∧
    ∀ r row, d.data[r]? = some row →
      row.length = width ((walk (allText calls)).onRow r) ∧
      ∀ i < row.length,
        row[i]? = some ((lastWrite ((walk (allText calls)).onRow r) i).getD (symbol 32))

/-- The state that shows a walk. -/
structure Shows (w : Walk) (d : Dumb) : Prop where
  line : d.currentLine.val = w.row
  char : d.currentChar.val = w.column
  rows : d.data.length = w.row+1
  cells : ∀ r < d.data.length, d.data[r]? = some (written (symbol 32) (w.onRow r))
  above : ∀ write ∈ w.writes, write.1 ≤ w.row

theorem walk_append (text : List Char) (c : Char) :
    walk (text++[c]) = (walk text).step c := by
  rw [walk, List.foldl_append]
  rfl

theorem step_row (w : Walk) (c : Char) :
    (w.step c).row = w.row+(if c = '\n' then 1 else 0) := by
  unfold Walk.step
  repeat' split
  all_goals simp_all

theorem walk_row (text : List Char) : (walk text).row = text.count '\n' := by
  induction text using List.reverseRecOn with
  | nil => rfl
  | append_singleton text c ih =>
    rw [walk_append, step_row, ih, List.count_append, List.count_singleton]
    congr 1
    by_cases hc : c = '\n' <;> simp [hc]

theorem start_shows : Shows .start init where
  line := by decide
  char := by decide
  rows := rfl
  cells := by
    intro r hr
    obtain rfl : r = 0 := Nat.lt_one_iff.mp hr
    rfl
  above := by simp [Walk.start]

theorem newline_shows (w : Walk) (d : Dumb) (h : Shows w d) (hroom : w.row+1 < 2147483648) :
    Shows { w with row := w.row+1 } (newline d) where
  line := by
    have hline := h.line
    exact (wrap_of_range (by unfold IsInt32; omega)).trans (by push_cast; omega)
  char := h.char
  rows := by
    rw [newline, List.length_append, h.rows]
    rfl
  cells := by
    intro r hr
    have hrows := h.rows
    rw [newline, List.length_append, List.length_singleton] at hr
    rw [newline, List.getElem?_append]
    by_cases hold : r < d.data.length
    · rw [if_pos hold]
      exact h.cells r hold
    · have hnone : { w with row := w.row+1 }.onRow r = [] := by
        rw [Walk.onRow, List.map_eq_nil_iff, List.filter_eq_nil_iff]
        intro write hw
        have := h.above write hw
        simp
        omega
      rw [if_neg hold, hnone, show r-d.data.length = 0 by omega]
      rfl
  above := fun write hw => Nat.le_succ_of_le (h.above write hw)

theorem write_onRow (w : Walk) (c : Char) (r : ℕ) (writes : List (ℕ × ℕ × Char)) (column : ℕ)
    (hw : writes = w.writes++[(w.row, w.column, c)]) :
    { w with column := column, writes := writes }.onRow r =
      w.onRow r++(if r = w.row then [(w.column, symbol c.toNat)] else []) := by
  rw [Walk.onRow, hw, List.filter_append, List.map_append, Walk.onRow]
  congr 1
  by_cases hr : r = w.row
  · simp [hr]
  · simp [hr, Ne.symm hr]

theorem letter_shows (w : Walk) (d : Dumb) (c : Char) (h : Shows w d)
    (hroom : w.column+1 < 2147483648) :
    ∃ u, addLetter c.toNat d = .ok u ∧ Shows
      { w with column := w.column+1, writes := w.writes++[(w.row, w.column, c)] } u := by
  have hline := h.line
  have hchar := h.char
  have hrows := h.rows
  have hs : sizeT d.currentLine.val = w.row := by
    rw [sizeT_of_int32 (by omega) d.currentLine.property]
    omega
  have hp : RowPresent d := by
    rw [RowPresent, hs, hrows]
    exact Nat.lt_succ_self _
  refine ⟨_, addLetter_put c.toNat d hp (by omega), ?_⟩
  exact {
    line := hline
    char := (wrap_of_range (by unfold IsInt32; omega)).trans (by push_cast; omega)
    rows := by rw [moved, DumbText.onRow, List.length_modify, hrows]
    cells := by
      intro r hr
      rw [moved, DumbText.onRow, List.length_modify] at hr
      rw [moved, DumbText.onRow, hs, List.getElem?_modify, h.cells r hr, write_onRow w c r _ _ rfl]
      have hcol : d.currentChar.val.toNat = w.column := by omega
      by_cases hrow : r = w.row
      · rw [if_pos hrow, written_append]
        simp [hrow, hcol]
      · rw [if_neg hrow, List.append_nil]
        simp [Ne.symm hrow]
    above := by
      intro write hw
      rcases List.mem_append.mp hw with hold | hnew
      · exact h.above write hold
      · rw [List.mem_singleton.mp hnew] }

theorem backspace_shows (env : Env) (w : Walk) (d : Dumb) (h : Shows w d) :
    Shows { w with column := w.column-1 } (backspace env d) := by
  have hchar := h.char
  have hr := d.currentChar.property
  unfold IsInt32 at hr
  rw [backspace]
  split
  case isTrue hpos =>
    have hv : int32 (d.currentChar.val-1) = d.currentChar.val-1 :=
      int32_of_range (by unfold IsInt32; omega)
    exact { h with char := by dsimp only; rw [wrap_val, hv, hv]; omega }
  case isFalse hzero => exact { h with char := by dsimp only; omega }

theorem step_shows (env : Env) (w : Walk) (d : Dumb) (c : Char) (h : Shows w d)
    (hc : c.toNat < 128) (hroom : (w.step c).row < 2147483648 ∧ (w.step c).column < 2147483648) :
    ∃ u, step (.letter env (byte c)) d = .ok u ∧ Shows (w.step c) u := by
  have hne : ∀ k : Char, k.toNat < 128 → c ≠ k → byte c ≠ byte k := by
    intro k hk hck hb
    have hn := congrArg UInt8.toNat hb
    rw [byte_toNat c hc, byte_toNat k hk] at hn
    exact hck (Char.toNat_inj.mp hn)
  rw [step]
  by_cases hn : c = '\n'
  · subst hn
    exact ⟨_, rfl, newline_shows w d h hroom.1⟩
  by_cases hr : c = '\r'
  · subst hr
    exact ⟨_, rfl, { h with char := rfl }⟩
  by_cases hb : c = '\x08'
  · subst hb
    exact ⟨_, rfl, backspace_shows env w d h⟩
  by_cases ha : c = '\x07'
  · subst ha
    exact ⟨_, rfl, h⟩
  · have hstep : w.step c =
        { w with column := w.column+1, writes := w.writes++[(w.row, w.column, c)] } := by
      rw [Walk.step, if_neg hn, if_neg hr, if_neg hb, if_neg ha]
    have hcontrol : ¬ Control (byte c) := by
      rintro (h10 | h13 | h8 | h7)
      · exact hne '\n' (by decide) hn h10
      · exact hne '\r' (by decide) hr h13
      · exact hne '\x08' (by decide) hb h8
      · exact hne '\x07' (by decide) ha h7
    rw [feed_letter env (byte c) d hcontrol, char32_byte c hc, hstep]
    rw [hstep] at hroom
    exact letter_shows w d c h hroom.2

theorem text_shows (text : List Char) (e : ℕ → Env) (w : Walk) (d : Dumb) (h : Shows w d)
    (hc : ∀ c ∈ text, c.toNat < 128) (hroom : ∀ q, q <+: text →
      (q.foldl Walk.step w).row < 2147483648 ∧ (q.foldl Walk.step w).column < 2147483648) :
    ∃ u, PartialRun.run step (bytesOf e (text.map byte)) d = .ok u ∧
      Shows (text.foldl Walk.step w) u := by
  induction text generalizing e w d with
  | nil => exact ⟨d, rfl, h⟩
  | cons c text ih =>
    obtain ⟨u, hu, hshows⟩ := step_shows (e 0) w d c h (hc c List.mem_cons_self)
      (hroom [c] (List.prefix_append [c] text))
    obtain ⟨v, hv, hlast⟩ := ih (later 1 e) (w.step c) u hshows
      (fun b hb => hc b (List.mem_cons_of_mem c hb))
      (fun q hq => hroom (c::q) (List.cons_prefix_cons.mpr ⟨rfl, hq⟩))
    refine ⟨v, ?_, hlast⟩
    rw [List.map_cons, bytesOf_cons, PartialRun.run, hu]
    exact hv

theorem finish_shows (env : Env) (w : Walk) (d : Dumb) (h : Shows w d) :
    ∃ u, step (.finish env) d = .ok u ∧ Shows w u := by
  refine ⟨_, rfl, ?_⟩
  by_cases hl : d.linesAdded <;> simp only [hl, if_true, lineRecount]
  · exact { h with }
  · exact { h with }

theorem texts_show (calls : List Call) (w : Walk) (d : Dumb) (h : Shows w d)
    (hascii : AsciiTexts calls) (hroom : ∀ q, q <+: allText calls →
      (q.foldl Walk.step w).row < 2147483648 ∧ (q.foldl Walk.step w).column < 2147483648) :
    ∃ u, PartialRun.run step (addTexts calls) d = .ok u ∧
      Shows ((allText calls).foldl Walk.step w) u := by
  induction calls generalizing w d with
  | nil => exact ⟨d, rfl, h⟩
  | cons call calls ih =>
    have hsplit : allText (call::calls) = call.text++allText calls := rfl
    rw [AsciiTexts, hsplit, List.forall_mem_append] at hascii
    rw [hsplit] at hroom
    obtain ⟨hhead, htail⟩ := hascii
    have hnul : '\x00' ∉ call.text := fun h0 => absurd (hhead _ h0).1 (by decide)
    have hbytes : input call.text = call.text.map byte := by
      rw [input_encode call.text hnul, encode_ascii_text call.text fun c hc => (hhead c hc).2]
    obtain ⟨u, hu, hshows⟩ := text_shows call.text call.env w d h (fun c hc => (hhead c hc).2)
      fun q hq => hroom q (hq.trans (List.prefix_append _ _))
    obtain ⟨v, hv, hend⟩ := finish_shows (call.env (input call.text).length) _ u hshows
    obtain ⟨x, hx, hlast⟩ := ih _ v hend htail fun q hq => by
      rw [← List.foldl_append]
      exact hroom _ ((List.prefix_append_right_inj _).mpr hq)
    refine ⟨x, ?_, ?_⟩
    · rw [addTexts, List.flatMap_cons, addText_bytesOf, List.append_assoc, PartialRun.run_append,
        hbytes, hu]
      dsimp only
      rw [List.singleton_append, PartialRun.run, finishEvent, hv]
      exact hx
    · rw [hsplit, List.foldl_append]
      exact hlast

/-- While the cursor of the walk fits an `int`, the terminal shows the walk. -/
theorem grid_of_ascii (calls : List Call) (hascii : AsciiTexts calls)
    (hroom : InRange (allText calls)) : IsGrid calls := by
  obtain ⟨d, hd, h⟩ := texts_show calls .start init start_shows hascii hroom
  refine ⟨d, hd, ?_, h.line, h.char, fun r row hr => ?_⟩
  · rw [h.rows, ← walk_row, Nat.add_comm]
    rfl
  · have hcells := h.cells r (List.getElem?_eq_some_iff.mp hr).1
    rw [hr] at hcells
    obtain rfl := Option.some.inj hcells
    refine ⟨written_length _ _, fun i hi => ?_⟩
    rw [written_length] at hi
    exact written_getElem? _ _ i hi

instance (text : List Char) : Decidable (InRange text) :=
  decidable_of_iff (∀ q ∈ text.inits, (walk q).row < 2147483648 ∧ (walk q).column < 2147483648)
    (forall_congr' fun q => by rw [List.mem_inits])

instance (calls : List Call) : Decidable (AsciiTexts calls) := List.decidableBAll _ _

/-- An overwritten letter, a padded row and a step back. -/
theorem grid_padded : IsGrid [⟨['a', 'b', '\r', 'c', '\n'], fun _ => plainEnv⟩,
    ⟨['d', '\x08', '\x07', 'e'], fun _ => plainEnv⟩] :=
  grid_of_ascii _ (by decide) (by decide)

theorem allText_feeds (n : ℕ) : allText (List.replicate n lineFeed) = List.replicate n '\n' := by
  induction n with
  | zero => rfl
  | succ n ih =>
    rw [List.replicate_succ, allText, List.flatMap_cons, ← allText, ih]
    rfl

/-- After 2^31 line feeds the row is no `int`. -/
theorem no_grid_after_flood : AsciiTexts flood ∧ ¬ IsGrid flood := by
  have htext : allText flood = List.replicate 2147483648 '\n' := allText_feeds _
  constructor
  · intro c hc
    rw [htext] at hc
    rw [List.eq_of_mem_replicate hc]
    decide
  · rintro ⟨d, -, -, hline, -⟩
    have hr := d.currentLine.property
    rw [walk_row, htext, List.count_replicate_self] at hline
    unfold IsInt32 at hr
    omega

end Bakaneko.DumbGrid
