import Bakaneko.EscapeFraming

/-!
# Erasing

`K` prints blanks over columns it takes from the cursor and the width of the
screen, or from variables nothing has set; `J` drops the whole text whatever
its parameter. What either leaves or takes too much is told by the cells in
front of the sequence.
-/

set_option autoImplicit false

namespace Bakaneko.Erasing
open Bakaneko.Native Bakaneko.Terminal Bakaneko.TerminalFrame Bakaneko.TerminalColumns
open Bakaneko.TerminalStates Bakaneko.EscapeFraming PartialRun PaddedRow
open Bakaneko.SgrCodes (collected Ascii)

/-- `K` erases in the line, `J` in the screen. -/
inductive Erase where
  | line
  | screen
  deriving DecidableEq

def Erase.byte : Erase → UInt8
  | .line => 75
  | .screen => 74

/-- `ESC[` with a decimal parameter, or none. -/
def sequence (kind : Erase) (ds : Bytes) : Bytes := 27::(91::ds++[kind.byte])

def text (s : Bytes) (e : ℕ → Env) : Call := ⟨s.map fun c => Char.ofNat c.toNat, e⟩

def row (t : Linux) : ℕ := sizeT t.currentLine.val

def cell (data : List (List Symbol)) (r i : ℕ) : Option Symbol := data[r]?.bind (·[i]?)

/-- The cells that a parameter up to 2 stands for. -/
def region (kind : Erase) (n : ℕ) (t : Linux) (r i : ℕ) : Prop :=
  match kind with
  | .line => r = row t ∧
      (n = 0 ∧ t.currentChar.val ≤ i ∨ n = 1 ∧ i ≤ t.currentChar.val ∨ n = 2)
  | .screen => n = 0 ∧ (row t < r ∨ r = row t ∧ t.currentChar.val ≤ i) ∨
      n = 1 ∧ (r < row t ∨ r = row t ∧ i ≤ t.currentChar.val) ∨ n = 2

/-- A cell before and after: blank or gone inside the region, the same outside. -/
def Blanked (inside : Prop) : Option Symbol → Option Symbol → Prop
  | some s, some s' => (inside → s'.letter = 32) ∧ (¬ inside → s' = s)
  | some _, none => inside
  | none, some s' => s'.letter = 32
  | none, none => True

/-- The sequence returns, keeps the cursor and blanks its region; with another
parameter it changes nothing. -/
def Erases (kind : Erase) (ds : Bytes) (e : ℕ → Env) (t : Linux) : Prop :=
  ∃ u, run (addText (text (sequence kind ds) e)) t = .ok u ∧
    u.currentLine = t.currentLine ∧ u.currentChar = t.currentChar ∧
    if digitsValue ds ≤ 2 then
      ∀ r i, Blanked (region kind (digitsValue ds) t r i) (cell t.data r i) (cell u.data r i)
    else u.data = t.data

/-- The columns `K` prints blanks over. -/
def Written (env : Env) (b : Bytes) (t : Linux) (i : ℕ) : Prop :=
  b.head? = some 91 ∧ (eraseBounds env b t).1.val ≤ i ∧ i < (eraseBounds env b t).2.val

/-- What `K` needs of the row: all of the region is printed over or blank
already, and nothing else is printed over. -/
def LineErasable (n : ℕ) (env : Env) (b : Bytes) (t : Linux) : Prop :=
  (b.head? = some 91 → (eraseBounds env b t).1.val < (eraseBounds env b t).2.val →
    0 ≤ (eraseBounds env b t).1.val) ∧
  if n ≤ 2 then ∀ i s, cell t.data (row t) i = some s →
    (region .line n t (row t) i → Written env b t i ∨ s.letter = 32) ∧
    (¬ region .line n t (row t) i → Written env b t i → s = symbol 32 t)
  else ∀ i, Written env b t i → cell t.data (row t) i = some (symbol 32 t)

/-- What `J` needs of the text: no cell outside the region. -/
def ScreenErasable (n : ℕ) (b : Bytes) (t : Linux) : Prop :=
  if b.head? = some 91 then
    if n ≤ 2 then ∀ r i s, cell t.data r i = some s → region .screen n t r i else t.data = [[]]
  else n ≤ 2 → ∀ r i s, cell t.data r i = some s → region .screen n t r i → s.letter = 32

def Erasable (kind : Erase) (n : ℕ) (env : Env) (b : Bytes) (t : Linux) : Prop :=
  match kind with
  | .line => LineErasable n env b t
  | .screen => ScreenErasable n b t

theorem text_ok (s : Bytes) (hs : ∀ c ∈ s, Ascii c) (e : ℕ → Env) (t u : Linux) :
    run (addText (text s e)) t = .ok u ↔
      ∃ v, run (bytesOf e s) t = .ok v ∧ step (.finish (e s.length)) v = .ok u := by
  have hinput : input (text s e).text = s := SgrCodes.input_ascii s hs
  rw [addText_bytesOf, hinput, Terminal.run, run_append_ok]
  simp only [run_singleton, TerminalEquivalence.finishEvent, hinput]
  rfl

theorem sequence_ascii (kind : Erase) (ds : Bytes) (hds : ∀ d ∈ ds, isdigit d = true) :
    ∀ c ∈ sequence kind ds, Ascii c := by
  intro c hc
  simp only [sequence, List.mem_cons, List.mem_append, List.not_mem_nil, or_false] at hc
  rcases hc with rfl | (rfl | hc) | rfl
  · exact ⟨by decide, by decide⟩
  · exact ⟨by decide, by decide⟩
  · exact SgrCodes.digit_ascii c (hds c hc)
  · cases kind <;> exact ⟨by decide, by decide⟩

theorem cell_onRow (t : Linux) (f : List Symbol → List Symbol) (r i : ℕ) :
    cell (onRow t f) r i =
      if row t = r then t.data[r]?.bind fun line => (f line)[i]? else cell t.data r i := by
  rw [cell, onRow, List.getElem?_modify, cell]
  by_cases h : row t = r
  · rw [if_pos h]
    rw [row] at h
    cases t.data[r]? <;> simp [h]
  · rw [if_neg h]
    rw [row] at h
    cases t.data[r]? <;> simp [h]

theorem onRow_same (t : Linux) (f : List Symbol → List Symbol)
    (h : ∀ line, t.data[row t]? = some line → f line = line) : onRow t f = t.data := by
  rw [onRow]
  by_cases hp : RowPresent t
  · have hline : t.data[sizeT t.currentLine.val]? = some t.data[sizeT t.currentLine.val] :=
      List.getElem?_eq_getElem hp
    have hsame := h _ hline
    rw [List.modify_eq_set_getElem?, hline]
    simp only [Option.map_some, Option.getD_some, hsame, Option.map_eq_map]
    exact List.set_getElem_self hp
  · exact List.modify_eq_self (Nat.le_of_not_lt hp)

/-- What `K` leaves in a cell of the text. -/
theorem parseK_cell (env : Env) (b : Bytes) (t u : Linux) (hs : ShortLines t) (hp : RowPresent t)
    (h : parseK env b t = .ok u) (r i : ℕ) :
    (r = row t ∧ (eraseBounds env b t).1.val ≤ i ∧ i < (eraseBounds env b t).2.val ∧
      cell u.data r i = some (symbol 32 t)) ∨
    (¬ (r = row t ∧ (eraseBounds env b t).1.val ≤ i ∧ i < (eraseBounds env b t).2.val) ∧
      (cell u.data r i = cell t.data r i ∨ (cell t.data r i = none ∧
        cell u.data r i = some (symbol 32 t)))) := by
  obtain ⟨hno, rfl⟩ | ⟨-, h0, hlt, rfl⟩ := parseK_cases env b t u hs h
  · have hempty : ¬ (eraseBounds env b u).1.val < (eraseBounds env b u).2.val :=
      fun hlt => hno ⟨hlt, hp⟩
    exact .inr ⟨fun h => by omega, .inl rfl⟩
  have hline : t.data[row t]? = some t.data[row t] := List.getElem?_eq_getElem hp
  dsimp only
  rw [cell_onRow]
  by_cases hr : r = row t
  case neg =>
    rw [if_neg (Ne.symm hr)]
    exact .inr ⟨fun h => hr h.1, .inl rfl⟩
  subst hr
  rw [if_pos rfl, cell, hline, Option.bind_some, Option.bind_some, putAll_getElem?,
    List.length_replicate]
  by_cases hin : (eraseBounds env b t).1.val ≤ i ∧ i < (eraseBounds env b t).2.val
  · refine .inl ⟨rfl, hin.1, hin.2, ?_⟩
    rw [if_pos (by omega), List.getElem?_replicate_of_lt (by omega)]
  · refine .inr ⟨fun h => hin h.2, ?_⟩
    rw [if_neg (by omega)]
    split
    case isTrue hpad => exact .inr ⟨List.getElem?_eq_none hpad.1, rfl⟩
    case isFalse => exact .inl rfl

/-- A loop that prints over nothing but its own blanks changes nothing. -/
theorem parseK_same (env : Env) (b : Bytes) (t u : Linux) (hs : ShortLines t)
    (hp : RowPresent t) (h : parseK env b t = .ok u) :
    u.data = t.data ↔ ∀ i : ℕ, (eraseBounds env b t).1.val ≤ i → i < (eraseBounds env b t).2.val →
      cell t.data (row t) i = some (symbol 32 t) := by
  constructor
  · intro hd i hstart hstop
    rcases parseK_cell env b t u hs hp h (row t) i with ⟨-, -, -, hc⟩ | ⟨hno, -⟩
    · rwa [hd] at hc
    · exact absurd ⟨rfl, hstart, hstop⟩ hno
  · intro hall
    obtain ⟨-, rfl⟩ | ⟨-, h0, hlt, rfl⟩ := parseK_cases env b t u hs h
    · rfl
    refine onRow_same t _ fun cells hline => ?_
    have hcells : ∀ i : ℕ, (eraseBounds env b t).1.val ≤ i → i < (eraseBounds env b t).2.val →
        cells[i]? = some (symbol 32 t) := fun i h1 h2 => by
      have hc := hall i h1 h2
      rwa [cell, hline] at hc
    refine List.ext_getElem? fun i => ?_
    rw [putAll_getElem?, List.length_replicate]
    split
    case isTrue hin =>
      rw [hcells i (by omega) (by omega), List.getElem?_replicate_of_lt (by omega)]
    case isFalse =>
      have hfirst := hcells (eraseBounds env b t).1.val.toNat (by omega) (by omega)
      have hlong := (List.getElem?_eq_some_iff.mp hfirst).1
      rw [if_neg (by omega)]

/-- Printing has moved the cursor on from a column, or past what an `int` holds. -/
structure MovedOn (column : ℤ) (t : Linux) : Prop where
  buffer : t.commandBuffer = []
  present : RowPresent t
  short : ShortLines t
  start : 0 ≤ column
  column : column < t.currentChar.val ∨ t.currentChar.val < 0

theorem flush_movesOn (column : ℤ) (t u : Linux) (hs : ShortLines t) (hp : RowPresent t)
    (hb : t.commandBuffer ≠ []) (hstart : 0 ≤ t.currentChar.val → 0 ≤ column)
    (hle : column ≤ t.currentChar.val ∨ t.currentChar.val < 0) (h : flush t = .ok u) :
    MovedOn column u := by
  obtain ⟨letters, hletters, ⟨hno, -⟩ | ⟨-, h0, hroom, rfl⟩⟩ := flush_cases t u hs hb h
  · exact absurd hp hno
  have hpos := List.length_pos_iff.mpr (utf32From_ne 0 0 0 _ letters hletters (.inl hb))
  have hshort := addLetters_short letters t _ hs (addLetters_put letters t hp h0 hroom)
  unfold ColumnSafe at h0
  exact {
    buffer := rfl
    present := onRow_present t _ letters.length hp
    short := hshort
    start := hstart h0
    column := by
      rw [clear, moved]
      dsimp only
      rw [wrap_val, int32]
      omega }

theorem printable_movesOn (column : ℤ) (c : UInt8) (hc : 0x20 ≤ c ∧ c < 128) (env : Env)
    (t u : Linux) (h : MovedOn column t) (hu : step (.letter env c) t = .ok u) :
    MovedOn column u := by
  have hact := printable_flush c t hc (by simp [h.buffer])
  rw [step, feed_action, hact] at hu
  exact flush_movesOn column (append c t) u h.short h.present (by simp [append])
    (fun _ => h.start) (h.column.imp_left Int.le_of_lt) hu

theorem printables_moveOn (column : ℤ) (s : Bytes) (hs : ∀ c ∈ s, 0x20 ≤ c ∧ c < 128)
    (e : ℕ → Env) (t u : Linux) (h : MovedOn column t) (hu : run (bytesOf e s) t = .ok u) :
    MovedOn column u := by
  induction s generalizing e t with
  | nil =>
    cases hu
    exact h
  | cons c s ih =>
    obtain ⟨hc, hrest⟩ := List.forall_mem_cons.mp hs
    rw [bytesOf_cons, Terminal.run, PartialRun.run] at hu
    cases hstep : step (.letter (e 0) c) t with
    | error x => simp [hstep] at hu
    | ok v =>
      rw [hstep] at hu
      exact ih hrest _ v (printable_movesOn column c hc _ t v h hstep) hu

/-- Behind pending bytes a sequence is printed and the cursor does not stay. -/
theorem pending_moves (s : Bytes) (hs : ∀ c ∈ s, 0x20 ≤ c ∧ c < 128) (hne : s ≠ [])
    (e : ℕ → Env) (t u : Linux) (hshort : ShortLines t) (hp : RowPresent t)
    (hb : ¬ (t.commandBuffer = [] ∨ t.commandBuffer.head? = some 27))
    (hu : run (bytesOf e (27::s)) t = .ok u) : MovedOn t.currentChar.val u := by
  rw [not_or] at hb
  obtain ⟨hstep, hhead⟩ := pending_escape (e 0) t hb.1 hb.2
  obtain ⟨d, rest, rfl⟩ := List.exists_cons_of_ne_nil hne
  obtain ⟨hd, hrest⟩ := List.forall_mem_cons.mp hs
  rw [bytesOf_cons, bytesOf_cons, Terminal.run, PartialRun.run, hstep] at hu
  dsimp only at hu
  rw [PartialRun.run] at hu
  cases hflush : step (.letter (later 1 e 0) d) (append 27 t) with
  | error x => simp [hflush] at hu
  | ok v =>
    rw [hflush] at hu
    have hv := hflush
    rw [step, feed_action, printable_flush d _ hd hhead] at hv
    have hmoved := flush_movesOn t.currentChar.val (append d (append 27 t)) v hshort hp
      (by simp [append]) id (.inl (Int.le_refl _)) hv
    exact printables_moveOn _ rest hrest _ v u hmoved hu

theorem not_erases_pending (kind : Erase) (ds : Bytes) (hds : ∀ d ∈ ds, isdigit d = true)
    (e : ℕ → Env) (t : Linux) (hs : ShortLines t) (hp : RowPresent t)
    (hb : ¬ (t.commandBuffer = [] ∨ t.commandBuffer.head? = some 27)) :
    ¬ Erases kind ds e t := by
  rintro ⟨u, hu, -, hchar, -⟩
  obtain ⟨v, hv, hfinish⟩ := (text_ok _ (sequence_ascii kind ds hds) e t u).mp hu
  have hprintable : ∀ c ∈ 91::ds++[kind.byte], 0x20 ≤ c ∧ c < 128 := by
    intro c hc
    simp only [List.cons_append, List.mem_cons, List.mem_append, List.not_mem_nil, or_false] at hc
    rcases hc with rfl | hc | rfl
    · decide
    · exact digit_printable c (hds c hc)
    · cases kind <;> decide
  have hm := pending_moves _ hprintable (by simp) e t v hs hp hb hv
  have hsame : u.currentChar = v.currentChar := by
    cases hfinish
    split <;> rfl
  rw [hchar] at hsame
  have hstart := hm.start
  have hcolumn := hm.column
  rw [← hsame] at hcolumn
  omega

/-- What the sequence has to leave behind. -/
def Left (kind : Erase) (n : ℕ) (t u : Linux) : Prop :=
  u.currentLine = t.currentLine ∧ u.currentChar = t.currentChar ∧
    if n ≤ 2 then ∀ r i, Blanked (region kind n t r i) (cell t.data r i) (cell u.data r i)
    else u.data = t.data

def Erase.final : Erase → Final
  | .line => .K
  | .screen => .J

def finalOf (kind : Erase) (b : Bytes) : Final :=
  if b.head? = some 91 then kind.final else .other

theorem sequence_final (kind : Erase) (ds : Bytes) (t : Linux) (b : Bytes)
    (hbuffer : b = (t.commandBuffer++sequence kind ds).drop 1) :
    (if b.head? = some 91 then back b else .other) = finalOf kind b := by
  obtain ⟨x, hx⟩ : ∃ x, b = x++[kind.byte] := by
    cases hc : t.commandBuffer with
    | nil => exact ⟨91::ds, by rw [hbuffer, hc]; rfl⟩
    | cons c s => exact ⟨s++27::91::ds, by rw [hbuffer, hc]; simp [sequence]⟩
  rw [finalOf]
  split
  · rw [hx]
    cases kind
    · exact back_last x 75 (by decide)
    · exact back_last x 74 (by decide)
  · rfl

theorem erases_escape (kind : Erase) (ds : Bytes) (hds : ∀ d ∈ ds, isdigit d = true)
    (e : ℕ → Env) (t : Linux) (hs : ShortLines t) (hq : t.linesAdded = false)
    (hb : t.commandBuffer = [] ∨ t.commandBuffer.head? = some 27) (b : Bytes)
    (hbuffer : b = (t.commandBuffer++sequence kind ds).drop 1) :
    Erases kind ds e t ↔ ∃ v, escape (e (ds.length+2)) b (finalOf kind b)
      (collected (27::91::ds) t) = .ok v ∧ Left kind (digitsValue ds) t v := by
  have hinner : ∀ c ∈ 91::ds, isalpha c = false := by
    intro c hc
    rcases List.mem_cons.mp hc with rfl | hc
    · rfl
    · exact (digit_plain c (hds c hc)).2.2.2
  have hlast : isalpha kind.byte = true := by cases kind <;> rfl
  have hok := fun u => sequence_ok (91::ds) kind.byte e t u hs hb hinner hlast b hbuffer
  rw [sequence_final kind ds t b hbuffer] at hok
  constructor
  · rintro ⟨u, hu, hleft⟩
    obtain ⟨x, hx, hfinish⟩ := (text_ok _ (sequence_ascii kind ds hds) e t u).mp hu
    obtain ⟨v, hv, rfl, hadded⟩ := (hok x).mp hx
    rw [hq] at hadded
    rw [SgrCodes.finish_quiet _ _ hadded] at hfinish
    cases hfinish
    exact ⟨v, hv, hleft⟩
  · rintro ⟨v, hv, hleft⟩
    have hadded := escape_added _ _ _ (collected (27::91::ds) t) v hs hv
    refine ⟨clear v, (text_ok _ (sequence_ascii kind ds hds) e t _).mpr
      ⟨clear v, (hok _).mpr ⟨v, hv, rfl, hadded⟩, ?_⟩, hleft⟩
    exact SgrCodes.finish_quiet _ _ (hadded.trans hq)

theorem left_same (kind : Erase) (n : ℕ) (t u : Linux) (hl : u.currentLine = t.currentLine)
    (hc : u.currentChar = t.currentChar) (hd : u.data = t.data) : Left kind n t u ↔
      (n ≤ 2 → ∀ r i s, cell t.data r i = some s → region kind n t r i → s.letter = 32) := by
  rw [Left, hl, hc, hd]
  simp only [true_and]
  split
  case isTrue hn =>
    simp only [hn, true_implies]
    refine forall_congr' fun r => forall_congr' fun i => ?_
    cases cell t.data r i <;> simp [Blanked]
  case isFalse hn => simp [hn]

theorem parseJ_left (n : ℕ) (t u : Linux) (hl : u.currentLine = t.currentLine)
    (hc : u.currentChar = t.currentChar) (hd : u.data = [[]]) : Left .screen n t u ↔
      if n ≤ 2 then ∀ r i s, cell t.data r i = some s → region .screen n t r i
      else t.data = [[]] := by
  have hnone : ∀ r i, cell [[]] r i = none := by
    intro r i
    cases r <;> simp [cell]
  rw [Left, hl, hc, hd]
  simp only [true_and, hnone]
  split
  · refine forall_congr' fun r => forall_congr' fun i => ?_
    cases cell t.data r i <;> simp [Blanked]
  · exact eq_comm

/-- The cells decide what `K` leaves behind. -/
theorem parseK_left (n : ℕ) (env : Env) (b : Bytes) (t v : Linux) (hs : ShortLines t)
    (hp : RowPresent t) (hv : parseK env b t = .ok v) : Left .line n t v ↔
      if n ≤ 2 then ∀ (i : ℕ) s, cell t.data (row t) i = some s →
        (region .line n t (row t) i →
          ((eraseBounds env b t).1.val ≤ i ∧ i < (eraseBounds env b t).2.val) ∨ s.letter = 32) ∧
        (¬ region .line n t (row t) i →
          ((eraseBounds env b t).1.val ≤ i ∧ i < (eraseBounds env b t).2.val) → s = symbol 32 t)
      else ∀ i : ℕ, ((eraseBounds env b t).1.val ≤ i ∧ i < (eraseBounds env b t).2.val) →
        cell t.data (row t) i = some (symbol 32 t) := by
  have hcursor : v.currentLine = t.currentLine ∧ v.currentChar = t.currentChar := by
    obtain ⟨-, rfl⟩ | ⟨-, -, -, rfl⟩ := parseK_cases env b t v hs hv <;> exact ⟨rfl, rfl⟩
  rw [Left, and_iff_right hcursor.1, and_iff_right hcursor.2]
  split
  case isFalse => 
    rw [parseK_same env b t v hs hp hv]
    simp only [and_imp]
  case isTrue =>
    constructor
    · intro h i s hc
      have hcell := h (row t) i
      rw [hc] at hcell
      rcases parseK_cell env b t v hs hp hv (row t) i with ⟨-, h1, h2, hk⟩ | ⟨hno, hk | ⟨hk, -⟩⟩
      · rw [hk] at hcell
        exact ⟨fun _ => .inl ⟨h1, h2⟩, fun hout _ => (hcell.2 hout).symm⟩
      · rw [hk, hc] at hcell
        exact ⟨fun hin => .inr (hcell.1 hin), fun _ hw => absurd ⟨rfl, hw⟩ hno⟩
      · rw [hk] at hc
        cases hc
    · intro h r i
      rcases parseK_cell env b t v hs hp hv r i with ⟨rfl, h1, h2, hk⟩ | ⟨hno, hk | ⟨hk, hk'⟩⟩
      · rw [hk]
        cases hc : cell t.data (row t) i with
        | none => rfl
        | some s => exact ⟨fun _ => rfl, fun hout => ((h i s hc).2 hout ⟨h1, h2⟩).symm⟩
      · rw [hk]
        cases hc : cell t.data r i with
        | none => trivial
        | some s =>
          refine ⟨fun hin => ?_, fun _ => rfl⟩
          obtain rfl : r = row t := hin.1
          exact ((h i s hc).1 hin).resolve_left fun hw => hno ⟨rfl, hw⟩
      · rw [hk, hk']
        rfl

/-- An erasing sequence does what it says exactly if nothing is pending in
front of it and the cells suit what the loop of `K`, or `J`, does. -/
theorem erases_iff (kind : Erase) (ds : Bytes) (hds : ∀ d ∈ ds, isdigit d = true)
    (e : ℕ → Env) (t : Linux) (ht : Reachable t) (hp : RowPresent t) :
    Erases kind ds e t ↔ (t.commandBuffer = [] ∨ t.commandBuffer.head? = some 27) ∧
      Erasable kind (digitsValue ds) (e (ds.length+2))
        ((t.commandBuffer++sequence kind ds).drop 1) t := by
  have hs := ht.sound.short
  by_cases hb : t.commandBuffer = [] ∨ t.commandBuffer.head? = some 27
  case neg => exact iff_of_false (not_erases_pending kind ds hds e t hs hp hb) fun h => hb h.1
  rw [and_iff_right hb, erases_escape kind ds hds e t hs ht.quiet hb _ rfl]
  generalize (t.commandBuffer++sequence kind ds).drop 1 = b
  rw [finalOf]
  by_cases h91 : b.head? = some 91
  · rw [if_pos h91]
    cases kind with
    | screen =>
      simp only [Erasable, ScreenErasable, if_pos h91, Erase.final, escape, Except.ok.injEq,
        exists_eq_left']
      exact parseJ_left _ t _ rfl rfl rfl
    | line =>
      simp only [Erasable, LineErasable, Erase.final, escape, Written, h91, true_and, true_implies]
      have hreturns := TerminalSequences.parseK_returns (e (ds.length+2)) b (collected (27::91::ds) t) hs
      constructor
      · rintro ⟨v, hv, hleft⟩
        refine ⟨fun hlt => ?_, (parseK_left _ _ b (collected (27::91::ds) t) v hs hp hv).mp hleft⟩
        rcases hreturns.mpr ⟨v, hv⟩ hlt with habove | ⟨-, h0⟩
        · exact absurd hp (Nat.lt_asymm habove)
        · exact h0
      · rintro ⟨hstart, hcells⟩
        obtain ⟨v, hv⟩ := hreturns.mp fun hlt => .inr ⟨hp, hstart hlt⟩
        exact ⟨v, hv, (parseK_left _ _ b (collected (27::91::ds) t) v hs hp hv).mpr hcells⟩
  · rw [if_neg h91]
    simp only [escape, Except.ok.injEq, exists_eq_left']
    refine (left_same kind _ t (collected (27::91::ds) t) rfl rfl rfl).trans ?_
    cases kind with
    | screen => simp only [Erasable, ScreenErasable, if_neg h91]
    | line =>
      simp only [Erasable, LineErasable, Written, h91, false_and, false_implies, true_and,
        false_or, implies_true, and_true]
      split
      case isTrue hn =>
        simp only [hn, true_implies]
        refine ⟨fun h i s => h (row t) i s, fun h r i s hc hin => ?_⟩
        obtain rfl : r = row t := hin.1
        exact h i s hc hin
      case isFalse hn => simp [hn]

/-- `ab` in the first row and the cursor behind it, or back in front of it. -/
def ab (column : ℤ) : Linux :=
  { init with data := [[symbol 97 init, symbol 98 init]], currentChar := .wrap column }

theorem ab_reachable : Reachable (ab 2) ∧ Reachable (ab 0) :=
  ⟨.addText ⟨['a', 'b'], fun _ => plainEnv⟩ init (ab 2) .init (rfl),
    .addText ⟨['a', 'b', '\r'], fun _ => plainEnv⟩ init (ab 0) .init (rfl)⟩

theorem erases_ab : Erases .line (bytes "2") (fun _ => plainEnv) (ab 2) := by
  refine (erases_iff .line (bytes "2") (List.all_eq_true.mp (by decide)) (fun _ => plainEnv) (ab 2) ab_reachable.1
    (by unfold RowPresent; decide)).mpr ⟨.inl rfl, fun _ _ => by decide, ?_⟩
  rw [if_pos (by decide)]
  intro i s hc
  have hi : i < 2 := (List.getElem?_eq_some_iff.mp hc).1
  have hbounds : eraseBounds plainEnv (((ab 2).commandBuffer++sequence .line (bytes "2")).drop 1)
      (ab 2) = (.wrap 0, .wrap 80) := by decide
  refine ⟨fun _ => .inl ⟨by decide, ?_⟩, fun hout => absurd ⟨rfl, .inr (.inr rfl)⟩ hout⟩
  rw [hbounds]
  exact ⟨Int.natCast_nonneg i, lt_trans (Int.ofNat_lt.mpr hi) (by decide)⟩

/-- `ESC[1K` leaves the letter under the cursor, `ESC[J` takes those in front
of it. -/
theorem not_erased : (Reachable (ab 0) ∧ RowPresent (ab 0) ∧
      ¬ Erases .line (bytes "1") (fun _ => plainEnv) (ab 0)) ∧
    Reachable (ab 2) ∧ RowPresent (ab 2) ∧ ¬ Erases .screen [] (fun _ => plainEnv) (ab 2) := by
  refine ⟨⟨ab_reachable.2, by unfold RowPresent; decide, ?_⟩,
    ab_reachable.1, by unfold RowPresent; decide, ?_⟩
  · rintro ⟨u, hu, -, -, hcells⟩
    have hr : run (addText (text (sequence .line (bytes "1")) fun _ => plainEnv)) (ab 0) =
        .ok (ab 0) := rfl
    obtain rfl : ab 0 = u := Except.ok.inj (hr.symm.trans hu)
    rw [if_pos (by decide)] at hcells
    exact absurd ((hcells 0 0).1 ⟨by decide, .inr (.inl ⟨by decide, by decide⟩)⟩) (by decide)
  · rintro ⟨u, hu, -, -, hcells⟩
    have hr : run (addText (text (sequence .screen []) fun _ => plainEnv)) (ab 2) =
        .ok { ab 2 with data := [[]], lineWrapCount := .wrap 1 } := rfl
    obtain rfl := Except.ok.inj (hr.symm.trans hu)
    rw [if_pos (by decide)] at hcells
    have hin : region .screen (digitsValue []) (ab 2) 0 0 := hcells 0 0
    rcases hin with ⟨-, h | ⟨-, h⟩⟩ | ⟨h, -⟩ | h <;> exact absurd h (by decide)

end Bakaneko.Erasing
