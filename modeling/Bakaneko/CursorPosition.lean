import Bakaneko.Erasing

/-!
# Cursor positions

`H` takes the row from the front of its parameters and the column from behind
their semicolon, or from one byte in front of them if there is none. It makes
no row: a letter for a row below the text is dropped, and a letter that is
more than one byte waits for another.
-/

set_option autoImplicit false

namespace Bakaneko.CursorPosition
open Bakaneko.Native Bakaneko.Terminal Bakaneko.TerminalFrame Bakaneko.TerminalColumns
open Bakaneko.TerminalStates Bakaneko.EscapeFraming PartialRun PaddedRow
open Bakaneko.TerminalEquivalence (byte flush_plain)
open Bakaneko.Erasing (cell cell_onRow row)
open Bakaneko.SgrCodes (collected Goes goes_nil goes_cons goes_collected finish_quiet)

/-- The numerals of a row and of a column, if there is a semicolon. -/
def numerals (rs : Bytes) : Option Bytes → Bytes
  | none => rs
  | some cs => rs++59::cs

def sequence (rs : Bytes) (cs : Option Bytes) : Bytes := 27::91::(numerals rs cs++[72])

/-- A numeral that is missing or 0 means 1. -/
def asked (ds : Bytes) : ℕ := max (digitsValue ds) 1

def askedColumn (cs : Option Bytes) : ℕ := (cs.map asked).getD 1

/-- The sequence is parsed, and both numerals are read inside its parameters. -/
def ReadsInside (rs : Bytes) (cs : Option Bytes) (t : Linux) : Prop :=
  ∃ w, Goes (27::91::numerals rs cs) t w ∧ w.commandBuffer.head? = some 27 ∧
    ∀ env, ((w.commandBuffer++[72]).drop 1).drop 1 <:+ numerals rs cs++[72] ∧
      columnText env ((w.commandBuffer++[72]).drop 1) <:+ numerals rs cs++[72]

def Blank (s : Option Symbol) : Prop := ∀ x ∈ s, x.letter = 32

/-- The letter is in this cell, and the others are as before, or blank as before. -/
def Placed (letter : ℕ) (r c : ℕ) (before after : List (List Symbol)) : Prop :=
  (cell after r c).map Symbol.letter = some letter ∧
    ∀ i j, ¬ (i = r ∧ j = c) → cell after i j = cell before i j ∨
      Blank (cell before i j) ∧ Blank (cell after i j)

/-- The sequence puts the cursor where it says and the character after it goes
there, however the calls cut the two. -/
def Positions (rs : Bytes) (cs : Option Bytes) (x : Char) (t : Linux) : Prop :=
  ReadsInside rs cs t ∧ ∃ v u, Goes (sequence rs cs) t v ∧
    v.currentLine.val = asked rs-1 ∧ v.currentChar.val = askedColumn cs-1 ∧
    Goes (String.utf8EncodeChar x) v u ∧
    Placed x.toNat (asked rs-1) (askedColumn cs-1) t.data u.data

def Printable (x : Char) : Prop := 0x20 ≤ x.toNat ∧ ¬ (0x7F ≤ x.toNat ∧ x.toNat ≤ 0x9F)

/-- The bytes as one call brings them, without the end of the call. -/
theorem goes_run (s : Bytes) (t u : Linux) (h : Goes s t u) :
    run (bytesOf (fun _ => plainEnv) s) t = .ok u := h _ (SgrCodes.letters_bytes s _)

theorem goes_unique (s : Bytes) (t u v : Linux) (hu : Goes s t u) (hv : Goes s t v) : u = v :=
  Except.ok.inj ((goes_run s t u hu).symm.trans (goes_run s t v hv))

theorem numerals_plain (rs : Bytes) (cs : Option Bytes) (hr : ∀ d ∈ rs, isdigit d = true)
    (hc : ∀ ds ∈ cs, ∀ d ∈ ds, isdigit d = true) :
    ∀ d ∈ 91::numerals rs cs, isalpha d = false ∧ 0x20 ≤ d ∧ d < 128 := by
  have hdigit : ∀ d, isdigit d = true → isalpha d = false ∧ 0x20 ≤ d ∧ d < 128 :=
    fun d hd => ⟨(digit_plain d hd).2.2.2, digit_printable d hd⟩
  refine List.forall_mem_cons.mpr ⟨by decide, fun d hd => ?_⟩
  cases cs with
  | none => exact hdigit d (hr d hd)
  | some ds =>
    rcases List.mem_append.mp hd with hd | hd
    · exact hdigit d (hr d hd)
    rcases List.mem_cons.mp hd with rfl | hd
    · decide
    · exact hdigit d (hc ds rfl d hd)

theorem flush_empty (t u : Linux) (h : flush t = .ok u) : u.commandBuffer = [] := by
  rw [flush] at h
  split at h
  · cases h
  · obtain ⟨v, -, rfl⟩ := (Fallible.map_ok _ _ _).mp h
    rfl

/-- Printable bytes leave nothing pending. -/
theorem printables_empty (s : Bytes) (hs : ∀ c ∈ s, 0x20 ≤ c ∧ c < 128) (e : ℕ → Env)
    (t u : Linux) (hb : t.commandBuffer.head? ≠ some 27) (hne : s ≠ [] ∨ t.commandBuffer = [])
    (hu : run (bytesOf e s) t = .ok u) : u.commandBuffer = [] := by
  induction s generalizing e t with
  | nil =>
    cases hu
    exact hne.resolve_left fun h => h rfl
  | cons c s ih =>
    obtain ⟨hc, hrest⟩ := List.forall_mem_cons.mp hs
    have hstep : step (.letter (e 0) c) t = flush (append c t) := by
      rw [step, feed_action, printable_flush c t hc hb]
      rfl
    rw [bytesOf_cons, Terminal.run, PartialRun.run, hstep] at hu
    cases hflush : flush (append c t) with
    | error x => simp [hflush] at hu
    | ok v =>
      have hempty := flush_empty _ v hflush
      rw [hflush] at hu
      exact ih hrest _ v (by simp [hempty]) (.inr hempty) hu

theorem goes_opening (s : Bytes) (hs : ∀ c ∈ s, isalpha c = false) (t : Linux)
    (hb : t.commandBuffer = []) (hq : t.linesAdded = false) :
    Goes (27::s) t (collected (27::s) t) := by
  have hbody := goes_collected s [] (append 27 t) _ hq (by simp [append, hb]) hs
    (goes_nil (collected s (append 27 t)) hq)
  rw [List.append_nil] at hbody
  have hsame : collected s (append 27 t) = collected (27::s) t := by simp [collected, append]
  rw [hsame] at hbody
  exact goes_cons 27 s t (append 27 t) _ hq (fun env => SgrCodes.feed_escape env t hb) hbody

theorem index_behind (s rest : Bytes) (c : UInt8) (h : c ∉ s) :
    (s++c::rest).idxOf? c = some s.length := by
  induction s with
  | nil => simp [List.idxOf?_cons]
  | cons d s ih =>
    rw [List.mem_cons, not_or] at h
    rw [List.cons_append, List.idxOf?_cons, ih h.2, if_neg (by simpa using Ne.symm h.1)]
    rfl

/-- The column is taken from behind the semicolon. -/
theorem column_numeral (rs cs : Bytes) (hr : ∀ d ∈ rs, isdigit d = true) (env : Env) :
    (91::(numerals rs (some cs)++[72])).idxOf? 59 = some (rs.length+1) ∧
      columnText env (91::(numerals rs (some cs)++[72])) = cs++[72] := by
  have hno : (59 : UInt8) ∉ 91::rs := by
    rw [List.mem_cons, not_or]
    exact ⟨by decide, fun h => absurd (hr 59 h) (by decide)⟩
  have hindex := index_behind (91::rs) (cs++[72]) 59 hno
  rw [List.length_cons] at hindex
  have hsame : 91::(numerals rs (some cs)++[72]) = 91::rs++59::(cs++[72]) := by simp [numerals]
  rw [hsame]
  refine ⟨hindex, ?_⟩
  rw [columnText, hindex]
  simp

theorem reads_inside_iff (rs : Bytes) (cs : Option Bytes) (hr : ∀ d ∈ rs, isdigit d = true)
    (hc : ∀ ds ∈ cs, ∀ d ∈ ds, isdigit d = true) (t : Linux) (hq : t.linesAdded = false) :
    ReadsInside rs cs t ↔ t.commandBuffer = [] ∧ cs.isSome := by
  have hplain := numerals_plain rs cs hr hc
  constructor
  · rintro ⟨w, hw, hopen, hreads⟩
    have hrun := goes_run _ t w hw
    by_cases hb : t.commandBuffer = [] ∨ t.commandBuffer.head? = some 27
    case neg =>
      rw [not_or] at hb
      obtain ⟨hstep, hhead⟩ := pending_escape plainEnv t hb.1 hb.2
      rw [bytesOf_cons, Terminal.run, PartialRun.run, hstep] at hrun
      have hempty := printables_empty _ (fun c hc => (hplain c hc).2) _ _ w hhead
        (.inl (List.cons_ne_nil _ _)) hrun
      simp [hempty] at hopen
    rw [(opening_run _ _ t hb fun c hc => (hplain c hc).1).1] at hrun
    cases hrun
    obtain ⟨hrow, hcolumn⟩ := hreads plainEnv
    have hle := hrow.length_le
    simp only [collected, List.length_drop, List.length_append, List.length_cons,
      List.length_nil] at hle
    have hempty : t.commandBuffer = [] := List.length_eq_zero_iff.mp (by omega)
    refine ⟨hempty, ?_⟩
    cases cs with
    | some ds => rfl
    | none =>
      have hno : (59 : UInt8) ∉ 91::(rs++[72]) := by
        simp only [List.mem_cons, List.mem_append, List.not_mem_nil, or_false, not_or]
        exact ⟨by decide, fun h => absurd (hr 59 h) (by decide), by decide⟩
      have htext := hcolumn.length_le
      simp only [collected, hempty, numerals, List.nil_append, List.cons_append,
        List.drop_succ_cons, List.drop_zero, columnText, List.idxOf?_eq_none_iff.mpr hno,
        List.length_cons] at htext
      omega
  · rintro ⟨hb, hsome⟩
    obtain ⟨ds, rfl⟩ := Option.isSome_iff_exists.mp hsome
    refine ⟨_, goes_opening _ (fun c hc => (hplain c hc).1) t hb hq, by simp [collected, hb],
      fun env => ?_⟩
    simp only [collected, hb, List.nil_append, List.cons_append, List.drop_succ_cons,
      List.drop_zero]
    refine ⟨List.suffix_refl _, ?_⟩
    rw [(column_numeral rs ds hr env).2]
    exact ⟨rs++[59], by simp [numerals]⟩

/-- The line or column that `H` makes of a numeral. -/
def position (ds : Bytes) : ℤ :=
  let place := int32 (int32 (min (digitsValue ds) 9223372036854775807)-1)
  if place = -1 then 0 else place

theorem position_asked (ds : Bytes) (h : asked ds ≤ 2147483648) : position ds = asked ds-1 := by
  unfold asked at h
  unfold position asked int32
  dsimp only
  omega

def goTo (rs cs : Bytes) (t : Linux) : Linux :=
  { t with currentLine := .wrap (position rs), currentChar := .wrap (position cs) }

theorem parseH_goTo (rs cs : Bytes) (hr : ∀ d ∈ rs, isdigit d = true)
    (hc : ∀ d ∈ cs, isdigit d = true) (env : Env) (t : Linux) :
    parseH env (91::(numerals rs (some cs)++[72])) t = goTo rs cs t := by
  obtain ⟨hindex, htext⟩ := column_numeral rs cs hr env
  have hrow := atoi_digits rs (cs++[72]) 59 hr (by decide)
  have hcolumn := atoi_digits cs [] 72 hc (by decide)
  have hdrop : (91::(numerals rs (some cs)++[72])).drop 1 = rs++59::(cs++[72]) := by
    simp [numerals]
  rw [parseH, rowAsked, columnAsked, htext, hindex, hdrop, hrow, hcolumn, goTo, position, position]
  simp

theorem sequence_goes (rs cs : Bytes) (hr : ∀ d ∈ rs, isdigit d = true)
    (hc : ∀ d ∈ cs, isdigit d = true) (t : Linux) (hb : t.commandBuffer = [])
    (hq : t.linesAdded = false) : Goes (sequence rs (some cs)) t (goTo rs cs t) := by
  have hplain := numerals_plain rs (some cs) hr (by simpa using hc)
  have hfinal : ∀ env, feed env 72 (collected (91::numerals rs (some cs)) (append 27 t)) =
      .ok (goTo rs cs t) := by
    intro env
    have hbuffer : (collected (91::numerals rs (some cs)) (append 27 t)).commandBuffer =
        27::91::numerals rs (some cs) := by simp [collected, append, hb]
    have hback := back_last (91::numerals rs (some cs)) 72 (by decide)
    rw [if_pos rfl, List.cons_append] at hback
    rw [feed, hbuffer, if_pos List.head?_cons, if_pos (by decide), List.cons_append, List.cons_append,
      List.drop_succ_cons, List.drop_zero, parseBuffer, List.head?_cons, if_pos rfl, hback]
    dsimp only
    rw [parseH_goTo rs cs hr hc]
    simp [Except.map, goTo, collected, append, hb]
  have hbody := goes_collected (91::numerals rs (some cs)) [72] (append 27 t) _ hq
    (by simp [append, hb]) (fun c hc => (hplain c hc).1)
    (goes_cons 72 [] _ _ _ hq hfinal (goes_nil (goTo rs cs t) hq))
  exact goes_cons 27 _ t (append 27 t) _ hq (fun env => SgrCodes.feed_escape env t hb) hbody

theorem goes_high (s : Bytes) (hs : ∀ c ∈ s, 128 ≤ c) (t : Linux)
    (hb : t.commandBuffer.head? ≠ some 27) (hq : t.linesAdded = false) :
    Goes s t (collected s t) := by
  induction s generalizing t with
  | nil =>
    rw [collected, List.append_nil]
    exact goes_nil t hq
  | cons c s ih =>
    obtain ⟨hc, hrest⟩ := List.forall_mem_cons.mp hs
    have hhead := (high_collected plainEnv c t hb hc).2
    have hsame : collected s (append c t) = collected (c::s) t := by simp [collected, append]
    exact goes_cons c s t (append c t) _ hq (fun env => (high_collected env c t hb hc).1)
      (hsame ▸ ih hrest _ hhead hq)

/-- A character behind U+007F is held back. -/
theorem goes_held (x : Char) (hx : 128 ≤ x.toNat) (t : Linux) (hb : t.commandBuffer = [])
    (hq : t.linesAdded = false) :
    Goes (String.utf8EncodeChar x) t (collected (String.utf8EncodeChar x) t) :=
  goes_high _ (fun c hc => UInt8.le_iff_toNat_le.mpr (Utf8.high_mem x hx c hc)) t (by simp [hb]) hq

theorem printable_byte (x : Char) (hx : 0x20 ≤ x.toNat ∧ x.toNat < 128) :
    (byte x).toNat = x.toNat ∧ 0x20 ≤ byte x ∧ byte x < 128 := by
  have hbyte := byte_toNat x hx.2
  exact ⟨hbyte, UInt8.le_iff_toNat_le.mpr (by rw [hbyte]; exact hx.1),
    UInt8.lt_iff_toNat_lt.mpr (by rw [hbyte]; exact hx.2)⟩

/-- A letter of one byte is written where the cursor is. -/
theorem goes_letter (x : Char) (hx : 0x20 ≤ x.toNat ∧ x.toNat < 128) (v : Linux)
    (hp : RowPresent v) (hs : ColumnSafe v) (hb : v.commandBuffer = [])
    (hq : v.linesAdded = false) :
    Goes (String.utf8EncodeChar x) v (moved v (onRow v fun line =>
      put (symbol 32 v) line v.currentChar.val.toNat (symbol x.toNat v)) 1) := by
  obtain ⟨hbyte, hc⟩ := printable_byte x hx
  rw [encode_ascii x hx.2]
  refine goes_cons (byte x) [] v _ _ hq (fun env => ?_) (goes_nil _ hq)
  rw [feed_action, printable_flush (byte x) v hc (by simp [hb]), perform,
    flush_plain (byte x) v hb hc.2, hbyte, addLetter_put x.toNat (append (byte x) v) hp hs]
  simp [Except.map, moved, append, hb, onRow, symbol]

/-- A letter makes no row, and one of more bytes is not written at all. -/
theorem goes_rows (x : Char) (hx : 0x20 ≤ x.toNat) (v u : Linux) (hb : v.commandBuffer = [])
    (hq : v.linesAdded = false) (h : Goes (String.utf8EncodeChar x) v u) :
    u.data.length = v.data.length ∧ (128 ≤ x.toNat → u.data = v.data) := by
  by_cases hlt : x.toNat < 128
  · refine ⟨?_, fun hle => absurd hlt (Nat.not_lt.mpr hle)⟩
    have hrun := goes_run _ v u h
    rw [encode_ascii x hlt, bytesOf_cons, Terminal.run] at hrun
    have hstep := (run_singleton step _ v).symm.trans hrun
    rw [step, feed_action, printable_flush (byte x) v (printable_byte x ⟨hx, hlt⟩).2
      (by simp [hb])] at hstep
    exact (flush_stored (append (byte x) v) u hstep).rows
  · have hsame := goes_unique _ v _ u (goes_held x (Nat.not_lt.mp hlt) v hb hq) h
    subst hsame
    exact ⟨rfl, fun _ => rfl⟩

theorem cell_none (data : List (List Symbol)) (r i : ℕ) (h : data.length ≤ r) :
    cell data r i = none := by
  rw [cell, List.getElem?_eq_none h]
  rfl

theorem placed_put (x : Char) (t v : Linux) (hp : RowPresent v) (hd : v.data = t.data)
    (r c : ℕ) (hr : row v = r) (hc : v.currentChar.val.toNat = c) :
    Placed x.toNat r c t.data (onRow v fun line =>
      put (symbol 32 v) line v.currentChar.val.toNat (symbol x.toNat v)) := by
  subst hr hc
  have hline : v.data[row v]? = some v.data[row v] := List.getElem?_eq_getElem hp
  rw [← hd]
  constructor
  · rw [cell_onRow, if_pos rfl, hline, Option.bind_some, put_getElem?, if_pos rfl]
    rfl
  · intro i j hij
    rw [cell_onRow]
    by_cases hi : row v = i
    case neg => exact .inl (if_neg hi)
    subst hi
    rw [if_pos rfl, cell, hline, Option.bind_some, Option.bind_some, put_getElem?,
      if_neg fun hj => hij ⟨rfl, hj⟩]
    split
    case isFalse => exact .inl rfl
    case isTrue hpad =>
      refine .inr ⟨?_, ?_⟩
      · rw [List.getElem?_eq_none hpad.1]
        exact fun _ h => by cases h
      · intro s hs
        cases hs
        rfl

/-- The place that `H` goes to, if an `int` can hold its numbers. -/
theorem goTo_place (rs cs : Bytes) (t : Linux) (hr : asked rs ≤ 2147483648)
    (hc : asked cs ≤ 2147483648) : (goTo rs cs t).currentLine.val = asked rs-1 ∧
      (goTo rs cs t).currentChar.val = asked cs-1 ∧ row (goTo rs cs t) = asked rs-1 := by
  have hpos : 1 ≤ asked rs ∧ 1 ≤ asked cs := ⟨Nat.le_max_right _ _, Nat.le_max_right _ _⟩
  have hline : (goTo rs cs t).currentLine.val = asked rs-1 := by
    rw [goTo, position_asked rs hr]
    exact wrap_of_range (by unfold IsInt32; omega)
  have hchar : (goTo rs cs t).currentChar.val = asked cs-1 := by
    rw [goTo, position_asked cs hc]
    exact wrap_of_range (by unfold IsInt32; omega)
  refine ⟨hline, hchar, ?_⟩
  rw [row, sizeT_of_int32 (by omega) (goTo rs cs t).currentLine.property, hline]
  omega

/-- A position is taken and the character put there exactly if nothing is
pending, there is a semicolon, the row is there and the column an `int`, and
the character is one byte or in its cell already. -/
theorem positions_iff (rs : Bytes) (cs : Option Bytes) (hr : ∀ d ∈ rs, isdigit d = true)
    (hc : ∀ ds ∈ cs, ∀ d ∈ ds, isdigit d = true) (x : Char) (hx : Printable x) (t : Linux)
    (ht : Reachable t) : Positions rs cs x t ↔ t.commandBuffer = [] ∧ cs.isSome ∧
      asked rs ≤ t.data.length ∧ askedColumn cs ≤ 2147483648 ∧
      (x.toNat < 128 ∨
        (cell t.data (asked rs-1) (askedColumn cs-1)).map Symbol.letter = some x.toNat) := by
  have hq := ht.quiet
  rw [Positions, reads_inside_iff rs cs hr hc t hq, and_assoc]
  refine and_congr_right fun hb => and_congr_right fun hsome => ?_
  obtain ⟨cs, rfl⟩ := Option.isSome_iff_exists.mp hsome
  rw [show askedColumn (some cs) = asked cs from rfl]
  have hgoes := sequence_goes rs cs hr (by simpa using hc) t hb hq
  constructor
  · rintro ⟨v, u, hv, hline, hchar, hletter, hplaced, -⟩
    obtain rfl := goes_unique _ t _ v hgoes hv
    obtain ⟨hrows, hsame⟩ := goes_rows x hx.1 (goTo rs cs t) u hb hq hletter
    have hin : asked rs-1 < u.data.length := by
      by_contra hno
      rw [cell_none _ _ _ (Nat.not_lt.mp hno)] at hplaced
      cases hplaced
    have hpos : 1 ≤ asked rs := Nat.le_max_right _ _
    have hrange := (goTo rs cs t).currentChar.property
    unfold IsInt32 at hrange
    rw [hrows] at hin
    refine ⟨by change asked rs-1 < t.data.length at hin; omega, by omega, ?_⟩
    by_cases hlt : x.toNat < 128
    · exact .inl hlt
    · rw [hsame (Nat.not_lt.mp hlt)] at hplaced
      exact .inr hplaced
  · rintro ⟨hrow, hcolumn, hletter⟩
    have hpos : 1 ≤ asked rs ∧ 1 ≤ asked cs := ⟨Nat.le_max_right _ _, Nat.le_max_right _ _⟩
    have hfew := ht.sound.few
    unfold FewRows at hfew
    obtain ⟨hline, hchar, hrowof⟩ := goTo_place rs cs t (by omega) hcolumn
    by_cases hlt : x.toNat < 128
    · have hp : RowPresent (goTo rs cs t) := by
        change row (goTo rs cs t) < t.data.length
        omega
      exact ⟨_, _, hgoes, hline, hchar, goes_letter x ⟨hx.1, hlt⟩ _ hp
        (by unfold ColumnSafe; omega) hb hq, placed_put x t _ hp rfl _ _ hrowof (by omega)⟩
    · exact ⟨_, _, hgoes, hline, hchar, goes_held x (Nat.not_lt.mp hlt) (goTo rs cs t) hb hq,
        hletter.resolve_left hlt, fun i j _ => .inl rfl⟩

theorem positions_home : Positions (bytes "1") (some (bytes "3")) 'x' init := by
  have hcolumn : ∀ d ∈ bytes "3", isdigit d = true := List.all_eq_true.mp (by decide)
  exact (positions_iff (bytes "1") (some (bytes "3")) (List.all_eq_true.mp (by decide))
    (by simpa using hcolumn) 'x' (by unfold Printable; decide) init .init).mpr
      ⟨rfl, rfl, by decide, by decide, .inl (by decide)⟩

/-- `ESC[5H` reads in front of its parameters; behind `ESC[5;1H` a letter is
lost, as the text has no fifth row. -/
theorem not_positioned : Reachable init ∧ Printable 'x' ∧
    ¬ Positions (bytes "5") none 'x' init ∧
    ¬ Positions (bytes "5") (some (bytes "1")) 'x' init := by
  have hrow : ∀ d ∈ bytes "5", isdigit d = true := List.all_eq_true.mp (by decide)
  have hcolumn : ∀ d ∈ bytes "1", isdigit d = true := List.all_eq_true.mp (by decide)
  refine ⟨.init, by unfold Printable; decide, ?_, ?_⟩
  · rintro ⟨hreads, -⟩
    exact absurd ((reads_inside_iff (bytes "5") none hrow (by simp) init rfl).mp hreads).2
      (by decide)
  · rintro ⟨-, v, u, hv, -, -, hletter, hplaced, -⟩
    obtain rfl := goes_unique _ init _ v
      (sequence_goes (bytes "5") (bytes "1") hrow hcolumn init rfl rfl) hv
    obtain ⟨hrows, -⟩ := goes_rows 'x' (by decide) _ u rfl rfl hletter
    rw [cell_none _ _ _ (by rw [hrows]; decide)] at hplaced
    cases hplaced

end Bakaneko.CursorPosition
