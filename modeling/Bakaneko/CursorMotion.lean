import Bakaneko.Erasing

/-!
# Cursor motions

`\b` takes the last cell of the row or blanks the cell under the cursor, and
may ask for a recount. A numeral that `stoi` cannot read ends the call, and an
ESC behind pending bytes joins these. Where none of this happens, motions move
the cursor and nothing else.
-/

set_option autoImplicit false

namespace Bakaneko.CursorMotion
open Bakaneko.Native Bakaneko.Terminal Bakaneko.TerminalFrame Bakaneko.TerminalColumns
open Bakaneko.TerminalSequences Bakaneko.TerminalStates Bakaneko.EscapeFraming PartialRun
open Bakaneko.SgrCodes (eventBytes Spells)

/-- `\b`, `\r` and the control sequences that move the cursor. -/
inductive IsMotion : Bytes → Prop where
  | back : IsMotion [8]
  | carriage : IsMotion [13]
  | control (parameters : Bytes) (final : UInt8) (hp : ∀ c ∈ parameters, 0x30 ≤ c ∧ c ≤ 0x3F)
      (hf : final ∈ [65, 66, 67, 68, 72]) : IsMotion (27::91::(parameters++[final]))

/-- All but the cursor, what is pending and the state of the call is the same. -/
def SameBut (t s : Linux) : Prop := s = { t with
  currentLine := s.currentLine
  currentChar := s.currentChar
  commandBuffer := s.commandBuffer
  linesAdded := s.linesAdded }

theorem SameBut.and {t s : Linux} (h : SameBut t s) (line char : CInt) (buffer : Bytes)
    (added : Bool) : SameBut t { s with
      currentLine := line, currentChar := char, commandBuffer := buffer, linesAdded := added } := by
  unfold SameBut at h ⊢
  rw [h]

/-- Nothing but the cursor has changed since `t`, unless a motion has begun. -/
def OnlyMoved (t s : Linux) : Prop := SameBut t s ∧
  (s.commandBuffer = t.commandBuffer ∨ t.commandBuffer = [] ∧ s.commandBuffer.head? = some 27)

/-- The calls return with the cursor moved, and change nothing else on the way. -/
def Unedited (calls : List Call) (t : Linux) : Prop :=
  (∃ line char, run (addTexts calls) t =
    .ok { t with currentLine := line, currentChar := char }) ∧
    Always step (OnlyMoved t) (addTexts calls) t

/-- `\b` takes no cell and blanks none that is not blank. -/
def Harmless (t : Linux) (cells : List Symbol) : Prop :=
  sizeT t.currentChar.val ≠ cells.length ∧ ∀ s ∈ cells[sizeT t.currentChar.val]?, s.letter = 32

/-- What a motion needs of the state in front of each of its bytes. -/
def MotionStep : Event → Linux → Prop
  | .letter _ c, t => match action c t with
    | .backspace => RowPresent t ∧ (0 < t.currentChar.val →
        ∀ cells ∈ t.data[sizeT t.currentLine.val]?, Harmless t cells)
    | .sequence final b => parameters b final
    | .collect => if c = 27 then t.commandBuffer = [] else c ≠ 8 ∧ c ≠ 13
    | _ => True
  | .finish env, t => t.linesAdded = true → (lineRecount env t).lineWrapCount = t.lineWrapCount

/-- A byte inside a control sequence, with those in front of it and behind it. -/
theorem control_cases (x y : Bytes) (c : UInt8) (h : IsMotion (27::(x++c::y))) :
    (y = [] ∧ (∃ p, x = 91::p) ∧ c ∈ [65, 66, 67, 68, 72]) ∨
      (y ≠ [] ∧ isalpha c = false ∧ c ∉ [27, 8, 13]) := by
  generalize hs : 27::(x++c::y) = s at h
  cases h with
  | back => cases (List.cons.inj hs).1
  | carriage => cases (List.cons.inj hs).1
  | control p final hp hf =>
    have hbody := (List.cons.inj hs).2
    rw [← List.cons_append] at hbody
    rcases List.eq_nil_or_concat y with rfl | ⟨y, last, rfl⟩
    · obtain ⟨rfl, hc⟩ := List.append_inj' hbody rfl
      cases hc
      exact .inl ⟨rfl, ⟨p, rfl⟩, hf⟩
    · refine .inr ⟨by simp, ?_⟩
      rw [List.concat_eq_append, ← List.cons_append, ← List.append_assoc] at hbody
      have hmem : c ∈ 91::p := by
        rw [← (List.append_inj' hbody rfl).1]
        simp
      rcases List.mem_cons.mp hmem with rfl | hmem
      · decide
      · have hlow := hp c hmem
        exact ⟨low_plain c hlow.2, by simp only [List.mem_cons, List.not_mem_nil]; grind⟩

theorem motion_final (p : Bytes) (c : UInt8) (hc : c ∈ [65, 66, 67, 68, 72]) :
    back (91::p++[c]) ∈ [.H, .D, .C, .A, .B] := by
  simp only [List.mem_cons, List.not_mem_nil, or_false] at hc
  rcases hc with rfl | rfl | rfl | rfl | rfl <;> rw [back_last _ _ (by decide)] <;> decide

theorem escape_moves (env : Env) (b : Bytes) (final : Final) (t u : Linux)
    (hf : final ∈ [.H, .D, .C, .A, .B]) (h : escape env b final t = .ok u) :
    u = { t with currentLine := u.currentLine, currentChar := u.currentChar } := by
  simp only [List.mem_cons, List.not_mem_nil, or_false] at hf
  rcases hf with rfl | rfl | rfl | rfl | rfl
  · cases h
    rfl
  all_goals
    obtain ⟨value, -, rfl⟩ := (Fallible.map_ok _ _ _).mp h
    rfl

theorem backspaceLine_same (t : Linux) (cells : List Symbol) (h0 : 0 < t.currentChar.val) :
    backspaceLine t cells = cells ↔ Harmless t cells := by
  have hpos : 0 < sizeT t.currentChar.val := by
    rw [sizeT_of_int32 (Int.le_of_lt h0) t.currentChar.property]
    omega
  rw [backspaceLine, Harmless]
  split
  case isTrue hlast =>
    refine iff_of_false (fun hd => ?_) fun h => h.1 hlast
    have hlen := congrArg List.length hd
    rw [List.length_dropLast] at hlen
    omega
  case isFalse hlast =>
    rw [and_iff_right hlast]
    by_cases hlt : sizeT t.currentChar.val < cells.length
    · have hcell := List.getElem?_eq_getElem hlt
      rw [hcell, List.modify_eq_set_getElem?, hcell]
      constructor
      · intro hsame s hs
        cases hs
        have hset := congrArg (fun l : List Symbol => l[sizeT t.currentChar.val]?) hsame
        rw [hcell, Option.map_eq_map, Option.map_some, Option.getD_some,
          List.getElem?_set_self hlt, Option.some.injEq] at hset
        rw [← hset]
      · intro hblank
        have hletter := hblank _ rfl
        have hsame : { cells[sizeT t.currentChar.val] with letter := 32 } =
            cells[sizeT t.currentChar.val] := by
          rw [← hletter]
        rw [Option.map_eq_map, Option.map_some, Option.getD_some, hsame, List.set_getElem_self hlt]
    · rw [List.getElem?_eq_none (Nat.not_lt.mp hlt), List.modify_eq_self (Nat.not_lt.mp hlt)]
      simp

/-- The motions still to come, and how much of the first has been received. -/
def Ahead (t : Linux) (rest : Bytes) (s : Linux) : Prop := SameBut t s ∧
  ∃ motions : List Bytes, (∀ m ∈ motions, IsMotion m) ∧
    (s.commandBuffer = t.commandBuffer ∧ rest = motions.flatten ∨
      t.commandBuffer = [] ∧ ∃ x y, y ≠ [] ∧ IsMotion (27::(x++y)) ∧ s.commandBuffer = 27::x ∧
        rest = y++motions.flatten)

/-- The condition decides whether the step is one of a motion. -/
def Decided (i : Event) (rest : Bytes) (t s : Linux) : Prop :=
  (MotionStep i s ∧ ∃ u, step i s = .ok u ∧ Ahead t rest u) ∨
    (¬ MotionStep i s ∧ ∀ u, step i s = .ok u → ¬ OnlyMoved t u)

theorem ahead_onlyMoved (t s : Linux) (rest : Bytes) (h : Ahead t rest s) : OnlyMoved t s := by
  obtain ⟨hs, motions, -, ⟨hb, -⟩ | ⟨ht, x, y, -, -, hb, -⟩⟩ := h
  · exact ⟨hs, .inl hb⟩
  · exact ⟨hs, .inr ⟨ht, by rw [hb]; rfl⟩⟩

/-- A byte that joins what was pending is no motion. -/
theorem joined_decided (env : Env) (c : UInt8) (rest : Bytes) (t s : Linux)
    (hb : s.commandBuffer = t.commandBuffer) (hne : t.commandBuffer ≠ [])
    (hact : action c s = .collect) (hc : c ∈ [27, 8, 13]) :
    Decided (.letter env c) rest t s := by
  refine .inr ⟨?_, fun u hu => ?_⟩
  · rw [MotionStep, hact]
    simp only [List.mem_cons, List.not_mem_nil, or_false] at hc
    rcases hc with rfl | rfl | rfl
    · simpa [hb] using hne
    · simp
    · simp
  · rw [step, feed_action, hact] at hu
    cases hu
    rintro ⟨-, h | ⟨h, -⟩⟩
    · rw [append, hb] at h
      simp at h
    · exact hne h

theorem onRow_cells (t : Linux) (f : List Symbol → List Symbol) (cells : List Symbol)
    (hcells : t.data[sizeT t.currentLine.val]? = some cells) :
    onRow t f = t.data ↔ f cells = cells := by
  constructor
  · intro h
    have hrow := congrArg (fun d : List (List Symbol) => d[sizeT t.currentLine.val]?) h
    rw [onRow, List.getElem?_modify, hcells] at hrow
    simpa using hrow
  · intro h
    refine Erasing.onRow_same t f fun cells' hcells' => ?_
    obtain rfl : cells = cells' := Option.some.inj (hcells.symm.trans hcells')
    exact h

theorem back_decided (env : Env) (motions : List Bytes) (hm : ∀ m ∈ motions, IsMotion m)
    (t s : Linux) (hs : SameBut t s) (hb : s.commandBuffer = t.commandBuffer)
    (hact : action 8 s = .backspace) : Decided (.letter env 8) motions.flatten t s := by
  have hdata : s.data = t.data := by rw [hs]
  have hstep : step (.letter env 8) s = backspace env s := by
    rw [step, feed_action, hact]
    rfl
  rw [Decided, hstep, MotionStep, hact]
  dsimp only
  by_cases hp : RowPresent s
  case neg =>
    exact .inr ⟨fun h => hp h.1, fun u hu => absurd (backspace_cases env s u hu).1 hp⟩
  have hcells := List.getElem?_eq_getElem hp
  obtain ⟨u, hu⟩ : ∃ u, backspace env s = .ok u := by
    rw [backspace, hcells]
    dsimp only
    split <;> exact ⟨_, rfl⟩
  obtain ⟨-, ⟨hle, rfl⟩ | ⟨h0, hbacked⟩⟩ := backspace_cases env s u hu
  · exact .inl ⟨⟨hp, fun h => absurd h (Int.not_lt.mpr hle)⟩, u, hu, hs, motions, hm, .inl ⟨hb, rfl⟩⟩
  have hharmless := (onRow_cells s (backspaceLine s) _ hcells).trans (backspaceLine_same s _ h0)
  by_cases h : Harmless s s.data[sizeT s.currentLine.val]
  · rw [hharmless.mpr h] at hbacked
    subst hbacked
    refine .inl ⟨⟨hp, fun _ cells hc => ?_⟩, _, hu, hs.and _ _ _ _, motions, hm, .inl ⟨hb, rfl⟩⟩
    obtain rfl := Option.some.inj (hcells.symm.trans hc)
    exact h
  · refine .inr ⟨fun hc => h (hc.2 h0 _ hcells), fun v hv hmoved => h (hharmless.mp ?_)⟩
    obtain rfl : u = v := Except.ok.inj (hu.symm.trans hv)
    have hu' : u.data = t.data := by rw [hmoved.1]
    rw [hbacked] at hu'
    exact hu'.trans hdata.symm

/-- The first byte of a motion. -/
theorem first_decided (env : Env) (c : UInt8) (m : Bytes) (motions : List Bytes)
    (hm : IsMotion (c::m)) (hms : ∀ m ∈ motions, IsMotion m) (t s : Linux) (hs : SameBut t s)
    (hb : s.commandBuffer = t.commandBuffer) :
    Decided (.letter env c) (m++motions.flatten) t s := by
  by_cases hopen : s.commandBuffer.head? = some 27
  case pos =>
    have hne : t.commandBuffer ≠ [] := by
      rintro h
      rw [hb, h] at hopen
      cases hopen
    cases hm with
    | back => exact joined_decided env 8 _ t s hb hne (collect_escaped 8 s hopen rfl) (by decide)
    | carriage =>
      exact joined_decided env 13 _ t s hb hne (collect_escaped 13 s hopen rfl) (by decide)
    | control p final hp hf =>
      exact joined_decided env 27 _ t s hb hne (collect_escaped 27 s hopen rfl) (by decide)
  cases hm with
  | back => exact back_decided env motions hms t s hs hb (by simp [action, hopen])
  | carriage =>
    have hact : action 13 s = .carriageReturn := by simp [action, hopen]
    refine .inl ⟨by rw [MotionStep, hact]; trivial, { s with currentChar := .wrap 0 }, ?_,
      hs.and _ _ _ _, motions, hms, .inl ⟨hb, rfl⟩⟩
    rw [step, feed_action, hact]
    rfl
  | control p final hp hf =>
    have hact : action 27 s = .collect := by simp [action, hopen]
    by_cases hempty : t.commandBuffer = []
    case neg => exact joined_decided env 27 _ t s hb hempty hact (by decide)
    refine .inl ⟨?_, append 27 s, ?_, hs.and _ _ _ _, motions, hms, .inr ⟨hempty, [],
      91::(p++[final]), List.cons_ne_nil _ _, .control p final hp hf, ?_, rfl⟩⟩
    · rw [MotionStep, hact]
      exact hb.trans hempty
    · rw [step, feed_action, hact]
      rfl
    · simp [append, hb, hempty]

/-- A byte inside a control sequence. -/
theorem inside_decided (env : Env) (c : UInt8) (x y : Bytes) (motions : List Bytes)
    (hcontrol : IsMotion (27::(x++c::y))) (hms : ∀ m ∈ motions, IsMotion m) (t s : Linux)
    (ht : Sound t) (hs : SameBut t s) (hempty : t.commandBuffer = [])
    (hb : s.commandBuffer = 27::x) : Decided (.letter env c) (y++motions.flatten) t s := by
  have hopen : s.commandBuffer.head? = some 27 := by rw [hb]; rfl
  obtain ⟨rfl, ⟨p, rfl⟩, hc⟩ | ⟨hy, halpha, hc⟩ := control_cases x y c hcontrol
  · have hbuffer : (s.commandBuffer++[c]).drop 1 = 91::p++[c] := by rw [hb]; rfl
    have hletter : isalpha c = true := by
      simp only [List.mem_cons, List.not_mem_nil, or_false] at hc
      rcases hc with rfl | rfl | rfl | rfl | rfl <;> rfl
    have hact : action c s = .sequence (back (91::p++[c])) (91::p++[c]) := by
      rw [action, if_pos hopen, if_pos hletter, hbuffer, command, List.cons_append,
        if_pos List.head?_cons]
    have hmoves := escape_moves env (91::p++[c]) (back (91::p++[c])) s
    have hreturns := escape_returns env (91::p++[c]) (back (91::p++[c])) s
      (by rw [PaletteSafe, hs]; exact ht.palette) (by rw [ShortLines, hs]; exact ht.short)
    have hfinal := motion_final p c hc
    rw [and_iff_left fun hk => by rw [hk] at hfinal; exact absurd hfinal (by decide)] at hreturns
    rw [Decided, MotionStep, step, feed_action, hact]
    dsimp only
    rw [perform, hreturns]
    by_cases hread : ∃ v, escape env (91::p++[c]) (back (91::p++[c])) s = .ok v
    · obtain ⟨v, hv⟩ := hread
      refine .inl ⟨⟨v, hv⟩, clear v, by rw [hv]; rfl, ?_, motions, hms, .inl ⟨hempty.symm, rfl⟩⟩
      rw [hmoves v hfinal hv]
      exact hs.and _ _ _ _
    · refine .inr ⟨hread, fun u hu => ?_⟩
      obtain ⟨v, hv, -⟩ := (Fallible.map_ok _ _ _).mp hu
      exact absurd ⟨v, hv⟩ hread
  · have hact := collect_escaped c s hopen halpha
    simp only [List.mem_cons, List.not_mem_nil, or_false, not_or] at hc
    refine .inl ⟨?_, append c s, ?_, hs.and _ _ _ _, motions, hms, .inr ⟨hempty, x++[c], y, hy,
      by simpa using hcontrol, by simp [append, hb], rfl⟩⟩
    · rw [MotionStep, hact]
      dsimp only
      rw [if_neg hc.1]
      exact hc.2
    · rw [step, feed_action, hact]
      rfl

theorem finish_decided (env : Env) (rest : Bytes) (t s : Linux) (h : Ahead t rest s) :
    Decided (.finish env) rest t s := by
  obtain ⟨hs, hahead⟩ := h
  rw [Decided, MotionStep, step]
  cases hadded : s.linesAdded with
  | false => exact .inl ⟨by simp, _, rfl, hs.and _ _ _ _, hahead⟩
  | true =>
    by_cases hcount : (lineRecount env s).lineWrapCount = s.lineWrapCount
    · have hsame : lineRecount env s = s := by
        rw [lineRecount] at hcount ⊢
        dsimp only at hcount
        rw [hcount]
      refine .inl ⟨fun _ => hcount, _, rfl, ?_, ?_⟩
      · rw [if_pos rfl, hsame]
        exact hs.and _ _ _ _
      · rw [if_pos rfl, hsame]
        exact hahead
    · refine .inr ⟨fun h => hcount (h rfl), fun u hu hmoved => hcount ?_⟩
      have hu' : u.lineWrapCount = t.lineWrapCount := by rw [hmoved.1]
      have hs' : s.lineWrapCount = t.lineWrapCount := by rw [hs]
      cases hu
      exact hu'.trans hs'.symm

theorem step_decided (i : Event) (events : List Event) (t s : Linux) (ht : Sound t)
    (h : Ahead t ((i::events).flatMap eventBytes) s) :
    Decided i (events.flatMap eventBytes) t s := by
  cases i with
  | finish env => exact finish_decided env _ t s h
  | letter env c =>
    rw [List.flatMap_cons, eventBytes, List.singleton_append] at h
    generalize events.flatMap eventBytes = rest at h ⊢
    obtain ⟨hs, motions, hms, ⟨hb, hrest⟩ | ⟨hempty, x, y, hy, hcontrol, hb, hrest⟩⟩ := h
    · cases motions with
      | nil => cases hrest
      | cons m motions =>
        obtain ⟨hm, hrests⟩ := List.forall_mem_cons.mp hms
        cases m with
        | nil => cases hm
        | cons d m =>
          rw [List.flatten_cons, List.cons_append, List.cons.injEq] at hrest
          obtain ⟨rfl, rfl⟩ := hrest
          exact first_decided env c m motions hm hrests t s hs hb
    · obtain ⟨d, y, rfl⟩ := List.exists_cons_of_ne_nil hy
      rw [List.cons_append, List.cons.injEq] at hrest
      obtain ⟨rfl, rfl⟩ := hrest
      exact inside_decided env c x y motions hcontrol hms t s ht hs hempty hb

theorem addTexts_quiet (calls : List Call) (t u : Linux) (ht : t.linesAdded = false)
    (h : run (addTexts calls) t = .ok u) : u.linesAdded = false := by
  induction calls generalizing t with
  | nil =>
    cases h
    exact ht
  | cons call calls ih =>
    obtain ⟨v, hv, hu⟩ := (run_append_ok step _ _ t u).mp h
    exact ih v (addText_quiet call t v hv) hu

/-- A text of cursor motions, cut anywhere, edits nothing exactly if every `\b`
is harmless, every numeral can be read, no motion begins behind pending bytes
and a recount that is asked for finds the number that is there. -/
theorem unedited_iff (motions : List Bytes) (hm : ∀ m ∈ motions, IsMotion m) (calls : List Call)
    (hcalls : Spells calls motions.flatten) (t : Linux) (ht : Reachable t) :
    Unedited calls t ↔ Meets step MotionStep (addTexts calls) t := by
  have hstart : Ahead t ((addTexts calls).flatMap eventBytes) t :=
    ⟨rfl, motions, hm, .inl ⟨rfl, (SgrCodes.addTexts_bytes calls).trans hcalls⟩⟩
  rw [meets_iff_of_stage step (fun events s => Ahead t (events.flatMap eventBytes) s) (OnlyMoved t)
    MotionStep (fun _ s => ahead_onlyMoved t s _)
    (fun i events s h => step_decided i events t s ht.sound h) (addTexts calls) t hstart, Unedited]
  refine and_congr_left fun _ => ?_
  constructor
  · rintro ⟨line, char, hrun⟩
    exact ⟨_, hrun, rfl, [], by simp, .inl ⟨rfl, rfl⟩⟩
  · rintro ⟨u, hrun, hs, motions, -, ⟨hb, -⟩ | ⟨-, x, y, hy, -, -, hnil⟩⟩
    · have hadded := (addTexts_quiet calls t u ht.quiet hrun).trans ht.quiet.symm
      refine ⟨u.currentLine, u.currentChar, hrun.trans ?_⟩
      rw [SameBut, hb, hadded] at hs
      exact congrArg Except.ok hs
    · exact absurd (List.append_eq_nil_iff.mp hnil.symm).1 hy

/-- `\r` and a motion to the right behind two letters. -/
def sideways : Call := ⟨['\r', '\x1b', '[', 'C'], fun _ => plainEnv⟩

theorem unedited_ab : Unedited [sideways] (Erasing.ab 2) := by
  refine (unedited_iff [[13], bytes "\x1b[C"] ?_ [sideways] rfl
    (Erasing.ab 2) Erasing.ab_reachable.1).mpr ?_
  · intro m hm
    simp only [List.mem_cons, List.not_mem_nil, or_false] at hm
    rcases hm with rfl | rfl
    · exact .carriage
    · exact .control [] 67 (by simp) (by decide)
  · refine ⟨trivial, fun s hs => ?_⟩
    obtain rfl := Except.ok.inj hs
    refine ⟨rfl, fun s hs => ?_⟩
    obtain rfl := Except.ok.inj hs
    refine ⟨⟨(by decide : (91 : UInt8) ≠ 8), (by decide : (91 : UInt8) ≠ 13)⟩, fun s hs => ?_⟩
    obtain rfl := Except.ok.inj hs
    refine ⟨fun h => absurd h (by decide), fun s hs => ?_⟩
    obtain rfl := Except.ok.inj hs
    exact ⟨fun h => Bool.noConfusion h, fun _ _ => trivial⟩

/-- `\b` behind `ab` takes the b. -/
theorem edited_ab : Reachable (Erasing.ab 2) ∧ IsMotion [8] ∧
    ¬ Unedited [⟨['\x08'], fun _ => plainEnv⟩] (Erasing.ab 2) := by
  refine ⟨Erasing.ab_reachable.1, .back, ?_⟩
  rintro ⟨⟨line, char, hrun⟩, -⟩
  have hr : (run (addTexts [⟨['\x08'], fun _ => plainEnv⟩]) (Erasing.ab 2)).map Linux.data =
      .ok [[symbol 97 init]] := rfl
  rw [hrun] at hr
  cases hr

end Bakaneko.CursorMotion
