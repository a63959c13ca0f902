import Bakaneko.DumbText
import Bakaneko.ScreenPaint
import Bakaneko.Library.CachedValue

/-!
# The line count between recounts

`add_text` counts the lines again when a row was added or a `\b` reached the
start of a row of the screen, and `J` counts them at once. Letters, the
blanks of `K` and letters taken away change how often a row is wrapped
without counting, so the count is right only if these changes cancel.
-/

set_option autoImplicit false

namespace Bakaneko.LineCount
open Bakaneko.Native Bakaneko.Terminal Bakaneko.TerminalFrame Bakaneko.TerminalColumns
open Bakaneko.TerminalStates Bakaneko.ScreenPaint CachedValue PartialRun PaddedRow

/-- What another row length in the place of the cursor does to the total. -/
def gain (columns : ℤ) (data : List (List Symbol)) (row length : ℕ) : ℤ :=
  match data[row]? with
  | some line => (furtherRows columns length:ℤ)-furtherRows columns line.length
  | none => 0

def lengthOf (data : List (List Symbol)) (row : ℕ) : ℕ := (data[row]?.getD []).length

theorem total_modify (columns : ℤ) (data : List (List Symbol)) (row : ℕ)
    (f : List Symbol → List Symbol) (length : ℕ)
    (hf : ∀ line, data[row]? = some line → (f line).length = length) :
    total columns (data.modify row f) = total columns data+gain columns data row length := by
  induction data generalizing row with
  | nil => simp [total, gain]
  | cons line data ih =>
    cases row with
    | zero =>
      rw [List.modify_zero_cons, total, total, List.map_cons, List.map_cons, List.sum_cons,
        List.sum_cons, hf line rfl, gain, List.getElem?_cons_zero]
      push_cast
      ring
    | succ row =>
      have hrest := ih row fun line hl => hf line (by simpa using hl)
      rw [List.modify_succ_cons, total, List.map_cons, List.sum_cons, ← total, hrest, total, total,
        List.map_cons, List.sum_cons, gain, gain, List.getElem?_cons_succ]
      ring

theorem total_append (columns : ℤ) (data : List (List Symbol)) :
    total columns (data++[[]]) = total columns data+1 := by
  simp [total, furtherRows]

/-- What an `int` can count. -/
def width : ℤ := 4294967296

theorem wrap_modEq (x : ℤ) : (CInt.wrap x).val ≡ x [ZMOD width] := by
  rw [wrap_val, Int.ModEq, int32, width]
  omega

theorem eq_wrap_iff (a : CInt) (x : ℤ) : a = .wrap x ↔ a.val ≡ x [ZMOD width] := by
  have ha := a.property
  unfold IsInt32 at ha
  rw [Subtype.ext_iff, wrap_val, Int.ModEq, int32, width]
  omega

theorem lineWraps_total (env : Env) (data : List (List Symbol)) :
    (lineWraps env data).val ≡ total env.columns.val data [ZMOD width] := by
  rw [lineWraps_eq]
  exact wrap_modEq _

/-- Bytes of a call on a screen of these columns. -/
def On (columns : ℤ) : Event → Prop
  | .letter env _ => env.columns.val = columns
  | .finish _ => False

section
variable (columns : ℤ) (t : Linux)

/-- The length of the row with the cursor. -/
def lengthHere : ℕ := lengthOf t.data (sizeT t.currentLine.val)

def gainHere (length : ℕ) : ℤ := gain columns t.data (sizeT t.currentLine.val) length

/-- `\n` adds a row at the end of the text only. -/
def newlineEffect : Effect :=
  if sizeT (int32 (t.currentLine.val+1)) = t.data.length then .shift 1 true else .shift 0 false

/-- `\b` takes the last letter of its row away if the cursor stands behind it. -/
def backspaceEffect : Effect :=
  if 0 < t.currentChar.val then
    .shift (gainHere columns t (if sizeT t.currentChar.val = lengthHere t then lengthHere t-1
      else lengthHere t)) (decide ((t.currentChar.val-1).tmod columns = 0))
  else .shift 0 false

def flushEffect (c : UInt8) : Effect :=
  let count := ((toUtf32 (t.commandBuffer++[c])).getD []).length
  .shift (gainHere columns t (max (lengthHere t) (t.currentChar.val.toNat+count))) false

def eraseEffect (env : Env) (b : Bytes) : Effect :=
  if (eraseBounds env b t).1.val < (eraseBounds env b t).2.val then
    .shift (gainHere columns t (max (lengthHere t) (eraseBounds env b t).2.val.toNat)) false
  else .shift 0 false

end

/-- What a byte does to the rows counted, from the state in front of it. -/
def effect (columns : ℤ) : Event → Linux → Effect
  | .letter env c, t => match action c t with
    | .newline => newlineEffect t
    | .backspace => backspaceEffect columns t
    | .flush => flushEffect columns t c
    | .sequence .J _ => .refresh
    | .sequence .K b => eraseEffect columns t env b
    | _ => .shift 0 false
  | .finish _, _ => .shift 0 false

/-- The effect on the total, the flag and the count together. -/
def Shifts (columns : ℤ) (t u : Linux) (d : ℤ) (mark : Bool) : Prop :=
  u.lineWrapCount = t.lineWrapCount ∧ u.linesAdded = (t.linesAdded || mark) ∧
    total columns u.data = total columns t.data+d

theorem shifts_same (columns : ℤ) (t u : Linux) (hc : u.lineWrapCount = t.lineWrapCount)
    (hl : u.linesAdded = t.linesAdded) (hd : u.data = t.data) : Shifts columns t u 0 false :=
  ⟨hc, by rw [hl, Bool.or_false], by rw [hd, add_zero]⟩

theorem gainHere_absent (columns : ℤ) (t : Linux) (length : ℕ) (hp : ¬ RowPresent t) :
    gainHere columns t length = 0 := by
  rw [gainHere, gain, List.getElem?_eq_none (Nat.le_of_not_lt hp)]

theorem total_onRow (columns : ℤ) (t : Linux) (f : List Symbol → List Symbol) (length : ℕ)
    (hf : ∀ line : List Symbol, line.length = lengthHere t → (f line).length = length) :
    total columns (onRow t f) = total columns t.data+gainHere columns t length := by
  refine total_modify columns t.data _ f length fun line hl => hf line ?_
  rw [lengthHere, lengthOf, hl]
  rfl

theorem newline_shifts (columns : ℤ) (t : Linux) (d : ℤ) (mark : Bool)
    (h : newlineEffect t = .shift d mark) : Shifts columns t (newline t) d mark := by
  rw [newlineEffect] at h
  rw [newline]
  split at h
  case isTrue hs =>
    cases h
    rw [if_pos hs]
    exact ⟨rfl, (Bool.or_true _).symm, total_append columns t.data⟩
  case isFalse hs =>
    cases h
    rw [if_neg hs]
    exact shifts_same columns t _ rfl rfl rfl

theorem backspace_shifts (env : Env) (t u : Linux) (d : ℤ) (mark : Bool)
    (hu : backspace env t = .ok u) (h : backspaceEffect env.columns.val t = .shift d mark) :
    Shifts env.columns.val t u d mark := by
  obtain ⟨hp, ⟨hle, rfl⟩ | ⟨hpos, rfl⟩⟩ := backspace_cases env t u hu
  · rw [backspaceEffect, if_neg (Int.not_lt.mpr hle)] at h
    cases h
    exact shifts_same _ _ _ rfl rfl rfl
  · rw [backspaceEffect, if_pos hpos] at h
    cases h
    refine ⟨rfl, rfl, total_onRow _ t _ _ fun line hl => ?_⟩
    rw [backspaceLine, ← hl]
    split
    · rw [List.length_dropLast]
    · rw [List.length_modify]

theorem flush_shifts (columns : ℤ) (t u : Linux) (c : UInt8) (d : ℤ) (mark : Bool)
    (hs : ShortLines t) (hu : flush (append c t) = .ok u)
    (h : flushEffect columns t c = .shift d mark) : Shifts columns t u d mark := by
  have hb : (append c t).commandBuffer ≠ [] := by simp [append]
  obtain ⟨letters, hletters, ⟨hp, rfl⟩ | ⟨hp, h0, -, rfl⟩⟩ := flush_cases (append c t) u hs hb hu
  all_goals
    rw [append] at hletters
    rw [flushEffect, hletters] at h
    cases h
  · rw [gainHere_absent columns t _ hp]
    exact shifts_same _ _ _ rfl rfl rfl
  · refine ⟨rfl, (Bool.or_false _).symm, total_onRow _ t _ _ fun line hl => ?_⟩
    have hne := utf32From_ne 0 0 0 _ letters hletters (.inl (by simp))
    rw [putAll_length, List.length_map, hl, if_neg (by simpa using hne)]
    rfl

theorem erase_shifts (columns : ℤ) (env : Env) (b : Bytes) (t u : Linux) (d : ℤ) (mark : Bool)
    (hs : ShortLines t) (hu : parseK env b t = .ok u)
    (h : eraseEffect columns t env b = .shift d mark) : Shifts columns t u d mark := by
  rw [eraseEffect] at h
  obtain ⟨hno, rfl⟩ | ⟨hp, h0, hlt, rfl⟩ := parseK_cases env b t u hs hu
  · split at h
    case isTrue hlt =>
      cases h
      rw [gainHere_absent columns u _ fun hp => hno ⟨hlt, hp⟩]
      exact shifts_same _ _ _ rfl rfl rfl
    case isFalse =>
      cases h
      exact shifts_same _ _ _ rfl rfl rfl
  · rw [if_pos hlt] at h
    cases h
    refine ⟨rfl, (Bool.or_false _).symm, total_onRow _ t _ _ fun line hl => ?_⟩
    have hne : List.replicate ((eraseBounds env b t).2.val-(eraseBounds env b t).1.val).toNat
        (symbol 32 t) ≠ [] := by
      rw [← List.length_pos_iff, List.length_replicate]
      omega
    rw [putAll_length, if_neg hne, List.length_replicate, hl]
    omega

/-- A sequence other than `J` and `K` leaves the rows and the count alone. -/
theorem escape_shifts (columns : ℤ) (env : Env) (b : Bytes) (final : Final) (t u : Linux)
    (hj : final ≠ .J) (hk : final ≠ .K) (hu : escape env b final t = .ok u) :
    Shifts columns t u 0 false := by
  cases final with
  | H => cases hu; exact shifts_same _ _ _ rfl rfl rfl
  | J => exact absurd rfl hj
  | m =>
    have hr := parseM_recoloured b t u hu
    exact shifts_same columns t u hr.count hr.added hr.data
  | K => exact absurd rfl hk
  | D => obtain ⟨value, -, rfl⟩ := (Fallible.map_ok _ _ _).mp hu; exact shifts_same _ _ _ rfl rfl rfl
  | C => obtain ⟨value, -, rfl⟩ := (Fallible.map_ok _ _ _).mp hu; exact shifts_same _ _ _ rfl rfl rfl
  | A => obtain ⟨value, -, rfl⟩ := (Fallible.map_ok _ _ _).mp hu; exact shifts_same _ _ _ rfl rfl rfl
  | B => obtain ⟨value, -, rfl⟩ := (Fallible.map_ok _ _ _).mp hu; exact shifts_same _ _ _ rfl rfl rfl
  | other => cases hu; exact shifts_same _ _ _ rfl rfl rfl

/-- Only `J` counts at once. -/
theorem effect_refresh (columns : ℤ) (env : Env) (c : UInt8) (t : Linux)
    (h : effect columns (.letter env c) t = .refresh) : ∃ b, action c t = .sequence .J b := by
  rw [effect] at h
  cases ha : action c t with
  | sequence final b =>
    rw [ha] at h
    cases final with
    | J => exact ⟨b, rfl⟩
    | K =>
      simp only [eraseEffect] at h
      split at h <;> cases h
    | _ => cases h
  | newline =>
    rw [ha] at h
    simp only [newlineEffect] at h
    split at h <;> cases h
  | backspace =>
    rw [ha] at h
    simp only [backspaceEffect] at h
    split at h <;> cases h
  | _ =>
    rw [ha] at h
    cases h

theorem letter_shifts (env : Env) (c : UInt8) (t u : Linux) (d : ℤ) (mark : Bool)
    (hs : ShortLines t) (hu : feed env c t = .ok u)
    (h : effect env.columns.val (.letter env c) t = .shift d mark) :
    Shifts env.columns.val t u d mark := by
  rw [feed_action] at hu
  rw [effect] at h
  cases ha : action c t with
  | newline =>
    rw [ha] at hu h
    cases hu
    exact newline_shifts _ t d mark h
  | backspace =>
    rw [ha] at hu h
    exact backspace_shifts env t u d mark hu h
  | flush =>
    rw [ha] at hu h
    exact flush_shifts _ t u c d mark hs hu h
  | sequence final b =>
    rw [ha] at hu h
    obtain ⟨v, hv, rfl⟩ := (Fallible.map_ok _ _ _).mp hu
    cases final with
    | J => cases h
    | K => exact erase_shifts _ env b t v d mark hs hv h
    | _ =>
      cases h
      exact escape_shifts _ env b _ t v (by decide) (by decide) hv
  | _ =>
    rw [ha] at hu h
    cases hu
    cases h
    exact shifts_same _ _ _ rfl rfl rfl

theorem linux_cached (columns : ℤ) : Cached step width (On columns) ShortLines
    (fun t => t.lineWrapCount.val) (fun t => total columns t.data) Linux.linesAdded
    (effect columns) where
  keeps := step_short
  refresh := by
    intro i t u hi _ hu h
    cases i with
    | finish env => cases hi
    | letter env c =>
      cases hi
      obtain ⟨b, ha⟩ := effect_refresh env.columns.val env c t h
      rw [step, feed_action, ha] at hu
      cases hu
      exact ⟨lineWraps_total env [[]], rfl⟩
  shift := by
    intro i t u d mark hi hs hu h
    cases i with
    | finish env => cases hi
    | letter env c =>
      cases hi
      obtain ⟨hcount, hflag, htotal⟩ := letter_shifts env c t u d mark hs hu h
      exact ⟨congrArg Subtype.val hcount, hflag, htotal⟩

/-- What a byte does to the rows the dumb terminal counts. -/
def dumbEffect (columns : ℤ) : Event → DumbTerminal.Dumb → Effect
  | .letter _ c, d =>
    if c = 10 then .shift 1 true
    else if c = 13 then .shift 0 false
    else if c = 8 then
      if 0 < d.currentChar.val then .shift 0 (decide ((d.currentChar.val-1).tmod columns = 0))
      else .shift 0 false
    else if c = 7 then .shift 0 false
    else .shift (gain columns d.data (sizeT d.currentLine.val)
      (max (lengthOf d.data (sizeT d.currentLine.val)) (d.currentChar.val.toNat+1))) false
  | .finish _, _ => .shift 0 false

theorem letter_gains (columns : ℤ) (letter : ℕ) (d u : DumbTerminal.Dumb)
    (hs : DumbText.ShortLines d) (hu : DumbTerminal.addLetter letter d = .ok u) :
    u.lineWrapCount = d.lineWrapCount ∧ u.linesAdded = d.linesAdded ∧
      total columns u.data = total columns d.data+gain columns d.data (sizeT d.currentLine.val)
        (max (lengthOf d.data (sizeT d.currentLine.val)) (d.currentChar.val.toNat+1)) := by
  obtain ⟨hp, h0⟩ := DumbText.addLetter_needs letter d u hs hu
  rw [DumbText.addLetter_put letter d hp h0] at hu
  cases hu
  refine ⟨rfl, rfl, total_modify columns d.data _ _ _ fun line hl => ?_⟩
  rw [put_length, lengthOf, hl]
  rfl

/-- The same effect on the dumb terminal. -/
def DumbShifts (columns : ℤ) (d u : DumbTerminal.Dumb) (moved : ℤ) (mark : Bool) : Prop :=
  u.lineWrapCount = d.lineWrapCount ∧ u.linesAdded = (d.linesAdded || mark) ∧
    total columns u.data = total columns d.data+moved

theorem dumb_same (columns : ℤ) (d u : DumbTerminal.Dumb) (hc : u.lineWrapCount = d.lineWrapCount)
    (hl : u.linesAdded = d.linesAdded) (hd : u.data = d.data) : DumbShifts columns d u 0 false :=
  ⟨hc, by rw [hl, Bool.or_false], by rw [hd, add_zero]⟩

theorem dumb_backspace (env : Env) (d : DumbTerminal.Dumb) (moved : ℤ) (mark : Bool)
    (h : (if 0 < d.currentChar.val then
        Effect.shift 0 (decide ((d.currentChar.val-1).tmod env.columns.val = 0))
      else .shift 0 false) = .shift moved mark) :
    DumbShifts env.columns.val d (DumbTerminal.backspace env d) moved mark := by
  rw [DumbTerminal.backspace]
  by_cases hpos : 0 < d.currentChar.val
  · rw [if_pos hpos] at h ⊢
    have hv : int32 (d.currentChar.val-1) = d.currentChar.val-1 := by
      have hrange := d.currentChar.property
      unfold IsInt32 at hrange
      exact int32_of_range (by unfold IsInt32; omega)
    cases h
    rw [hv]
    exact ⟨rfl, rfl, (add_zero _).symm⟩
  · rw [if_neg hpos] at h ⊢
    cases h
    exact dumb_same _ d d rfl rfl rfl

theorem dumb_shifts (env : Env) (c : UInt8) (d u : DumbTerminal.Dumb) (moved : ℤ) (mark : Bool)
    (hs : DumbText.ShortLines d) (hu : DumbTerminal.feed env c d = .ok u)
    (h : dumbEffect env.columns.val (.letter env c) d = .shift moved mark) :
    DumbShifts env.columns.val d u moved mark := by
  rw [DumbTerminal.feed] at hu
  rw [dumbEffect] at h
  by_cases hn : c = 10
  · rw [if_pos hn] at hu h
    cases hu
    cases h
    exact ⟨rfl, (Bool.or_true _).symm, total_append _ _⟩
  rw [if_neg hn] at hu h
  by_cases hr : c = 13
  · rw [if_pos hr] at hu h
    cases hu
    cases h
    exact dumb_same _ d _ rfl rfl rfl
  rw [if_neg hr] at hu h
  by_cases hb : c = 8
  · rw [if_pos hb] at hu h
    cases hu
    exact dumb_backspace env d moved mark h
  rw [if_neg hb] at hu h
  by_cases ha : c = 7
  · rw [if_pos ha] at hu h
    cases hu
    cases h
    exact dumb_same _ d d rfl rfl rfl
  rw [if_neg ha] at hu h
  cases h
  obtain ⟨hc, hl, ht⟩ := letter_gains env.columns.val _ d u hs hu
  exact ⟨hc, by rw [hl, Bool.or_false], ht⟩

theorem dumb_cached (columns : ℤ) :
    Cached DumbTerminal.step width (On columns) DumbText.ShortLines
    (fun d => d.lineWrapCount.val) (fun d => total columns d.data) DumbTerminal.Dumb.linesAdded
    (dumbEffect columns) where
  keeps := DumbText.step_short
  refresh := by
    intro i d u hi _ _ h
    cases i with
    | finish env => cases hi
    | letter env c =>
      rw [dumbEffect] at h
      repeat' split at h
      all_goals cases h
  shift := by
    intro i d u moved mark hi hs hu h
    cases i with
    | finish env => cases hi
    | letter env c =>
      cases hi
      obtain ⟨hcount, hflag, htotal⟩ := dumb_shifts env c d u moved mark hs hu h
      exact ⟨congrArg Subtype.val hcount, hflag, htotal⟩

section
variable {σ : Type*} (step : Event → σ → Except Fault σ)

/-- In every call of the sequence the lines are counted again or the changes
to the rows cancel. -/
def Balanced (effect : Event → σ → Effect) : List Call → σ → Prop
  | [], _ => True
  | call::calls, t =>
    Settles step width effect 0 false (TerminalEquivalence.letterEvents call) t ∧
      ∀ u, PartialRun.run step (addText call) t = .ok u → Balanced effect calls u

instance balancedDecidable (effect : Event → σ → Effect) : ∀ calls t,
    Decidable (Balanced step effect calls t)
  | [], _ => isTrue trivial
  | call::calls, t =>
    have : Decidable (∀ u, PartialRun.run step (addText call) t = .ok u →
        Balanced step effect calls u) :=
      match hr : PartialRun.run step (addText call) t with
      | .error e => isTrue nofun
      | .ok u => match balancedDecidable effect calls u with
        | isTrue h => isTrue fun v hv => by cases hv; exact h
        | isFalse h => isFalse fun hall => h (hall u rfl)
    inferInstanceAs (Decidable (_ ∧ _))

theorem addText_ok (call : Call) (t u : σ) : PartialRun.run step (addText call) t = .ok u ↔
    ∃ v, PartialRun.run step (TerminalEquivalence.letterEvents call) t = .ok v ∧
      step (TerminalEquivalence.finishEvent call) v = .ok u := by
  rw [addText_bytesOf, run_append_ok]
  simp only [run_singleton]
  rfl

variable (columns : ℤ) (Inv : σ → Prop) (stored value : σ → ℤ) (flag : σ → Bool)
variable (effect : Event → σ → Effect)

/-- The end of a call takes the flag down, with a new count if it was up. -/
def Finishes : Prop := ∀ env : Env, env.columns.val = columns → ∀ t, Inv t →
  ∃ u, step (.finish env) t = .ok u ∧ Inv u ∧ flag u = false ∧ value u = value t ∧
    if flag t then stored u ≡ value t [ZMOD width] else stored u = stored t

/-- Behind its last byte a call ends, and the count is right if it was taken up
to date or the rows are as many as before. -/
theorem call_ends (h : Cached step width (On columns) Inv stored value flag effect)
    (hfinish : Finishes step columns Inv stored value flag) (call : Call)
    (hcall : ∀ i, (call.env i).columns.val = columns) (t v : σ) (ht : Inv t)
    (hv : PartialRun.run step (TerminalEquivalence.letterEvents call) t = .ok v) :
    ∃ u, PartialRun.run step (addText call) t = .ok u ∧ Inv u ∧ flag u = false ∧
      (stored u ≡ value u [ZMOD width] ↔
        flag v = true ∨ stored v ≡ value v [ZMOD width]) := by
  have hinv := run_keeps step Inv h.keeps _ t v ht hv
  obtain ⟨u, hu, hiu, hfu, hvu, hsu⟩ := hfinish _ (hcall _) v hinv
  refine ⟨u, (addText_ok step call t u).mpr ⟨v, hv, hu⟩, hiu, hfu, ?_⟩
  rw [hvu]
  cases hflag : flag v with
  | true =>
    rw [hflag, if_pos rfl] at hsu
    exact iff_of_true hsu (.inl rfl)
  | false =>
    rw [hflag, if_neg (by decide)] at hsu
    rw [hsu]
    simp

theorem right_iff_balanced (h : Cached step width (On columns) Inv stored value flag effect)
    (hfinish : Finishes step columns Inv stored value flag) (calls : List Call)
    (hcalls : ∀ call ∈ calls, ∀ i, (call.env i).columns.val = columns) (t : σ) (ht : Inv t)
    (hflag : flag t = false) (hright : stored t ≡ value t [ZMOD width]) :
    AtEach step addText (fun u => stored u ≡ value u [ZMOD width]) calls t ↔
      Balanced step effect calls t := by
  induction calls generalizing t with
  | nil => exact (atEach_nil _ _ _ _).trans (iff_of_true hright trivial)
  | cons call calls ih =>
    obtain ⟨hcall, hrest⟩ := List.forall_mem_cons.mp hcalls
    have hon : ∀ i ∈ TerminalEquivalence.letterEvents call, On columns i := by
      intro i hi
      obtain ⟨k, hk, rfl⟩ := List.mem_mapIdx.mp hi
      exact hcall k
    have hsettles := settles_iff step width _ Inv stored value flag effect h _ t 0 hon ht
      (by rwa [add_zero])
    rw [hflag] at hsettles
    have hend := fun v => call_ends step columns Inv stored value flag effect h hfinish call hcall t v ht
    have hgood : ∀ u, PartialRun.run step (addText call) t = .ok u →
        Inv u ∧ flag u = false ∧ ∃ v, PartialRun.run step
          (TerminalEquivalence.letterEvents call) t = .ok v ∧
          (stored u ≡ value u [ZMOD width] ↔
        flag v = true ∨ stored v ≡ value v [ZMOD width]) := by
      intro u hu
      obtain ⟨v, hv, -⟩ := (addText_ok step call t u).mp hu
      obtain ⟨u', hu', hiu, hfu, hiff⟩ := hend v hv
      obtain rfl : u = u' := Except.ok.inj (hu.symm.trans hu')
      exact ⟨hiu, hfu, v, hv, hiff⟩
    rw [atEach_cons, Balanced, hsettles]
    constructor
    · rintro ⟨-, hall⟩
      refine ⟨fun v hv => ?_, fun u hu => ?_⟩
      · obtain ⟨u, hu, -, -, hiff⟩ := hend v hv
        exact hiff.mp (hall u hu [] List.nil_prefix u rfl)
      · obtain ⟨hiu, hfu, -⟩ := hgood u hu
        exact (ih hrest u hiu hfu (hall u hu [] List.nil_prefix u rfl)).mp (hall u hu)
    · rintro ⟨hs, hb⟩
      refine ⟨hright, fun u hu => ?_⟩
      obtain ⟨hiu, hfu, v, hv, hiff⟩ := hgood u hu
      exact (ih hrest u hiu hfu (hiff.mpr (hs v hv))).mpr (hb u hu)

end

theorem linux_finishes (columns : ℤ) : Finishes step columns ShortLines
    (fun t => t.lineWrapCount.val) (fun t => total columns t.data) Linux.linesAdded := by
  rintro env rfl t ht
  refine ⟨_, rfl, ?_⟩
  cases t.linesAdded
  · exact ⟨ht, rfl, rfl, rfl⟩
  · exact ⟨ht, rfl, rfl, lineWraps_total env t.data⟩

theorem dumb_finishes (columns : ℤ) : Finishes DumbTerminal.step columns DumbText.ShortLines
    (fun d => d.lineWrapCount.val) (fun d => total columns d.data) DumbTerminal.Dumb.linesAdded := by
  rintro env rfl d hd
  refine ⟨_, rfl, ?_⟩
  cases d.linesAdded
  · exact ⟨hd, rfl, rfl, rfl⟩
  · exact ⟨hd, rfl, rfl, lineWraps_total env d.data⟩

/-- The count is what a recount would give, behind each call. -/
def LinuxCounted (env : Env) (calls : List Call) (t : Linux) : Prop :=
  AtEach step addText (fun u => u.lineWrapCount = (lineRecount env u).lineWrapCount) calls t

def DumbCounted (env : Env) (calls : List Call) (d : DumbTerminal.Dumb) : Prop :=
  AtEach DumbTerminal.step addText
    (fun u => u.lineWrapCount = (DumbTerminal.lineRecount env u).lineWrapCount) calls d

/-- From a recount on, while the columns stay the same, the count is never
stale exactly if in each call the lines are counted again or the changes to
the rows cancel. -/
theorem counted_iff_balanced (env : Env) (calls : List Call)
    (hcalls : ∀ call ∈ calls, ∀ i, (call.env i).columns = env.columns) :
    (∀ t, Reachable t → (LinuxCounted env calls (lineRecount env t) ↔
      Balanced step (effect env.columns.val) calls (lineRecount env t))) ∧
    ∀ d, DumbText.Reachable d → (DumbCounted env calls (DumbTerminal.lineRecount env d) ↔
      Balanced DumbTerminal.step (dumbEffect env.columns.val) calls
        (DumbTerminal.lineRecount env d)) := by
  have hon : ∀ call ∈ calls, ∀ i, (call.env i).columns.val = env.columns.val :=
    fun call hc i => congrArg Subtype.val (hcalls call hc i)
  constructor
  · intro t ht
    have hright : (fun u : Linux => u.lineWrapCount = (lineRecount env u).lineWrapCount) =
        fun u => u.lineWrapCount.val ≡ total env.columns.val u.data [ZMOD width] := by
      funext u
      rw [lineRecount, lineWraps_eq, eq_wrap_iff]
    rw [LinuxCounted, hright]
    exact right_iff_balanced step env.columns.val ShortLines _ _ _ _
      (linux_cached env.columns.val) (linux_finishes env.columns.val) calls hon
      (lineRecount env t) ht.sound.short ht.quiet (lineWraps_total env t.data)
  · intro d hd
    have hright : (fun u : DumbTerminal.Dumb =>
        u.lineWrapCount = (DumbTerminal.lineRecount env u).lineWrapCount) =
        fun u => u.lineWrapCount.val ≡ total env.columns.val u.data [ZMOD width] := by
      funext u
      rw [DumbTerminal.lineRecount, lineWraps_eq, eq_wrap_iff]
    rw [DumbCounted, hright]
    exact right_iff_balanced DumbTerminal.step env.columns.val DumbText.ShortLines _ _ _ _
      (dumb_cached env.columns.val) (dumb_finishes env.columns.val) calls hon
      (DumbTerminal.lineRecount env d) hd.short hd.quiet (lineWraps_total env d.data)

def longText : Call := ⟨List.replicate 82 'a', fun _ => plainEnv⟩

/-- The row is wrapped at its last letter, which is taken away again; then
letters wrap it and another row is added. -/
def wrappedCalls : List Call :=
  [⟨List.replicate 82 'a'++['\x08'], fun _ => plainEnv⟩, ⟨['b', 'c', '\n'], fun _ => plainEnv⟩]

theorem counted_wrapped : LinuxCounted plainEnv wrappedCalls (lineRecount plainEnv init) ∧
    (run (addTexts wrappedCalls) (lineRecount plainEnv init)).map (fun u =>
      (u.data.map List.length, u.lineWrapCount.val)) = .ok ([83, 0], 3) := by
  refine ⟨((counted_iff_balanced plainEnv wrappedCalls ?_).1 init .init).mpr ?_, ?_⟩
  · simp [wrappedCalls]
  · decide +kernel
  · decide +kernel

/-- 82 letters on 80 columns take two rows, and one stays counted. -/
theorem long_text_uncounted : Reachable init ∧
    ¬ LinuxCounted plainEnv [longText] (lineRecount plainEnv init) := by
  refine ⟨.init, fun h => ?_⟩
  have hr : (run (addText longText) (lineRecount plainEnv init)).map (fun u =>
      (u.lineWrapCount.val, (lineRecount plainEnv u).lineWrapCount.val)) = .ok (1, 2) := by
    decide +kernel
  obtain ⟨u, hu, hcounts⟩ := (Fallible.map_ok _ _ _).mp hr
  have hgood := h [longText] (List.prefix_refl _) u (by simpa using hu)
  simp only [Prod.mk.injEq] at hcounts
  rw [hgood, hcounts.2] at hcounts
  exact absurd hcounts.1 (by decide)

end Bakaneko.LineCount
