import Bakaneko.Terminal

/-!
# What each byte of terminal input leaves alone

`feed` first decides what a byte means and then does it. The frame lemmas
state which part of the terminal each of these operations can touch: the
colour codes never move the cursor, and storing letters never changes the
row or the number of rows.
-/

set_option autoImplicit false

namespace Bakaneko.TerminalFrame
open Bakaneko.Native Bakaneko.Terminal PartialRun Fallible

/-- What a byte asks for in a given state. -/
inductive Action where
  | collect
  | newline
  | carriageReturn
  | backspace
  | beep
  | flush
  | sequence (final : Final) (b : Bytes)
  deriving DecidableEq

def command (b : Bytes) : Action := .sequence (if b.head? = some 91 then back b else .other) b

def action (c : UInt8) (t : Linux) : Action :=
  if t.commandBuffer.head? = some 27 then
    if isalpha c then command ((t.commandBuffer++[c]).drop 1) else .collect
  else if 128 ≤ c then .collect
  else if c = 27 then .collect
  else if c = 10 then .newline
  else if c = 13 then .carriageReturn
  else if c = 8 then .backspace
  else if c = 7 then .beep
  else .flush

def escape (env : Env) (b : Bytes) : Final → Linux → Except Fault Linux
  | .H, t => .ok (parseH env b t)
  | .J, t => .ok (parseJ env t)
  | .m, t => parseM b t
  | .K, t => parseK env b t
  | .D, t => parseD b t
  | .C, t => parseC env b t
  | .A, t => parseA env b t
  | .B, t => parseB env b t
  | .other, t => .ok t

def clear (t : Linux) : Linux := { t with commandBuffer := [] }

def perform (env : Env) (c : UInt8) : Action → Linux → Except Fault Linux
  | .collect, t => .ok (append c t)
  | .newline, t => .ok (newline t)
  | .carriageReturn, t => .ok { t with currentChar := .wrap 0 }
  | .backspace, t => backspace env t
  | .beep, t => .ok t
  | .flush, t => flush (append c t)
  | .sequence final b, t => (escape env b final t).map clear

theorem parseBuffer_escape (env : Env) (b : Bytes) (t : Linux) :
    parseBuffer env b t =
      escape env b (if b.head? = some 91 then back b else .other) t := by
  unfold parseBuffer
  split
  · cases back b <;> rfl
  · rfl

theorem feed_action (env : Env) (c : UInt8) (t : Linux) :
    feed env c t = perform env c (action c t) t := by
  unfold feed action
  split
  · split
    · simp only [command, perform, parseBuffer_escape]
      rfl
    · rfl
  · repeat' split
    all_goals rfl

/-- Only colours may differ. -/
structure SameText (t u : Linux) : Prop where
  data : u.data = t.data
  char : u.currentChar = t.currentChar
  line : u.currentLine = t.currentLine

/-- The count, the buffer and the note of new rows are kept as well. -/
structure Recoloured (t u : Linux) : Prop extends SameText t u where
  count : u.lineWrapCount = t.lineWrapCount
  buffer : u.commandBuffer = t.commandBuffer
  added : u.linesAdded = t.linesAdded

theorem Recoloured.refl (t : Linux) : Recoloured t t := ⟨⟨rfl, rfl, rfl⟩, rfl, rfl, rfl⟩

theorem Recoloured.trans {t u v : Linux} (h : Recoloured t u) (k : Recoloured u v) :
    Recoloured t v where
  data := k.data.trans h.data
  char := k.char.trans h.char
  line := k.line.trans h.line
  count := k.count.trans h.count
  buffer := k.buffer.trans h.buffer
  added := k.added.trans h.added

theorem reset_recoloured (type : ℕ) (t : Linux) : Recoloured t (reset type t) := by
  refine ⟨⟨?_, ?_, ?_⟩, ?_, ?_, ?_⟩ <;> simp only [reset] <;> repeat' split
  all_goals rfl

theorem sgrAttribute_recoloured (group color : ℤ) (t : Linux) :
    Recoloured t (sgrAttribute group color t).2.2 := by
  unfold sgrAttribute
  repeat' split
  all_goals first | exact reset_recoloured 3 t | exact ⟨⟨rfl, rfl, rfl⟩, rfl, rfl, rfl⟩

theorem setForeground_recoloured (color : ℤ) (t u : Linux) (h : setForeground color t = .ok u) :
    Recoloured t u := by
  unfold setForeground at h
  cases hp : palate color with
  | error e => simp [hp] at h
  | ok c =>
    rw [hp] at h
    cases h
    exact ⟨⟨rfl, rfl, rfl⟩, rfl, rfl, rfl⟩

theorem setColor_recoloured (color : ℤ) (f : QColor × QColor → Linux) (t u : Linux)
    (hf : ∀ c, Recoloured t (f c)) (h : setColor color f = .ok u) : Recoloured t u := by
  unfold setColor at h
  cases hp : palate color with
  | error e => simp [hp] at h
  | ok c =>
    rw [hp] at h
    cases h
    exact hf c

theorem sgrColor_recoloured (group color : ℤ) (t u : Linux) (leave : Bool)
    (h : sgrColor group color t = .ok (leave, u)) : Recoloured t u := by
  have hset : ∀ f : QColor × QColor → Linux,
      (setColor color f).map (false, ·) = .ok (leave, u) →
      (∀ c, Recoloured t (f c)) → Recoloured t u := by
    intro f hm hf
    obtain ⟨v, hv, he⟩ := (map_ok _ _ _).mp hm
    cases he
    exact setColor_recoloured color f t u hf hv
  unfold sgrColor at h
  split at h
  · cases h
    by_cases hc : color = 7
    · rw [if_pos hc]
      exact ⟨⟨rfl, rfl, rfl⟩, rfl, rfl, rfl⟩
    · simpa [hc] using Recoloured.refl t
  split at h
  · split at h
    · cases h
      exact reset_recoloured 1 t
    split at h
    · cases h
      exact .refl t
    obtain ⟨v, hv, he⟩ := (map_ok _ _ _).mp h
    cases he
    exact setForeground_recoloured color t u hv
  split at h
  · split at h
    · cases h
      exact reset_recoloured 2 t
    split at h
    · cases h
      exact .refl t
    exact hset _ h fun c => ⟨⟨rfl, rfl, rfl⟩, rfl, rfl, rfl⟩
  split at h
  · exact hset _ h fun c => ⟨⟨rfl, rfl, rfl⟩, rfl, rfl, rfl⟩
  split at h
  · exact hset _ h fun c => ⟨⟨rfl, rfl, rfl⟩, rfl, rfl, rfl⟩
  cases h
  exact .refl t

theorem sgrCode_recoloured (value : ℤ) (t u : Linux) (leave : Bool)
    (h : sgrCode value t = .ok (leave, u)) : Recoloured t u :=
  (sgrAttribute_recoloured _ _ t).trans (sgrColor_recoloured _ _ _ u leave h)

theorem sgrLoop_recoloured (many : Bool) (o : ℕ) (text : Bytes) (t u : Linux)
    (h : sgrLoop many o text t = .ok u) : Recoloured t u := by
  induction text generalizing o t with
  | nil =>
    obtain rfl : t = u := by cases o <;> simpa [sgrLoop] using h
    exact .refl t
  | cons c rest ih =>
    cases o with
    | succ o => exact ih o t h
    | zero =>
      rw [sgrLoop] at h
      split at h
      · cases h
      · split at h
        · cases h
        case _ v hv =>
          cases h
          exact sgrCode_recoloured _ t u true hv
        case _ v hv => exact (sgrCode_recoloured _ t v false hv).trans (ih _ v h)

theorem parseM_recoloured (b : Bytes) (t u : Linux) (h : parseM b t = .ok u) : Recoloured t u :=
  sgrLoop_recoloured _ _ _ t u h

theorem parseM_sameText (b : Bytes) (t u : Linux) (h : parseM b t = .ok u) : SameText t u :=
  (parseM_recoloured b t u h).toSameText

/-- The row and the number of rows are kept. -/
structure SameRows (t u : Linux) : Prop where
  line : u.currentLine = t.currentLine
  rows : u.data.length = t.data.length

theorem SameText.sameRows {t u : Linux} (h : SameText t u) : SameRows t u :=
  ⟨h.line, congrArg List.length h.data⟩

/-- Letters may have been stored and the column moved. -/
structure Stored (t u : Linux) : Prop extends SameRows t u where
  index : u.foregroundIndex = t.foregroundIndex

theorem Stored.refl (t : Linux) : Stored t t := ⟨⟨rfl, rfl⟩, rfl⟩

theorem Stored.trans {t u v : Linux} (h : Stored t u) (k : Stored u v) : Stored t v :=
  ⟨⟨k.line.trans h.line, k.rows.trans h.rows⟩, k.index.trans h.index⟩

/-- `add_letter` stops above the text, misses the row, outgrows it, or stores
the letter and moves one column on. -/
theorem addLetter_cases (letter : ℕ) (t : Linux) :
    (t.data.length < sizeT t.currentLine.val ∧ addLetter letter t = .ok t) ∨
    (sizeT t.currentLine.val = t.data.length ∧ addLetter letter t = .error .row) ∨
    ∃ line, t.data[sizeT t.currentLine.val]? = some line ∧
      ((storeLetter letter t line = none ∧ addLetter letter t = .error .length) ∨
      ∃ line', storeLetter letter t line = some line' ∧
        addLetter letter t = .ok { t with
          data := t.data.set (sizeT t.currentLine.val) line'
          currentChar := .wrap (t.currentChar.val+1) }) := by
  unfold addLetter
  by_cases hl : t.data.length < sizeT t.currentLine.val
  · exact .inl ⟨hl, if_pos hl⟩
  · simp only [if_neg hl]
    cases hr : t.data[sizeT t.currentLine.val]? with
    | none =>
      have hge := List.getElem?_eq_none_iff.mp hr
      exact .inr (.inl ⟨by omega, rfl⟩)
    | some line =>
      refine .inr (.inr ⟨line, rfl, ?_⟩)
      cases hs : storeLetter letter t line with
      | none => exact .inl ⟨rfl, by simp [hs]⟩
      | some line' => exact .inr ⟨line', rfl, by simp [hs]⟩

theorem addLetter_stored (letter : ℕ) (t u : Linux) (h : addLetter letter t = .ok u) :
    Stored t u := by
  obtain ⟨-, ht⟩ | ⟨-, ht⟩ | ⟨line, -, ⟨-, ht⟩ | ⟨line', -, ht⟩⟩ := addLetter_cases letter t <;>
    rw [ht] at h <;> cases h
  · exact .refl _
  · exact ⟨⟨rfl, List.length_set⟩, rfl⟩

theorem addLetters_run (letters : List ℕ) (t : Linux) :
    addLetters letters t = PartialRun.run addLetter letters t := by
  induction letters generalizing t with
  | nil => rfl
  | cons letter letters ih =>
    rw [addLetters, PartialRun.run]
    cases addLetter letter t with
    | error e => rfl
    | ok u => exact ih u

/-- What storing a letter keeps is kept by the loop over the letters. -/
theorem addLetters_invariant (P : Linux → Prop)
    (hstep : ∀ letter t u, P t → addLetter letter t = .ok u → P u) (letters : List ℕ)
    (t u : Linux) (ht : P t) (h : addLetters letters t = .ok u) : P u := by
  rw [addLetters_run] at h
  exact PartialRun.run_keeps addLetter P hstep letters t u ht h

/-- The same for the loop that stores blanks, wherever it puts the column. -/
theorem eraseLoop_invariant (P : Linux → Prop)
    (hcolumn : ∀ t a, P t → P { t with currentChar := .wrap a })
    (hstep : ∀ letter t u, P t → addLetter letter t = .ok u → P u) (n : ℕ) (a : ℤ)
    (t u : Linux) (ht : P t) (h : eraseLoop n a t = .ok u) : P u := by
  induction n generalizing a t with
  | zero =>
    cases h
    exact ht
  | succ n ih =>
    rw [eraseLoop] at h
    split at h
    · cases h
    case _ v hv => exact ih _ v (hstep 32 _ v (hcolumn t a ht) hv) h

/-- The loops fail as storing a letter does in a state with what is kept. -/
theorem addLetters_failed (P : Linux → Prop) (Q : Fault → Prop)
    (hstep : ∀ letter t u, P t → addLetter letter t = .ok u → P u)
    (herror : ∀ letter t e, P t → addLetter letter t = .error e → Q e) (letters : List ℕ)
    (t : Linux) (e : Fault) (ht : P t) (h : addLetters letters t = .error e) : Q e := by
  rw [addLetters_run] at h
  exact PartialRun.run_failed addLetter P Q hstep herror letters t e ht h

theorem eraseLoop_failed (P : Linux → Prop) (Q : Fault → Prop)
    (hcolumn : ∀ t a, P t → P { t with currentChar := .wrap a })
    (hstep : ∀ letter t u, P t → addLetter letter t = .ok u → P u)
    (herror : ∀ letter t e, P t → addLetter letter t = .error e → Q e) (n : ℕ) (a : ℤ)
    (t : Linux) (e : Fault) (ht : P t) (h : eraseLoop n a t = .error e) : Q e := by
  induction n generalizing a t with
  | zero => cases h
  | succ n ih =>
    rw [eraseLoop] at h
    split at h
    case _ he =>
      cases h
      exact herror 32 _ e (hcolumn t a ht) he
    case _ v hv => exact ih _ v (hstep 32 _ v (hcolumn t a ht) hv) h

theorem addLetter_fault (letter : ℕ) (t : Linux) (e : Fault) (h : addLetter letter t = .error e) :
    e = .row ∨ e = .length := by
  obtain ⟨-, ht⟩ | ⟨-, ht⟩ | ⟨line, -, ⟨-, ht⟩ | ⟨line', -, ht⟩⟩ := addLetter_cases letter t <;>
    rw [ht] at h <;> cases h
  · exact .inl rfl
  · exact .inr rfl

theorem addLetters_fault (letters : List ℕ) (t : Linux) (e : Fault)
    (h : addLetters letters t = .error e) : e = .row ∨ e = .length :=
  addLetters_failed (fun _ => True) _ (fun _ _ _ _ _ => trivial)
    (fun letter u f _ hf => addLetter_fault letter u f hf) letters t e trivial h

theorem eraseLoop_fault (n : ℕ) (a : ℤ) (t : Linux) (e : Fault) (h : eraseLoop n a t = .error e) :
    e = .row ∨ e = .length :=
  eraseLoop_failed (fun _ => True) _ (fun _ _ _ => trivial) (fun _ _ _ _ _ => trivial)
    (fun letter u f _ hf => addLetter_fault letter u f hf) n a t e trivial h

theorem addLetters_stored (letters : List ℕ) (t u : Linux)
    (h : addLetters letters t = .ok u) : Stored t u :=
  addLetters_invariant (Stored t) (fun letter v w hv hw => hv.trans (addLetter_stored letter v w hw))
    letters t u (.refl t) h

theorem flush_stored (t u : Linux) (h : flush t = .ok u) : Stored t u := by
  unfold flush at h
  split at h
  · cases h
  · obtain ⟨v, hv, rfl⟩ := (map_ok _ _ _).mp h
    exact (addLetters_stored _ t v hv).trans ⟨⟨rfl, rfl⟩, rfl⟩

theorem eraseLoop_stored (n : ℕ) (a : ℤ) (t u : Linux) (h : eraseLoop n a t = .ok u) :
    Stored t u :=
  eraseLoop_invariant (Stored t) (fun _ _ hv => hv.trans ⟨⟨rfl, rfl⟩, rfl⟩)
    (fun letter v w hv hw => hv.trans (addLetter_stored letter v w hw)) n a t u (.refl t) h

theorem parseK_stored (env : Env) (b : Bytes) (t u : Linux) (h : parseK env b t = .ok u) :
    Stored t u := by
  obtain ⟨v, hv, rfl⟩ := (map_ok _ _ _).mp h
  exact (eraseLoop_stored _ _ t v hv).trans ⟨⟨rfl, rfl⟩, rfl⟩

theorem backspace_stored (env : Env) (t u : Linux) (h : backspace env t = .ok u) :
    Stored t u := by
  unfold backspace at h
  split at h
  · cases h
  · split at h <;> cases h
    · exact ⟨⟨rfl, List.length_set⟩, rfl⟩
    · exact .refl _

/-- The faults of reading parameters. -/
def Parsing (e : Fault) : Prop := e = .palette ∨ ∃ x, e = .stoi x

theorem stoiFault_error (s : Bytes) (e : Fault) (h : stoiFault s = .error e) : Parsing e := by
  unfold stoiFault at h
  cases hs : stoi s with
  | ok v => simp [hs, Except.mapError] at h
  | error x =>
    rw [hs] at h
    cases h
    exact .inr ⟨x, rfl⟩

theorem countArgument_error (b : Bytes) (e : Fault) (h : countArgument b = .error e) :
    Parsing e := by
  unfold countArgument at h
  split at h
  · exact stoiFault_error _ e ((map_error _ _ _).mp h)
  · cases h

theorem palate_error (color : ℤ) (e : Fault) (h : palate color = .error e) : e = .palette := by
  unfold palate at h
  split at h <;> cases h
  rfl

theorem setForeground_error (color : ℤ) (t : Linux) (e : Fault)
    (h : setForeground color t = .error e) : e = .palette := by
  unfold setForeground at h
  split at h <;> cases h
  exact palate_error color e ‹_›

theorem setColor_error (color : ℤ) (f : QColor × QColor → Linux) (e : Fault)
    (h : setColor color f = .error e) : e = .palette := by
  unfold setColor at h
  split at h <;> cases h
  exact palate_error color e ‹_›

theorem sgrColor_error (group color : ℤ) (t : Linux) (e : Fault)
    (h : sgrColor group color t = .error e) : e = .palette := by
  unfold sgrColor at h
  split at h
  · cases h
  split at h
  · split at h
    · cases h
    split at h
    · cases h
    exact setForeground_error color t e ((map_error _ _ _).mp h)
  split at h
  · split at h
    · cases h
    split at h
    · cases h
    exact setColor_error color _ e ((map_error _ _ _).mp h)
  split at h
  · exact setColor_error color _ e ((map_error _ _ _).mp h)
  split at h
  · exact setColor_error color _ e ((map_error _ _ _).mp h)
  cases h

theorem sgrLoop_error (many : Bool) (o : ℕ) (text : Bytes) (t : Linux) (e : Fault)
    (h : sgrLoop many o text t = .error e) : Parsing e := by
  induction text generalizing o t with
  | nil => cases o <;> simp [sgrLoop] at h
  | cons c rest ih =>
    cases o with
    | succ o => exact ih o t h
    | zero =>
      rw [sgrLoop] at h
      split at h
      case _ x hx =>
        cases h
        split at hx
        · exact stoiFault_error _ e hx
        · cases hx
      case _ value o _ =>
        split at h
        case _ x hx =>
          cases h
          exact .inl (sgrColor_error _ _ _ e hx)
        case _ => cases h
        case _ v hv => exact ih _ v h

/-- A completed sequence ends with the faults of its parameters only, `K` apart. -/
theorem escape_ne (env : Env) (b : Bytes) (final : Final) (t : Linux) (e : Fault)
    (he : ¬ Parsing e) (hk : final = .K → parseK env b t ≠ .error e) :
    escape env b final t ≠ .error e := by
  have count : countArgument b ≠ .error e := fun h => he (countArgument_error b _ h)
  cases final with
  | H => simp [escape]
  | J => simp [escape]
  | m => exact fun h => he (sgrLoop_error _ _ _ t _ h)
  | K => exact hk rfl
  | D => rwa [escape, parseD, Ne, map_error]
  | C => rwa [escape, parseC, Ne, map_error]
  | A => rwa [escape, parseA, Ne, map_error]
  | B => rwa [escape, parseB, Ne, map_error]
  | other => simp [escape]

end Bakaneko.TerminalFrame
