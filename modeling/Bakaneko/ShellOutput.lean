import Bakaneko.BufferedText
import Bakaneko.DumbText
import Bakaneko.PtyDecoding
import Bakaneko.Library.Lockstep

/-!
# From the shell to the screen

A timer reads what the shell wrote since its last run and emits it, the
emitted texts wait for the thread of the screen, and `add_text` takes them one
by one. In between the window may change its width, which counts the lines
again. A terminal shows the same for every such course of events as for one
call with all of the text: only the number of lines may be counted late.
-/

set_option autoImplicit false

namespace Bakaneko.ShellOutput
open Bakaneko.Native Bakaneko.Terminal Bakaneko.PtyDecoding Utf8
open Bakaneko.DumbTerminal (Dumb)
open Bakaneko.TerminalStates (bytesOf addText_bytesOf)
open Bakaneko.TerminalFrame (action escape clear perform feed_action)

/-- The bytes of the calls, each with what surrounds it. -/
def heard : Event → Option (Env × UInt8)
  | .letter env c => some (env, c)
  | .finish _ => none

/-- What is to be known of an emulator: letters do not depend on the count of
the lines, and only that is changed by the end of a call or by a recount. -/
structure Emulator (τ : Type) where
  step : Event → τ → Except Fault τ
  lineRecount : Env → τ → τ
  init : τ
  shown : τ → τ
  letter_shown : ∀ env c t, (step (.letter env c) t).map shown =
    (step (.letter env c) (shown t)).map shown
  finish_shown : ∀ env t, (step (.finish env) t).map shown = .ok (shown t)
  recount_shown : ∀ env t, shown (lineRecount env t) = shown t

section
variable (n : CInt) (b : Bool)

/-- Another count of lines, and another note of rows that were added. -/
def noted (t : Linux) : Linux := { t with lineWrapCount := n, linesAdded := b }

theorem addLetter_noted (letter : ℕ) (t : Linux) :
    addLetter letter (noted n b t) = (addLetter letter t).map (noted n b) := by
  have hstore : ∀ line, storeLetter letter (noted n b t) line = storeLetter letter t line :=
    fun line => rfl
  have hrows : (noted n b t).data = t.data ∧ (noted n b t).currentLine = t.currentLine :=
    ⟨rfl, rfl⟩
  rw [addLetter, addLetter, hrows.1, hrows.2]
  split
  · rfl
  · cases t.data[sizeT t.currentLine.val]? with
    | none => rfl
    | some line =>
      dsimp only
      rw [hstore]
      cases storeLetter letter t line <;> rfl

theorem addLetters_noted (letters : List ℕ) (t : Linux) :
    addLetters letters (noted n b t) = (addLetters letters t).map (noted n b) := by
  induction letters generalizing t with
  | nil => rfl
  | cons letter letters ih =>
    rw [addLetters, addLetters, addLetter_noted]
    cases addLetter letter t with
    | error e => rfl
    | ok u => exact ih u

theorem eraseLoop_noted (k : ℕ) (a : ℤ) (t : Linux) :
    eraseLoop k a (noted n b t) = (eraseLoop k a t).map (noted n b) := by
  induction k generalizing a t with
  | zero => rfl
  | succ k ih =>
    have hmoved : { noted n b t with currentChar := .wrap a } =
      noted n b { t with currentChar := .wrap a } := rfl
    rw [eraseLoop, eraseLoop, hmoved, addLetter_noted]
    cases addLetter 32 { t with currentChar := .wrap a } with
    | error e => rfl
    | ok u => exact ih _ u

theorem reset_noted (type : ℕ) (t : Linux) :
    reset type (noted n b t) = noted n b (reset type t) := by
  unfold reset
  repeat' split
  all_goals rfl

theorem sgrAttribute_noted (group color : ℤ) (t : Linux) : sgrAttribute group color (noted n b t) =
    ((sgrAttribute group color t).1, (sgrAttribute group color t).2.1,
      noted n b (sgrAttribute group color t).2.2) := by
  unfold sgrAttribute
  rw [reset_noted]
  repeat' split
  all_goals rfl

/-- Setting a colour, in a group that leaves the loop or not. -/
theorem setColor_noted (color : ℤ) (f g : QColor × QColor → Linux)
    (h : ∀ c, f c = noted n b (g c)) : (setColor color f).map (false, ·) =
      ((setColor color g).map (false, ·)).map fun r => (r.1, noted n b r.2) := by
  unfold setColor
  cases palate color with
  | error e => rfl
  | ok c => exact congrArg (fun u => Except.ok (false, u)) (h c)

theorem setForeground_noted (color : ℤ) (t : Linux) :
    (setForeground color (noted n b t)).map (false, ·) =
      ((setForeground color t).map (false, ·)).map fun r => (r.1, noted n b r.2) :=
  setColor_noted n b color _ _ fun _ => rfl

theorem sgrColor_noted (group color : ℤ) (t : Linux) : sgrColor group color (noted n b t) =
    (sgrColor group color t).map fun r => (r.1, noted n b r.2) := by
  have hset := setColor_noted n b color
  have hswap : (if color = 7 then { noted n b t with
      foreground := t.background, background := t.foreground, swaped := false }
        else noted n b t) = noted n b (if color = 7 then { t with
      foreground := t.background, background := t.foreground, swaped := false } else t) := by
    split <;> rfl
  unfold sgrColor
  rw [reset_noted, reset_noted, setForeground_noted]
  by_cases h20 : group = 20
  · rw [if_pos h20, if_pos h20]
    exact congrArg (fun u => Except.ok (false, u)) hswap
  rw [if_neg h20, if_neg h20]
  by_cases h30 : group = 30
  · rw [if_pos h30, if_pos h30]
    repeat' split
    all_goals rfl
  rw [if_neg h30, if_neg h30]
  by_cases h40 : group = 40
  · rw [if_pos h40, if_pos h40]
    repeat' split
    · rfl
    · rfl
    · exact hset _ _ fun c => rfl
  rw [if_neg h40, if_neg h40]
  by_cases h90 : group = 90
  · rw [if_pos h90, if_pos h90]
    exact hset _ _ fun c => rfl
  rw [if_neg h90, if_neg h90]
  by_cases h100 : group = 100
  · rw [if_pos h100, if_pos h100]
    exact hset _ _ fun c => rfl
  rw [if_neg h100, if_neg h100]
  rfl

theorem sgrCode_noted (value : ℤ) (t : Linux) : sgrCode value (noted n b t) =
    (sgrCode value t).map fun r => (r.1, noted n b r.2) := by
  have hswap : ∀ group, swapGroup (noted n b t) group = swapGroup t group := fun group => rfl
  unfold sgrCode
  dsimp only
  rw [hswap, sgrAttribute_noted]
  exact sgrColor_noted n b _ _ _

theorem sgrLoop_noted (many : Bool) (o : ℕ) (text : Bytes) (t : Linux) :
    sgrLoop many o text (noted n b t) = (sgrLoop many o text t).map (noted n b) := by
  induction text generalizing o t with
  | nil => cases o <;> rfl
  | cons c rest ih =>
    cases o with
    | succ o => exact ih o t
    | zero =>
      rw [sgrLoop, sgrLoop]
      cases (if many then stoiFault (c::rest) else .ok (0, 0)) with
      | error e => rfl
      | ok r =>
        dsimp only
        rw [sgrCode_noted]
        cases sgrCode r.1 t with
        | error e => rfl
        | ok left =>
          obtain ⟨left, u⟩ := left
          cases left with
          | true => rfl
          | false => exact ih r.2 u

end

def linuxShown (t : Linux) : Linux := noted (.wrap 0) false t

/-- Two outcomes that differ in the count and the note only. -/
theorem map_noted {n : CInt} {b : Bool} {x y : Except Fault Linux} (h : y = x.map (noted n b)) :
    y.map linuxShown = x.map linuxShown := by
  rw [h]
  cases x <;> rfl

theorem newline_shown (n : CInt) (b : Bool) (t : Linux) :
    linuxShown (newline (noted n b t)) = linuxShown (newline t) := by
  have hrows : (noted n b t).data = t.data ∧ (noted n b t).currentLine = t.currentLine := ⟨rfl, rfl⟩
  unfold newline
  rw [hrows.1, hrows.2]
  dsimp only
  split <;> rfl

theorem backspace_shown (n : CInt) (b : Bool) (env : Env) (t : Linux) :
    (backspace env (noted n b t)).map linuxShown = (backspace env t).map linuxShown := by
  have hrows : (noted n b t).data = t.data ∧ (noted n b t).currentLine = t.currentLine ∧
    (noted n b t).currentChar = t.currentChar := ⟨rfl, rfl, rfl⟩
  rw [backspace, backspace, hrows.1, hrows.2.1, hrows.2.2]
  cases t.data[sizeT t.currentLine.val]? with
  | none => rfl
  | some line =>
    dsimp only
    split <;> rfl

theorem escape_shown (n : CInt) (b : Bool) (env : Env) (s : Bytes) (final : Final) (t : Linux) :
    (escape env s final (noted n b t)).map linuxShown = (escape env s final t).map linuxShown := by
  have hcount : ∀ f g : ℤ → Linux, (∀ value, linuxShown (f value) = linuxShown (g value)) →
      ((countArgument s).map f).map linuxShown = ((countArgument s).map g).map linuxShown := by
    intro f g hf
    cases countArgument s with
    | error e => rfl
    | ok value => exact congrArg Except.ok (hf value)
  cases final with
  | H => rfl
  | J => rfl
  | m => exact map_noted (sgrLoop_noted n b _ 0 _ t)
  | K =>
    rw [escape, escape, parseK, parseK]
    have hbounds : eraseBounds env s (noted n b t) = eraseBounds env s t := rfl
    rw [hbounds]
    dsimp only
    rw [eraseLoop_noted]
    cases eraseLoop _ _ t <;> rfl
  | D => exact hcount _ _ fun _ => rfl
  | C => exact hcount _ _ fun _ => rfl
  | A => exact hcount _ _ fun _ => rfl
  | B => exact hcount _ _ fun _ => rfl
  | other => rfl

theorem flush_noted (n : CInt) (b : Bool) (t : Linux) :
    flush (noted n b t) = (flush t).map (noted n b) := by
  have hbuffer : (noted n b t).commandBuffer = t.commandBuffer := rfl
  rw [flush, flush, hbuffer]
  cases toUtf32 t.commandBuffer with
  | none => rfl
  | some letters =>
    dsimp only
    rw [addLetters_noted]
    cases addLetters letters t <;> rfl

/-- What a byte does to the screen depends on what the screen shows. -/
theorem feed_shown (env : Env) (c : UInt8) (t : Linux) :
    (feed env c t).map linuxShown = (feed env c (linuxShown t)).map linuxShown := by
  have haction : action c (linuxShown t) = action c t := rfl
  rw [feed_action, feed_action, haction]
  symm
  cases action c t with
  | collect => rfl
  | newline => exact congrArg Except.ok (newline_shown (.wrap 0) false t)
  | carriageReturn => rfl
  | backspace => exact backspace_shown (.wrap 0) false env t
  | beep => rfl
  | flush => exact map_noted (flush_noted (.wrap 0) false (append c t))
  | sequence final s =>
    have hclear : ∀ x : Except Fault Linux,
        (x.map clear).map linuxShown = (x.map linuxShown).map clear := fun x => by
      cases x <;> rfl
    rw [perform, perform, hclear, hclear]
    exact congrArg _ (escape_shown (.wrap 0) false env s final t)

def linux : Emulator Linux where
  step := Terminal.step
  lineRecount := Terminal.lineRecount
  init := Terminal.init
  shown := linuxShown
  letter_shown := feed_shown
  finish_shown env t := by
    rw [Terminal.step]
    by_cases h : t.linesAdded
    · rw [if_pos h]
      rfl
    · rw [if_neg h]
      rfl
  recount_shown _ _ := rfl

def dumbShown (d : Dumb) : Dumb := { d with lineWrapCount := .wrap 0, linesAdded := false }

theorem dumb_feed_shown (env : Env) (c : UInt8) (d : Dumb) :
    (DumbTerminal.feed env c d).map dumbShown =
      (DumbTerminal.feed env c (dumbShown d)).map dumbShown := by
  have hstore : ∀ letter line, DumbTerminal.storeLetter letter (dumbShown d) line =
    DumbTerminal.storeLetter letter d line := fun letter line => rfl
  have hrows : (dumbShown d).data = d.data ∧ (dumbShown d).currentLine = d.currentLine ∧
    (dumbShown d).currentChar = d.currentChar := ⟨rfl, rfl, rfl⟩
  unfold DumbTerminal.feed
  by_cases hline : c = 10
  · rw [if_pos hline, if_pos hline]
    rfl
  rw [if_neg hline, if_neg hline]
  by_cases hreturn : c = 13
  · rw [if_pos hreturn, if_pos hreturn]
    rfl
  rw [if_neg hreturn, if_neg hreturn]
  by_cases hback : c = 8
  · rw [if_pos hback, if_pos hback, DumbTerminal.backspace, DumbTerminal.backspace, hrows.2.2]
    dsimp only
    split <;> rfl
  rw [if_neg hback, if_neg hback]
  by_cases hbeep : c = 7
  · rw [if_pos hbeep, if_pos hbeep]
    rfl
  rw [if_neg hbeep, if_neg hbeep, DumbTerminal.addLetter, DumbTerminal.addLetter, hrows.1,
    hrows.2.1]
  cases d.data[sizeT d.currentLine.val]? with
  | none => rfl
  | some line =>
    dsimp only
    rw [hstore]
    cases DumbTerminal.storeLetter (DumbTerminal.char32 c) d line <;> rfl

def dumb : Emulator Dumb where
  step := DumbTerminal.step
  lineRecount := DumbTerminal.lineRecount
  init := DumbTerminal.init
  shown := dumbShown
  letter_shown := dumb_feed_shown
  finish_shown env t := by
    rw [DumbTerminal.step]
    by_cases h : t.linesAdded
    · rw [if_pos h]
      rfl
    · rw [if_neg h]
      rfl
  recount_shown _ _ := rfl

/-- The bytes of some calls with what surrounds each. -/
def fed (calls : List Call) : List (Env × UInt8) := (addTexts calls).filterMap heard

/-- One call with the text of all, in the same surroundings. -/
def joined (calls : List Call) : Call :=
  ⟨calls.flatMap Call.text, fun i => ((fed calls)[i]?.map Prod.fst).getD plainEnv⟩

theorem heard_addText (call : Call) : (addText call).filterMap heard =
    (input call.text).mapIdx fun i c => (call.env i, c) := by
  have hbytes : ∀ (s : Bytes) (env : ℕ → Env),
      (s.mapIdx fun i c => Event.letter (env i) c).filterMap heard =
        s.mapIdx fun i c => (env i, c) := by
    intro s
    induction s with
    | nil => exact fun env => rfl
    | cons c s ih =>
      intro env
      rw [List.mapIdx_cons, List.mapIdx_cons, List.filterMap_cons_some (f := heard) rfl]
      exact congrArg _ (ih fun i => env (i+1))
  rw [addText, List.filterMap_append, hbytes]
  exact List.append_nil _

theorem fed_bytes (calls : List Call) :
    (fed calls).map Prod.snd = calls.flatMap fun call => input call.text := by
  induction calls with
  | nil => rfl
  | cons call calls ih =>
    have hfed : fed (call::calls) = (addText call).filterMap heard++fed calls := by
      rw [fed, addTexts, List.flatMap_cons, List.filterMap_append]
      rfl
    rw [hfed, List.map_append, ih, heard_addText, List.flatMap_cons]
    congr 1
    apply List.ext_getElem?
    intro i
    rw [List.getElem?_map, List.getElem?_mapIdx]
    cases (input call.text)[i]? <;> rfl

/-- Without NULs no call is cut short, so the one call has the bytes of all. -/
theorem heard_joined (calls : List Call) (hplain : ∀ call ∈ calls, '\x00' ∉ call.text) :
    (addText (joined calls)).filterMap heard = fed calls := by
  have hbytes : input (joined calls).text = (fed calls).map Prod.snd := by
    have hnul : '\x00' ∉ (joined calls).text := by
      intro h
      obtain ⟨call, hcall, hc⟩ := List.mem_flatMap.mp h
      exact hplain call hcall hc
    rw [TerminalStates.input_encode _ hnul, fed_bytes, joined, encode, List.flatMap_assoc]
    apply List.flatMap_congr
    intro call hcall
    exact (TerminalStates.input_encode _ (hplain call hcall)).symm
  rw [heard_addText, hbytes]
  apply List.ext_getElem?
  intro i
  rw [List.getElem?_mapIdx, List.getElem?_map, joined]
  dsimp only
  cases (fed calls)[i]? <;> rfl

/-- What arrived since the last run of the timer, cut between characters, and
whether the channel is still open. -/
structure Output where
  isOpen : Bool
  out : List Char
  err : List Char

def Output.poll (o : Output) : Poll := ⟨o.isOpen, encode o.out, encode o.err⟩

/-- What a stream brings of a text. The C strings drop every NUL, and the
decoder may strip a byte order mark. -/
def brought (strips : Bool) (text : List Char) : List Char :=
  withoutMark strips (text.filter (· ≠ '\x00'))

/-- What a run of the timer emits. -/
def Output.text (strips : Bool) (o : Output) : List Char :=
  if o.isOpen then brought strips o.out++brought strips o.err else []

inductive Happening where
  | poll (o : Output)
  | deliver (env : ℕ → Env)
  | resize (env : Env)

def Happening.text (strips : Bool) : Happening → List Char
  | .poll o => o.text strips
  | _ => []

/-- The emulator, what was emitted and has not reached it, and the calls so far. -/
structure Shell (τ : Type) where
  term : τ
  queue : List (List Char)
  calls : List Call

section
variable {τ : Type} (E : Emulator τ) (fromStdString : Bytes → List Char)

def shellStep : Happening → Shell τ → Except Fault (Shell τ)
  | .poll o, s => .ok { s with queue := s.queue++checkForData fromStdString o.poll }
  | .deliver env, s => match s.queue with
    | [] => .ok s
    | text::queue => (PartialRun.run E.step (addText ⟨text, env⟩) s.term).map
        (⟨·, queue, s.calls++[⟨text, env⟩]⟩)
  | .resize env, s => .ok { s with term := E.lineRecount env s.term }

/-- One byte on what is shown. -/
def redraw (k : Env × UInt8) (v : τ) : Except Fault τ :=
  (E.step (.letter k.1 k.2) v).map E.shown

theorem run_shown (events : List Event) (t : τ) : (PartialRun.run E.step events t).map E.shown =
    PartialRun.run (redraw E) (events.filterMap heard) (E.shown t) := by
  refine Lockstep.run_heard E.step (redraw E) E.shown heard ?_ ?_ events t
  · intro i k t hk
    cases i with
    | letter env c =>
      cases hk
      exact E.letter_shown env c t
    | finish env => cases hk
  · intro i t hi
    cases i with
    | letter env c => cases hi
    | finish env => exact E.finish_shown env t

/-- All that was emitted has been given to the emulator or waits, and what the
calls make of the start is shown. -/
structure Follows (written : List Char) (s : Shell τ) : Prop where
  text : s.calls.flatMap Call.text++s.queue.flatten = written
  plain : ∀ call ∈ s.calls, '\x00' ∉ call.text
  queued : ∀ text ∈ s.queue, '\x00' ∉ text
  drawn : PartialRun.run (redraw E) (fed s.calls) (E.shown E.init) = .ok (E.shown s.term)

/-- The calls of a run that a fault ends. -/
def Fails (written : List Char) (e : Fault) : Prop :=
  ∃ calls, calls.flatMap Call.text <+: written ∧ (∀ call ∈ calls, '\x00' ∉ call.text) ∧
    PartialRun.run (redraw E) (fed calls) (E.shown E.init) = .error e

theorem fed_snoc (calls : List Call) (call : Call) :
    fed (calls++[call]) = fed calls++(addText call).filterMap heard := by
  rw [fed, addTexts, List.flatMap_append, List.filterMap_append, List.flatMap_singleton]
  rfl

variable {strips : Bool} (hreplaces : Replaces fromStdString strips)
include hreplaces

theorem brought_stream (text : List Char) :
    (if 0 < (read (encode text)).length then [fromStdString (read (encode text))] else []).flatten =
      brought strips text := by
  have hread : fromStdString (read (encode text)) = brought strips text := by
    rw [read_eq, encode_filter, decode_whole hreplaces, brought]
  split
  · rw [hread, List.flatten_singleton]
  · case isFalse h =>
    have hnil : read (encode text) = encode [] := by simpa [encode] using h
    rw [← hread, hnil, decode_whole hreplaces]
    simp [withoutMark]

omit hreplaces in
theorem brought_plain (text : List Char) : '\x00' ∉ brought strips text := by
  intro h
  have hmem := withoutMark_mem _ _ h
  simp at hmem

theorem emitted (o : Output) :
    (checkForData fromStdString o.poll).flatten = o.text strips := by
  rw [checkForData, Output.text, Output.poll]
  split
  · rw [List.flatten_append]
    exact congrArg₂ _ (brought_stream fromStdString hreplaces o.out)
      (brought_stream fromStdString hreplaces o.err)
  · rfl

theorem emitted_plain (o : Output) : ∀ text ∈ checkForData fromStdString o.poll, '\x00' ∉ text := by
  intro text htext hnul
  have hmem : '\x00' ∈ o.text strips := by
    rw [← emitted fromStdString hreplaces o]
    exact List.mem_flatten.mpr ⟨text, htext, hnul⟩
  rw [Output.text] at hmem
  split at hmem
  · exact (List.mem_append.mp hmem).elim (brought_plain o.out) (brought_plain o.err)
  · cases hmem

omit hreplaces in
/-- The text in front of the queue, given to the emulator. -/
theorem follows_given (written text : List Char) (queue : List (List Char)) (env : ℕ → Env)
    (s : Shell τ) (hs : Follows E written s) (hq : s.queue = text::queue) :
    (∀ t, PartialRun.run E.step (addText ⟨text, env⟩) s.term = .ok t →
      Follows E written ⟨t, queue, s.calls++[⟨text, env⟩]⟩) ∧
    ∀ e, PartialRun.run E.step (addText ⟨text, env⟩) s.term = .error e → Fails E written e := by
  have htext := hs.text
  have hqueued := hs.queued
  rw [hq] at htext hqueued
  have hplain : ∀ call ∈ s.calls++[Call.mk text env], '\x00' ∉ call.text := by
    intro call hcall
    rcases List.mem_append.mp hcall with h | h
    · exact hs.plain call h
    · rw [List.mem_singleton.mp h]
      exact hqueued text List.mem_cons_self
  have hsplit : (s.calls++[Call.mk text env]).flatMap Call.text++queue.flatten = written := by
    rw [← htext, List.flatMap_append, List.append_assoc, List.flatMap_singleton, List.flatten_cons]
  have hdrawn : PartialRun.run (redraw E) (fed (s.calls++[Call.mk text env])) (E.shown E.init) =
      (PartialRun.run E.step (addText ⟨text, env⟩) s.term).map E.shown := by
    rw [fed_snoc, PartialRun.run_after _ _ _ _ _ hs.drawn, run_shown]
  constructor
  · intro t hr
    rw [hr] at hdrawn
    exact ⟨hsplit, hplain, fun text ht => hqueued text (List.mem_cons_of_mem _ ht), hdrawn⟩
  · intro e hr
    rw [hr] at hdrawn
    exact ⟨_, ⟨queue.flatten, hsplit⟩, hplain, hdrawn⟩

theorem follows_step (written : List Char) (h : Happening) (s : Shell τ)
    (hs : Follows E written s) :
    (∀ u, shellStep E fromStdString h s = .ok u → Follows E (written++h.text strips) u) ∧
    ∀ e, shellStep E fromStdString h s = .error e → Fails E (written++h.text strips) e := by
  cases h with
  | poll o =>
    have hnul := emitted_plain fromStdString hreplaces o
    refine ⟨fun u hu => ?_, fun e he => by cases he⟩
    cases hu
    refine ⟨?_, hs.plain, fun text ht => ?_, hs.drawn⟩
    · show s.calls.flatMap Call.text++(s.queue++_).flatten = written++o.text strips
      rw [List.flatten_append, ← List.append_assoc, hs.text, emitted fromStdString hreplaces o]
    · exact (List.mem_append.mp ht).elim (hs.queued text) (hnul text)
  | resize env =>
    refine ⟨fun u hu => ?_, fun e he => by cases he⟩
    cases hu
    refine ⟨?_, hs.plain, hs.queued, ?_⟩
    · exact hs.text.trans (List.append_nil _).symm
    · rw [E.recount_shown]
      exact hs.drawn
  | deliver env =>
    have hnone : (Happening.deliver env).text strips = [] := rfl
    rw [shellStep, hnone, List.append_nil]
    cases hq : s.queue with
    | nil =>
      refine ⟨fun u hu => ?_, fun e he => by cases he⟩
      cases hu
      exact hs
    | cons text queue =>
      obtain ⟨hok, herror⟩ := follows_given E written text queue env s hs hq
      dsimp only
      cases hr : PartialRun.run E.step (addText ⟨text, env⟩) s.term with
      | error e =>
        refine ⟨fun u hu => (by cases hu), fun e' he => ?_⟩
        cases he
        exact herror e hr
      | ok t =>
        refine ⟨fun u hu => ?_, fun e he => by cases he⟩
        cases hu
        exact hok t hr

theorem follows_run (happenings : List Happening) (written : List Char) (s : Shell τ)
    (hs : Follows E written s) :
    (∀ u, PartialRun.run (shellStep E fromStdString) happenings s = .ok u →
      Follows E (written++happenings.flatMap (Happening.text strips)) u) ∧
    ∀ e, PartialRun.run (shellStep E fromStdString) happenings s = .error e →
      Fails E (written++happenings.flatMap (Happening.text strips)) e := by
  induction happenings generalizing written s with
  | nil =>
    refine ⟨fun u hu => ?_, fun e he => by cases he⟩
    cases hu
    rw [List.flatMap_nil, List.append_nil]
    exact hs
  | cons h happenings ih =>
    obtain ⟨hok, herror⟩ := follows_step E fromStdString hreplaces written h s hs
    rw [List.flatMap_cons, ← List.append_assoc, PartialRun.run]
    cases hr : shellStep E fromStdString h s with
    | error e =>
      refine ⟨fun u hu => (by cases hu), fun e' he => ?_⟩
      cases he
      obtain ⟨calls, hprefix, hplain, hfails⟩ := herror e hr
      exact ⟨calls, hprefix.trans (List.prefix_append _ _), hplain, hfails⟩
    | ok t => exact ih _ t (hok t hr)

end

/-- The emulator shows what one call of `add_text` with the emitted text shows,
of which the queue holds the rest, and a fault is one that this call has too. -/
structure Shows {τ : Type} (E : Emulator τ) (fromStdString : Bytes → List Char)
    (happenings : List Happening) (emitted : List Char) : Prop where
  shown : ∀ s, PartialRun.run (shellStep E fromStdString) happenings ⟨E.init, [], []⟩ = .ok s →
    (joined s.calls).text++s.queue.flatten = emitted ∧
    (PartialRun.run E.step (addText (joined s.calls)) E.init).map E.shown = .ok (E.shown s.term)
  fault : ∀ e, PartialRun.run (shellStep E fromStdString) happenings ⟨E.init, [], []⟩ = .error e →
    ∃ calls, (joined calls).text <+: emitted ∧
      PartialRun.run E.step (addText (joined calls)) E.init = .error e

theorem emulator_shows {τ : Type} (E : Emulator τ) (fromStdString : Bytes → List Char)
    {strips : Bool} (hreplaces : Replaces fromStdString strips) (happenings : List Happening) :
    Shows E fromStdString happenings (happenings.flatMap (Happening.text strips)) := by
  have hinit : Follows E [] ⟨E.init, [], []⟩ := ⟨rfl, by simp, by simp, rfl⟩
  obtain ⟨hok, herror⟩ := follows_run E fromStdString hreplaces happenings [] _ hinit
  constructor
  · intro s hs
    have h := hok s hs
    refine ⟨h.text, ?_⟩
    rw [run_shown, heard_joined s.calls h.plain]
    exact h.drawn
  · intro e he
    obtain ⟨calls, hprefix, hplain, hfails⟩ := herror e he
    refine ⟨calls, hprefix, ?_⟩
    have hshown := run_shown E (addText (joined calls)) E.init
    rw [heard_joined calls hplain, hfails] at hshown
    exact (Fallible.map_error _ _ _).mp hshown

/-- However the output of the shell is cut between characters, and whatever order
the runs of the timer, the deliveries and the changes of width come in, both
terminals show what one call with the text that was emitted makes of it. -/
theorem shell_shows (fromStdString : Bytes → List Char) (strips : Bool)
    (hreplaces : Replaces fromStdString strips) (happenings : List Happening) :
    Shows linux fromStdString happenings (happenings.flatMap (Happening.text strips)) ∧
    Shows dumb fromStdString happenings (happenings.flatMap (Happening.text strips)) :=
  ⟨emulator_shows linux fromStdString hreplaces happenings,
    emulator_shows dumb fromStdString hreplaces happenings⟩

/-- A code for red, cut behind its ESC by two runs of the timer. -/
def redCut : List Happening :=
  [.poll ⟨true, ['a', '\x1b'], []⟩, .deliver fun _ => plainEnv, .resize plainEnv,
    .poll ⟨true, ['[', '3', '1', 'm', 'b'], []⟩, .deliver fun _ => plainEnv]

theorem shell_shows_red : ∃ s, PartialRun.run (shellStep linux (replaceFrom 0)) redCut
    ⟨linux.init, [], []⟩ = .ok s ∧
    (joined s.calls).text = ['a', '\x1b', '[', '3', '1', 'm', 'b'] ∧
    (PartialRun.run Terminal.step (addText (joined s.calls)) Terminal.init).map Linux.data =
      .ok [[⟨97, ⟨255, 255, 255⟩, ⟨0, 0, 0⟩⟩, ⟨98, ⟨255, 0, 0⟩, ⟨0, 0, 0⟩⟩]] := by
  have hrun : (PartialRun.run (shellStep linux (replaceFrom 0)) redCut ⟨linux.init, [], []⟩).map
      (fun s => (s.queue, s.term.data)) =
        .ok ([], [[⟨97, ⟨255, 255, 255⟩, ⟨0, 0, 0⟩⟩, ⟨98, ⟨255, 0, 0⟩, ⟨0, 0, 0⟩⟩]]) := by
    rfl
  obtain ⟨s, hs, hview⟩ := (Fallible.map_ok _ _ _).mp hrun
  obtain ⟨hqueue, hdata⟩ := Prod.mk.inj hview
  obtain ⟨htext, hshown⟩ :=
    (shell_shows (replaceFrom 0) false replaceFrom_replaces redCut).1.shown s hs
  rw [hqueue, List.flatten_nil, List.append_nil] at htext
  refine ⟨s, hs, htext.trans (by decide), ?_⟩
  obtain ⟨t, ht, hshow⟩ := (Fallible.map_ok _ _ _).mp hshown
  have hsame : (linux.shown t).data = (linux.shown s.term).data := congrArg Linux.data hshow
  exact (Fallible.map_ok _ _ _).mpr ⟨t, ht, hsame.trans hdata⟩

end Bakaneko.ShellOutput
