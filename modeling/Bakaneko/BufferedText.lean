import Bakaneko.UnicodeOrder

/-!
# The buffer between two bytes

A byte of a text is put behind the buffer, empties it, or is a control that
leaves it alone. The controls and the bytes that empty it are characters of
their own, so the buffer and what is still to come of the text are UTF-8 when
put together, whatever interrupts a character's bytes or a call.
-/

set_option autoImplicit false

namespace Bakaneko.BufferedText
open Bakaneko.Native Bakaneko.Terminal Bakaneko.TerminalFrame Bakaneko.TerminalStates
open PartialRun Utf8

/-- Where `add_text` stands: between two calls, or inside one with these bytes
of its text still to come. -/
inductive Moment where
  | between
  | inside (rest : Bytes)

def Moment.rest : Moment → Bytes
  | .between => []
  | .inside rest => rest

/-- What an exception leaves in the buffer. `parse_buffer` has taken the ESC
off by then, and for `m` the `[`. -/
def left (c : UInt8) (t : Linux) : Bytes :=
  match action c t with
  | .sequence .m b => b.drop 1
  | .sequence _ b => b
  | _ => t.commandBuffer++[c]

/-- The states of a terminal, call after call and byte after byte. A call that
an exception ends may leave anything outside the buffer. -/
inductive At : Moment → Linux → Prop where
  | init : At .between init
  | recount (env : Env) (t : Linux) (ht : At .between t) : At .between (lineRecount env t)
  | call (text : List Char) (t : Linux) (ht : At .between t) : At (.inside (input text)) t
  | letter (env : Env) (c : UInt8) (rest : Bytes) (t u : Linux) (ht : At (.inside (c::rest)) t)
      (hu : feed env c t = .ok u) : At (.inside rest) u
  | finish (env : Env) (t u : Linux) (ht : At (.inside []) t)
      (hu : step (.finish env) t = .ok u) : At .between u
  | thrown (env : Env) (c : UInt8) (rest : Bytes) (t u : Linux) (e : Fault)
      (ht : At (.inside (c::rest)) t) (he : feed env c t = .error e)
      (hthrown : e ≠ .row ∧ e ≠ .palette) (hu : u.commandBuffer = left c t) : At .between u

theorem isalpha_ascii (c : UInt8) (h : isalpha c) : c < 128 := by
  unfold isalpha at h
  grind

theorem backspace_buffer (env : Env) (t u : Linux) (h : backspace env t = .ok u) :
    u.commandBuffer = t.commandBuffer := by
  obtain ⟨-, ⟨-, rfl⟩ | ⟨-, rfl⟩⟩ := backspace_cases env t u h <;> rfl

theorem newline_buffer (t : Linux) : (newline t).commandBuffer = t.commandBuffer := by
  unfold newline
  dsimp only
  split <;> rfl

/-- Only a character of one byte does anything but lengthen the buffer. -/
theorem action_ascii (c : UInt8) (t : Linux) (h : action c t ≠ .collect) : c < 128 := by
  unfold action at h
  split at h
  · split at h
    case isTrue ha => exact isalpha_ascii c ha
    case isFalse => exact absurd rfl h
  · split at h
    case isTrue => exact absurd rfl h
    case isFalse hc => exact Nat.lt_of_not_le hc

/-- What one byte does to the buffer. -/
theorem feed_buffer (env : Env) (c : UInt8) (t u : Linux) (h : feed env c t = .ok u) :
    u.commandBuffer = t.commandBuffer++[c] ∨
      c < 128 ∧ (u.commandBuffer = t.commandBuffer ∨ u.commandBuffer = []) := by
  have hc := action_ascii c t
  rw [feed_action] at h
  cases ha : action c t with
  | collect =>
    rw [ha] at h
    cases h
    exact .inl rfl
  | newline =>
    rw [ha] at h hc
    cases h
    exact .inr ⟨hc (by decide), .inl (newline_buffer t)⟩
  | carriageReturn =>
    rw [ha] at h hc
    cases h
    exact .inr ⟨hc (by decide), .inl rfl⟩
  | backspace =>
    rw [ha] at h hc
    exact .inr ⟨hc (by decide), .inl (backspace_buffer env t u h)⟩
  | beep =>
    rw [ha] at h hc
    cases h
    exact .inr ⟨hc (by decide), .inl rfl⟩
  | flush =>
    rw [ha, perform, flush] at h
    rw [ha] at hc
    split at h
    · cases h
    · obtain ⟨v, -, rfl⟩ := (Fallible.map_ok _ _ _).mp h
      exact .inr ⟨hc (by decide), .inr rfl⟩
  | sequence final b =>
    rw [ha] at h hc
    obtain ⟨v, -, rfl⟩ := (Fallible.map_ok _ _ _).mp h
    exact .inr ⟨hc (by simp), .inr rfl⟩

/-- A byte below 128 ends what stands in front of it. -/
theorem valid_front (c : UInt8) (hc : c < 128) (s rest : Bytes) (h : Valid (s++c::rest)) :
    Valid (s++[c]) ∧ Valid s ∧ Valid rest := by
  obtain ⟨hs, hrest⟩ := (valid_cut c hc s rest).mp h
  exact ⟨(valid_cut c hc s []).mpr ⟨hs, valid_nil⟩, hs, hrest⟩

theorem input_valid (text : List Char) : Valid (input text) := by
  have hcut : input text++(encode text).dropWhile (· ≠ 0) = encode text :=
    List.takeWhile_append_dropWhile
  cases hd : (encode text).dropWhile (· ≠ 0) with
  | nil =>
    rw [hd, List.append_nil] at hcut
    exact ⟨text, hcut⟩
  | cons c rest =>
    have hhead := List.head?_dropWhile_not (fun b : UInt8 => decide (b ≠ 0)) (encode text)
    rw [hd] at hhead
    obtain rfl : c = 0 := by simpa using hhead
    rw [hd] at hcut
    exact ((valid_cut 0 (by decide) (input text) rest).mp ⟨text, hcut⟩).1

/-- What is behind a character of one byte is whole when all of it is. -/
theorem valid_tail (c : UInt8) (hc : c < 128) (s : Bytes) (h : Valid s) (hs : s.head? = some c) :
    Valid (s.drop 1) := by
  cases s with
  | nil => cases hs
  | cons d s =>
    cases hs
    exact ((valid_cut c hc [] s).mp h).2

/-- An exception leaves whole characters. -/
theorem left_valid (c : UInt8) (t : Linux) (h : Valid (t.commandBuffer++[c])) :
    Valid (left c t) := by
  unfold left
  obtain ⟨h27, -, ha⟩ | ⟨-, ha⟩ := TerminalSequences.action_sequence c t
  · have hb := valid_tail 27 (by decide) _ h (by rw [List.head?_append, h27]; rfl)
    rw [ha, command]
    by_cases h91 : ((t.commandBuffer++[c]).drop 1).head? = some 91
    · have hm := valid_tail 91 (by decide) _ hb h91
      rw [if_pos h91]
      cases back ((t.commandBuffer++[c]).drop 1) <;> first | exact hb | exact hm
    · rw [if_neg h91]
      exact hb
  · cases hact : action c t with
    | sequence final b => exact absurd hact (ha final b)
    | _ => exact h

theorem At.valid {m : Moment} {t : Linux} (h : At m t) : Valid (t.commandBuffer++m.rest) := by
  induction h with
  | init => exact valid_nil
  | recount env t ht ih => exact ih
  | call text t ht ih =>
    rw [Moment.rest, List.append_nil] at ih
    exact valid_append _ _ ih (input_valid text)
  | letter env c rest t u ht hu ih =>
    obtain hb | ⟨hc, hb⟩ := feed_buffer env c t u hu
    · rw [hb, List.append_assoc]
      exact ih
    · obtain ⟨-, hfront, hrest⟩ := valid_front c hc _ rest ih
      obtain hb | hb := hb
      · rw [hb]
        exact valid_append _ _ hfront hrest
      · rw [hb]
        exact hrest
  | finish env t u ht hu ih =>
    cases hu
    by_cases hl : t.linesAdded <;> simpa [hl, lineRecount, Moment.rest] using ih
  | thrown env c rest t u e ht he hthrown hu ih =>
    have hc : action c t ≠ .collect := by
      intro hact
      rw [feed_action, hact] at he
      cases he
    rw [Moment.rest, List.append_nil, hu]
    exact left_valid c t (valid_front c (action_ascii c t hc) _ rest ih).1

/-- Every buffer that `to_utf32` gets is UTF-8. -/
theorem At.converted {c : UInt8} {rest : Bytes} {t : Linux} (h : At (.inside (c::rest)) t)
    (hf : action c t = .flush) : ∃ text, t.commandBuffer++[c] = encode text ∧
      toUtf32 (t.commandBuffer++[c]) = some (text.map Char.toNat) := by
  have hc := action_ascii c t (by simp [hf])
  obtain ⟨text, htext⟩ := (valid_front c hc _ rest h.valid).1
  exact ⟨text, htext, htext ▸ UnicodeOrder.toUtf32_encode text⟩

theorem parseK_decodes (env : Env) (b : Bytes) (t : Linux) : parseK env b t ≠ .error .utf8 := by
  intro h
  rw [parseK, Fallible.map_error] at h
  obtain he | he := eraseLoop_fault _ _ t _ h <;> cases he

theorem backspace_decodes (env : Env) (t : Linux) : backspace env t ≠ .error .utf8 := by
  unfold backspace
  split
  · simp
  · split <;> simp

/-- The conversion throws at no byte of any call. -/
theorem At.decodes {c : UInt8} {rest : Bytes} {t : Linux} (h : At (.inside (c::rest)) t)
    (env : Env) : feed env c t ≠ .error .utf8 := by
  rw [feed_action]
  cases ha : action c t with
  | collect => simp [perform]
  | newline => simp [perform]
  | carriageReturn => simp [perform]
  | backspace => exact backspace_decodes env t
  | beep => simp [perform]
  | flush =>
    obtain ⟨text, -, hdecoded⟩ := h.converted ha
    intro he
    rw [perform, flush, append, hdecoded] at he
    obtain hf | hf := addLetters_fault _ _ _ ((Fallible.map_error _ _ _).mp he) <;> cases hf
  | sequence final b =>
    rw [perform, Ne, Fallible.map_error]
    exact escape_ne env b final t .utf8 (by simp [Parsing]) fun _ => parseK_decodes env b t

/-- What is true of single bytes is true of runs. -/
theorem At.bytes (s : Bytes) (e : ℕ → Env) (rest : Bytes) (t : Linux)
    (h : At (.inside (s++rest)) t) : run (bytesOf e s) t ≠ .error .utf8 ∧
      ∀ u, run (bytesOf e s) t = .ok u → At (.inside rest) u := by
  induction s generalizing e t with
  | nil => exact ⟨by simp [bytesOf, PartialRun.run], fun u hu => by cases hu; exact h⟩
  | cons c s ih =>
    rw [bytesOf_cons, Terminal.run, PartialRun.run]
    cases hf : step (.letter (e 0) c) t with
    | error e' => exact ⟨fun he => h.decodes (e 0) (by cases he; exact hf), by simp⟩
    | ok u => exact ih (later 1 e) u (.letter (e 0) c (s++rest) t u h hf)

theorem At.addText (call : Call) (t : Linux) (h : At .between t) :
    run (addText call) t ≠ .error .utf8 ∧ ∀ u, run (addText call) t = .ok u → At .between u := by
  have hcall := At.call call.text t h
  rw [← List.append_nil (input call.text)] at hcall
  obtain ⟨hne, hinside⟩ := At.bytes (input call.text) call.env [] t hcall
  rw [addText_bytesOf, Terminal.run, run_append]
  cases hr : PartialRun.run step (bytesOf call.env (input call.text)) t with
  | error e => exact ⟨fun he => hne (by cases he; exact hr), by simp⟩
  | ok u =>
    dsimp only
    rw [run_singleton]
    refine ⟨?_, fun v hv => .finish _ u v (hinside u hr) hv⟩
    intro he
    cases he

theorem At.addTexts (calls : List Call) (t : Linux) (h : At .between t) :
    run (addTexts calls) t ≠ .error .utf8 := by
  induction calls generalizing t with
  | nil => simp [Terminal.addTexts, PartialRun.run]
  | cons call calls ih =>
    obtain ⟨hne, hnext⟩ := At.addText call t h
    rw [Terminal.addTexts, List.flatMap_cons, Terminal.run, run_append]
    cases hr : PartialRun.run step (Terminal.addText call) t with
    | error e => exact fun he => hne (by cases he; exact hr)
    | ok u => exact ih u (hnext u hr)

/-- The states reached by calls that return are among these. -/
theorem at_of_reachable {t : Linux} (h : Reachable t) : At .between t := by
  induction h with
  | init => exact .init
  | addText call t u ht hu ih => exact (At.addText call t ih).2 u hu
  | recount env t ht ih => exact .recount env t ih

/-- Between two calls the buffer is UTF-8, an ESC in front or not; between two
bytes it may end with the beginning of a character whose other bytes come next.
What `to_utf32` gets is UTF-8, so it never throws. -/
theorem buffer_wellFormed :
    (∀ t, At .between t → Valid t.commandBuffer) ∧
    (∀ rest t, At (.inside rest) t → Aligned t.commandBuffer rest) ∧
    (∀ c rest t, At (.inside (c::rest)) t → action c t = .flush →
      Valid (t.commandBuffer++[c]) ∧ (toUtf32 (t.commandBuffer++[c])).isSome) ∧
    (∀ env c rest t, At (.inside (c::rest)) t → feed env c t ≠ .error .utf8) ∧
    ∀ calls, run (addTexts calls) init ≠ .error .utf8 := by
  refine ⟨fun t h => ?_, fun rest t h => aligned_of_valid _ rest h.valid, fun c rest t h hf => ?_,
    fun env c rest t h => h.decodes env, fun calls => At.addTexts calls init .init⟩
  · simpa [Moment.rest] using h.valid
  · obtain ⟨text, htext, hdecoded⟩ := h.converted hf
    exact ⟨⟨text, htext⟩, by simp [hdecoded]⟩

/-- Between the two bytes of an e with an acute accent, and at the x behind it. -/
theorem buffer_wellFormed_accent : Aligned [195] [169, 120] ∧ Valid [195, 169, 120] ∧
    feed plainEnv 120 (append 169 (append 195 init)) ≠ .error .utf8 := by
  have hinput : input ['é', 'x'] = [195, 169, 120] := by decide
  have hcall := At.call ['é', 'x'] init .init
  rw [hinput] at hcall
  have hfirst := At.letter plainEnv 195 [169, 120] init (append 195 init) hcall rfl
  have hsecond := At.letter plainEnv 169 [120] _ (append 169 (append 195 init)) hfirst rfl
  have h := buffer_wellFormed
  exact ⟨h.2.1 _ _ hfirst, (h.2.2.1 120 [] _ hsecond (by decide)).1,
    h.2.2.2.1 plainEnv 120 [] _ hsecond⟩

end Bakaneko.BufferedText
