import Bakaneko.TerminalStates
import Bakaneko.SgrCodes

/-!
# Where escape sequences end

A sequence is collected from its ESC to the first letter of the alphabet.
That is its last byte for the control sequences and two-byte escapes that end
with such a letter, if the buffer was empty in front of them: behind pending
UTF-8 bytes the ESC joins these, and a last byte that is no letter leaves the
sequence open.
-/

set_option autoImplicit false

namespace Bakaneko.EscapeFraming
open Bakaneko.Native Bakaneko.Terminal Bakaneko.TerminalFrame Bakaneko.TerminalColumns
open Bakaneko.TerminalSequences Bakaneko.TerminalStates Bakaneko.TerminalEquivalence PartialRun
open Bakaneko.SgrCodes (collected Ascii)

/-- Control sequences and the two-byte escapes. -/
inductive IsSequence : Bytes → Prop where
  | control (parameters intermediates : Bytes) (final : UInt8)
      (hp : ∀ c ∈ parameters, 0x30 ≤ c ∧ c ≤ 0x3F)
      (hi : ∀ c ∈ intermediates, 0x20 ≤ c ∧ c ≤ 0x2F) (hf : 0x40 ≤ final ∧ final ≤ 0x7E) :
      IsSequence (27::91::(parameters++intermediates++[final]))
  | two (c : UInt8) (h : 0x30 ≤ c ∧ c ≤ 0x7E) (hc : c ∉ [91, 93, 80]) : IsSequence [27, c]

/-- The byte is handed to `add_letter` with all that is pending. -/
def Prints : Event → Linux → Prop
  | .letter _ c, t => action c t = .flush
  | .finish _, _ => False

/-- What `parse_buffer` needs to return on a sequence without its ESC. -/
def Readable (env : Env) (b : Bytes) (t : Linux) : Prop :=
  parameters b (if b.head? = some 91 then back b else .other) ∧
    ((if b.head? = some 91 then back b else .other) = .K → erasable env b t)

/-- The sequence ends with its last byte, prints nothing and leaves what
follows to a call of its own. -/
def Framed (r : Linux) (pre : List Char) (s : Bytes) (e : ℕ → Env) (t : Linux) : Prop :=
  ∃ u, run (bytesOf (later (input pre).length e) s) t = .ok u ∧ u.commandBuffer = [] ∧
    Meets step (fun i v => ¬ Prints i v) (bytesOf (later (input pre).length e) s) t ∧
    ∀ post, run (addText ⟨pre++(s.map fun c => Char.ofNat c.toNat)++post, e⟩) r =
      run (addText ⟨post, later s.length (later (input pre).length e)⟩) u

theorem low_plain (c : UInt8) (h : c ≤ 0x3F) : isalpha c = false := by
  unfold isalpha
  grind

theorem between_ascii {low high : UInt8} (hl : 1 ≤ low) (hh : high < 128) (c : UInt8)
    (h : low ≤ c ∧ c ≤ high) : Ascii c :=
  ⟨UInt8.le_trans hl h.1, UInt8.lt_of_le_of_lt h.2 hh⟩

/-- ESC, bytes that collect on, and the last byte. -/
theorem IsSequence.shape {s : Bytes} (h : IsSequence s) : ∃ inner last, s = 27::(inner++[last]) ∧
    (∀ c ∈ inner, isalpha c = false) ∧
    ∀ c ∈ (inner++[last]).head?, 0x30 ≤ c ∧ c < 128 := by
  cases h with
  | control parameters intermediates final hp hi hf =>
    refine ⟨91::(parameters++intermediates), final, rfl, ?_, by simp⟩
    intro c hc
    rcases List.mem_cons.mp hc with rfl | hc
    · rfl
    rcases List.mem_append.mp hc with hc | hc
    · exact low_plain c (hp c hc).2
    · exact low_plain c (UInt8.le_trans (hi c hc).2 (by decide))
  | two c h hc =>
    refine ⟨[], c, rfl, by simp, ?_⟩
    intro d hd
    obtain rfl : c = d := by simpa using hd
    exact ⟨h.1, UInt8.lt_of_le_of_lt h.2 (by decide)⟩

theorem IsSequence.ascii {s : Bytes} (h : IsSequence s) : ∀ c ∈ s, Ascii c := by
  intro c hc
  cases h with
  | control parameters intermediates final hp hi hf =>
    simp only [List.mem_cons, List.mem_append, List.not_mem_nil, or_false] at hc
    rcases hc with rfl | rfl | (hc | hc) | rfl
    · exact ⟨by decide, by decide⟩
    · exact ⟨by decide, by decide⟩
    · exact between_ascii (by decide) (by decide) c (hp c hc)
    · exact between_ascii (by decide) (by decide) c (hi c hc)
    · exact between_ascii (by decide) (by decide) c hf
  | two d h hd =>
    simp only [List.mem_cons, List.not_mem_nil, or_false] at hc
    rcases hc with rfl | rfl
    · exact ⟨by decide, by decide⟩
    · exact between_ascii (by decide) (by decide) c h

theorem input_append (text rest : List Char) (h : '\x00' ∉ text) :
    input (text++rest) = input text++input rest := by
  rw [input_encode text h, input, List.flatMap_append, List.takeWhile_append_of_pos]
  · rfl
  · intro b hb
    obtain ⟨c, hc, hb⟩ := List.mem_flatMap.mp hb
    rw [decide_eq_true_eq]
    rintro rfl
    exact h ((PtyDecoding.nul_encode c).mp hb ▸ hc)

theorem collect_escaped (c : UInt8) (t : Linux) (hb : t.commandBuffer.head? = some 27)
    (hc : isalpha c = false) : action c t = .collect := by
  rw [action, if_pos hb, hc]
  rfl

/-- Bytes behind an ESC are collected up to the first letter. -/
theorem run_collected (s : Bytes) (e : ℕ → Env) (t : Linux) (hb : t.commandBuffer.head? = some 27)
    (hs : ∀ c ∈ s, isalpha c = false) : run (bytesOf e s) t = .ok (collected s t) ∧
      Meets step (fun i v => ¬ Prints i v) (bytesOf e s) t := by
  induction s generalizing e t with
  | nil =>
    rw [collected, List.append_nil]
    exact ⟨rfl, trivial⟩
  | cons c s ih =>
    obtain ⟨hc, hrest⟩ := List.forall_mem_cons.mp hs
    have hact := collect_escaped c t hb hc
    have hstep : step (.letter (e 0) c) t = .ok (append c t) := by
      rw [step, feed_action, hact]
      rfl
    have hhead : (append c t).commandBuffer.head? = some 27 := by
      rw [append, List.head?_append, hb]
      rfl
    obtain ⟨hrun, hmeets⟩ := ih (later 1 e) (append c t) hhead hrest
    have hsame : collected s (append c t) = collected (c::s) t := by simp [collected, append]
    rw [bytesOf_cons, Terminal.run, PartialRun.run, Meets, hstep]
    refine ⟨by rw [← hsame]; exact hrun, by simp [Prints, hact], fun u hu => ?_⟩
    cases hu
    exact hmeets

/-- An ESC is collected by an empty buffer and by a sequence. -/
theorem escape_collected (env : Env) (t : Linux)
    (hb : t.commandBuffer = [] ∨ t.commandBuffer.head? = some 27) :
    action 27 t = .collect ∧ step (.letter env 27) t = .ok (append 27 t) ∧
      (append 27 t).commandBuffer.head? = some 27 := by
  have hact : action 27 t = .collect := by
    rcases hb with h | h
    · simp [action, h]
    · exact collect_escaped 27 t h (by decide)
  refine ⟨hact, by rw [step, feed_action, hact]; rfl, ?_⟩
  rcases hb with h | h
  · simp [append, h]
  · simp [append, List.head?_append, h]

theorem opening_run (inner : Bytes) (e : ℕ → Env) (t : Linux)
    (hb : t.commandBuffer = [] ∨ t.commandBuffer.head? = some 27)
    (hinner : ∀ c ∈ inner, isalpha c = false) :
    run (bytesOf e (27::inner)) t = .ok (collected (27::inner) t) ∧
      Meets step (fun i v => ¬ Prints i v) (bytesOf e (27::inner)) t ∧
      (collected (27::inner) t).commandBuffer.head? = some 27 := by
  obtain ⟨hact, hstep, hhead⟩ := escape_collected (e 0) t hb
  obtain ⟨hrun, hmeets⟩ := run_collected inner (later 1 e) (append 27 t) hhead hinner
  have hsame : collected inner (append 27 t) = collected (27::inner) t := by
    simp [collected, append]
  rw [bytesOf_cons, Terminal.run, PartialRun.run, Meets, hstep]
  refine ⟨by rw [← hsame]; exact hrun, ⟨by simp [Prints, hact], fun u hu => ?_⟩, ?_⟩
  · cases hu
    exact hmeets
  · rw [← hsame, collected, List.head?_append, hhead]
    rfl

/-- The last byte of a sequence meets all that was collected in front of it. -/
theorem sequence_step (inner : Bytes) (last : UInt8) (e : ℕ → Env) (t : Linux)
    (hb : t.commandBuffer = [] ∨ t.commandBuffer.head? = some 27)
    (hinner : ∀ c ∈ inner, isalpha c = false) :
    bytesOf e (27::(inner++[last])) =
        bytesOf e (27::inner)++[.letter (e (inner.length+1)) last] ∧
      run (bytesOf e (27::(inner++[last]))) t =
        step (.letter (e (inner.length+1)) last) (collected (27::inner) t) := by
  have hsplit : bytesOf e (27::(inner++[last])) =
      bytesOf e (27::inner)++[.letter (e (inner.length+1)) last] := by
    rw [← List.cons_append, bytesOf_append]
    simp [bytesOf, later]
  refine ⟨hsplit, ?_⟩
  rw [hsplit]
  exact (run_after step _ _ t _ (opening_run inner e t hb hinner).1).trans (run_singleton step _ _)

theorem printable_flush (c : UInt8) (t : Linux) (hc : 0x20 ≤ c ∧ c < 128)
    (hb : t.commandBuffer.head? ≠ some 27) : action c t = .flush := by
  have hcontrols : ¬ 128 ≤ c ∧ c ≠ 27 ∧ c ≠ 10 ∧ c ≠ 13 ∧ c ≠ 8 ∧ c ≠ 7 := by grind
  obtain ⟨h1, h2, h3, h4, h5, h6⟩ := hcontrols
  rw [action, if_neg hb, if_neg h1, if_neg h2, if_neg h3, if_neg h4, if_neg h5, if_neg h6]

/-- Behind pending bytes an ESC joins these. -/
theorem pending_escape (env : Env) (t : Linux) (hne : t.commandBuffer ≠ [])
    (hb : t.commandBuffer.head? ≠ some 27) : step (.letter env 27) t = .ok (append 27 t) ∧
      (append 27 t).commandBuffer.head? ≠ some 27 := by
  have hact : action 27 t = .collect := by
    rw [action, if_neg hb]
    rfl
  refine ⟨by rw [step, feed_action, hact]; rfl, ?_⟩
  obtain ⟨c, s, hcs⟩ := List.exists_cons_of_ne_nil hne
  simpa [append, hcs] using hb

/-- Behind pending bytes the byte after the ESC is printed. -/
theorem pending_prints (d : UInt8) (rest : Bytes) (e : ℕ → Env) (t : Linux)
    (hne : t.commandBuffer ≠ []) (hb : t.commandBuffer.head? ≠ some 27)
    (hd : 0x30 ≤ d ∧ d < 128) :
    ¬ Meets step (fun i v => ¬ Prints i v) (bytesOf e (27::d::rest)) t := by
  obtain ⟨hstep, hhead⟩ := pending_escape (e 0) t hne hb
  rw [bytesOf_cons, bytesOf_cons, Meets]
  rintro ⟨-, h⟩
  have hle : (0x20 : UInt8) ≤ 0x30 := by decide
  exact (h _ hstep).1 (printable_flush d _ ⟨UInt8.le_trans hle hd.1, hd.2⟩ hhead)

theorem readable_returns (env : Env) (b : Bytes) (t : Linux) (hp : PaletteSafe t)
    (hs : ShortLines t) : Readable env b t ↔ ∃ u, parseBuffer env b t = .ok u := by
  rw [parseBuffer_escape]
  exact escape_returns env b _ t hp hs

/-- The last byte of an open sequence closes it exactly if it is a letter of
the alphabet and the parameters can be read. -/
theorem closing_byte (env : Env) (c : UInt8) (t : Linux) (hb : t.commandBuffer.head? = some 27)
    (hp : PaletteSafe t) (hs : ShortLines t) :
    (∃ u, step (.letter env c) t = .ok u ∧ u.commandBuffer = []) ↔
      isalpha c ∧ Readable env ((t.commandBuffer++[c]).drop 1) t := by
  rw [readable_returns env _ t hp hs, step, feed, if_pos hb]
  by_cases hc : isalpha c
  · rw [if_pos hc]
    simp only [hc, true_and, Fallible.map_ok]
    constructor
    · rintro ⟨u, ⟨v, hv, -⟩, -⟩
      exact ⟨v, hv⟩
    · rintro ⟨v, hv⟩
      exact ⟨_, ⟨v, hv, rfl⟩, rfl⟩
  · rw [if_neg hc]
    simp [hc, append]

theorem closing_prints (env : Env) (c : UInt8) (t : Linux)
    (hb : t.commandBuffer.head? = some 27) : ¬ Prints (.letter env c) t := by
  rw [Prints, action, if_pos hb]
  split <;> simp [command]

theorem no_nul (s : Bytes) (hs : ∀ c ∈ s, Ascii c) :
    '\x00' ∉ s.map fun c => Char.ofNat c.toNat := by
  intro h
  obtain ⟨c, hc, h0⟩ := List.mem_map.mp h
  obtain ⟨henc, hne⟩ := SgrCodes.encode_ascii c (hs c hc)
  rw [h0] at henc
  have hzero : [0] = [c] := henc
  exact hne (List.cons.inj hzero).1.symm

/-- What follows is handled from the state the sequence leads to. -/
theorem rest_alone (r t u : Linux) (pre : List Char) (s : Bytes) (e : ℕ → Env)
    (hpre : '\x00' ∉ pre) (hs : ∀ c ∈ s, Ascii c) (ht : run (bytesOf e (input pre)) r = .ok t)
    (hu : run (bytesOf (later (input pre).length e) s) t = .ok u) (post : List Char) :
    run (addText ⟨pre++(s.map fun c => Char.ofNat c.toNat)++post, e⟩) r =
      run (addText ⟨post, later s.length (later (input pre).length e)⟩) u := by
  have hinput : input (pre++(s.map fun c => Char.ofNat c.toNat)++post) =
      input pre++(s++input post) := by
    rw [List.append_assoc, input_append _ _ hpre, input_append _ _ (no_nul s hs),
      SgrCodes.input_ascii s hs]
  have hevents : addText ⟨pre++(s.map fun c => Char.ofNat c.toNat)++post, e⟩ =
      bytesOf e (input pre)++(bytesOf (later (input pre).length e) s++
        addText ⟨post, later s.length (later (input pre).length e)⟩) := by
    rw [addText_bytesOf, hinput, bytesOf_append, bytesOf_append, addText_bytesOf, finishEvent,
      finishEvent, hinput]
    simp [later]
  rw [hevents]
  exact (run_after step _ _ r t ht).trans (run_after step _ _ t u hu)

/-- A sequence is framed exactly if no UTF-8 bytes are pending in front of it,
its last byte is a letter of the alphabet and its parameters can be read. -/
theorem framed_iff (r : Linux) (hr : Reachable r) (pre : List Char) (hpre : '\x00' ∉ pre)
    (s : Bytes) (hs : IsSequence s) (e : ℕ → Env) (t : Linux)
    (ht : run (bytesOf e (input pre)) r = .ok t) :
    Framed r pre s e t ↔ (t.commandBuffer = [] ∨ t.commandBuffer.head? = some 27) ∧
      (∃ c ∈ s.getLast?, isalpha c) ∧
      Readable (e ((input pre).length+(s.length-1))) ((t.commandBuffer++s).drop 1) t := by
  have hsound := hr.sound.run _ ht
  obtain ⟨inner, last, rfl, hinner, hhead⟩ := hs.shape
  by_cases hb : t.commandBuffer = [] ∨ t.commandBuffer.head? = some 27
  case neg =>
    refine iff_of_false ?_ fun h => hb h.1
    rintro ⟨u, -, -, hmeets, -⟩
    rw [not_or] at hb
    cases inner with
    | nil => exact pending_prints last [] _ t hb.1 hb.2 (hhead last rfl) hmeets
    | cons d inner =>
      exact pending_prints d (inner++[last]) _ t hb.1 hb.2 (hhead d rfl) hmeets
  obtain ⟨hrun, hmeets, hopen⟩ := opening_run inner (later (input pre).length e) t hb hinner
  obtain ⟨hlast, hafter⟩ := sequence_step inner last (later (input pre).length e) t hb hinner
  have hindex : later (input pre).length e (inner.length+1) =
      e ((input pre).length+((27::(inner++[last])).length-1)) := by simp [later]
  rw [hindex] at hlast hafter
  have hclose := closing_byte (e ((input pre).length+((27::(inner++[last])).length-1))) last
    (collected (27::inner) t) hopen hsound.palette hsound.short
  have hb' : (collected (27::inner) t).commandBuffer++[last] =
      t.commandBuffer++27::(inner++[last]) := by simp [collected]
  rw [hb'] at hclose
  have hletter : (∃ c ∈ (27::(inner++[last])).getLast?, isalpha c) ↔ isalpha last := by
    rw [← List.cons_append, List.getLast?_concat]
    simp
  rw [hletter, and_iff_right hb]
  refine Iff.trans ?_ hclose
  constructor
  · rintro ⟨u, hu, hempty, -⟩
    exact ⟨u, hafter.symm.trans hu, hempty⟩
  · rintro ⟨u, hu, hempty⟩
    have hs' := hafter.trans hu
    refine ⟨u, hs', hempty, ?_, rest_alone r t u pre _ e hpre hs.ascii ht hs'⟩
    rw [hlast, meets_append]
    refine ⟨hmeets, fun v hv => ?_⟩
    obtain rfl : collected (27::inner) t = v := Except.ok.inj (hrun.symm.trans hv)
    exact ⟨closing_prints _ last _ hopen, fun _ _ => trivial⟩

/-- The last byte tells the sequence, unless it is one of the two for pasting. -/
theorem back_last (x : Bytes) (c : UInt8) (hc : c ≠ 104 ∧ c ≠ 108) : back (x++[c]) =
    if c = 72 then .H else if c = 74 then .J else if c = 109 then .m else if c = 75 then .K
    else if c = 68 then .D else if c = 67 then .C else if c = 65 then .A else if c = 66 then .B
    else .other := by
  have hpaste : ¬ (x++[c] = bytes "[?2004h" ∨ x++[c] = bytes "[?2004l") := by
    rintro (h | h)
    · have hlast := congrArg List.getLast? h
      rw [List.getLast?_concat] at hlast
      exact hc.1 (Option.some.inj hlast)
    · have hlast := congrArg List.getLast? h
      rw [List.getLast?_concat] at hlast
      exact hc.2 (Option.some.inj hlast)
  simp only [back, if_neg hpaste, List.getLast?_concat, Option.some.injEq]

theorem escape_added (env : Env) (b : Bytes) (final : Final) (t u : Linux) (hs : ShortLines t)
    (h : escape env b final t = .ok u) : u.linesAdded = t.linesAdded := by
  cases final with
  | H => cases h; rfl
  | J => cases h; rfl
  | m => exact (parseM_recoloured b t u h).added
  | K => obtain ⟨-, rfl⟩ | ⟨-, -, -, rfl⟩ := parseK_cases env b t u hs h <;> rfl
  | D => obtain ⟨value, -, rfl⟩ := (Fallible.map_ok _ _ _).mp h; rfl
  | C => obtain ⟨value, -, rfl⟩ := (Fallible.map_ok _ _ _).mp h; rfl
  | A => obtain ⟨value, -, rfl⟩ := (Fallible.map_ok _ _ _).mp h; rfl
  | B => obtain ⟨value, -, rfl⟩ := (Fallible.map_ok _ _ _).mp h; rfl
  | other => cases h; rfl

/-- A sequence that ends with a letter of the alphabet does what
`parse_buffer` does, and no more. -/
theorem sequence_ok (inner : Bytes) (last : UInt8) (e : ℕ → Env) (t u : Linux)
    (hs : ShortLines t) (hb : t.commandBuffer = [] ∨ t.commandBuffer.head? = some 27)
    (hinner : ∀ c ∈ inner, isalpha c = false) (hlast : isalpha last = true)
    (b : Bytes) (hbuffer : b = (t.commandBuffer++27::(inner++[last])).drop 1) :
    run (bytesOf e (27::(inner++[last]))) t = .ok u ↔
      ∃ v, escape (e (inner.length+1)) b (if b.head? = some 91 then back b else .other)
        (collected (27::inner) t) = .ok v ∧ clear v = u ∧ u.linesAdded = t.linesAdded := by
  have hhead := (opening_run inner e t hb hinner).2.2
  have hb' : ((collected (27::inner) t).commandBuffer++[last]).drop 1 = b := by
    rw [hbuffer]
    simp [collected]
  rw [(sequence_step inner last e t hb hinner).2, step, feed, if_pos hhead, if_pos hlast, hb',
    Fallible.map_ok, parseBuffer_escape]
  refine exists_congr fun v => and_congr_right fun hv => ?_
  have hadded := escape_added _ _ _ (collected (27::inner) t) v hs hv
  constructor
  · rintro rfl
    exact ⟨rfl, hadded⟩
  · exact fun h => h.1

/-- `ESC[2J` on a fresh terminal. -/
theorem framed_erase : Framed init [] (bytes "\x1b[2J") (fun _ => plainEnv) init := by
  refine (framed_iff init .init [] (by decide) (bytes "\x1b[2J")
    (.control [50] [] 74 (by simp) (by simp) (by decide)) (fun _ => plainEnv) init rfl).mpr
    ⟨.inl rfl, ⟨74, by decide, by decide⟩, ?_⟩
  have hfinal : (if (((init.commandBuffer++bytes "\x1b[2J").drop 1).head? = some 91) then
      back ((init.commandBuffer++bytes "\x1b[2J").drop 1) else Final.other) = .J := by decide
  rw [Readable, hfinal]
  exact ⟨trivial, fun h => by cases h⟩

/-- `ESC 7` stays open; behind an e with an acute accent `ESC[31m` is printed. -/
theorem not_framed : Reachable init ∧
    IsSequence [27, 55] ∧ ¬ Framed init [] [27, 55] (fun _ => plainEnv) init ∧
    IsSequence (bytes "\x1b[31m") ∧
    ∃ t, run (bytesOf (fun _ => plainEnv) (input ['é'])) init = .ok t ∧
      ¬ Framed init ['é'] (bytes "\x1b[31m") (fun _ => plainEnv) t := by
  refine ⟨.init, .two 55 (by decide) (by decide), ?_,
    .control [51, 49] [] 109 (by simp) (by simp) (by decide),
    { init with commandBuffer := [195, 169] }, by decide, ?_⟩
  · rintro ⟨u, hu, hempty, -⟩
    have hr : run (bytesOf (later (input []).length fun _ => plainEnv) [27, 55]) init =
        .ok { init with commandBuffer := [27, 55] } := by decide
    rw [hr] at hu
    cases hu
    cases hempty
  · rintro ⟨u, -, -, hmeets, -⟩
    exact pending_prints 91 (bytes "31m") _ _ (by simp) (by decide) (by decide) hmeets

end Bakaneko.EscapeFraming
