import Bakaneko.BufferedText

/-!
# What a cell can hold

The controls that `add_text` takes out of a text never get into a cell, nor
does the end of a C string. An ESC does, behind a character that is held back.
The colours of a cell are the pens of their time, and a pen is always a colour
of the palette. Any such letter in any two of these colours can be had.
-/

set_option autoImplicit false

namespace Bakaneko.TerminalCells
open Bakaneko.Native Bakaneko.Terminal Bakaneko.TerminalFrame Bakaneko.TerminalColumns
open Bakaneko.TerminalStates Bakaneko.BufferedText PartialRun PaddedRow
open Bakaneko.UnicodeOrder (Holding handleAll delayed heldBack PlainText)

def colours : List QColor := colorPalate.flatMap fun c => [c.1, c.2]

/-- NUL, `\a`, `\b`, `\n` and `\r`. -/
def controls : Bytes := [0, 7, 8, 10, 13]

structure Cell (s : Symbol) : Prop where
  scalar : s.letter.isValidChar
  letter : s.letter ∉ controls.map UInt8.toNat
  foreground : s.foreground ∈ colours
  background : s.background ∈ colours

/-- Some terminal has this cell between two calls. -/
def Held (s : Symbol) : Prop := ∃ t, Reachable t ∧ ∃ line ∈ t.data, s ∈ line

structure Penned (t : Linux) : Prop where
  foreground : t.foreground ∈ colours
  background : t.background ∈ colours

/-- No control waits to be stored. An ESC in front makes the buffer a sequence. -/
def Waiting (t : Linux) : Prop :=
  t.commandBuffer.head? ≠ some 27 → ∀ b ∈ t.commandBuffer, b ∉ controls

structure Filled (t : Linux) : Prop extends Penned t where
  cells : ∀ line ∈ t.data, ∀ s ∈ line, Cell s
  waiting : Waiting t
  short : ShortLines t

theorem palate_mem (color : ℤ) (c : QColor × QColor) (h : palate color = .ok c) :
    c.1 ∈ colours ∧ c.2 ∈ colours := by
  unfold palate at h
  split at h
  case h_1 hd =>
    cases h
    have hmem := List.mem_of_getElem? hd
    exact ⟨List.mem_flatMap.mpr ⟨c, hmem, by simp⟩, List.mem_flatMap.mpr ⟨c, hmem, by simp⟩⟩
  case h_2 => cases h

theorem reset_penned (type : ℕ) (t : Linux) (h : Penned t) : Penned (reset type t) := by
  have hwhite : (⟨255, 255, 255⟩ : QColor) ∈ colours := by decide
  have hblack : (⟨0, 0, 0⟩ : QColor) ∈ colours := by decide
  constructor <;> simp only [reset] <;> repeat' split
  all_goals first | exact hwhite | exact hblack | exact h.foreground | exact h.background

theorem sgrAttribute_penned (group color : ℤ) (t : Linux) (h : Penned t) :
    Penned (sgrAttribute group color t).2.2 := by
  unfold sgrAttribute
  repeat' split
  all_goals first
    | exact reset_penned 3 t h
    | exact ⟨h.background, h.foreground⟩
    | exact ⟨h.foreground, h.background⟩

theorem setForeground_penned (color : ℤ) (t u : Linux) (h : Penned t)
    (hu : setForeground color t = .ok u) : Penned u := by
  unfold setForeground at hu
  cases hp : palate color with
  | error e => simp [hp] at hu
  | ok c =>
    obtain ⟨hdark, hbright⟩ := palate_mem color c hp
    rw [hp] at hu
    cases hu
    refine ⟨?_, h.background⟩
    dsimp only
    split
    · exact hbright
    · exact hdark

theorem setColor_penned (color : ℤ) (f : QColor × QColor → Linux) (u : Linux)
    (hf : ∀ c, c.1 ∈ colours ∧ c.2 ∈ colours → Penned (f c)) (hu : setColor color f = .ok u) :
    Penned u := by
  unfold setColor at hu
  cases hp : palate color with
  | error e => simp [hp] at hu
  | ok c =>
    rw [hp] at hu
    cases hu
    exact hf c (palate_mem color c hp)

theorem sgrColor_penned (group color : ℤ) (t u : Linux) (leave : Bool) (h : Penned t)
    (hu : sgrColor group color t = .ok (leave, u)) : Penned u := by
  have hset : ∀ f : QColor × QColor → Linux,
      (setColor color f).map (false, ·) = .ok (leave, u) →
      (∀ c, c.1 ∈ colours ∧ c.2 ∈ colours → Penned (f c)) → Penned u := by
    intro f hm hf
    obtain ⟨v, hv, he⟩ := (Fallible.map_ok _ _ _).mp hm
    cases he
    exact setColor_penned color f u hf hv
  unfold sgrColor at hu
  split at hu
  · cases hu
    split
    · exact ⟨h.background, h.foreground⟩
    · exact h
  split at hu
  · split at hu
    · cases hu
      exact reset_penned 1 t h
    split at hu
    · cases hu
      exact h
    obtain ⟨v, hv, he⟩ := (Fallible.map_ok _ _ _).mp hu
    cases he
    exact setForeground_penned color t u h hv
  split at hu
  · split at hu
    · cases hu
      exact reset_penned 2 t h
    split at hu
    · cases hu
      exact h
    exact hset _ hu fun c hc => ⟨h.foreground, hc.1⟩
  split at hu
  · exact hset _ hu fun c hc => ⟨hc.2, h.background⟩
  split at hu
  · exact hset _ hu fun c hc => ⟨h.foreground, hc.2⟩
  cases hu
  exact h

theorem sgrLoop_penned (many : Bool) (o : ℕ) (text : Bytes) (t u : Linux) (h : Penned t)
    (hu : sgrLoop many o text t = .ok u) : Penned u := by
  induction text generalizing o t with
  | nil =>
    obtain rfl : t = u := by cases o <;> simpa [sgrLoop] using hu
    exact h
  | cons c rest ih =>
    cases o with
    | succ o => exact ih o t h hu
    | zero =>
      rw [sgrLoop] at hu
      split at hu
      · cases hu
      case _ value o _ =>
        have hcode : ∀ leave v, sgrCode value t = .ok (leave, v) → Penned v := fun leave v hv =>
          sgrColor_penned _ _ _ v leave (sgrAttribute_penned _ _ t h) hv
        split at hu
        · cases hu
        case _ v hv =>
          cases hu
          exact hcode true u hv
        case _ v hv => exact ih _ v (hcode false v hv) hu

/-- A cell of a row behind writes was there, was written or fills a gap. -/
theorem putAll_cells {t : Linux} (h : Filled t) (cs : List Symbol) (x : ℕ)
    (hcs : ∀ s ∈ cs, Cell s) : ∀ line ∈ onRow t fun line => putAll (symbol 32 t) line x cs,
      ∀ s ∈ line, Cell s := by
  have hspace : Nat.isValidChar 32 ∧ 32 ∉ controls.map UInt8.toNat := by decide
  have hblank : Cell (symbol 32 t) := ⟨hspace.1, hspace.2, h.foreground, h.background⟩
  intro line hline s hs
  obtain ⟨r, hr⟩ := List.getElem?_of_mem hline
  rw [onRow, List.getElem?_modify] at hr
  obtain ⟨old, hold, rfl⟩ := Option.map_eq_some_iff.mp hr
  have hrow : ∀ c ∈ old, Cell c := h.cells old (List.mem_of_getElem? hold)
  split at hs
  · obtain ⟨i, hi⟩ := List.getElem?_of_mem hs
    rw [putAll_getElem?] at hi
    split at hi
    · exact hcs s (List.mem_of_getElem? hi)
    split at hi
    · cases hi
      exact hblank
    · exact hrow s (List.mem_of_getElem? hi)
  · exact hrow s hs

theorem action_collect (c : UInt8) (t : Linux) (h : action c t = .collect) :
    t.commandBuffer.head? = some 27 ∨ 128 ≤ c ∨ c = 27 := by
  unfold action at h
  by_cases h27 : t.commandBuffer.head? = some 27
  · exact .inl h27
  rw [if_neg h27] at h
  grind

theorem action_flush (c : UInt8) (t : Linux) (h : action c t = .flush) (h0 : c ≠ 0) :
    t.commandBuffer.head? ≠ some 27 ∧ c ∉ controls := by
  unfold action at h
  by_cases h27 : t.commandBuffer.head? = some 27
  · rw [if_pos h27] at h
    split at h <;> cases h
  · rw [if_neg h27] at h
    refine ⟨h27, ?_⟩
    rw [controls]
    grind

theorem append_waiting (c : UInt8) (t : Linux) (ht : Waiting t) (hc : action c t = .collect) :
    Waiting (append c t) := by
  intro hne b hb
  obtain h27 | hcollect := action_collect c t hc
  · exact absurd (by rw [append, List.head?_append, h27]; rfl) hne
  by_cases hnil : t.commandBuffer = []
  · rw [append, hnil, List.nil_append] at hne hb
    obtain rfl := List.mem_singleton.mp hb
    rw [controls]
    grind
  · rw [append, List.head?_append_of_ne_nil _ hnil] at hne
    rcases List.mem_append.mp hb with hb | hb
    · exact ht hne b hb
    · obtain rfl := List.mem_singleton.mp hb
      rw [controls]
      grind

/-- The code points of bytes that are no controls. -/
theorem encode_cells (text : List Char) (h : ∀ b ∈ Utf8.encode text, b ∉ controls) :
    ∀ n ∈ text.map Char.toNat, n.isValidChar ∧ n ∉ controls.map UInt8.toNat := by
  intro n hn
  obtain ⟨c, hc, rfl⟩ := List.mem_map.mp hn
  refine ⟨c.valid, fun hmem => ?_⟩
  obtain ⟨b, hb, hcb⟩ := List.mem_map.mp hmem
  have hsmall : ∀ d ∈ controls, d.toNat < 128 := by simp [controls]
  have henc := TerminalStates.encode_ascii c (hcb ▸ hsmall b hb)
  refine h b (List.mem_flatMap.mpr ⟨c, hc, ?_⟩) hb
  rw [henc, TerminalEquivalence.byte, ← hcb, UInt8.ofNat_toNat]
  exact List.mem_singleton_self b

theorem newline_cells (t : Linux) (h : Filled t) :
    ∀ line ∈ (newline t).data, ∀ s ∈ line, Cell s := by
  intro line hline s hs
  unfold newline at hline
  dsimp only at hline
  split at hline
  · rcases List.mem_append.mp hline with hline | hline
    · exact h.cells line hline s hs
    · rw [List.mem_singleton.mp hline] at hs
      cases hs
  · exact h.cells line hline s hs

theorem newline_pens (t : Linux) : (newline t).foreground = t.foreground ∧
    (newline t).background = t.background := by
  unfold newline
  dsimp only
  split <;> exact ⟨rfl, rfl⟩

theorem backspaceLine_cells (t : Linux) (line : List Symbol) (h : ∀ s ∈ line, Cell s) :
    ∀ s ∈ backspaceLine t line, Cell s := by
  have hspace : Nat.isValidChar 32 ∧ 32 ∉ controls.map UInt8.toNat := by decide
  intro s hs
  unfold backspaceLine at hs
  dsimp only at hs
  split at hs
  · exact h s (List.mem_of_mem_dropLast hs)
  · obtain ⟨i, hi⟩ := List.getElem?_of_mem hs
    rw [List.getElem?_modify] at hi
    obtain ⟨old, hold, rfl⟩ := Option.map_eq_some_iff.mp hi
    have hcell := h old (List.mem_of_getElem? hold)
    split
    · exact ⟨hspace.1, hspace.2, hcell.foreground, hcell.background⟩
    · exact hcell

theorem backspace_filled (env : Env) (t u : Linux) (h : Filled t) (hshort : ShortLines u)
    (hu : backspace env t = .ok u) : Filled u := by
  obtain ⟨-, ⟨-, rfl⟩ | ⟨-, rfl⟩⟩ := backspace_cases env t u hu
  · exact h
  · refine ⟨⟨h.foreground, h.background⟩, fun line hline s hs => ?_, h.waiting, hshort⟩
    obtain ⟨r, hr⟩ := List.getElem?_of_mem hline
    rw [onRow, List.getElem?_modify] at hr
    obtain ⟨old, hold, rfl⟩ := Option.map_eq_some_iff.mp hr
    have hrow := h.cells old (List.mem_of_getElem? hold)
    split at hs
    · exact backspaceLine_cells t old hrow s hs
    · exact hrow s hs

theorem waiting_nil (t : Linux) (h : t.commandBuffer = []) : Waiting t := by
  intro _ b hb
  rw [h] at hb
  cases hb

theorem flush_filled (c : UInt8) (rest : Bytes) (t u : Linux) (h0 : c ≠ 0)
    (hat : At (.inside (c::rest)) t) (h : Filled t) (ha : action c t = .flush)
    (hshort : ShortLines u) (hu : flush (append c t) = .ok u) : Filled u := by
  obtain ⟨h27, hc⟩ := action_flush c t ha h0
  obtain ⟨text, htext, hdecoded⟩ := hat.converted ha
  obtain ⟨letters, hletters, hcases⟩ := flush_cases (append c t) u h.short (by simp [append]) hu
  obtain rfl : text.map Char.toNat = letters := Option.some.inj (hdecoded.symm.trans hletters)
  have hbytes : ∀ b ∈ Utf8.encode text, b ∉ controls := by
    intro b hb
    rw [← htext] at hb
    rcases List.mem_append.mp hb with hb | hb
    · exact h.waiting h27 b hb
    · rwa [List.mem_singleton.mp hb]
  have hcells : ∀ s ∈ (text.map Char.toNat).map (fun l => symbol l (append c t)), Cell s := by
    intro s hs
    obtain ⟨n, hn, rfl⟩ := List.mem_map.mp hs
    obtain ⟨hvalid, hplain⟩ := encode_cells text hbytes n hn
    exact ⟨hvalid, hplain, h.foreground, h.background⟩
  obtain ⟨-, rfl⟩ | ⟨-, -, -, rfl⟩ := hcases
  · exact ⟨⟨h.foreground, h.background⟩, h.cells, waiting_nil _ rfl, hshort⟩
  · exact ⟨⟨h.foreground, h.background⟩, putAll_cells h _ _ hcells, waiting_nil _ rfl, hshort⟩

theorem parseK_filled (env : Env) (b : Bytes) (t u : Linux) (h : Filled t)
    (hu : parseK env b t = .ok u) : Penned u ∧ ∀ line ∈ u.data, ∀ s ∈ line, Cell s := by
  have hspace : Nat.isValidChar 32 ∧ 32 ∉ controls.map UInt8.toNat := by decide
  obtain ⟨-, rfl⟩ | ⟨-, -, -, rfl⟩ := parseK_cases env b t u h.short hu
  · exact ⟨h.toPenned, h.cells⟩
  · refine ⟨⟨h.foreground, h.background⟩, putAll_cells h _ _ fun s hs => ?_⟩
    rw [List.eq_of_mem_replicate hs]
    exact ⟨hspace.1, hspace.2, h.foreground, h.background⟩

/-- A sequence that is complete puts blanks into cells at most. -/
theorem escape_filled (env : Env) (b : Bytes) (final : Final) (t u : Linux) (h : Filled t)
    (hu : escape env b final t = .ok u) : Penned u ∧ ∀ line ∈ u.data, ∀ s ∈ line, Cell s := by
  cases final with
  | H => cases hu; exact ⟨⟨h.foreground, h.background⟩, h.cells⟩
  | J =>
    cases hu
    refine ⟨⟨h.foreground, h.background⟩, fun line hline s hs => ?_⟩
    rw [List.mem_singleton.mp hline] at hs
    cases hs
  | m => exact ⟨sgrLoop_penned _ _ _ t u h.toPenned hu, (parseM_sameText b t u hu).data ▸ h.cells⟩
  | K => exact parseK_filled env b t u h hu
  | D =>
    obtain ⟨value, -, rfl⟩ := (Fallible.map_ok _ _ _).mp hu
    exact ⟨⟨h.foreground, h.background⟩, h.cells⟩
  | C =>
    obtain ⟨value, -, rfl⟩ := (Fallible.map_ok _ _ _).mp hu
    exact ⟨⟨h.foreground, h.background⟩, h.cells⟩
  | A =>
    obtain ⟨value, -, rfl⟩ := (Fallible.map_ok _ _ _).mp hu
    exact ⟨⟨h.foreground, h.background⟩, h.cells⟩
  | B =>
    obtain ⟨value, -, rfl⟩ := (Fallible.map_ok _ _ _).mp hu
    exact ⟨⟨h.foreground, h.background⟩, h.cells⟩
  | other => cases hu; exact ⟨h.toPenned, h.cells⟩

/-- One byte of a text. -/
theorem letter_filled (env : Env) (c : UInt8) (rest : Bytes) (t u : Linux) (h0 : c ≠ 0)
    (hat : At (.inside (c::rest)) t) (h : Filled t) (hu : feed env c t = .ok u) : Filled u := by
  have hshort := step_short (.letter env c) t u h.short hu
  rw [feed_action] at hu
  cases ha : action c t with
  | collect =>
    rw [ha] at hu
    cases hu
    exact ⟨⟨h.foreground, h.background⟩, h.cells, append_waiting c t h.waiting ha, hshort⟩
  | newline =>
    rw [ha] at hu
    cases hu
    obtain ⟨hf, hb⟩ := newline_pens t
    refine ⟨⟨hf ▸ h.foreground, hb ▸ h.background⟩, newline_cells t h, ?_, hshort⟩
    rw [Waiting, newline_buffer]
    exact h.waiting
  | carriageReturn =>
    rw [ha] at hu
    cases hu
    exact ⟨⟨h.foreground, h.background⟩, h.cells, h.waiting, hshort⟩
  | backspace =>
    rw [ha] at hu
    exact backspace_filled env t u h hshort hu
  | beep =>
    rw [ha] at hu
    cases hu
    exact h
  | flush =>
    rw [ha] at hu
    exact flush_filled c rest t u h0 hat h ha hshort hu
  | sequence final b =>
    rw [ha] at hu
    obtain ⟨v, hv, rfl⟩ := (Fallible.map_ok _ _ _).mp hu
    obtain ⟨hpens, hcells⟩ := escape_filled env b final t v h hv
    exact ⟨⟨hpens.foreground, hpens.background⟩, hcells, waiting_nil _ rfl, hshort⟩

theorem bytes_filled (s : Bytes) (h0 : 0 ∉ s) (e : ℕ → Env) (t u : Linux)
    (hat : At (.inside s) t) (h : Filled t) (hu : run (bytesOf e s) t = .ok u) : Filled u := by
  induction s generalizing e t with
  | nil =>
    cases hu
    exact h
  | cons c s ih =>
    rw [bytesOf_cons, Terminal.run, PartialRun.run] at hu
    cases hv : step (.letter (e 0) c) t with
    | error e' => simp [hv] at hu
    | ok v =>
      rw [hv] at hu
      have hc : c ≠ 0 := fun hc => h0 (hc ▸ List.mem_cons_self)
      exact ih (fun hs => h0 (List.mem_cons_of_mem c hs)) _ v (.letter _ c s t v hat hv)
        (letter_filled _ c s t v hc hat h hv) hu

theorem recounted_filled (t : Linux) (h : Filled t) (count : CInt) (added : Bool) :
    Filled { t with lineWrapCount := count, linesAdded := added } :=
  ⟨⟨h.foreground, h.background⟩, h.cells, h.waiting, h.short⟩

theorem Reachable.filled {t : Linux} (h : Reachable t) : Filled t := by
  induction h with
  | init =>
    refine ⟨⟨by decide, by decide⟩, fun line hline s hs => ?_, waiting_nil _ rfl, init_short⟩
    rw [List.mem_singleton.mp hline] at hs
    cases hs
  | addText call t u ht hu ih =>
    rw [addText_bytesOf, Terminal.run, run_append_ok] at hu
    obtain ⟨v, hv, hfinish⟩ := hu
    have h0 : 0 ∉ input call.text := fun hmem => by simpa using List.mem_takeWhile_imp hmem
    have hfilled := bytes_filled _ h0 call.env t v (.call call.text t (at_of_reachable ht)) ih hv
    rw [run_singleton] at hfinish
    cases hfinish
    split
    · exact recounted_filled v hfilled _ _
    · exact recounted_filled v hfilled v.lineWrapCount false
  | recount env t ht ih => exact recounted_filled t ih _ t.linesAdded

/-- The first terminal with other pens. -/
def withPens (foreground background : QColor) (light : Bool) (index : ℤ) : Linux :=
  { init with foreground, background, light, foregroundIndex := index }

def plain (text : List Char) : Call := ⟨text, fun _ => plainEnv⟩

def entry (k : Fin 8) (light : Bool) : QColor :=
  if light then (colorPalate.get k).2 else (colorPalate.get k).1

def foregroundCodes (k : Fin 8) (light : Bool) : List Char :=
  ['\x1b', '[', if light then '1' else '2', ';', '3', Char.ofNat (48+k), 'm']

def backgroundCodes (k : Fin 8) (light : Bool) : List Char :=
  if light then ['\x1b', '[', '1', '0', Char.ofNat (48+k), 'm']
  else ['\x1b', '[', '4', Char.ofNat (48+k), 'm']

theorem foregroundCodes_run : ∀ k light, run (addText (plain (foregroundCodes k light))) init =
    .ok (withPens (entry k light) ⟨0, 0, 0⟩ light k) := by
  decide +kernel

theorem backgroundCodes_run (foreground : QColor) (light : Bool) (index : ℤ) (k : Fin 8)
    (bright : Bool) : run (addText (plain (backgroundCodes k bright)))
      (withPens foreground ⟨0, 0, 0⟩ light index) =
        .ok (withPens foreground (entry k bright) light index) := by
  fin_cases k <;> cases bright <;> rfl

theorem colours_entry : ∀ colour ∈ colours, ∃ k light, entry k light = colour := by decide

/-- Any two colours of the palette can be the pens. -/
theorem pens_reachable (foreground background : QColor) (hf : foreground ∈ colours)
    (hb : background ∈ colours) : ∃ light index,
      Reachable (withPens foreground background light index) := by
  obtain ⟨j, light, rfl⟩ := colours_entry foreground hf
  obtain ⟨k, bright, rfl⟩ := colours_entry background hb
  exact ⟨light, j, .addText _ _ _ (.addText _ _ _ .init (foregroundCodes_run j light))
    (backgroundCodes_run _ light j k bright)⟩

theorem delayed_letter (c : Char) (hc : UnicodeOrder.Stored c) :
    delayed [] [c, 'x'] = [c, 'x'] := by
  have hx : delayed [] ['x'] = ['x'] := by decide
  have hbehind : delayed [c] ['x'] = [c, 'x'] := by simp [delayed]
  rw [delayed]
  split
  · exact hbehind
  · rw [if_neg hc, hx]
    rfl

/-- A letter in front of an x is stored in the first column. -/
theorem letter_had (c : Char) (hc : c.toNat ∉ controls.map UInt8.toNat) (hesc : c ≠ '\x1b')
    (foreground background : QColor) (light : Bool) (index : ℤ) : ∃ u,
      run (addText (plain [c, 'x'])) (withPens foreground background light index) = .ok u ∧
        ∃ line ∈ u.data, ⟨c.toNat, foreground, background⟩ ∈ line := by
  have hne : ∀ d : Char, d.toNat ∈ controls.map UInt8.toNat → c ≠ d := by
    rintro d hd rfl
    exact hc hd
  have hstored : UnicodeOrder.Stored c := by
    rintro (h | h | h)
    · exact hne '\n' (by decide) h
    · exact hne '\r' (by decide) h
    · exact hne '\x07' (by decide) h
  have hplain : PlainText [c, 'x'] := by
    refine List.forall_mem_cons.mpr ⟨?_, by simp⟩
    have h0 := hne '\x00' (by decide)
    have h8 := hne '\x08' (by decide)
    simp [h0, h8, hesc]
  have hall : ∀ d ∈ [c, 'x'], UnicodeOrder.Stored d :=
    List.forall_mem_cons.mpr ⟨hstored, by simp [UnicodeOrder.Stored]⟩
  have hp : RowPresent init := by unfold RowPresent; decide
  have hs : ColumnSafe init := by unfold ColumnSafe; decide
  have hroom : init.currentChar.val+2 ≤ 2147483648 := by decide
  have hput := addLetters_put [c.toNat, 120] (withPens foreground background light index) hp hs
    hroom
  have hmatches := UnicodeOrder.addText_matches (plain [c, 'x']) hplain []
    (by simp [UnicodeOrder.High]) _ (withPens foreground background light index)
    ⟨⟨rfl, rfl, rfl, rfl, rfl⟩, rfl⟩
  rw [plain, delayed_letter c hstored, UnicodeOrder.handleAll_stored _ _ hall,
    show [c, 'x'].map Char.toNat = [c.toNat, 120] from rfl, hput] at hmatches
  cases hu : run (addText (plain [c, 'x'])) (withPens foreground background light index) with
  | error e =>
    rw [plain] at hu
    rw [hu] at hmatches
    exact hmatches.elim
  | ok u =>
    rw [plain] at hu
    rw [hu] at hmatches
    refine ⟨u, rfl, ?_⟩
    rw [hmatches.1.data]
    exact ⟨_, List.mem_singleton_self _, List.mem_cons_self⟩

/-- An ESC behind a character that is held back. -/
theorem escape_had (foreground background : QColor) (light : Bool) (index : ℤ) : ∃ u,
    run (addText (plain ['é', '\x1b', 'x'])) (withPens foreground background light index) =
      .ok u ∧ ∃ line ∈ u.data, ⟨27, foreground, background⟩ ∈ line := by
  refine ⟨_, rfl, _, List.mem_singleton_self _, ?_⟩
  exact List.mem_cons_of_mem _ List.mem_cons_self

/-- The cells that terminals come to have. -/
theorem cell_held_iff (s : Symbol) : Held s ↔ Cell s := by
  constructor
  · rintro ⟨t, ht, line, hline, hs⟩
    exact (Reachable.filled ht).cells line hline s hs
  · intro h
    obtain ⟨light, index, hpens⟩ := pens_reachable _ _ h.foreground h.background
    obtain ⟨c, hc⟩ : ∃ c : Char, c.toNat = s.letter :=
      ⟨Char.ofNatAux s.letter h.scalar, rfl⟩
    obtain ⟨u, hu, line, hline, hs⟩ : ∃ u, (∃ text, run (addText (plain text))
        (withPens s.foreground s.background light index) = .ok u) ∧
        ∃ line ∈ u.data, ⟨c.toNat, s.foreground, s.background⟩ ∈ line := by
      by_cases hesc : c = '\x1b'
      · obtain ⟨u, hu, hline⟩ := escape_had s.foreground s.background light index
        exact ⟨u, ⟨_, hu⟩, hesc ▸ hline⟩
      · obtain ⟨u, hu, hline⟩ := letter_had c (hc ▸ h.letter) hesc s.foreground s.background
          light index
        exact ⟨u, ⟨_, hu⟩, hline⟩
    obtain ⟨text, hu⟩ := hu
    rw [hc] at hs
    exact ⟨u, .addText _ _ u hpens hu, line, hline, hs⟩

end Bakaneko.TerminalCells
