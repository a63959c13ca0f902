import Bakaneko.TerminalSequences
import Bakaneko.Library.Utf8
import Mathlib.Data.List.TakeWhile

/-!
# Colour codes

The parameters of `m` that set colours, and what they do to the colours of
the terminal alone. A text of such sequences, however it is cut into calls
of `add_text`, leads the terminal to the colours its codes lead to.
-/

set_option autoImplicit false

namespace Bakaneko.SgrCodes
open Bakaneko.Native Bakaneko.Terminal Bakaneko.TerminalSequences PartialRun

inductive Sgr where
  | reset
  | bright
  | dim
  | inverse
  | positive
  | foreground (k : Fin 8)
  | defaultForeground
  | background (k : Fin 8)
  | defaultBackground
  | brightForeground (k : Fin 8)
  | brightBackground (k : Fin 8)
  deriving DecidableEq, Repr

def Sgr.value : Sgr → ℕ
  | .reset => 0
  | .bright => 1
  | .dim => 2
  | .inverse => 7
  | .positive => 27
  | .foreground k => 30+k
  | .defaultForeground => 39
  | .background k => 40+k
  | .defaultBackground => 49
  | .brightForeground k => 90+k
  | .brightBackground k => 100+k

def darkColor (k : Fin 8) : QColor := (colorPalate.get k).1

def brightColor (k : Fin 8) : QColor := (colorPalate.get k).2

/-- The colours of the terminal, the index inside the palette. -/
structure Colours where
  foreground : QColor
  background : QColor
  light : Bool
  swaped : Bool
  index : Fin 8
  deriving DecidableEq, Repr

namespace Colours

def start : Colours := ⟨brightColor 7, darkColor 0, true, false, 0⟩

def setForeground (k : Fin 8) (s : Colours) : Colours :=
  { s with foreground := if s.light then brightColor k else darkColor k, index := k }

def setBackground (k : Fin 8) (s : Colours) : Colours := { s with background := darkColor k }

def resetForeground (s : Colours) : Colours :=
  { s with foreground := brightColor 7, index := 0, light := true }

def resetBackground (s : Colours) : Colours := { s with background := darkColor 0 }

def exchange (swaped : Bool) (s : Colours) : Colours :=
  { s with foreground := s.background, background := s.foreground, swaped := swaped }

def step (s : Colours) : Sgr → Colours
  | .reset => start
  | .bright => setForeground s.index { s with light := true }
  | .dim => setForeground s.index { s with light := false }
  | .inverse => exchange true s
  | .positive => exchange false s
  | .foreground k => if s.swaped then setBackground k s else setForeground k s
  | .defaultForeground => if s.swaped then resetBackground s else resetForeground s
  | .background k => if s.swaped then setForeground k s else setBackground k s
  | .defaultBackground => if s.swaped then resetForeground s else resetBackground s
  | .brightForeground k => { s with foreground := brightColor k }
  | .brightBackground k => { s with background := brightColor k }

def run (codes : List Sgr) (s : Colours) : Colours := codes.foldl step s

end Colours

/-- The terminal has these colours. -/
structure Shows (t : Linux) (s : Colours) : Prop where
  foreground : t.foreground = s.foreground
  background : t.background = s.background
  light : t.light = s.light
  swaped : t.swaped = s.swaped
  index : t.foregroundIndex = (s.index.val:ℤ)

/-- Nothing but colours differs. -/
structure SameElse (t u : Linux) : Prop where
  commandBuffer : u.commandBuffer = t.commandBuffer
  linesAdded : u.linesAdded = t.linesAdded

theorem palate_entry (k : Fin 8) : palate (k.val:ℤ) = .ok (colorPalate.get k) := by
  revert k
  decide

theorem reset_shows (t : Linux) (s : Colours) (h : Shows t s) :
    Shows (Terminal.reset 1 t) s.resetForeground ∧ Shows (Terminal.reset 2 t) s.resetBackground ∧
      Shows (Terminal.reset 3 t) .start :=
  ⟨⟨rfl, h.background, rfl, h.swaped, rfl⟩, ⟨h.foreground, rfl, h.light, h.swaped, h.index⟩,
    ⟨rfl, rfl, rfl, rfl, rfl⟩⟩

theorem sgrCode_split (group color : ℕ) (hg : group%10 = 0) (hc : color < 10) (t : Linux) :
    sgrCode ((group+color:ℕ):ℤ) t =
      sgrColor (sgrAttribute (swapGroup t group) color t).1
        (sgrAttribute (swapGroup t group) color t).2.1
        (sgrAttribute (swapGroup t group) color t).2.2 := by
  have hmod : ((group+color:ℕ):ℤ).tmod 10 = (color:ℤ) := by
    rw [Int.tmod_eq_emod_of_nonneg (by omega)]
    omega
  have hgroup : ((group+color:ℕ):ℤ)-(color:ℤ) = (group:ℤ) := by omega
  rw [sgrCode, hmod, hgroup]

theorem sgrColor_foreground (k : Fin 8) (t : Linux) :
    sgrColor 30 (k.val:ℤ) t = .ok (false, { t with
      foreground := if t.light then brightColor k else darkColor k
      foregroundIndex := (k.val:ℤ) }) := by
  have hk := k.isLt
  rw [sgrColor, if_neg (by decide), if_pos rfl, if_neg (by omega), if_neg (by omega),
    Terminal.setForeground, palate_entry]
  rfl

theorem sgrColor_background (k : Fin 8) (t : Linux) :
    sgrColor 40 (k.val:ℤ) t = .ok (false, { t with background := darkColor k }) := by
  have hk := k.isLt
  rw [sgrColor, if_neg (by decide), if_neg (by decide), if_pos rfl, if_neg (by omega),
    if_neg (by omega), setColor, palate_entry]
  rfl

theorem sgrColor_brightForeground (k : Fin 8) (t : Linux) :
    sgrColor 90 (k.val:ℤ) t = .ok (false, { t with foreground := brightColor k }) := by
  rw [sgrColor, if_neg (by decide), if_neg (by decide), if_neg (by decide), if_pos rfl, setColor,
    palate_entry]
  rfl

theorem sgrColor_brightBackground (k : Fin 8) (t : Linux) :
    sgrColor 100 (k.val:ℤ) t = .ok (false, { t with background := brightColor k }) := by
  rw [sgrColor, if_neg (by decide), if_neg (by decide), if_neg (by decide), if_neg (by decide),
    if_pos rfl, setColor, palate_entry]
  rfl

/-- A code leads from colours to the colours it makes of them. -/
def Leads (c : Sgr) (t : Linux) (s : Colours) : Prop :=
  ∃ u, sgrCode (c.value:ℤ) t = .ok (false, u) ∧ Shows u (s.step c) ∧ SameElse t u

/-- A result is a terminal of these colours, else the one before. -/
def Gives (r : Except Fault (Bool × Linux)) (t : Linux) (s : Colours) : Prop :=
  ∃ u, r = .ok (false, u) ∧ Shows u s ∧ SameElse t u

theorem foreground_gives (k : Fin 8) (t : Linux) (s : Colours) (h : Shows t s) :
    Gives (sgrColor 30 (k.val:ℤ) t) t (s.setForeground k) :=
  ⟨_, sgrColor_foreground k t,
    ⟨by simp [Colours.setForeground, h.light], h.background, h.light, h.swaped, rfl⟩, ⟨rfl, rfl⟩⟩

theorem background_gives (k : Fin 8) (t : Linux) (s : Colours) (h : Shows t s) :
    Gives (sgrColor 40 (k.val:ℤ) t) t (s.setBackground k) :=
  ⟨_, sgrColor_background k t, ⟨h.foreground, rfl, h.light, h.swaped, h.index⟩, ⟨rfl, rfl⟩⟩

theorem default_gives (t : Linux) (s : Colours) (h : Shows t s) :
    Gives (sgrColor 30 9 t) t s.resetForeground ∧ Gives (sgrColor 40 9 t) t s.resetBackground := by
  obtain ⟨hr1, hr2, -⟩ := reset_shows t s h
  exact ⟨⟨_, rfl, hr1, ⟨rfl, rfl⟩⟩, ⟨_, rfl, hr2, ⟨rfl, rfl⟩⟩⟩

/-- Where the colours are exchanged, so are the groups of the two. -/
theorem swapGroup_swaped (t : Linux) (s : Colours) (h : Shows t s) :
    swapGroup t (30:ℕ) = (if s.swaped then 40 else 30) ∧
      swapGroup t (40:ℕ) = (if s.swaped then 30 else 40) := by
  rw [swapGroup, swapGroup, h.swaped]
  exact ⟨rfl, rfl⟩

theorem foreground_leads (k : Fin 8) (t : Linux) (s : Colours) (h : Shows t s) :
    Leads (.foreground k) t s := by
  have hk := k.isLt
  have hsplit := sgrCode_split 30 k.val (by decide) (by omega) t
  rw [(swapGroup_swaped t s h).1] at hsplit
  change Gives (sgrCode ((30+k.val:ℕ):ℤ) t) t _
  rw [hsplit, Colours.step]
  cases s.swaped with
  | false => exact foreground_gives k t s h
  | true => exact background_gives k t s h

theorem background_leads (k : Fin 8) (t : Linux) (s : Colours) (h : Shows t s) :
    Leads (.background k) t s := by
  have hk := k.isLt
  have hsplit := sgrCode_split 40 k.val (by decide) (by omega) t
  rw [(swapGroup_swaped t s h).2] at hsplit
  change Gives (sgrCode ((40+k.val:ℕ):ℤ) t) t _
  rw [hsplit, Colours.step]
  cases s.swaped with
  | false => exact background_gives k t s h
  | true => exact foreground_gives k t s h

theorem default_leads (t : Linux) (s : Colours) (h : Shows t s) :
    Leads .defaultForeground t s ∧ Leads .defaultBackground t s := by
  obtain ⟨hf, hb⟩ := default_gives t s h
  have h39 := sgrCode_split 30 9 (by decide) (by decide) t
  have h49 := sgrCode_split 40 9 (by decide) (by decide) t
  rw [(swapGroup_swaped t s h).1] at h39
  rw [(swapGroup_swaped t s h).2] at h49
  change Gives (sgrCode ((30+9:ℕ):ℤ) t) t _ ∧ Gives (sgrCode ((40+9:ℕ):ℤ) t) t _
  rw [h39, h49, Colours.step, Colours.step]
  cases s.swaped with
  | false => exact ⟨hf, hb⟩
  | true => exact ⟨hb, hf⟩

theorem swapGroup_other (t : Linux) (group : ℤ) (h : group ≠ 30 ∧ group ≠ 40) :
    swapGroup t group = group := by
  rw [swapGroup, if_neg h.1, if_neg h.2, ite_self]

theorem bright_leads (k : Fin 8) (t : Linux) (s : Colours) (h : Shows t s) :
    Leads (.brightForeground k) t s ∧ Leads (.brightBackground k) t s := by
  have hk := k.isLt
  have h90 := sgrCode_split 90 k.val (by decide) (by omega) t
  have h100 := sgrCode_split 100 k.val (by decide) (by omega) t
  rw [swapGroup_other t (90:ℕ) (by decide)] at h90
  rw [swapGroup_other t (100:ℕ) (by decide)] at h100
  exact ⟨⟨_, h90.trans (sgrColor_brightForeground k t),
      ⟨rfl, h.background, h.light, h.swaped, h.index⟩, ⟨rfl, rfl⟩⟩,
    ⟨_, h100.trans (sgrColor_brightBackground k t),
      ⟨h.foreground, rfl, h.light, h.swaped, h.index⟩, ⟨rfl, rfl⟩⟩⟩

theorem intensity_leads (t : Linux) (s : Colours) (h : Shows t s) :
    Leads .bright t s ∧ Leads .dim t s := by
  have h1 := sgrCode_split 0 1 (by decide) (by decide) t
  have h2 := sgrCode_split 0 2 (by decide) (by decide) t
  rw [swapGroup_other t (0:ℕ) (by decide)] at h1 h2
  have hb : sgrAttribute (0:ℕ) (1:ℕ) t = (30, (s.index.val:ℤ), { t with light := true }) := by
    rw [← h.index]
    rfl
  have hd : sgrAttribute (0:ℕ) (2:ℕ) t = (30, (s.index.val:ℤ), { t with light := false }) := by
    rw [← h.index]
    rfl
  rw [hb] at h1
  rw [hd] at h2
  exact ⟨⟨_, h1.trans (sgrColor_foreground s.index _),
      ⟨rfl, h.background, rfl, h.swaped, rfl⟩, ⟨rfl, rfl⟩⟩,
    ⟨_, h2.trans (sgrColor_foreground s.index _),
      ⟨rfl, h.background, rfl, h.swaped, rfl⟩, ⟨rfl, rfl⟩⟩⟩

theorem attribute_leads (t : Linux) (s : Colours) (h : Shows t s) :
    Leads .reset t s ∧ Leads .inverse t s ∧ Leads .positive t s := by
  have h0 := sgrCode_split 0 0 (by decide) (by decide) t
  have h7 := sgrCode_split 0 7 (by decide) (by decide) t
  have h27 := sgrCode_split 20 7 (by decide) (by decide) t
  rw [swapGroup_other t (0:ℕ) (by decide)] at h0 h7
  rw [swapGroup_other t (20:ℕ) (by decide)] at h27
  exact ⟨⟨_, h0, (reset_shows t s h).2.2, ⟨rfl, rfl⟩⟩,
    ⟨_, h7, ⟨h.background, h.foreground, h.light, rfl, h.index⟩, ⟨rfl, rfl⟩⟩,
    ⟨_, h27, ⟨h.background, h.foreground, h.light, rfl, h.index⟩, ⟨rfl, rfl⟩⟩⟩

theorem code_leads (c : Sgr) (t : Linux) (s : Colours) (h : Shows t s) : Leads c t s := by
  cases c with
  | reset => exact (attribute_leads t s h).1
  | bright => exact (intensity_leads t s h).1
  | dim => exact (intensity_leads t s h).2
  | inverse => exact (attribute_leads t s h).2.1
  | positive => exact (attribute_leads t s h).2.2
  | foreground k => exact foreground_leads k t s h
  | defaultForeground => exact (default_leads t s h).1
  | background k => exact background_leads k t s h
  | defaultBackground => exact (default_leads t s h).2
  | brightForeground k => exact (bright_leads k t s h).1
  | brightBackground k => exact (bright_leads k t s h).2

/-- A nonempty sequence of codes. -/
abbrev Group := {codes : List Sgr // codes ≠ []}

def fields (codes : List Sgr) : Bytes := [59].intercalate (codes.map fun c => numeral c.value)

/-- `ESC [`, the codes with semicolons between them, and `m`. -/
def sequence (g : Group) : Bytes := 27::91::(fields g.val++[109])

def text (p : List Group) : Bytes := p.flatMap sequence

def codesOf (p : List Group) : List Sgr := p.flatMap Subtype.val

/-- The calls of `add_text` bring this text, cut anywhere. -/
def Spells (calls : List Call) (s : Bytes) : Prop :=
  calls.flatMap (fun call => input call.text) = s

theorem value_small (c : Sgr) : c.value < 108 := by
  cases c with
  | foreground k | background k | brightForeground k | brightBackground k =>
    have := k.isLt
    simp only [Sgr.value]
    omega
  | _ => decide

/-- A numeral in front of something else is read to its end. -/
theorem stoi_digits (ds rest : Bytes) (c : UInt8) (hne : ds ≠ []) (hd : ds.all isdigit = true)
    (hc : isdigit c = false) (hv : digitsValue ds < 2147483648) :
    stoi (ds++c::rest) = .ok ((digitsValue ds:ℤ), ds.length) := by
  rw [stoi, strtol_digits ds rest c hne (List.all_eq_true.mp hd) hc]
  dsimp only
  rw [if_pos (by omega)]

theorem sgrLoop_skip (many : Bool) (s rest : Bytes) (t : Linux) :
    sgrLoop many s.length (s++rest) t = sgrLoop many 0 rest t := by
  induction s with
  | nil => rfl
  | cons c s ih => exact ih

/-- One field and the byte behind it. -/
theorem sgrLoop_code (c : Sgr) (stop : UInt8) (rest : Bytes) (t u : Linux)
    (hstop : isdigit stop = false) (h : sgrCode (c.value:ℤ) t = .ok (false, u)) :
    sgrLoop true 0 (numeral c.value++stop::rest) t = sgrLoop true 0 rest u := by
  obtain ⟨hne, hd, hv⟩ := numeral_digits c.value
  have hsmall := value_small c
  have hstoi := stoi_digits (numeral c.value) rest stop hne hd hstop (by omega)
  rw [hv] at hstoi
  cases hds : numeral c.value with
  | nil => exact absurd hds hne
  | cons d ds =>
    rw [hds] at hstoi
    have hskip := sgrLoop_skip true (ds++[stop]) rest u
    rw [List.append_assoc, List.singleton_append, List.length_append, List.length_singleton] at hskip
    rw [List.cons_append] at hstoi ⊢
    rw [sgrLoop, if_pos rfl, stoiFault, hstoi]
    simp only [Except.mapError, h, List.length_cons]
    exact hskip

theorem sgrLoop_leads (c : Sgr) (codes : List Sgr) (t : Linux) (s : Colours) (h : Shows t s) :
    ∃ u, sgrLoop true 0 (fields (c::codes)++[109]) t = .ok u ∧
      Shows u (Colours.run (c::codes) s) ∧ SameElse t u := by
  induction codes generalizing c t s with
  | nil =>
    obtain ⟨u, hu, hshows, hsame⟩ := code_leads c t s h
    refine ⟨u, ?_, hshows, hsame⟩
    rw [fields, List.map_singleton, List.intercalate_singleton,
      sgrLoop_code c 109 [] t u (by decide) hu]
    rfl
  | cons d codes ih =>
    obtain ⟨u, hu, hshows, hsame⟩ := code_leads c t s h
    obtain ⟨v, hv, hshows', hsame'⟩ := ih d u (s.step c) hshows
    refine ⟨v, ?_, hshows', ⟨hsame'.1.trans hsame.1, hsame'.2.trans hsame.2⟩⟩
    have hfields : fields (c::d::codes)++[109] =
        numeral c.value++59::(fields (d::codes)++[109]) := by
      simp [fields, List.intercalate_cons_cons]
    rw [hfields, sgrLoop_code c 59 _ t u (by decide) hu]
    exact hv

def eventBytes : Event → Bytes
  | .letter _ c => [c]
  | .finish _ => []

/-- These bytes lead from `t` to `u`, however the calls cut them. -/
def Goes (s : Bytes) (t u : Linux) : Prop :=
  ∀ events : List Event, events.flatMap eventBytes = s → Terminal.run events t = .ok u

theorem finish_quiet (env : Env) (t : Linux) (h : t.linesAdded = false) :
    step (.finish env) t = .ok t := by
  rw [step, h]
  simp only [Bool.false_eq_true, if_false]
  rw [← h]

theorem goes_nil (t : Linux) (h : t.linesAdded = false) : Goes [] t t := by
  intro events he
  induction events with
  | nil => rfl
  | cons event events ih =>
    cases event with
    | letter env c => simp [eventBytes] at he
    | finish env =>
      rw [Terminal.run, PartialRun.run, finish_quiet env t h]
      exact ih he

theorem goes_cons (c : UInt8) (s : Bytes) (t u v : Linux) (h : t.linesAdded = false)
    (hfeed : ∀ env, feed env c t = .ok u) (hs : Goes s u v) : Goes (c::s) t v := by
  intro events he
  induction events with
  | nil => cases he
  | cons event events ih =>
    cases event with
    | letter env d =>
      rw [List.flatMap_cons, eventBytes, List.singleton_append, List.cons.injEq] at he
      obtain ⟨rfl, he⟩ := he
      rw [Terminal.run, PartialRun.run, step, hfeed env]
      exact hs events he
    | finish env =>
      rw [Terminal.run, PartialRun.run, finish_quiet env t h]
      exact ih he

/-- What an escape sequence collects. -/
def collected (s : Bytes) (t : Linux) : Linux := { t with commandBuffer := t.commandBuffer++s }

theorem goes_collected (s rest : Bytes) (t v : Linux) (h : t.linesAdded = false)
    (hb : t.commandBuffer.head? = some 27) (hs : ∀ c ∈ s, isalpha c = false)
    (hrest : Goes rest (collected s t) v) : Goes (s++rest) t v := by
  induction s generalizing t with
  | nil =>
    rw [collected, List.append_nil] at hrest
    exact hrest
  | cons c s ih =>
    have hc := hs c List.mem_cons_self
    refine goes_cons c (s++rest) t (append c t) v h (fun env => ?_) (ih (append c t) h ?_ ?_ ?_)
    · rw [feed, if_pos hb, hc]
      rfl
    · rw [append, List.head?_append, hb]
      rfl
    · exact fun d hd => hs d (List.mem_cons_of_mem c hd)
    · have happ : collected s (append c t) = collected (c::s) t := by
        simp [collected, append]
      rwa [happ]

/-- Fields are digits and semicolons. -/
theorem fields_forall (P : UInt8 → Prop) (hdigit : ∀ d, isdigit d = true → P d) (hstop : P 59)
    (codes : List Sgr) : ∀ c ∈ fields codes, P c := by
  induction codes with
  | nil => simp [fields]
  | cons c codes ih =>
    have hc : ∀ d ∈ numeral c.value, P d := fun d hd =>
      hdigit d (List.all_eq_true.mp (numeral_digits c.value).2.1 d hd)
    cases codes with
    | nil => simpa [fields] using hc
    | cons d codes =>
      intro b hb
      rw [fields, List.map_cons, List.map_cons, List.intercalate_cons_cons, List.mem_append,
        List.mem_append, List.mem_singleton] at hb
      rcases hb with (hb | rfl) | hb
      · exact hc b hb
      · exact hstop
      · exact ih b hb

theorem fields_plain (codes : List Sgr) : ∀ c ∈ fields codes, isalpha c = false :=
  fields_forall _ (fun d hd => (digit_plain d hd).2.2.2) (by decide) codes

theorem fields_ne (c : Sgr) (codes : List Sgr) : fields (c::codes) ≠ [] := by
  have hne := (numeral_digits c.value).1
  cases codes with
  | nil => simpa [fields] using hne
  | cons d codes => simp [fields, List.intercalate_cons_cons]

/-- The buffer of a sequence is parsed as its codes. -/
theorem parse_leads (g : Group) (t : Linux) (s : Colours) (h : Shows t s) :
    ∃ u, (∀ env, parseBuffer env (91::(fields g.val++[109])) t = .ok u) ∧
      Shows u (Colours.run g.val s) ∧ SameElse t u := by
  obtain ⟨codes, hne⟩ := g
  cases codes with
  | nil => exact absurd rfl hne
  | cons c codes =>
    obtain ⟨u, hu, hshows, hsame⟩ := sgrLoop_leads c codes t s h
    refine ⟨u, fun env => ?_, hshows, hsame⟩
    have hlast : (91::(fields (c::codes)++[109])).getLast? = some 109 := by
      rw [List.getLast?_cons, List.getLast?_append]
      rfl
    have hback : back (91::(fields (c::codes)++[109])) = .m := by
      rw [back, if_neg, hlast]
      · rfl
      · rintro (he | he) <;> rw [he] at hlast <;> exact absurd hlast (by decide)
    have hmany : decide (1 < (fields (c::codes)++[109]).length) = true := by
      have := List.length_pos_iff.mpr (fields_ne c codes)
      rw [decide_eq_true_eq, List.length_append, List.length_singleton]
      omega
    rw [parseBuffer, List.head?_cons, if_pos rfl, hback]
    dsimp only
    rw [parseM, List.drop_one, List.tail_cons, hmany]
    exact hu

/-- Between two sequences. -/
structure Idle (t : Linux) (s : Colours) : Prop where
  shows : Shows t s
  buffer : t.commandBuffer = []
  quiet : t.linesAdded = false

theorem feed_escape (env : Env) (t : Linux) (h : t.commandBuffer = []) :
    feed env 27 t = .ok (append 27 t) := by
  rw [feed, h]
  rfl

/-- The last byte of a sequence has it parsed. -/
theorem feed_final (env : Env) (b : Bytes) (t u : Linux) (hb : t.commandBuffer = 27::b)
    (h : parseBuffer env (b++[109]) t = .ok u) :
    feed env 109 t = .ok { u with commandBuffer := [] } := by
  rw [feed, hb, if_pos (by rfl), if_pos (by decide), List.cons_append, List.drop_one,
    List.tail_cons, h]
  rfl

theorem sequence_goes (g : Group) (t : Linux) (s : Colours) (h : Idle t s) :
    ∃ u, Idle u (Colours.run g.val s) ∧
      ∀ rest v, Goes rest u v → Goes (sequence g++rest) t v := by
  have hbuffer : (append 27 t).commandBuffer = [27] := by
    rw [append, h.buffer]
    rfl
  have hcollected : (collected (91::fields g.val) (append 27 t)).commandBuffer =
      27::91::fields g.val := by
    rw [collected, hbuffer]
    rfl
  obtain ⟨u, hu, hshows, hsame⟩ := parse_leads g (collected (91::fields g.val) (append 27 t)) s
    ⟨h.shows.1, h.shows.2, h.shows.3, h.shows.4, h.shows.5⟩
  refine ⟨{ u with commandBuffer := [] }, ⟨⟨hshows.1, hshows.2, hshows.3, hshows.4, hshows.5⟩, rfl,
    hsame.linesAdded.trans h.quiet⟩, fun rest v hrest => ?_⟩
  have hfinal := goes_cons 109 rest (collected (91::fields g.val) (append 27 t)) _ v h.quiet
    (fun env => feed_final env (91::fields g.val) _ u hcollected (hu env)) hrest
  have hplain : ∀ c ∈ 91::fields g.val, isalpha c = false :=
    List.forall_mem_cons.mpr ⟨by decide, fields_plain g.val⟩
  have hbody := goes_collected (91::fields g.val) (109::rest) (append 27 t) v h.quiet
    (by rw [hbuffer]; rfl) hplain hfinal
  have htext : sequence g++rest = 27::((91::fields g.val)++109::rest) := by
    simp [sequence]
  rw [htext]
  exact goes_cons 27 _ t (append 27 t) v h.quiet (fun env => feed_escape env t h.buffer) hbody

theorem text_goes (p : List Group) (t : Linux) (s : Colours) (h : Idle t s) :
    ∃ u, Idle u (Colours.run (codesOf p) s) ∧ Goes (text p) t u := by
  induction p generalizing t s with
  | nil => exact ⟨t, h, goes_nil t h.quiet⟩
  | cons g p ih =>
    obtain ⟨u, hu, hgoes⟩ := sequence_goes g t s h
    obtain ⟨v, hv, hrest⟩ := ih u _ hu
    refine ⟨v, ?_, hgoes _ v hrest⟩
    rw [codesOf, List.flatMap_cons, Colours.run, List.foldl_append]
    exact hv

theorem letters_bytes (s : Bytes) (env : ℕ → Env) :
    (s.mapIdx fun i c => Event.letter (env i) c).flatMap eventBytes = s := by
  induction s generalizing env with
  | nil => rfl
  | cons c s ih =>
    rw [List.mapIdx_cons, List.flatMap_cons, ih fun i => env (i+1)]
    rfl

theorem addTexts_bytes (calls : List Call) :
    (addTexts calls).flatMap eventBytes = calls.flatMap fun call => input call.text := by
  rw [addTexts, List.flatMap_assoc]
  congr 1
  funext call
  rw [addText, List.flatMap_append, letters_bytes]
  simp [eventBytes]

theorem idle_init : Idle init .start := ⟨⟨rfl, rfl, rfl, rfl, rfl⟩, rfl, rfl⟩

/-- The colours of a terminal behind a text of colour codes. -/
theorem text_shows (p : List Group) (calls : List Call) (h : Spells calls (text p)) (t : Linux)
    (s : Colours) (ht : Idle t s) :
    ∃ u, Terminal.run (addTexts calls) t = .ok u ∧ Idle u (Colours.run (codesOf p) s) := by
  obtain ⟨u, hu, hgoes⟩ := text_goes p t s ht
  exact ⟨u, hgoes _ ((addTexts_bytes calls).trans h), hu⟩

/-- Every terminal that comes of the text has these colours. -/
theorem run_idle (p : List Group) (calls : List Call) (h : Spells calls (text p)) (t u : Linux)
    (s : Colours) (ht : Idle t s) (hu : Terminal.run (addTexts calls) t = .ok u) :
    Idle u (Colours.run (codesOf p) s) := by
  obtain ⟨v, hv, hvi⟩ := text_shows p calls h t s ht
  obtain rfl : v = u := Except.ok.inj (hv.symm.trans hu)
  exact hvi

/-- The call that brings a text of codes at once. -/
def call (p : List Group) (env : ℕ → Env) : Call :=
  ⟨(text p).map fun c => Char.ofNat c.toNat, env⟩

def Ascii (c : UInt8) : Prop := 1 ≤ c ∧ c < 128

theorem encode_ascii (c : UInt8) (hc : Ascii c) :
    String.utf8EncodeChar (Char.ofNat c.toNat) = [c] ∧ c ≠ 0 := by
  have henc := (Utf8.encodeChar_ascii c.toNat (UInt8.lt_iff_toNat_lt.mp hc.2)).1
  rw [UInt8.ofNat_toNat] at henc
  refine ⟨henc, ?_⟩
  rintro rfl
  exact absurd hc.1 (by decide)

theorem input_ascii (s : Bytes) (h : ∀ c ∈ s, Ascii c) :
    input (s.map fun c => Char.ofNat c.toNat) = s := by
  have henc : (s.map fun c => Char.ofNat c.toNat).flatMap String.utf8EncodeChar = s := by
    induction s with
    | nil => rfl
    | cons c s ih =>
      rw [List.map_cons, List.flatMap_cons, (encode_ascii c (h c List.mem_cons_self)).1,
        ih fun d hd => h d (List.mem_cons_of_mem c hd)]
      rfl
  rw [input, henc]
  apply List.takeWhile_eq_self_iff.mpr
  intro c hc
  exact decide_eq_true (encode_ascii c (h c hc)).2

theorem digit_ascii (d : UInt8) (hd : isdigit d = true) : Ascii d :=
  ⟨UInt8.le_trans (by decide) (digit_printable d hd).1, (digit_printable d hd).2⟩

theorem fields_ascii (codes : List Sgr) : ∀ c ∈ fields codes, Ascii c :=
  fields_forall _ digit_ascii ⟨by decide, by decide⟩ codes

theorem call_spells (p : List Group) (env : ℕ → Env) : Spells [call p env] (text p) := by
  have hall : ∀ c ∈ text p, Ascii c := by
    intro c hc
    obtain ⟨g, -, hg⟩ := List.mem_flatMap.mp hc
    rw [sequence, List.mem_cons, List.mem_cons, List.mem_append, List.mem_singleton] at hg
    rcases hg with rfl | rfl | hg | rfl
    · exact ⟨by decide, by decide⟩
    · exact ⟨by decide, by decide⟩
    · exact fields_ascii g.val c hg
    · exact ⟨by decide, by decide⟩
  rw [Spells, List.flatMap_singleton, call, input_ascii (text p) hall]

example : text [⟨[.bright, .foreground 1], by decide⟩] = bytes "\x1b[1;31m" := by decide

end Bakaneko.SgrCodes
