import Bakaneko.Intensity

/-!
# Inverse video

The code 7 exchanges the stored colours and later codes are meant for the
exchanged ones. The terminal is compared with one that is sent the same
codes without 7 and 27. The two agree up to the exchange as long as no code
meets a state in which the exchange is done twice, undone twice, or left out.
-/

set_option autoImplicit false

namespace Bakaneko.InverseVideo
open Bakaneko.Native Bakaneko.Terminal Bakaneko.SgrCodes Bakaneko.Intensity

def upright (c : Sgr) : Bool := c ≠ .inverse ∧ c ≠ .positive

/-- The sequences without 7 and 27; one that keeps no parameter is dropped. -/
def withoutInverse (p : List Group) : List Group :=
  p.filterMap fun g => if h : g.val.filter upright ≠ [] then some ⟨g.val.filter upright, h⟩ else none

/-- The last of 0, 7 and 27 is 7, by the codes so far, the latest first. -/
def lastInverse : List Sgr → Bool
  | [] => false
  | .inverse::_ => true
  | .positive::_ | .reset::_ => false
  | _::earlier => lastInverse earlier

/-- The colours are those without inverse video, exchanged behind a 7. -/
def InverseLaw (p : List Group) : Prop :=
  ∀ calls plain, Spells calls (text p) → Spells plain (text (withoutInverse p)) →
    ∃ t u, run (addTexts calls) init = .ok t ∧ run (addTexts plain) init = .ok u ∧
      (t.foreground, t.background) =
        if lastInverse (codesOf p).reverse then (u.background, u.foreground)
        else (u.foreground, u.background)

/-- What a code must find: the codes in front of it, the latest first, and the
colours they led to. -/
def Harmless (earlier : List Sgr) (s : Colours) : Sgr → Prop
  | .reset => True
  | .inverse => s.swaped = true → s.foreground = s.background
  | .positive => s.swaped = false → s.foreground = s.background
  | .bright => if s.swaped then
      s.foreground = brightColor s.index ∧ s.background = brightColor (lastHue earlier)
    else s.index = lastHue earlier
  | .dim => if s.swaped then
      s.foreground = darkColor s.index ∧ s.background = darkColor (lastHue earlier)
    else s.index = lastHue earlier
  | .foreground _ | .background _ => s.swaped = true → s.light = false
  | .defaultForeground | .defaultBackground => s.swaped = false
  | .brightForeground k | .brightBackground k =>
    s.swaped = true → s.foreground = brightColor k ∧ s.background = brightColor k

def AllHarmless : List Sgr → Colours → List Sgr → Prop
  | _, _, [] => True
  | earlier, s, c::codes => Harmless earlier s c ∧ AllHarmless (c::earlier) (s.step c) codes

/-- The colours with inverse video and without it. -/
structure Both where
  earlier : List Sgr
  shown : Colours
  plain : Colours

def Both.step (b : Both) (c : Sgr) : Both :=
  ⟨c::b.earlier, b.shown.step c, if upright c then b.plain.step c else b.plain⟩

def Both.run (codes : List Sgr) (b : Both) : Both := codes.foldl Both.step b

def Both.Law (b : Both) : Prop :=
  (b.shown.foreground, b.shown.background) =
    if lastInverse b.earlier then (b.plain.background, b.plain.foreground)
    else (b.plain.foreground, b.plain.background)

/-- What the two have in common besides the law. -/
structure Both.Joined (b : Both) : Prop where
  swaped : b.shown.swaped = lastInverse b.earlier
  plain : b.plain.swaped = false
  light : b.shown.light = b.plain.light
  index : b.plain.index = lastHue b.earlier

theorem upright_law (b : Both) (h : b.shown.swaped = false) (hj : b.Joined) :
    b.Law ↔ b.shown.foreground = b.plain.foreground ∧ b.shown.background = b.plain.background := by
  rw [Both.Law, ← hj.swaped, h]
  simp

theorem swaped_law (b : Both) (h : b.shown.swaped = true) (hj : b.Joined) :
    b.Law ↔ b.shown.foreground = b.plain.background ∧ b.shown.background = b.plain.foreground := by
  rw [Both.Law, ← hj.swaped, h]
  simp

theorem swaped_step (b : Both) (c : Sgr) (hj : b.Joined) :
    (b.step c).shown.swaped = lastInverse (b.step c).earlier := by
  have hs := hj.swaped
  cases c with
  | foreground k | background k | defaultForeground | defaultBackground =>
    simp only [Both.step, Colours.step, lastInverse]
    split <;> exact hs
  | reset | inverse | positive => rfl
  | bright | dim | brightForeground k | brightBackground k => exact hs

theorem plain_step (b : Both) (c : Sgr) (hj : b.Joined) :
    (b.step c).plain.swaped = false ∧ (b.step c).plain.index = lastHue (b.step c).earlier := by
  have hp := hj.plain
  have hi := hj.index
  cases c with
  | foreground k =>
    simp only [Both.step, upright, Colours.step, hp, lastHue]
    exact ⟨hp, rfl⟩
  | defaultForeground =>
    simp only [Both.step, upright, Colours.step, hp, lastHue]
    exact ⟨hp, rfl⟩
  | background k | defaultBackground =>
    simp only [Both.step, upright, Colours.step, hp, lastHue]
    exact ⟨hp, hi⟩
  | reset => exact ⟨rfl, rfl⟩
  | inverse | positive | bright | dim | brightForeground k | brightBackground k => exact ⟨hp, hi⟩

theorem light_step (b : Both) (c : Sgr) (hj : b.Joined) (h : Harmless b.earlier b.shown c) :
    (b.step c).shown.light = (b.step c).plain.light := by
  have hp := hj.plain
  have hl := hj.light
  cases c with
  | foreground k | background k =>
    simp only [Both.step, upright, Colours.step, hp]
    split <;> exact hl
  | defaultForeground | defaultBackground =>
    simp only [Harmless] at h
    simp only [Both.step, upright, Colours.step, hp, h]
    first | rfl | exact hl
  | reset | bright | dim => rfl
  | inverse | positive | brightForeground k | brightBackground k => exact hl

theorem joined_step (b : Both) (c : Sgr) (hj : b.Joined) (h : Harmless b.earlier b.shown c) :
    (b.step c).Joined :=
  ⟨swaped_step b c hj, (plain_step b c hj).1, light_step b c hj h, (plain_step b c hj).2⟩

/-- Colours that differ from entry to entry and between dark and bright. -/
theorem brightColor_inj (j k : Fin 8) : brightColor j = brightColor k ↔ j = k :=
  ⟨(colours_distinct j k).2.1, fun h => h ▸ rfl⟩

theorem darkColor_inj (j k : Fin 8) : darkColor j = darkColor k ↔ j = k :=
  ⟨(colours_distinct j k).1, fun h => h ▸ rfl⟩

/-- The law behind a code, in a state that is not exchanged. -/
theorem upright_exact (b : Both) (c : Sgr) (hj : b.Joined) (h : b.Law)
    (hs : b.shown.swaped = false) : (b.step c).Law ↔ Harmless b.earlier b.shown c := by
  obtain ⟨hfg, hbg⟩ := (upright_law b hs hj).mp h
  have hlast : lastInverse b.earlier = false := hj.swaped.symm.trans hs
  have hp := hj.plain
  have hl := hj.light
  have hi := hj.index
  cases c with
  | reset => simp [Both.Law, Both.step, upright, Colours.step, Harmless, lastInverse]
  | bright =>
    simp [Both.Law, Both.step, upright, Colours.step, Colours.setForeground, Harmless, lastInverse,
      hlast, hs, hbg, ← hi, brightColor_inj]
  | dim =>
    simp [Both.Law, Both.step, upright, Colours.step, Colours.setForeground, Harmless, lastInverse,
      hlast, hs, hbg, ← hi, darkColor_inj]
  | inverse =>
    simp [Both.Law, Both.step, upright, Colours.step, Colours.exchange, Harmless, lastInverse, hs,
      hfg, hbg]
  | positive =>
    simp [Both.Law, Both.step, upright, Colours.step, Colours.exchange, Harmless, lastInverse, hs,
      hfg, hbg, eq_comm]
  | foreground k =>
    simp [Both.Law, Both.step, upright, Colours.step, Colours.setForeground, Harmless, lastInverse,
      hlast, hs, hp, hl, hbg]
  | defaultForeground =>
    simp [Both.Law, Both.step, upright, Colours.step, Colours.resetForeground, Harmless,
      lastInverse, hlast, hs, hp, hbg]
  | background k =>
    simp [Both.Law, Both.step, upright, Colours.step, Colours.setBackground, Harmless,
      lastInverse, hlast, hs, hp, hfg]
  | defaultBackground =>
    simp [Both.Law, Both.step, upright, Colours.step, Colours.resetBackground, Harmless,
      lastInverse, hlast, hs, hp, hfg]
  | brightForeground k =>
    simp [Both.Law, Both.step, upright, Colours.step, Harmless, lastInverse, hlast, hs, hbg]
  | brightBackground k =>
    simp [Both.Law, Both.step, upright, Colours.step, Harmless, lastInverse, hlast, hs, hfg]

theorem dark_ne_bright (j k : Fin 8) : darkColor j ≠ brightColor k := (colours_distinct j k).2.2

/-- The law behind a code, in a state that is exchanged. -/
theorem swaped_exact (b : Both) (c : Sgr) (hj : b.Joined) (h : b.Law)
    (hs : b.shown.swaped = true) : (b.step c).Law ↔ Harmless b.earlier b.shown c := by
  obtain ⟨hfg, hbg⟩ := (swaped_law b hs hj).mp h
  have hlast : lastInverse b.earlier = true := hj.swaped.symm.trans hs
  have hp := hj.plain
  have hl := hj.light
  have hi := hj.index
  cases c with
  | reset => simp [Both.Law, Both.step, upright, Colours.step, Harmless, lastInverse]
  | bright =>
    simp [Both.Law, Both.step, upright, Colours.step, Colours.setForeground, Harmless, lastInverse,
      hlast, hs, hfg, ← hi, eq_comm]
  | dim =>
    simp [Both.Law, Both.step, upright, Colours.step, Colours.setForeground, Harmless, lastInverse,
      hlast, hs, hfg, ← hi, eq_comm]
  | inverse =>
    simp [Both.Law, Both.step, upright, Colours.step, Colours.exchange, Harmless, lastInverse, hs,
      hfg, hbg, eq_comm]
  | positive =>
    simp [Both.Law, Both.step, upright, Colours.step, Colours.exchange, Harmless, lastInverse, hs,
      hfg, hbg]
  | foreground k =>
    cases hlight : b.plain.light <;>
      simp [Both.Law, Both.step, upright, Colours.step, Colours.setForeground,
        Colours.setBackground, Harmless, lastInverse, hlast, hs, hp, hl, hlight, hfg,
        dark_ne_bright]
  | defaultForeground =>
    simp [Both.Law, Both.step, upright, Colours.step, Colours.resetForeground,
      Colours.resetBackground, Harmless, lastInverse, hlast, hs, hp, dark_ne_bright]
  | background k =>
    cases hlight : b.plain.light <;>
      simp [Both.Law, Both.step, upright, Colours.step, Colours.setForeground,
        Colours.setBackground, Harmless, lastInverse, hlast, hs, hp, hl, hlight, hbg,
        (dark_ne_bright k k).symm]
  | defaultBackground =>
    simp [Both.Law, Both.step, upright, Colours.step, Colours.resetForeground,
      Colours.resetBackground, Harmless, lastInverse, hlast, hs, hp, (dark_ne_bright _ _).symm]
  | brightForeground k =>
    simp [Both.Law, Both.step, upright, Colours.step, Harmless, lastInverse, hlast, hs, hfg, hbg,
      eq_comm]
  | brightBackground k =>
    simp [Both.Law, Both.step, upright, Colours.step, Harmless, lastInverse, hlast, hs, hfg, hbg,
      eq_comm]

theorem law_exact (b : Both) (c : Sgr) (hj : b.Joined) (h : b.Law) :
    (b.step c).Law ↔ Harmless b.earlier b.shown c := by
  cases hs : b.shown.swaped with
  | false => exact upright_exact b c hj h hs
  | true => exact swaped_exact b c hj h hs

/-- The law holds behind every beginning of the codes exactly when every code
finds what it needs. -/
theorem run_exact (codes : List Sgr) (b : Both) (hj : b.Joined) (h : b.Law) :
    (∀ part, part <+: codes → (b.run part).Law) ↔ AllHarmless b.earlier b.shown codes := by
  induction codes generalizing b with
  | nil =>
    refine iff_of_true (fun part hp => ?_) trivial
    rw [List.prefix_nil] at hp
    subst hp
    exact h
  | cons c codes ih =>
    constructor
    · intro hall
      have hc := (law_exact b c hj h).mp (hall [c] ⟨codes, rfl⟩)
      refine ⟨hc, (ih (b.step c) (joined_step b c hj hc) ((law_exact b c hj h).mpr hc)).mp ?_⟩
      exact fun part hp => hall (c::part) (List.prefix_cons_inj c |>.mpr hp)
    · rintro ⟨hc, hrest⟩ part hp
      have hnext := (ih (b.step c) (joined_step b c hj hc) ((law_exact b c hj h).mpr hc)).mpr hrest
      rcases List.prefix_cons_iff.mp hp with rfl | ⟨rest, rfl, hr⟩
      · exact h
      · exact hnext rest hr

def Both.start : Both := ⟨[], .start, .start⟩

theorem start_joined : Both.start.Joined := ⟨rfl, rfl, rfl, rfl⟩

theorem run_both (codes : List Sgr) : Both.start.run codes =
    ⟨codes.reverse, Colours.run codes .start, Colours.run (codes.filter upright) .start⟩ := by
  induction codes using List.reverseRecOn with
  | nil => rfl
  | append_singleton codes c ih =>
    have hlast : Both.start.run (codes++[c]) = (Both.start.run codes).step c := by
      simp [Both.run]
    rw [hlast, ih, List.filter_append, List.reverse_append, Both.step]
    cases hc : upright c <;> simp [Colours.run, hc]

theorem codesOf_without (p : List Group) :
    codesOf (withoutInverse p) = (codesOf p).filter upright := by
  induction p with
  | nil => rfl
  | cons g p ih =>
    have hcodes : codesOf (g::p) = g.val++codesOf p := rfl
    by_cases hg : g.val.filter upright ≠ []
    · have hw : withoutInverse (g::p) = ⟨g.val.filter upright, hg⟩::withoutInverse p := by
        rw [withoutInverse, List.filterMap_cons, dif_pos hg]
        rfl
      rw [hw, hcodes, List.filter_append, ← ih]
      rfl
    · have hw : withoutInverse (g::p) = withoutInverse p := by
        rw [withoutInverse, List.filterMap_cons, dif_neg hg]
        rfl
      rw [not_not] at hg
      rw [hw, hcodes, List.filter_append, hg, ih, List.nil_append]

/-- The law in terms of the colours alone. -/
theorem inverseLaw_colours (p : List Group) :
    InverseLaw p ↔ (Both.start.run (codesOf p)).Law := by
  rw [run_both, Both.Law, ← codesOf_without]
  constructor
  · intro h
    have hp := call_spells p fun _ => plainEnv
    have hw := call_spells (withoutInverse p) fun _ => plainEnv
    obtain ⟨t, u, ht, hu, hlaw⟩ := h _ _ hp hw
    have hti := run_idle p _ hp init t .start idle_init ht
    have hui := run_idle (withoutInverse p) _ hw init u .start idle_init hu
    rwa [hti.shows.foreground, hti.shows.background, hui.shows.foreground,
      hui.shows.background] at hlaw
  · intro h calls plain hc hw
    obtain ⟨t, ht, hti⟩ := text_shows p calls hc init .start idle_init
    obtain ⟨u, hu, hui⟩ := text_shows (withoutInverse p) plain hw init .start idle_init
    refine ⟨t, u, ht, hu, ?_⟩
    rwa [hti.shows.foreground, hti.shows.background, hui.shows.foreground, hui.shows.background]

theorem codesOf_single (codes : List Sgr) : codesOf (codes.flatMap one) = codes := by
  induction codes with
  | nil => rfl
  | cons c codes ih => exact congrArg (c::·) ih

/-- Inverse video is the exchange of the colours behind every beginning of a
sequence, in any grouping, exactly when every code finds what it needs. -/
theorem inverse_law (p : List Group) :
    (∀ q, codesOf q <+: codesOf p → InverseLaw q) ↔ AllHarmless [] .start (codesOf p) := by
  rw [← show Both.start.earlier = [] from rfl, ← show Both.start.shown = .start from rfl,
    ← run_exact (codesOf p) Both.start start_joined rfl]
  constructor
  · intro h part hp
    have hq := h (part.flatMap one) (by rwa [codesOf_single])
    rwa [inverseLaw_colours, codesOf_single] at hq
  · intro h q hq
    exact (inverseLaw_colours q).mpr (h (codesOf q) hq)

/-- A second 7 exchanges the colours back. -/
theorem inverse_twice : ¬ InverseLaw [⟨[.inverse], by simp⟩, ⟨[.inverse], by simp⟩] := by
  rw [inverseLaw_colours, Both.Law]
  decide

end Bakaneko.InverseVideo
