import Bakaneko.SgrCodes

/-!
# Intensity

The codes 1 and 2 show the entry of the palette that `foreground_index`
names, bright or dark. The index is that of the last code from 30 to 37, and
0 behind a reset, where the colour shown is entry 7. What the two codes do
to the colour shown depends on the codes in front of them alone.
-/

set_option autoImplicit false

namespace Bakaneko.Intensity
open Bakaneko.Native Bakaneko.Terminal Bakaneko.SgrCodes

/-- No inverse video. -/
def Upright (p : List Group) : Prop := ∀ c ∈ codesOf p, c ≠ .inverse ∧ c ≠ .positive

def one (c : Sgr) : List Group := [⟨[c], by simp⟩]

/-- Behind the codes, 1 and 2 keep the entry of the palette that is shown and
the background. -/
def HueLaw (p : List Group) : Prop :=
  ∀ calls brights dims, Spells calls (text p) → Spells brights (text (one .bright)) →
    Spells dims (text (one .dim)) →
    ∃ t u v, run (addTexts calls) init = .ok t ∧ run (addTexts brights) t = .ok u ∧
      run (addTexts dims) t = .ok v ∧
      ∀ k, t.foreground = darkColor k ∨ t.foreground = brightColor k →
        u.foreground = brightColor k ∧ u.background = t.background ∧
        v.foreground = darkColor k ∧ v.background = t.background

/-- The entry 1 and 2 show, by the codes so far, the latest first. -/
def lastHue : List Sgr → Fin 8
  | [] => Colours.start.index
  | .reset::_ | .defaultForeground::_ => Colours.start.index
  | .foreground k::_ => k
  | _::earlier => lastHue earlier

/-- The colour shown is of that entry: it was set by a code from 30 to 37, by
1 or 2, or by a code from 90 to 97 of the same entry. -/
def hueKept : List Sgr → Prop
  | [] => False
  | .reset::_ | .defaultForeground::_ => False
  | .foreground _::_ | .bright::_ | .dim::_ => True
  | .brightForeground k::earlier => k = lastHue earlier
  | _::earlier => hueKept earlier

theorem colours_distinct : ∀ j k : Fin 8, (darkColor j = darkColor k → j = k) ∧
    (brightColor j = brightColor k → j = k) ∧ darkColor j ≠ brightColor k := by
  decide

def OfEntry (k : Fin 8) (c : QColor) : Prop := c = darkColor k ∨ c = brightColor k

theorem entry_unique (j k : Fin 8) (c : QColor) (hj : OfEntry j c) (hk : OfEntry k c) : j = k := by
  obtain ⟨hdark, hbright, hne⟩ := colours_distinct j k
  rcases hj with rfl | rfl
  · exact hk.elim hdark fun h => absurd h hne
  · exact hk.elim (fun h => absurd h.symm (colours_distinct k j).2.2) hbright

theorem setForeground_entry (k : Fin 8) (s : Colours) :
    OfEntry k (s.setForeground k).foreground := by
  unfold OfEntry Colours.setForeground
  cases s.light <;> simp

/-- What the codes so far say about the colours. -/
structure Tracks (earlier : List Sgr) (s : Colours) : Prop where
  upright : s.swaped = false
  index : s.index = lastHue earlier
  entry : ∃ k, OfEntry k s.foreground ∧ (k = lastHue earlier ↔ hueKept earlier)

theorem start_index : (7 : Fin 8) ≠ Colours.start.index := by decide

theorem tracks_start : Tracks [] .start :=
  ⟨rfl, rfl, 7, .inr rfl, by simp [lastHue, hueKept, start_index]⟩

theorem tracks_step (earlier : List Sgr) (s : Colours) (c : Sgr) (hc : c ≠ .inverse ∧ c ≠ .positive)
    (h : Tracks earlier s) : Tracks (c::earlier) (s.step c) := by
  obtain ⟨hup, hindex, k, hk, hiff⟩ := h
  cases c with
  | reset => exact ⟨rfl, rfl, 7, .inr rfl, by simp [lastHue, hueKept, start_index]⟩
  | bright =>
    exact ⟨hup, hindex, s.index, setForeground_entry _ _, by simp [lastHue, hueKept, hindex]⟩
  | dim =>
    exact ⟨hup, hindex, s.index, setForeground_entry _ _, by simp [lastHue, hueKept, hindex]⟩
  | inverse => exact absurd rfl hc.1
  | positive => exact absurd rfl hc.2
  | foreground j =>
    rw [Colours.step, hup]
    exact ⟨hup, rfl, j, setForeground_entry j s, by simp [lastHue, hueKept]⟩
  | defaultForeground =>
    rw [Colours.step, hup]
    exact ⟨hup, rfl, 7, .inr rfl, by simp [lastHue, hueKept, start_index]⟩
  | background j =>
    rw [Colours.step, hup]
    exact ⟨hup, hindex, k, hk, hiff⟩
  | defaultBackground =>
    rw [Colours.step, hup]
    exact ⟨hup, hindex, k, hk, hiff⟩
  | brightForeground j => exact ⟨hup, hindex, j, .inr rfl, by simp [lastHue, hueKept]⟩
  | brightBackground j => exact ⟨hup, hindex, k, hk, hiff⟩

theorem tracks_run (codes : List Sgr) (hc : ∀ c ∈ codes, c ≠ .inverse ∧ c ≠ .positive) :
    Tracks codes.reverse (Colours.run codes .start) := by
  induction codes using List.reverseRecOn with
  | nil => exact tracks_start
  | append_singleton codes c ih =>
    rw [List.reverse_append, List.reverse_singleton, List.singleton_append, Colours.run,
      List.foldl_append]
    exact tracks_step _ _ c (hc c (by simp)) (ih fun d hd => hc d (by simp [hd]))

/-- The law in terms of the colours alone. -/
theorem hueLaw_colours (p : List Group) : HueLaw p ↔
    ∀ k, OfEntry k (Colours.run (codesOf p) .start).foreground →
      k = (Colours.run (codesOf p) .start).index := by
  have hone : ∀ c, codesOf (one c) = [c] := fun c => rfl
  constructor
  · intro h k hk
    have hp := call_spells p fun _ => plainEnv
    have hb := call_spells (one .bright) fun _ => plainEnv
    obtain ⟨t, u, v, ht, hu, -, hlaw⟩ := h _ _ _ hp hb (call_spells (one .dim) fun _ => plainEnv)
    have hti := run_idle p _ hp init t .start idle_init ht
    have hui := run_idle (one .bright) _ hb t u _ hti hu
    rw [← hti.shows.foreground] at hk
    have hbright := (hlaw k hk).1
    rw [hui.shows.foreground] at hbright
    exact ((colours_distinct _ _).2.1 hbright).symm
  · intro h calls brights dims hc hb hd
    obtain ⟨t, ht, hti⟩ := text_shows p calls hc init .start idle_init
    obtain ⟨u, hu, hui⟩ := text_shows (one .bright) brights hb t _ hti
    obtain ⟨v, hv, hvi⟩ := text_shows (one .dim) dims hd t _ hti
    refine ⟨t, u, v, ht, hu, hv, fun k hk => ?_⟩
    rw [hti.shows.foreground] at hk
    obtain rfl := h k hk
    exact ⟨hui.shows.foreground, hui.shows.background.trans hti.shows.background.symm,
      hvi.shows.foreground, hvi.shows.background.trans hti.shows.background.symm⟩

/-- Intensity keeps the entry of the palette exactly behind codes that left
the colour of the entry they name. -/
theorem hue_law (p : List Group) (hp : Upright p) : HueLaw p ↔ hueKept (codesOf p).reverse := by
  obtain ⟨-, hindex, k, hk, hiff⟩ := tracks_run (codesOf p) hp
  rw [hueLaw_colours, hindex, ← hiff]
  constructor
  · exact fun h => h k hk
  · rintro rfl j hj
    exact entry_unique j _ _ hj hk

theorem hue_law_red : HueLaw [⟨[.reset, .foreground 1, .brightBackground 4], by decide⟩] :=
  (hue_law _ (by unfold Upright; decide)).mpr trivial

/-- Bright behind a reset is the dark grey of entry 0, not the white shown. -/
theorem hue_lost : ¬ HueLaw (one .reset) := by
  rw [hueLaw_colours]
  intro h
  exact absurd (h 7 (.inr rfl)) (by decide)

end Bakaneko.Intensity
