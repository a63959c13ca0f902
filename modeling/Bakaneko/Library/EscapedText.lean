import Mathlib.Data.List.Basic
import Mathlib.Tactic.Common

/-!
# Text with escapes

A mark announces that some of the characters behind it are a numeral that
stands for one character. Every other character stands for itself. Read from
the front, a text stands for at most one text.
-/

set_option autoImplicit false

namespace EscapedText

variable {α : Type*} (mark : List α) (numeral : List α → Option (α × ℕ))

/-- What a text stands for; `numeral` gives the character behind a mark and
the length of its numeral. -/
inductive StandsFor : List α → List α → Prop where
  | nil : StandsFor [] []
  | plain (c : α) (text raw : List α) : ¬ mark <+: c::text → StandsFor text raw →
      StandsFor (c::text) (c::raw)
  | escape (text : List α) (c : α) (n : ℕ) (raw : List α) : numeral text = some (c, n) →
      StandsFor (text.drop n) raw → StandsFor (mark++text) (c::raw)

variable {mark numeral}

theorem standsFor_nil (hm : mark ≠ []) (raw : List α) :
    StandsFor mark numeral [] raw ↔ raw = [] := by
  constructor
  · intro h
    generalize hs : ([] : List α) = s at h
    cases h with
    | nil => rfl
    | plain => cases hs
    | escape text => exact absurd (List.append_eq_nil_iff.mp hs.symm).1 hm
  · rintro rfl
    exact .nil

theorem standsFor_plain (c : α) (text raw : List α) (hc : ¬ mark <+: c::text) :
    StandsFor mark numeral (c::text) raw ↔ ∃ rest, raw = c::rest ∧ StandsFor mark numeral text rest := by
  constructor
  · intro h
    generalize hs : c::text = s at h
    cases h with
    | nil => cases hs
    | plain d text rest _ hrest =>
      cases hs
      exact ⟨rest, rfl, hrest⟩
    | escape text => exact absurd (hs ▸ List.prefix_append mark text) hc
  · rintro ⟨rest, rfl, h⟩
    exact .plain c text rest hc h

theorem standsFor_escape (hm : mark ≠ []) (text raw : List α) :
    StandsFor mark numeral (mark++text) raw ↔ ∃ c n rest, numeral text = some (c, n) ∧
      raw = c::rest ∧ StandsFor mark numeral (text.drop n) rest := by
  constructor
  · intro h
    generalize hs : mark++text = s at h
    cases h with
    | nil => exact absurd (List.append_eq_nil_iff.mp hs).1 hm
    | plain d text' rest hd => exact absurd (hs ▸ List.prefix_append mark text) hd
    | escape text' c n rest hn hrest =>
      cases List.append_cancel_left hs
      exact ⟨c, n, rest, hn, rfl, hrest⟩
  · rintro ⟨c, n, rest, hn, rfl, h⟩
    exact .escape text c n rest hn h

theorem standsFor_unique (hm : mark ≠ []) (s raw raw' : List α)
    (h : StandsFor mark numeral s raw) (h' : StandsFor mark numeral s raw') : raw = raw' := by
  induction h generalizing raw' with
  | nil => exact ((standsFor_nil hm raw').mp h').symm
  | plain c text raw hc _ ih =>
    obtain ⟨rest, rfl, hrest⟩ := (standsFor_plain c text raw' hc).mp h'
    rw [ih rest hrest]
  | escape text c n raw hn _ ih =>
    obtain ⟨c', n', rest, hn', rfl, hrest⟩ := (standsFor_escape hm text raw').mp h'
    cases hn.symm.trans hn'
    rw [ih rest hrest]

/-- With a numeral behind every mark a text stands for one. -/
theorem standsFor_exists (hm : mark ≠ []) (s : List α)
    (h : ∀ text, mark++text <:+ s → ∃ c n, numeral text = some (c, n)) :
    ∃ raw, StandsFor mark numeral s raw := by
  induction hn : s.length using Nat.strongRecOn generalizing s with
  | ind n ih =>
    cases s with
    | nil => exact ⟨[], .nil⟩
    | cons c text =>
      by_cases hc : mark <+: c::text
      · obtain ⟨text, ht⟩ := hc
        rw [← ht] at h hn ⊢
        obtain ⟨c, k, hk⟩ := h text List.suffix_rfl
        have hpos := List.length_pos_of_ne_nil hm
        have hsuffix : text.drop k <:+ mark++text :=
          (List.drop_suffix k text).trans (List.suffix_append mark text)
        rw [List.length_append] at hn
        obtain ⟨raw, hr⟩ := ih _ (by rw [List.length_drop]; omega) (text.drop k)
          (fun rest hrest => h rest (hrest.trans hsuffix)) rfl
        exact ⟨c::raw, .escape text c k raw hk hr⟩
      · obtain ⟨raw, hr⟩ := ih text.length (by rw [← hn]; exact Nat.lt_succ_self _) text
          (fun rest hrest => h rest (hrest.trans (List.suffix_cons c text))) rfl
        exact ⟨c::raw, .plain c text raw hc hr⟩

/-- Only the numerals behind the marks matter. -/
theorem StandsFor.congr {other : List α → Option (α × ℕ)} {s raw : List α}
    (h : StandsFor mark numeral s raw)
    (hsame : ∀ text, mark++text <:+ s → other text = numeral text) :
    StandsFor mark other s raw := by
  induction h with
  | nil => exact .nil
  | plain c text raw hc _ ih =>
    exact .plain c text raw hc (ih fun rest hr => hsame rest (hr.trans (List.suffix_cons c text)))
  | escape text c n raw hn _ ih =>
    refine .escape text c n raw ((hsame text List.suffix_rfl).trans hn) (ih fun rest hr => ?_)
    exact hsame rest (hr.trans ((List.drop_suffix n text).trans (List.suffix_append mark text)))

end EscapedText
