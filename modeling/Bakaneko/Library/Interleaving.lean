import Bakaneko.Library.PartialRun

/-!
# Parts of a system that runs interleaved

A system consists of parts, and each input belongs to one of them or to none.
A part runs its own inputs in the run of the whole as it would alone, however
the others' inputs lie between them, once the others' steps leave it alone.
-/

set_option autoImplicit false

namespace PartialRun

variable {ι κ σ τ ε : Type*} (step : ι → σ → Except ε σ) (own : ι → Option κ)
variable (step₂ : κ → τ → Except ε τ) (Sees : σ → τ → Prop)

/-- What one step does to a part. -/
structure Apart : Prop where
  mine : ∀ i k s s' t, own i = some k → Sees s t → step i s = .ok s' →
    ∃ t', step₂ k t = .ok t' ∧ Sees s' t'
  other : ∀ i s s' t, own i = none → Sees s t → step i s = .ok s' → Sees s' t

variable {step own step₂ Sees}

theorem Apart.run (h : Apart step own step₂ Sees) (is : List ι) (s s' : σ) (t : τ)
    (ht : Sees s t) (hr : run step is s = .ok s') :
    ∃ t', run step₂ (is.filterMap own) t = .ok t' ∧ Sees s' t' := by
  induction is generalizing s t with
  | nil =>
    cases hr
    exact ⟨t, rfl, ht⟩
  | cons i is ih =>
    rw [PartialRun.run] at hr
    split at hr
    · cases hr
    case _ u hu =>
      cases hi : own i with
      | none =>
        rw [List.filterMap_cons_none hi]
        exact ih u t (h.other i s u t hi ht hu) hr
      | some k =>
        obtain ⟨v, hv, hs⟩ := h.mine i k s u t hi ht hu
        obtain ⟨w, hw, hsw⟩ := ih u v hs hr
        refine ⟨w, ?_, hsw⟩
        rw [List.filterMap_cons_some hi, PartialRun.run, hv]
        exact hw

end PartialRun
