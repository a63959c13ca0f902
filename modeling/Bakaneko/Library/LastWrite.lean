import Bakaneko.Library.PartialRun

/-!
# The last write wins

Of each key an input writes at most one value, and a step leaves all other
keys as they are. Behind a run a key has the value written last. Where a step
fails for its input alone, a run returns exactly when every input is good.
-/

set_option autoImplicit false

namespace LastWrite
open PartialRun

variable {ι σ ε κ ν : Type*}

/-- The value that these inputs write last. -/
def last (write : ι → Option ν) (is : List ι) : Option ν := (is.filterMap write).getLast?

theorem last_cons (write : ι → Option ν) (i : ι) (is : List ι) :
    last write (i::is) = (last write is).or (write i) := by
  rw [last, last, List.filterMap_cons]
  cases write i with
  | none => rw [Option.or_none]
  | some v =>
    rw [List.getLast?_cons]
    cases (is.filterMap write).getLast? <;> rfl

theorem last_append (write : ι → Option ν) (is js : List ι) :
    last write (is++js) = (last write js).or (last write is) := by
  rw [last, last, last, List.filterMap_append, List.getLast?_append]

variable (step : ι → σ → Except ε σ) (read : σ → κ → ν) (write : κ → ι → Option ν)

/-- A step with this input writes what the input does, and nothing else. -/
def Writes (i : ι) : Prop := ∀ s t, step i s = .ok t → ∀ k, read t k = (write k i).getD (read s k)

theorem run_read (is : List ι) (h : ∀ i ∈ is, Writes step read write i) (s t : σ)
    (ht : run step is s = .ok t) (k : κ) : read t k = (last (write k) is).getD (read s k) := by
  induction is generalizing s with
  | nil =>
    cases ht
    rfl
  | cons i is ih =>
    obtain ⟨hwrites, hrest⟩ := List.forall_mem_cons.mp h
    rw [run] at ht
    cases hi : step i s with
    | error e => simp [hi] at ht
    | ok u =>
      rw [hi] at ht
      rw [ih hrest u ht, hwrites s u hi, last_cons]
      cases last (write k) is <;> rfl

theorem run_returns (Good : ι → Prop) (h : ∀ i s, (∃ t, step i s = .ok t) ↔ Good i) (is : List ι)
    (s : σ) : (∃ t, run step is s = .ok t) ↔ ∀ i ∈ is, Good i := by
  induction is generalizing s with
  | nil => exact iff_of_true ⟨s, rfl⟩ (by simp)
  | cons i is ih =>
    rw [List.forall_mem_cons, ← h i s, run]
    cases hi : step i s with
    | error e => simp
    | ok t => simpa using ih t

/-- Where the values of the keys are all there is, the last writes decide the run. -/
theorem run_ok_iff (Good : ι → Prop) (hw : ∀ i, Writes step read write i)
    (hg : ∀ i s, (∃ t, step i s = .ok t) ↔ Good i)
    (hext : ∀ s t, (∀ k, read s k = read t k) → s = t) (is : List ι) (s t final : σ)
    (hfinal : ∀ k, read final k = (last (write k) is).getD (read s k)) :
    run step is s = .ok t ↔ (∀ i ∈ is, Good i) ∧ t = final := by
  have hread : ∀ u, run step is s = .ok u → u = final := fun u hu => hext u final fun k => by
    rw [run_read step read write is (fun i _ => hw i) s u hu, hfinal]
  constructor
  · exact fun h => ⟨(run_returns step Good hg is s).mp ⟨t, h⟩, hread t h⟩
  · rintro ⟨hgood, rfl⟩
    obtain ⟨u, hu⟩ := (run_returns step Good hg is s).mpr hgood
    rw [hu, hread u hu]

end LastWrite
