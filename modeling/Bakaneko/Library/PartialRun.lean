import Mathlib.Data.List.Basic
import Mathlib.Tactic.Common

/-!
# Runs of a step that may fail

A step consumes one input and either yields the next state or stops with an
error. The run predicates below follow the inputs: a property is asked of
every state the run reaches, a condition of every step the run attempts.
An error ends the run, so nothing is asked of the inputs behind it.
-/

set_option autoImplicit false

namespace PartialRun

variable {ι σ ε : Type*} (step : ι → σ → Except ε σ)

def run : List ι → σ → Except ε σ
  | [], s => .ok s
  | i::is, s => match step i s with
    | .error e => .error e
    | .ok t => run is t

theorem run_append (is js : List ι) (s : σ) :
    run step (is++js) s = match run step is s with
      | .error e => .error e
      | .ok t => run step js t := by
  induction is generalizing s with
  | nil => rfl
  | cons i is ih =>
    rw [List.cons_append, run, run]
    cases step i s with
    | error e => rfl
    | ok t => exact ih t

theorem run_append_ok (is js : List ι) (s u : σ) :
    run step (is++js) s = .ok u ↔ ∃ t, run step is s = .ok t ∧ run step js t = .ok u := by
  rw [run_append]
  cases run step is s <;> simp

theorem run_after (is js : List ι) (s t : σ) (h : run step is s = .ok t) :
    run step (is++js) s = run step js t := by
  rw [run_append, h]

/-- A view that every step respects is one of runs. -/
theorem run_map {κ τ : Type*} (step₂ : κ → τ → Except ε τ) (f : ι → κ) (view : σ → τ)
    (h : ∀ i s, (step i s).map view = step₂ (f i) (view s)) (is : List ι) (s : σ) :
    (run step is s).map view = run step₂ (is.map f) (view s) := by
  induction is generalizing s with
  | nil => rfl
  | cons i is ih =>
    rw [List.map_cons, run, run, ← h]
    cases step i s with
    | error e => rfl
    | ok t => exact ih t

theorem run_singleton (i : ι) (s : σ) : run step [i] s = step i s := by
  rw [run]
  cases step i s <;> rfl

/-- The property holds of every state the run reaches, the first included. -/
def Always (P : σ → Prop) : List ι → σ → Prop
  | [], s => P s
  | i::is, s => P s ∧ ∀ t, step i s = .ok t → Always P is t

/-- The condition holds of every step the run attempts. -/
def Meets (C : ι → σ → Prop) : List ι → σ → Prop
  | [], _ => True
  | i::is, s => C i s ∧ ∀ t, step i s = .ok t → Meets C is t

theorem meets_append (C : ι → σ → Prop) (is js : List ι) (s : σ) :
    Meets step C (is++js) s ↔
      Meets step C is s ∧ ∀ t, run step is s = .ok t → Meets step C js t := by
  induction is generalizing s with
  | nil => simp [Meets, run]
  | cons i is ih =>
    rw [List.cons_append, Meets, Meets, run, and_assoc]
    cases step i s with
    | error e => simp
    | ok t => simpa using fun _ => ih t

def Never (Bad : ε → Prop) : List ι → σ → Prop :=
  Meets step (fun i s => ∀ e, step i s = .error e → ¬ Bad e)

theorem always_head (P : σ → Prop) (is : List ι) (s : σ) (h : Always step P is s) : P s := by
  cases is with
  | nil => exact h
  | cons i is => exact h.1

theorem always_last (P : σ → Prop) (is : List ι) (s t : σ) (h : Always step P is s)
    (hr : run step is s = .ok t) : P t := by
  induction is generalizing s with
  | nil =>
    obtain rfl : s = t := by simpa [run] using hr
    exact h
  | cons i is ih =>
    cases hs : step i s with
    | error e => simp [run, hs] at hr
    | ok u => exact ih u (h.2 u hs) (by simpa [run, hs] using hr)

theorem always_imp (P Q : σ → Prop) (himp : ∀ s, P s → Q s) (is : List ι) (s : σ)
    (h : Always step P is s) : Always step Q is s := by
  induction is generalizing s with
  | nil => exact himp s h
  | cons i is ih => exact ⟨himp s h.1, fun t ht => ih t (h.2 t ht)⟩

/-- A condition that these inputs meet in any state. -/
theorem meets_of_forall (C : ι → σ → Prop) (is : List ι) (h : ∀ i ∈ is, ∀ s, C i s) (s : σ) :
    Meets step C is s := by
  induction is generalizing s with
  | nil => trivial
  | cons i is ih =>
    obtain ⟨hi, hrest⟩ := List.forall_mem_cons.mp h
    exact ⟨hi s, fun t _ => ih hrest t⟩

theorem meets_true (is : List ι) (s : σ) : Meets step (fun _ _ => True) is s :=
  meets_of_forall step _ is (fun _ _ _ => trivial) s

/-- An invariant kept by every step that meets the condition holds along
every run whose steps all meet it. -/
theorem always_of_meets (P : σ → Prop) (C : ι → σ → Prop)
    (hstep : ∀ i s t, P s → C i s → step i s = .ok t → P t)
    (is : List ι) (s : σ) (hs : P s) (hm : Meets step C is s) : Always step P is s := by
  induction is generalizing s with
  | nil => exact hs
  | cons i is ih => exact ⟨hs, fun t ht => ih t (hstep i s t hs hm.1 ht) (hm.2 t ht)⟩

/-- A run that goes from stage to stage, where a stage is the inputs still to
come and the state. -/
theorem always_of_stage (Stage : List ι → σ → Prop) (P : σ → Prop)
    (hP : ∀ is s, Stage is s → P s)
    (hstep : ∀ i is s t, Stage (i::is) s → step i s = .ok t → Stage is t)
    (is : List ι) (s : σ) (hs : Stage is s) : Always step P is s := by
  induction is generalizing s with
  | nil => exact hP [] s hs
  | cons i is ih => exact ⟨hP _ s hs, fun t ht => ih t (hstep i is s t hs ht)⟩

/-- What every step keeps holds at the end of a run. -/
theorem run_keeps (P : σ → Prop) (hstep : ∀ i s t, P s → step i s = .ok t → P t)
    (is : List ι) (s t : σ) (hs : P s) (hr : run step is s = .ok t) : P t := by
  have ha := always_of_meets step P (fun _ _ => True) (fun i s t h _ => hstep i s t h) is s hs
    (meets_true step is s)
  exact always_last step P is s t ha hr

/-- The error of a run is that of a step, in a state with what every step keeps. -/
theorem run_failed (P : σ → Prop) (Q : ε → Prop)
    (hstep : ∀ i s t, P s → step i s = .ok t → P t)
    (herror : ∀ i s e, P s → step i s = .error e → Q e)
    (is : List ι) (s : σ) (e : ε) (hs : P s) (hr : run step is s = .error e) : Q e := by
  induction is generalizing s with
  | nil => cases hr
  | cons i is ih =>
    rw [run] at hr
    cases hi : step i s with
    | error e' =>
      rw [hi] at hr
      cases hr
      exact herror i s e hs hi
    | ok t =>
      rw [hi] at hr
      exact ih t (hstep i s t hs hi) hr

/-- Along a run on which a property holds throughout, a condition may be
replaced by any that follows from it on the states with that property. -/
theorem meets_of_always (P : σ → Prop) (C D : ι → σ → Prop)
    (himp : ∀ i s, P s → C i s → D i s) (is : List ι) (s : σ)
    (ha : Always step P is s) (hm : Meets step C is s) : Meets step D is s := by
  induction is generalizing s with
  | nil => trivial
  | cons i is ih =>
    exact ⟨himp i s ha.1 hm.1, fun t ht => ih t (ha.2 t ht) (hm.2 t ht)⟩

/-- One step leads only to states with the property and not to a bad error. -/
def Keeps (P : σ → Prop) (Bad : ε → Prop) (i : ι) (s : σ) : Prop :=
  (∀ t, step i s = .ok t → P t) ∧ ∀ e, step i s = .error e → ¬ Bad e

/-- A condition that is exact for one step is exact for whole runs. It may
rest on an invariant `J` that no step breaks. -/
theorem always_never_iff_meets (P J : σ → Prop) (Bad : ε → Prop) (C : ι → σ → Prop)
    (hJ : ∀ i s t, J s → step i s = .ok t → J t)
    (hexact : ∀ i s, J s → P s → (C i s ↔ Keeps step P Bad i s))
    (is : List ι) (s : σ) (hj : J s) (hp : P s) :
    Always step P is s ∧ Never step Bad is s ↔ Meets step C is s := by
  induction is generalizing s with
  | nil => exact ⟨fun _ => trivial, fun _ => ⟨hp, trivial⟩⟩
  | cons i is ih =>
    constructor
    · intro ⟨ha, hn⟩
      have hnext : ∀ t, step i s = .ok t → P t := fun t ht => always_head step P is t (ha.2 t ht)
      refine ⟨(hexact i s hj hp).mpr ⟨hnext, hn.1⟩, fun t ht => ?_⟩
      exact (ih t (hJ i s t hj ht) (hnext t ht)).mp ⟨ha.2 t ht, hn.2 t ht⟩
    · intro hm
      have hk := (hexact i s hj hp).mp hm.1
      have hrest : ∀ t, step i s = .ok t → Always step P is t ∧ Never step Bad is t :=
        fun t ht => (ih t (hJ i s t hj ht) (hk.1 t ht)).mpr (hm.2 t ht)
      exact ⟨⟨hp, fun t ht => (hrest t ht).1⟩, hk.2, fun t ht => (hrest t ht).2⟩

/-- Where the stage of a run, the inputs still to come and the state, decides
each step: one that meets the condition leads to the next stage, and one that
does not leads to no state with the property. -/
theorem meets_iff_of_stage (Stage : List ι → σ → Prop) (P : σ → Prop) (C : ι → σ → Prop)
    (hP : ∀ is s, Stage is s → P s)
    (hstep : ∀ i is s, Stage (i::is) s → (C i s ∧ ∃ t, step i s = .ok t ∧ Stage is t) ∨
      (¬ C i s ∧ ∀ t, step i s = .ok t → ¬ P t))
    (is : List ι) (s : σ) (hs : Stage is s) : Meets step C is s ↔
      (∃ t, run step is s = .ok t ∧ Stage [] t) ∧ Always step P is s := by
  induction is generalizing s with
  | nil => exact ⟨fun _ => ⟨⟨s, rfl, hs⟩, hP [] s hs⟩, fun _ => trivial⟩
  | cons i is ih =>
    rw [Meets, Always, run]
    rcases hstep i is s hs with ⟨hc, t, ht, hnext⟩ | ⟨hc, hbad⟩
    · have hrest := ih t hnext
      simpa [ht, hc, hP _ s hs] using hrest
    · refine iff_of_false (fun h => hc h.1) ?_
      rintro ⟨⟨u, hu, -⟩, -, halways⟩
      cases ht : step i s with
      | error e => simp [ht] at hu
      | ok t => exact hbad t ht (always_head step P is t (halways t ht))

theorem never_false (is : List ι) (s : σ) : Never step (fun _ => False) is s := by
  induction is generalizing s with
  | nil => trivial
  | cons i is ih => exact ⟨fun _ _ he => he, fun t _ => ih t⟩

/-- The case in which errors only end the run. -/
theorem always_iff_meets (P J : σ → Prop) (C : ι → σ → Prop)
    (hJ : ∀ i s t, J s → step i s = .ok t → J t)
    (hexact : ∀ i s, J s → P s → (C i s ↔ ∀ t, step i s = .ok t → P t))
    (is : List ι) (s : σ) (hj : J s) (hp : P s) :
    Always step P is s ↔ Meets step C is s := by
  have hkeeps : ∀ i s, J s → P s → (C i s ↔ Keeps step P (fun _ => False) i s) :=
    fun i s hj hp => (hexact i s hj hp).trans (and_iff_left fun _ _ he => he).symm
  rw [← always_never_iff_meets step P J (fun _ => False) C hJ hkeeps is s hj hp]
  exact (and_iff_left (never_false step is s)).symm

theorem meets_iff_of_always (P : σ → Prop) (C D : ι → σ → Prop)
    (hiff : ∀ i s, P s → (C i s ↔ D i s)) (is : List ι) (s : σ)
    (ha : Always step P is s) : Meets step C is s ↔ Meets step D is s :=
  ⟨meets_of_always step P C D (fun i s hp => (hiff i s hp).mp) is s ha,
    meets_of_always step P D C (fun i s hp => (hiff i s hp).mpr) is s ha⟩

theorem meets_congr (C D : ι → σ → Prop) (hiff : ∀ i s, C i s ↔ D i s) (is : List ι) (s : σ) :
    Meets step C is s ↔ Meets step D is s := by
  induction is generalizing s with
  | nil => exact Iff.rfl
  | cons i is ih =>
    exact and_congr (hiff i s) (forall_congr' fun t => imp_congr_right fun _ => ih t)

/-- A condition may be replaced by one that is the same wherever a property
holds, if steps that meet it keep the property. -/
theorem meets_iff_of_kept (P : σ → Prop) (C D : ι → σ → Prop)
    (hkeep : ∀ i s t, P s → D i s → step i s = .ok t → P t)
    (hiff : ∀ i s, P s → (C i s ↔ D i s)) (is : List ι) (s : σ) (hs : P s) :
    Meets step C is s ↔ Meets step D is s := by
  induction is generalizing s with
  | nil => exact Iff.rfl
  | cons i is ih =>
    constructor
    · intro h
      have hd := (hiff i s hs).mp h.1
      exact ⟨hd, fun t ht => (ih t (hkeep i s t hs hd ht)).mp (h.2 t ht)⟩
    · intro h
      exact ⟨(hiff i s hs).mpr h.1, fun t ht => (ih t (hkeep i s t hs h.1 ht)).mpr (h.2 t ht)⟩

/-- The same for two conditions that are alike only where a third is met, along
a run whose steps all meet that one. -/
theorem meets_iff_under (P : σ → Prop) (Q C D : ι → σ → Prop)
    (hkeep : ∀ i s t, P s → Q i s → step i s = .ok t → P t)
    (hiff : ∀ i s, P s → Q i s → (C i s ↔ D i s)) (is : List ι) (s : σ) (hs : P s)
    (hq : Meets step Q is s) : Meets step C is s ↔ Meets step D is s := by
  induction is generalizing s with
  | nil => exact Iff.rfl
  | cons i is ih =>
    refine and_congr (hiff i s hs hq.1) (forall_congr' fun t => imp_congr_right fun ht => ?_)
    exact ih t (hkeep i s t hs hq.1 ht) (hq.2 t ht)

theorem not_never_of_run (Bad : ε → Prop) (is : List ι) (s : σ) (e : ε)
    (hr : run step is s = .error e) (he : Bad e) : ¬ Never step Bad is s := by
  intro hn
  induction is generalizing s with
  | nil => simp [run] at hr
  | cons i is ih =>
    cases hs : step i s with
    | error e' =>
      obtain rfl : e' = e := by simpa [run, hs] using hr
      exact hn.1 e' hs he
    | ok t => exact ih t (by simpa [run, hs] using hr) (hn.2 t hs)

/-- The property holds at the start and behind each part of the input that
leads to a state. -/
def AtEach {κ : Type*} (part : κ → List ι) (P : σ → Prop) (parts : List κ) (s : σ) : Prop :=
  ∀ begun, begun <+: parts → ∀ t, run step (begun.flatMap part) s = .ok t → P t

theorem atEach_nil {κ : Type*} (part : κ → List ι) (P : σ → Prop) (s : σ) :
    AtEach step part P [] s ↔ P s := by
  constructor
  · exact fun h => h [] (List.prefix_refl _) s rfl
  · intro h begun hb t ht
    rw [List.prefix_nil.mp hb] at ht
    cases ht
    exact h

theorem atEach_cons {κ : Type*} (part : κ → List ι) (P : σ → Prop) (k : κ) (parts : List κ)
    (s : σ) : AtEach step part P (k::parts) s ↔
      P s ∧ ∀ t, run step (part k) s = .ok t → AtEach step part P parts t := by
  constructor
  · intro h
    refine ⟨h [] (List.nil_prefix) s rfl, fun t ht begun hb u hu => ?_⟩
    refine h (k::begun) (List.cons_prefix_cons.mpr ⟨rfl, hb⟩) u ?_
    rw [List.flatMap_cons, run_append, ht]
    exact hu
  · rintro ⟨hs, h⟩ begun hb t ht
    cases begun with
    | nil =>
      cases ht
      exact hs
    | cons first begun =>
      obtain ⟨rfl, hrest⟩ := List.cons_prefix_cons.mp hb
      rw [List.flatMap_cons, run_append] at ht
      cases hf : run step (part first) s with
      | error e => simp [hf] at ht
      | ok u =>
        rw [hf] at ht
        exact h u hf begun hrest t ht

end PartialRun
