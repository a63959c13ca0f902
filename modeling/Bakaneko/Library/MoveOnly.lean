import Bakaneko.Library.PartialRun
import Bakaneko.Library.Fallible
import Mathlib.Data.List.Nodup

/-!
# Objects that own a handle

An object owns a handle or none. Moving takes the handle of one object to
another and leaves the first with none; an assignment drops what its target
owned. What an object owns when it is destroyed is released.
-/

set_option autoImplicit false

namespace MoveOnly
open PartialRun

/-- The use of an object that is not there. -/
inductive Fault where
  | dead
  deriving DecidableEq, Repr

inductive Op (α : Type*) where
  | construct (handle : Option α)
  | moveConstruct (other : ℕ)
  | moveAssign (self other : ℕ)
  | destroy (self : ℕ)

/-- The objects in the order of their construction, with `none` for one that is
no more, the handles given to constructors, and those released. -/
structure Store (α : Type*) where
  objects : List (Option (Option α)) := []
  handed : List α := []
  released : List α := []

variable {α : Type*}

def object (s : Store α) (i : ℕ) : Except Fault (Option α) :=
  match s.objects[i]? with
  | some (some a) => .ok a
  | _ => .error .dead

def step : Op α → Store α → Except Fault (Store α)
  | .construct handle, s =>
    .ok { s with objects := s.objects++[some handle], handed := s.handed++handle.toList }
  | .moveConstruct other, s => do
    let b ← object s other
    return { s with objects := s.objects.set other (some none)++[some b] }
  | .moveAssign self other, s => do
    let _ ← object s self
    let b ← object s other
    return { s with objects := (s.objects.set self (some b)).set other (some none) }
  | .destroy self, s => do
    let a ← object s self
    return { s with objects := s.objects.set self none, released := s.released++a.toList }

/-- The handles owned, once for every owner. -/
def held (s : Store α) : List α := s.objects.filterMap Option.join

def given : Op α → List α
  | .construct handle => handle.toList
  | _ => []

/-- What the target of an assignment owned. -/
def lost : Op α → Store α → List α
  | .moveAssign self other, s => match object s self, object s other with
    | .ok a, .ok _ => a.toList
    | _, _ => []
  | _, _ => []

/-- Every handle given is owned or has been released. -/
def Balanced (s : Store α) : Prop := s.handed.Perm (held s++s.released)

/-- No handle has two owners, and none is lost. -/
structure Sound (s : Store α) : Prop where
  once : (held s).Nodup
  balanced : Balanced s

/-- A constructor gets what no object owns, and an assignment drops nothing. -/
def Fits (op : Op α) (s : Store α) : Prop := (∀ x ∈ given op, x ∉ held s) ∧ lost op s = []

theorem object_ok (s : Store α) (i : ℕ) (a : Option α) :
    object s i = .ok a ↔ s.objects[i]? = some (some a) := by
  unfold object
  split
  · next b hb => simp [hb]
  · next hno => simpa using fun h => hno a h

theorem construct_held (handle : Option α) (s t : Store α)
    (h : step (.construct handle) s = .ok t) : held t = held s++handle.toList := by
  cases h
  cases handle <;> simp [held]

theorem step_handed (op : Op α) (s t : Store α) (h : step op s = .ok t) :
    t.handed = s.handed++given op := by
  cases op with
  | construct handle =>
    cases h
    rfl
  | moveConstruct other =>
    obtain ⟨b, -, ht⟩ := (Fallible.bind_ok _ _ _).mp h
    cases ht
    exact (List.append_nil _).symm
  | moveAssign self other =>
    obtain ⟨a, -, h⟩ := (Fallible.bind_ok _ _ _).mp h
    obtain ⟨b, -, ht⟩ := (Fallible.bind_ok _ _ _).mp h
    cases ht
    exact (List.append_nil _).symm
  | destroy self =>
    obtain ⟨a, -, ht⟩ := (Fallible.bind_ok _ _ _).mp h
    cases ht
    exact (List.append_nil _).symm

section
variable [DecidableEq α]

theorem balanced_iff (s : Store α) :
    Balanced s ↔ ∀ x, s.handed.count x = (held s).count x+s.released.count x := by
  simp only [Balanced, List.perm_iff_count, List.count_append]

theorem count_object (o : Option (Option α)) (objects : List (Option (Option α))) (x : α) :
    ((o::objects).filterMap Option.join).count x =
      o.join.toList.count x+(objects.filterMap Option.join).count x := by
  cases ho : o.join <;> simp [ho, List.count_cons, Nat.add_comm]

/-- Another content for one object. -/
theorem count_set (objects : List (Option (Option α))) (i : ℕ) (a b : Option (Option α))
    (h : objects[i]? = some a) (x : α) :
    ((objects.set i b).filterMap Option.join).count x+a.join.toList.count x =
      (objects.filterMap Option.join).count x+b.join.toList.count x := by
  induction objects generalizing i with
  | nil => simp at h
  | cons o objects ih =>
    cases i with
    | zero =>
      obtain rfl : o = a := by simpa using h
      rw [List.set_cons_zero, count_object, count_object]
      omega
    | succ i =>
      have hrest := ih i (by simpa using h)
      rw [List.set_cons_succ, count_object, count_object]
      omega

theorem moveConstruct_counts (other : ℕ) (s t : Store α) (h : step (.moveConstruct other) s = .ok t)
    (x : α) : (held t).count x = (held s).count x ∧ t.released = s.released := by
  obtain ⟨b, hb, ht⟩ := (Fallible.bind_ok _ _ _).mp h
  cases ht
  have hset := count_set s.objects other _ (some none) ((object_ok s other b).mp hb) x
  have hnew : held { s with objects := s.objects.set other (some none)++[some b] } =
      (s.objects.set other (some none)).filterMap Option.join++b.toList := by
    cases b <;> simp [held]
  refine ⟨?_, rfl⟩
  rw [hnew, List.count_append, held]
  simpa using hset

/-- What the target owned is gone, also when it is the source. -/
theorem moveAssign_counts (self other : ℕ) (s t : Store α) (h : step (.moveAssign self other) s = .ok t)
    (x : α) : (held t).count x+(lost (.moveAssign self other) s).count x = (held s).count x ∧
      t.released = s.released := by
  obtain ⟨a, ha, h⟩ := (Fallible.bind_ok _ _ _).mp h
  obtain ⟨b, hb, ht⟩ := (Fallible.bind_ok _ _ _).mp h
  cases ht
  have hself := (object_ok s self a).mp ha
  -- behind the first write the source owns `b` also where it is the target
  have hother : (s.objects.set self (some b))[other]? = some (some b) := by
    rw [List.getElem?_set]
    split
    · rw [if_pos (List.getElem?_eq_some_iff.mp hself).1]
    · exact (object_ok s other b).mp hb
  have hfirst := count_set s.objects self _ (some b) hself x
  have hsecond := count_set _ other _ (some none) hother x
  refine ⟨?_, rfl⟩
  simp only [held, lost, ha, hb, Option.join_some, Option.toList_none, List.count_nil]
    at hfirst hsecond ⊢
  omega

theorem destroy_counts (self : ℕ) (s t : Store α) (h : step (.destroy self) s = .ok t) (x : α) :
    (held t).count x+t.released.count x = (held s).count x+s.released.count x ∧
      s.released.count x ≤ t.released.count x := by
  obtain ⟨a, ha, ht⟩ := (Fallible.bind_ok _ _ _).mp h
  cases ht
  have hset := count_set s.objects self _ none ((object_ok s self a).mp ha) x
  refine ⟨?_, ?_⟩
  · simp only [held, List.count_append, Option.join_some, Option.join_none, Option.toList_none,
      List.count_nil] at hset ⊢
    omega
  · rw [List.count_append]
    omega

/-- What one operation does to the number of owners and releases of a handle. -/
theorem step_counts (op : Op α) (s t : Store α) (h : step op s = .ok t) (x : α) :
    (held t).count x+t.released.count x+(lost op s).count x =
      (held s).count x+s.released.count x+(given op).count x ∧
    s.released.count x ≤ t.released.count x := by
  cases op with
  | construct handle =>
    have hreleased : t.released = s.released := by cases h; rfl
    rw [construct_held handle s t h, hreleased]
    simp only [List.count_append, lost, given, List.count_nil]
    omega
  | moveConstruct other =>
    obtain ⟨hheld, hreleased⟩ := moveConstruct_counts other s t h x
    rw [hheld, hreleased]
    exact ⟨rfl, Nat.le_refl _⟩
  | moveAssign self other =>
    obtain ⟨hheld, hreleased⟩ := moveAssign_counts self other s t h x
    rw [hreleased]
    simp only [given, List.count_nil]
    omega
  | destroy self => exact destroy_counts self s t h x

end

theorem given_nodup (op : Op α) : (given op).Nodup := by
  cases op with
  | construct handle => cases handle <;> simp [given]
  | _ => exact List.nodup_nil

theorem lost_goes (op : Op α) (s : Store α) (h : lost op s ≠ []) : ∃ t, step op s = .ok t := by
  cases op with
  | moveAssign self other =>
    cases ha : object s self with
    | error e => simp [lost, ha] at h
    | ok a =>
      cases hb : object s other with
      | error e => simp [lost, ha, hb] at h
      | ok b => exact ⟨_, by rw [step, ha, hb]; rfl⟩
  | _ => exact absurd rfl h

/-- The operations that keep a store sound are those that fit. -/
theorem fits_iff (op : Op α) (s : Store α) (h : Sound s) :
    Fits op s ↔ ∀ t, step op s = .ok t → Sound t := by
  classical
  have hs := (balanced_iff s).mp h.balanced
  constructor
  · rintro ⟨hfresh, hlost⟩ t ht
    have hcounts := step_counts op s t ht
    have hhanded := step_handed op s t ht
    refine ⟨List.nodup_iff_count.mpr fun x => ?_, (balanced_iff t).mpr fun x => ?_⟩
    · obtain ⟨hsum, hle⟩ := hcounts x
      have hgiven := List.nodup_iff_count.mp (given_nodup op) x
      have honce := List.nodup_iff_count.mp h.once x
      by_cases hx : x ∈ given op
      · have hnone := List.count_eq_zero.mpr (hfresh x hx)
        omega
      · have hnone := List.count_eq_zero.mpr hx
        omega
    · obtain ⟨hsum, -⟩ := hcounts x
      have hx := hs x
      rw [hlost, List.count_nil] at hsum
      rw [hhanded, List.count_append]
      omega
  · intro hsound
    refine ⟨?_, ?_⟩
    · cases op with
      | construct handle =>
        have hnodup := (hsound _ rfl).once
        rw [construct_held handle s _ rfl] at hnodup
        exact fun x hx hheld => (List.nodup_append.mp hnodup).2.2 x hheld x hx rfl
      | _ => exact fun x hx => absurd hx List.not_mem_nil
    · by_contra hlost
      obtain ⟨t, ht⟩ := lost_goes op s hlost
      have hbalanced := (balanced_iff t).mp (hsound t ht).balanced
      refine hlost (List.eq_nil_iff_forall_not_mem.mpr fun x => List.count_eq_zero.mp ?_)
      obtain ⟨hsum, -⟩ := step_counts op s t ht x
      have hx := hs x
      have hx' := hbalanced x
      rw [step_handed op s t ht, List.count_append] at hx'
      omega

/-- A handle that has not been given before has no owner. -/
theorem fits_fresh (op : Op α) (s : Store α) (h : Sound s) (hfresh : (s.handed++given op).Nodup)
    (hlost : lost op s = []) : Fits op s := by
  refine ⟨fun x hx hheld => ?_, hlost⟩
  have hhanded : x ∈ s.handed := h.balanced.mem_iff.mpr (List.mem_append_left _ hheld)
  exact (List.nodup_append.mp hfresh).2.2 x hhanded x hx rfl

def Destroyed (s : Store α) : Prop := ∀ o ∈ s.objects, o = none

theorem held_destroyed (s : Store α) (h : Destroyed s) : held s = [] :=
  List.filterMap_eq_nil_iff.mpr fun o ho => by rw [h o ho]; rfl

/-- Destroying objects turns what they own into what has been released. -/
theorem destroys_keep (is : List ℕ) (s t : Store α) (h : run step (is.map .destroy) s = .ok t) :
    t.handed = s.handed ∧ (held t++t.released).Perm (held s++s.released) := by
  induction is generalizing s with
  | nil =>
    cases h
    exact ⟨rfl, .rfl⟩
  | cons i is ih =>
    rw [List.map_cons, run] at h
    cases hu : step (.destroy i) s with
    | error e =>
      rw [hu] at h
      cases h
    | ok u =>
      rw [hu] at h
      obtain ⟨hhanded, hperm⟩ := ih u h
      have hfirst : u.handed = s.handed := (step_handed _ s u hu).trans (List.append_nil _)
      have hone : (held u++u.released).Perm (held s++s.released) := by
        classical
        refine List.perm_iff_count.mpr fun x => ?_
        obtain ⟨hsum, -⟩ := step_counts _ s u hu x
        simpa [lost, given] using hsum
      exact ⟨hhanded.trans hfirst, hperm.trans hone⟩

/-- Whatever is alive can be destroyed. -/
theorem exists_destroyed (s : Store α) :
    ∃ (is : List ℕ) (t : Store α), run step (is.map .destroy) s = .ok t ∧ Destroyed t := by
  induction hn : s.objects.countP Option.isSome generalizing s with
  | zero =>
    refine ⟨[], s, rfl, fun o ho => ?_⟩
    simpa using List.countP_eq_zero.mp hn o ho
  | succ n ih =>
    obtain ⟨o, ho, hsome⟩ := List.countP_pos_iff.mp (Nat.lt_of_lt_of_eq n.succ_pos hn.symm)
    obtain ⟨i, hlt, rfl⟩ := List.mem_iff_getElem.mp ho
    obtain ⟨a, ha⟩ := Option.isSome_iff_exists.mp hsome
    have hobject : object s i = .ok a :=
      (object_ok s i a).mpr (List.getElem?_eq_some_iff.mpr ⟨hlt, ha⟩)
    have hstep : step (.destroy i) s =
        .ok { s with objects := s.objects.set i none, released := s.released++a.toList } := by
      rw [step, hobject]
      rfl
    obtain ⟨is, t, ht, hd⟩ := ih { s with
      objects := s.objects.set i none, released := s.released++a.toList } (by
        rw [List.countP_set hlt, ha, hn]
        rfl)
    exact ⟨i::is, t, by rw [List.map_cons, run, hstep]; exact ht, hd⟩

/-- Nothing is lost exactly when in the end all that was given is released. -/
theorem balanced_iff_released (s : Store α) : Balanced s ↔
    ∀ (is : List ℕ) t, run step (is.map .destroy) s = .ok t → Destroyed t →
      t.released.Perm t.handed := by
  constructor
  · intro h is t ht hd
    obtain ⟨hhanded, hperm⟩ := destroys_keep is s t ht
    rw [held_destroyed t hd, List.nil_append] at hperm
    rw [hhanded]
    exact hperm.trans h.symm
  · intro h
    obtain ⟨is, t, ht, hd⟩ := exists_destroyed s
    obtain ⟨hhanded, hperm⟩ := destroys_keep is s t ht
    have hall := h is t ht hd
    rw [held_destroyed t hd, List.nil_append] at hperm
    rw [Balanced, ← hhanded]
    exact hall.symm.trans hperm

theorem sound_empty : Sound ({} : Store α) := ⟨List.nodup_nil, .nil⟩

end MoveOnly
