import Mathlib.Algebra.BigOperators.Group.List.Basic
import Mathlib.Tactic

/-!
# Threads around a counting latch

Threads set a latch, count it down, change a shared state and start further
threads, in any order of their steps. A price tells how often a thread and all
it starts will count down. Prices are conserved, so that a latch that was set to
the price of the only thread is zero exactly when everything has ended. The
latch is a `std::size_t`: a count at zero, which its contract forbids, leaves
the greatest value behind.
-/

set_option autoImplicit false

namespace CountingLatch

variable {σ ρ : Type}

/-- What a thread still has to do: `reset` sets the latch, and `start` begins
the thread of a request. -/
inductive Thread (σ ρ : Type) where
  | done
  | countDown (next : Thread σ ρ)
  | reset (n : ℕ) (next : Thread σ ρ)
  | act (f : σ → σ) (next : Thread σ ρ)
  | start (r : ρ) (next : Thread σ ρ)
  | branch (test : σ → Bool) (yes no : Thread σ ρ)

/-- `counted` are the counts since the latch was set, `late` those of them
that found it at zero. -/
structure Pool (σ ρ : Type) where
  state : σ
  latch : ℕ
  counted : ℕ
  late : ℕ
  threads : List (Thread σ ρ)

def Pool.enter (p : Pool σ ρ) (t : Thread σ ρ) : Pool σ ρ :=
  { p with threads := p.threads++[t] }

/-- The latch is set, and counts are counted from now on. -/
def Pool.armed (p : Pool σ ρ) (n : ℕ) : Pool σ ρ := { p with latch := n, counted := 0, late := 0 }

section
variable (code : ρ → Thread σ ρ)

def advance (p : Pool σ ρ) (i : ℕ) : Thread σ ρ → Pool σ ρ
  | .done => p
  | .countDown next => { p with
      latch := if p.latch = 0 then 18446744073709551615 else p.latch-1
      counted := p.counted+1
      late := if p.latch = 0 then p.late+1 else p.late
      threads := p.threads.set i next }
  | .reset n next => { p.armed n with threads := p.threads.set i next }
  | .act f next => { p with state := f p.state, threads := p.threads.set i next }
  | .start r next => { p with threads := p.threads.set i next++[code r] }
  | .branch test yes no =>
    { p with threads := p.threads.set i (if test p.state then yes else no) }

/-- One step of the thread with this number. -/
def step (p : Pool σ ρ) (i : ℕ) : Pool σ ρ :=
  match p.threads[i]? with
  | none => p
  | some t => advance code p i t

def run (is : List ℕ) (p : Pool σ ρ) : Pool σ ρ := is.foldl (step code) p

def Idle (p : Pool σ ρ) : Prop := ∀ t ∈ p.threads, t = .done

/-- The thread is about to set the latch. -/
def arming : Thread σ ρ → Bool
  | .reset _ _ => true
  | _ => false

/-- Every step of the schedule is one of a thread that has not ended. -/
def Live : List ℕ → Pool σ ρ → Prop
  | [], _ => True
  | i::is, p => (∃ t, p.threads[i]? = some t ∧ t ≠ .done) ∧ Live is (step code p i)

/-- What a latch set to `n` is for, whatever the order of the steps. -/
structure Settles (n : ℕ) (p : Pool σ ρ) : Prop where
  ends : ∃ bound, ∀ is, Live code is p → is.length ≤ bound
  counts : ∀ is, Idle (run code is p) → (run code is p).counted = n ∧ (run code is p).latch = 0
  in_time : ∀ is, (run code is p).late = 0
  waits : ∀ is, (run code is p).latch = 0 →
    ∀ t ∈ (run code is p).threads, t = .done ∨ arming t = true

end

section
variable (price : ρ → ℕ)

/-- The counts to come from a thread and from all it starts. -/
def owed : Thread σ ρ → ℕ
  | .done => 0
  | .countDown next => owed next+1
  | .reset _ next => owed next
  | .act _ next => owed next
  | .start r next => price r+owed next
  | .branch _ yes _ => owed yes

/-- The price does not depend on the branches taken, the last thing a thread
does is to count down or to start another, and it does not set the latch. -/
def Fair : Thread σ ρ → Prop
  | .done => True
  | .countDown next => Fair next
  | .reset _ _ => False
  | .act _ next => next ≠ .done ∧ Fair next
  | .start _ next => Fair next
  | .branch _ yes no => (yes ≠ .done ∧ no ≠ .done) ∧ owed price yes = owed price no ∧
    Fair yes ∧ Fair no

theorem fair_owes (hpos : ∀ r, 0 < price r) (t : Thread σ ρ) (h : Fair price t)
    (hd : t ≠ .done) : 0 < owed price t := by
  induction t with
  | done => exact absurd rfl hd
  | countDown next _ => exact Nat.succ_pos _
  | reset n next _ => cases h
  | act f next ih => exact ih h.2 h.1
  | start r next _ => exact Nat.add_pos_left (hpos r) _
  | branch test yes no ih _ => exact ih h.2.2.1 h.1.1

theorem sum_set {α : Type} (f : α → ℕ) (as : List α) (i : ℕ) (a b : α) (h : as[i]? = some a) :
    ((as.set i b).map f).sum+f a = (as.map f).sum+f b := by
  induction as generalizing i with
  | nil => simp at h
  | cons c as ih =>
    cases i with
    | zero =>
      obtain rfl : c = a := by simpa using h
      simp only [List.set_cons_zero, List.map_cons, List.sum_cons]
      omega
    | succ i =>
      have hi := ih i h
      simp only [List.set_cons_succ, List.map_cons, List.sum_cons]
      omega

end

/-- The steps a thread takes at most, with those of all it starts. -/
def steps (length : ρ → ℕ) : Thread σ ρ → ℕ
  | .done => 0
  | .countDown next => steps length next+1
  | .reset _ next => steps length next+1
  | .act _ next => steps length next+1
  | .start r next => length r+steps length next+1
  | .branch _ yes no => max (steps length yes) (steps length no)+1

def total (f : Thread σ ρ → ℕ) (p : Pool σ ρ) : ℕ := (p.threads.map f).sum

/-- A thread that owes `counts` and takes at most `time` steps. -/
structure Worth (price length : ρ → ℕ) (counts time : ℕ) (t : Thread σ ρ) : Prop where
  live : t ≠ .done
  fair : Fair price t
  owed : owed price t = counts
  steps : steps length t ≤ time

/-- The prices and lengths of the requests are those of their threads. -/
structure Priced (code : ρ → Thread σ ρ) (price length : ρ → ℕ) : Prop where
  positive : ∀ r, 0 < price r
  worth : ∀ r, Worth price length (price r) (length r) (code r)

section
variable {price length : ρ → ℕ} {counts time : ℕ} {t : Thread σ ρ}

theorem worth_countDown_done :
    Worth price length 1 1 (.countDown .done : Thread σ ρ) :=
  ⟨by simp, trivial, rfl, le_rfl⟩

theorem worth_start_done (r : ρ) :
    Worth price length (price r) (length r+1) (.start r .done : Thread σ ρ) :=
  ⟨by simp, trivial, rfl, le_rfl⟩

theorem Worth.mono {longer : ℕ} (h : Worth price length counts time t) (hle : time ≤ longer) :
    Worth price length counts longer t :=
  ⟨h.live, h.fair, h.owed, h.steps.trans hle⟩

theorem Worth.countDown (h : Worth price length counts time t) :
    Worth price length (counts+1) (time+1) (.countDown t) :=
  ⟨by simp, h.fair, congrArg (·+1) h.owed, Nat.succ_le_succ h.steps⟩

theorem Worth.act (f : σ → σ) (h : Worth price length counts time t) :
    Worth price length counts (time+1) (.act f t) :=
  ⟨by simp, ⟨h.live, h.fair⟩, h.owed, Nat.succ_le_succ h.steps⟩

theorem Worth.start (r : ρ) (h : Worth price length counts time t) :
    Worth price length (price r+counts) (length r+time+1) (.start r t) :=
  ⟨by simp, h.fair, congrArg (price r+·) h.owed,
    Nat.succ_le_succ (Nat.add_le_add_left h.steps _)⟩

theorem Worth.branch (test : σ → Bool) {no : Thread σ ρ} (h : Worth price length counts time t)
    (hno : Worth price length counts time no) :
    Worth price length counts (time+1) (.branch test t no) :=
  ⟨by simp, ⟨⟨h.live, hno.live⟩, h.owed.trans hno.owed.symm, h.fair, hno.fair⟩, h.owed,
    Nat.succ_le_succ (max_le h.steps hno.steps)⟩

end

/-- The counts made and to come are `sum`, and the latch was set to `n`. -/
structure Kept (price : ρ → ℕ) (n sum : ℕ) (p : Pool σ ρ) : Prop where
  fair : ∀ t ∈ p.threads, Fair price t
  conserved : p.counted+total (owed price) p = sum
  latch : p.counted ≤ n → p.latch = n-p.counted
  late : p.counted ≤ n → p.late = 0

theorem forall_mem_set {α : Type} (P : α → Prop) (as : List α) (i : ℕ) (b : α)
    (h : ∀ a ∈ as, P a) (hb : P b) : ∀ a ∈ as.set i b, P a := by
  intro a ha
  rcases List.mem_or_eq_of_mem_set ha with hm | rfl
  · exact h a hm
  · exact hb

theorem forall_mem_started {α : Type} (P : α → Prop) (as : List α) (i : ℕ) (b c : α)
    (h : ∀ a ∈ as, P a) (hb : P b) (hc : P c) : ∀ a ∈ as.set i b++[c], P a := by
  intro a ha
  rcases List.mem_append.mp ha with ha | ha
  · exact forall_mem_set P as i b h hb a ha
  · rw [List.mem_singleton.mp ha]
    exact hc

section
variable {code : ρ → Thread σ ρ} {price length : ρ → ℕ} (hc : Priced code price length)
include hc

theorem step_kept (n sum : ℕ) (p : Pool σ ρ) (i : ℕ) (h : Kept price n sum p) :
    Kept price n sum (step code p i) := by
  unfold step
  cases hi : p.threads[i]? with
  | none => exact h
  | some t =>
    have ht := h.fair t (List.mem_of_getElem? hi)
    have hsum := fun u => sum_set (owed price) p.threads i t u hi
    have hcons := h.conserved
    have hlatch := h.latch
    have hlate := h.late
    unfold total at hcons
    cases t with
    | done => exact h
    | countDown next =>
      have hs := hsum next
      refine ⟨forall_mem_set _ _ _ _ h.fair ht, ?_, ?_, ?_⟩
      · simp only [owed, advance, total] at hs ⊢
        omega
      · simp only [advance]
        intro hle
        rw [hlatch (by omega), if_neg (by omega)]
        omega
      · simp only [advance]
        intro hle
        rw [hlatch (by omega), if_neg (by omega)]
        exact hlate (by omega)
    | reset m next => cases ht
    | act f next =>
      have hs := hsum next
      refine ⟨forall_mem_set _ _ _ _ h.fair ht.2, ?_, hlatch, hlate⟩
      simp only [owed, advance, total] at hs ⊢
      omega
    | start r next =>
      have hs := hsum next
      refine ⟨forall_mem_started _ _ _ next _ h.fair ht (hc.worth r).fair, ?_, hlatch, hlate⟩
      simp only [owed, advance, total, List.map_append, List.sum_append, List.map_cons,
        List.map_nil, List.sum_singleton, (hc.worth r).owed] at hs ⊢
      omega
    | branch test yes no =>
      have hs := hsum (if test p.state then yes else no)
      refine ⟨forall_mem_set _ _ _ _ h.fair ?_, ?_, hlatch, hlate⟩
      · split
        · exact ht.2.2.1
        · exact ht.2.2.2
      · have hb : owed price (if test p.state then yes else no) = owed price yes := by
          split
          · rfl
          · exact ht.2.1.symm
        simp only [owed, advance, total, hb] at hs ⊢
        omega

/-- A thread that goes on has fewer steps to go. -/
theorem step_total (p : Pool σ ρ) (i : ℕ) (t : Thread σ ρ) (hi : p.threads[i]? = some t)
    (hd : t ≠ .done) : total (steps length) (step code p i) < total (steps length) p := by
  have hsum := fun u => sum_set (steps length) p.threads i t u hi
  simp only [step, hi]
  cases t with
  | done => exact absurd rfl hd
  | countDown next =>
    have hs := hsum next
    simp only [steps, advance, total] at hs ⊢
    omega
  | reset n next =>
    have hs := hsum next
    simp only [steps, advance, total, Pool.armed] at hs ⊢
    omega
  | act f next =>
    have hs := hsum next
    simp only [steps, advance, total] at hs ⊢
    omega
  | start r next =>
    have hs := hsum next
    have hr := (hc.worth r).steps
    simp only [steps, advance, total, List.map_append, List.sum_append, List.map_cons,
      List.map_nil, List.sum_singleton] at hs ⊢
    omega
  | branch test yes no =>
    have hs := hsum (if test p.state then yes else no)
    have hb : steps length (if test p.state then yes else no) ≤
        max (steps length yes) (steps length no) := by
      split
      · exact le_max_left _ _
      · exact le_max_right _ _
    simp only [steps, advance, total] at hs ⊢
    omega

theorem live_bounded (is : List ℕ) (p : Pool σ ρ) (h : Live code is p) :
    is.length ≤ total (steps length) p := by
  induction is generalizing p with
  | nil => exact Nat.zero_le _
  | cons i is ih =>
    obtain ⟨⟨t, hi, hd⟩, hrest⟩ := h
    have hlt := step_total hc p i t hi hd
    have hle := ih _ hrest
    rw [List.length_cons]
    omega

theorem comes_to_rest (p : Pool σ ρ) : ∃ is, Idle (run code is p) := by
  induction hn : total (steps length) p using Nat.strong_induction_on generalizing p with
  | _ n ih =>
    by_cases h : Idle p
    · exact ⟨[], h⟩
    · obtain ⟨t, ht, hd⟩ : ∃ t ∈ p.threads, t ≠ .done := by simpa [Idle] using h
      obtain ⟨i, hi⟩ := List.getElem?_of_mem ht
      obtain ⟨is, his⟩ := ih _ (hn ▸ step_total hc p i t hi hd) (step code p i) rfl
      exact ⟨i::is, his⟩

end

theorem step_idle (code : ρ → Thread σ ρ) (p : Pool σ ρ) (i : ℕ) (h : Idle p) :
    step code p i = p := by
  unfold step
  cases hi : p.threads[i]? with
  | none => rfl
  | some t =>
    rw [h t (List.mem_of_getElem? hi)]
    rfl

theorem idle_owes (price : ρ → ℕ) (p : Pool σ ρ) (h : Idle p) : total (owed price) p = 0 := by
  rw [total, List.sum_eq_zero_iff]
  intro n hn
  obtain ⟨t, ht, rfl⟩ := List.mem_map.mp hn
  rw [h t ht]
  rfl

theorem owes_idle (price : ρ → ℕ) (hpos : ∀ r, 0 < price r) (p : Pool σ ρ)
    (hf : ∀ t ∈ p.threads, Fair price t) (h : total (owed price) p = 0) : Idle p := by
  intro t ht
  by_contra hd
  have hz := List.sum_eq_zero_iff.mp h _ (List.mem_map_of_mem ht)
  have hp := fair_owes price hpos t (hf t ht) hd
  omega

/-- A latch that was set to all counts at least is zero only when nothing is
left to do. -/
theorem kept_idle (price : ρ → ℕ) (hpos : ∀ r, 0 < price r) (n sum : ℕ) (hle : sum ≤ n)
    (p : Pool σ ρ) (h : Kept price n sum p) (hz : p.latch = 0) : Idle p := by
  have hs := h.conserved
  have hl := h.latch (by omega)
  exact owes_idle price hpos p h.fair (by omega)

theorem kept_inTime (price : ρ → ℕ) (n sum : ℕ) (hle : sum ≤ n) (p : Pool σ ρ)
    (h : Kept price n sum p) : p.late = 0 := by
  have hs := h.conserved
  exact h.late (by omega)

/-- Nothing the thread does to the state itself is seen in the view. -/
def Unseen {α : Type} (view : σ → α) : Thread σ ρ → Prop
  | .done => True
  | .countDown next => Unseen view next
  | .reset _ next => Unseen view next
  | .act f next => (∀ s, view (f s) = view s) ∧ Unseen view next
  | .start _ next => Unseen view next
  | .branch _ yes no => Unseen view yes ∧ Unseen view no

/-- A thread that only counts down. -/
def Counting : Thread σ ρ → Prop
  | .done => True
  | .countDown next => Counting next
  | _ => False

theorem step_unseen {α : Type} (view : σ → α) (code : ρ → Thread σ ρ)
    (hcode : ∀ r, Unseen view (code r)) (p : Pool σ ρ) (h : ∀ t ∈ p.threads, Unseen view t)
    (i : ℕ) : view (step code p i).state = view p.state ∧
      ∀ t ∈ (step code p i).threads, Unseen view t := by
  unfold step
  cases hi : p.threads[i]? with
  | none => exact ⟨rfl, h⟩
  | some t =>
    have ht := h t (List.mem_of_getElem? hi)
    cases t with
    | done => exact ⟨rfl, h⟩
    | countDown next => exact ⟨rfl, forall_mem_set _ _ _ _ h ht⟩
    | reset n next => exact ⟨rfl, forall_mem_set _ _ _ _ h ht⟩
    | act f next => exact ⟨ht.1 p.state, forall_mem_set _ _ _ _ h ht.2⟩
    | start r next => exact ⟨rfl, forall_mem_started _ _ _ next _ h ht (hcode r)⟩
    | branch test yes no =>
      refine ⟨rfl, forall_mem_set _ _ _ _ h ?_⟩
      split
      · exact ht.1
      · exact ht.2

theorem step_counting (code : ρ → Thread σ ρ) (p : Pool σ ρ) (h : ∀ t ∈ p.threads, Counting t)
    (i : ℕ) : (step code p i).state = p.state ∧ ∀ t ∈ (step code p i).threads, Counting t := by
  unfold step
  cases hi : p.threads[i]? with
  | none => exact ⟨rfl, h⟩
  | some t =>
    have ht := h t (List.mem_of_getElem? hi)
    cases t with
    | done => exact ⟨rfl, h⟩
    | countDown next => exact ⟨rfl, forall_mem_set _ _ _ _ h ht⟩
    | reset n next => cases ht
    | act f next => cases ht
    | start r next => cases ht
    | branch test yes no => cases ht

end CountingLatch
