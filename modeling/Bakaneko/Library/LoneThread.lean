import Bakaneko.Library.CountingLatch

/-!
# A thread alone at its latch

A thread that finds the latch at zero, and all others ended, sets it and does
acts and tests before it counts. No other thread can come between these steps,
so that the pool goes on as from the one in which they are done. Two threads
that have both found the latch at zero count for one setting of it together.
-/

set_option autoImplicit false

namespace CountingLatch

variable {σ ρ : Type}

/-- The thread goes on with an act or a test. -/
def acts : Thread σ ρ → Bool
  | .act _ _ => true
  | .branch _ _ _ => true
  | _ => false

/-- What the acts and tests at the head of a thread make of the state, and the
thread behind them. -/
def acted : Thread σ ρ → σ → σ
  | .act f next, s => acted next (f s)
  | .branch test yes no, s => if test s then acted yes s else acted no s
  | _, s => s

def behind : Thread σ ρ → σ → Thread σ ρ
  | .act f next, s => behind next (f s)
  | .branch test yes no, s => if test s then behind yes s else behind no s
  | t, _ => t

/-- The pool when the acts and tests at the head of thread `k` have been done. -/
def settled (p : Pool σ ρ) (k : ℕ) (t : Thread σ ρ) : Pool σ ρ :=
  { p with state := acted t p.state, threads := p.threads.set k (behind t p.state) }

/-- The only thread that has not ended. -/
structure Lone (p : Pool σ ρ) (k : ℕ) (t : Thread σ ρ) : Prop where
  here : p.threads[k]? = some t
  others : ∀ i u, p.threads[i]? = some u → i ≠ k → u = .done

/-- A thread that enters among threads that have ended is the only one. -/
theorem enter_lone (p : Pool σ ρ) (t : Thread σ ρ) (h : Idle p) :
    Lone (p.enter t) p.threads.length t := by
  refine ⟨List.getElem?_concat_length, fun i u hu hi => ?_⟩
  have hlt := (List.getElem?_eq_some_iff.mp hu).1
  rw [Pool.enter, List.length_append, List.length_singleton] at hlt
  rw [Pool.enter, List.getElem?_append_left (by omega)] at hu
  exact h u (List.mem_of_getElem? hu)

theorem lone_set_threads (p : Pool σ ρ) (k : ℕ) (t u : Thread σ ρ) (h : Lone p k t) :
    ∀ v ∈ p.threads.set k u, v = .done ∨ v = u := by
  intro v hv
  obtain ⟨i, hi⟩ := List.mem_iff_getElem?.mp hv
  by_cases hik : i = k
  · obtain ⟨hk, -⟩ := List.getElem?_eq_some_iff.mp h.here
    rw [hik, List.getElem?_set_self hk] at hi
    exact .inr (Option.some.inj hi).symm
  · rw [List.getElem?_set_ne (Ne.symm hik)] at hi
    exact .inl (h.others i v hi hik)

theorem lone_total (f : Thread σ ρ → ℕ) (hf : f .done = 0) (p : Pool σ ρ) (k : ℕ)
    (t : Thread σ ρ) (h : Lone p k t) : total f p = f t := by
  have hset := sum_set f p.threads k t .done h.here
  have hzero : ((p.threads.set k .done).map f).sum = 0 := by
    rw [List.sum_eq_zero_iff]
    intro n hn
    obtain ⟨v, hv, rfl⟩ := List.mem_map.mp hn
    rw [(or_self_iff).mp (lone_set_threads p k t .done h v hv)]
    exact hf
  rw [total]
  omega

/-- The step of another thread changes nothing. -/
theorem lone_aside (code : ρ → Thread σ ρ) (p : Pool σ ρ) (k : ℕ) (t : Thread σ ρ)
    (h : Lone p k t) (i : ℕ) (hik : i ≠ k) : step code p i = p := by
  unfold step
  cases hi : p.threads[i]? with
  | none => rfl
  | some u =>
    rw [h.others i u hi hik]
    rfl

/-- The other threads have ended, and this one is now this far. -/
theorem Lone.set {p : Pool σ ρ} {k : ℕ} {t : Thread σ ρ} (h : Lone p k t) (q : Pool σ ρ)
    (u : Thread σ ρ) (hq : q.threads = p.threads.set k u) : Lone q k u := by
  refine ⟨?_, fun j v hv hj => ?_⟩
  · rw [hq]
    exact List.getElem?_set_self (List.getElem?_eq_some_iff.mp h.here).1
  · rw [hq, List.getElem?_set_ne (Ne.symm hj)] at hv
    exact h.others j v hv hj

/-- A step of a pool with one thread leads to the same settled pool, if the
thread goes on with an act or a test. -/
theorem lone_acts (code : ρ → Thread σ ρ) (p : Pool σ ρ) (k : ℕ) (t : Thread σ ρ)
    (h : Lone p k t) (ht : acts t = true) : ∃ u, Lone (step code p k) k u ∧
      behind u (step code p k).state = behind t p.state ∧
      settled (step code p k) k u = settled p k t := by
  rw [step, h.here]
  cases t with
  | act f next =>
    refine ⟨next, h.set _ _ rfl, rfl, ?_⟩
    simp only [settled, advance, acted, behind, List.set_set]
  | branch test yes no =>
    refine ⟨if test p.state then yes else no, h.set _ _ rfl, ?_, ?_⟩
    · simp only [advance, behind]
      split <;> rfl
    · simp only [settled, advance, acted, behind, List.set_set]
      split <;> rfl
  | _ => cases ht

/-- Without acts and tests at its head the thread has settled. -/
theorem lone_settled (p : Pool σ ρ) (k : ℕ) (t : Thread σ ρ) (h : Lone p k t)
    (ht : acts t = false) : settled p k t = p := by
  have hacted : acted t p.state = p.state ∧ behind t p.state = t := by
    cases t with
    | act f next => cases ht
    | branch test yes no => cases ht
    | _ => exact ⟨rfl, rfl⟩
  obtain ⟨hk, rfl⟩ := List.getElem?_eq_some_iff.mp h.here
  rw [settled, hacted.1, hacted.2, List.set_getElem_self]

/-- A pool with `Q`, or one that a lone thread leads there, by the acts and
tests at its head or by setting the latch in front of them. A thread that is to
set it waits with `T`. -/
inductive Nearing (T : Pool σ ρ → Thread σ ρ → Prop) (Q : Pool σ ρ → Prop) (n : ℕ)
    (p : Pool σ ρ) : Prop where
  | reached (h : Q p)
  | ahead (k : ℕ) (t : Thread σ ρ) (lone : Lone p k t) (live : behind t p.state ≠ .done)
    (h : Q (settled p k t))
  | waiting (k : ℕ) (t : Thread σ ρ) (lone : Lone p k (.reset n t)) (own : T p t)
    (live : behind t p.state ≠ .done) (h : Q (settled (p.armed n) k t))

section
variable {code : ρ → Thread σ ρ} {T : Pool σ ρ → Thread σ ρ → Prop} {Q : Pool σ ρ → Prop} {n : ℕ}

theorem nearing_step (hQ : ∀ p i, Q p → Q (step code p i)) (p : Pool σ ρ) (i : ℕ)
    (h : Nearing T Q n p) : Nearing T Q n (step code p i) := by
  cases h with
  | reached h => exact .reached (hQ p i h)
  | ahead k t lone live h =>
    by_cases hik : i = k
    · subst hik
      by_cases ht : acts t = true
      · obtain ⟨u, hlone, hbehind, hsettled⟩ := lone_acts code p i t lone ht
        exact .ahead i u hlone (hbehind ▸ live) (hsettled.symm ▸ h)
      · rw [lone_settled p i t lone (Bool.eq_false_iff.mpr ht)] at h
        exact .reached (hQ p i h)
    · rw [lone_aside code p k t lone i hik]
      exact .ahead k t lone live h
  | waiting k t lone own live h =>
    by_cases hik : i = k
    · subst hik
      have hset : step code p i = { p.armed n with threads := p.threads.set i t } := by
        rw [step, lone.here]
        rfl
      rw [hset]
      refine .ahead i t (lone.set _ t rfl) live ?_
      rw [settled] at h ⊢
      simpa only [Pool.armed, List.set_set] using h
    · rw [lone_aside code p k _ lone i hik]
      exact .waiting k t lone own live h

theorem nearing_run (hQ : ∀ p i, Q p → Q (step code p i)) (is : List ℕ) (p : Pool σ ρ)
    (h : Nearing T Q n p) : Nearing T Q n (run code is p) := by
  induction is generalizing p with
  | nil => exact h
  | cons i is ih => exact ih _ (nearing_step hQ p i h)

theorem lone_live (p : Pool σ ρ) (k : ℕ) (t : Thread σ ρ) (h : Lone p k t)
    (ht : t ≠ .done) : ¬ Idle p :=
  fun hidle => ht (hidle t (List.mem_of_getElem? h.here))

theorem nearing_idle (p : Pool σ ρ) (h : Nearing T Q n p) (hidle : Idle p) : Q p := by
  cases h with
  | reached h => exact h
  | ahead k t lone live h =>
    refine absurd hidle (lone_live p k t lone ?_)
    rintro rfl
    exact live rfl
  | waiting k t lone own live h => exact absurd hidle (lone_live p k _ lone nofun)

/-- At zero all threads have ended, or the only one left is to set the latch. -/
theorem nearing_zero (hQ : ∀ p, Q p → p.latch = 0 → Idle p) (p : Pool σ ρ) (h : Nearing T Q n p)
    (hz : p.latch = 0) :
    (Q p ∧ Idle p) ∨ ∃ k t, T p t ∧ Lone p k (.reset n t) := by
  cases h with
  | reached h => exact .inl ⟨h, hQ p h hz⟩
  | ahead k t lone live h =>
    have hk := (List.getElem?_eq_some_iff.mp lone.here).1
    have hidle := hQ _ h hz (behind t p.state)
      (List.mem_of_getElem? (List.getElem?_set_self hk))
    exact absurd hidle live
  | waiting k t lone own live h => exact .inr ⟨k, t, own, lone⟩

theorem nearing_inTime (hQ : ∀ p, Q p → p.late = 0) (hT : ∀ p t, T p t → p.late = 0)
    (p : Pool σ ρ) (h : Nearing T Q n p) : p.late = 0 := by
  cases h with
  | reached h => exact hQ p h
  | ahead k t lone live h => exact hQ (settled p k t) h
  | waiting k t lone own live h => exact hT p t own

/-- A thread enters that is to set the latch, among threads that have ended. -/
theorem enter_nearing (p : Pool σ ρ) (t : Thread σ ρ) (hp : Idle p)
    (own : T (p.enter (.reset n t)) t) (live : behind t p.state ≠ .done)
    (h : Q (settled ((p.enter (.reset n t)).armed n) p.threads.length t)) :
    Nearing T Q n (p.enter (.reset n t)) :=
  .waiting p.threads.length t (enter_lone p _ hp) own live h

end

section
variable {price length : ρ → ℕ} {counts time : ℕ}

/-- What the lone thread owes behind its acts and tests, all threads owe. -/
theorem settled_kept (n : ℕ) (p : Pool σ ρ) (k : ℕ) (t u : Thread σ ρ) (hlone : Lone p k u)
    (ht : Worth price length counts time (behind t p.state)) :
    Kept price n counts (settled (p.armed n) k t) := by
  have hone : Lone (settled (p.armed n) k t) k (behind t p.state) := hlone.set _ _ rfl
  refine ⟨fun v hv => ?_, ?_, fun _ => rfl, fun _ => rfl⟩
  · rcases lone_set_threads p k u _ hlone v hv with rfl | rfl
    · trivial
    · exact ht.fair
  · rw [lone_total (owed price) rfl _ k _ hone, ht.owed]
    exact Nat.zero_add counts

theorem enter_kept {T : Pool σ ρ → Thread σ ρ → Prop} (n : ℕ) (p : Pool σ ρ) (t : Thread σ ρ)
    (hp : Idle p) (own : T (p.enter (.reset n t)) t)
    (ht : Worth price length counts time (behind t p.state)) :
    Nearing T (Kept price n counts) n (p.enter (.reset n t)) :=
  enter_nearing p t hp own ht.live
    (settled_kept n (p.enter (.reset n t)) _ t _ (enter_lone p _ hp) ht)

/-- A thread that sets the latch among ended ones makes it do what it is for
exactly when it sets it to what it owes behind its acts and tests. -/
theorem settles_iff {code : ρ → Thread σ ρ} (hc : Priced code price length) (n : ℕ)
    (p : Pool σ ρ) (t : Thread σ ρ) (hp : Idle p) (hl : p.late = 0)
    (ht : Worth price length counts time (behind t p.state)) :
    Settles code n (p.enter (.reset n t)) ↔ counts = n := by
  have hrun := fun is => nearing_run (fun p i => step_kept hc n counts p i) is _
    (enter_kept (T := fun p _ => p.late = 0) n p t hp hl ht)
  constructor
  · intro h
    obtain ⟨is, his⟩ := comes_to_rest hc (p.enter (.reset n t))
    have hk := (nearing_idle _ (hrun is) his).conserved
    rw [(h.counts is his).1, idle_owes price _ his] at hk
    omega
  · rintro rfl
    refine ⟨⟨_, fun is => live_bounded hc is _⟩, fun is his => ?_, fun is => ?_, fun is hz => ?_⟩
    · have hk := nearing_idle _ (hrun is) his
      have hs := hk.conserved
      rw [idle_owes price _ his] at hs
      exact ⟨by omega, (hk.latch (by omega)).trans (by omega)⟩
    · exact nearing_inTime (kept_inTime price _ _ le_rfl) (fun _ _ => id) _ (hrun is)
    · intro u hu
      rcases nearing_zero (kept_idle price hc.positive _ _ le_rfl) _ (hrun is) hz with
        ⟨-, hidle⟩ | ⟨k, v, -, hlone⟩
      · exact .inl (hidle u hu)
      · obtain ⟨i, hi⟩ := List.mem_iff_getElem?.mp hu
        by_cases hik : i = k
        · rw [hik, hlone.here] at hi
          cases hi
          exact .inr rfl
        · exact .inl (hlone.others i u hi hik)

end

/-- The thread, and none it starts, sets the latch. -/
def Plain : Thread σ ρ → Prop
  | .done => True
  | .countDown next => Plain next
  | .reset _ _ => False
  | .act _ next => Plain next
  | .start _ next => Plain next
  | .branch _ yes no => Plain yes ∧ Plain no

/-- The counts a thread comes to at least, each thread that it starts with one. -/
def least : Thread σ ρ → ℕ
  | .done => 0
  | .countDown next => least next+1
  | .reset _ _ => 0
  | .act _ next => least next
  | .start _ next => least next+1
  | .branch _ yes no => min (least yes) (least no)

theorem fair_least {price : ρ → ℕ} (t : Thread σ ρ) (h : Fair price t) (ht : t ≠ .done) :
    Plain t ∧ 1 ≤ least t := by
  have hplain : ∀ u : Thread σ ρ, Fair price u → Plain u := by
    intro u hu
    induction u with
    | done => trivial
    | countDown next ih => exact ih hu
    | reset n next _ => cases hu
    | act f next ih => exact ih hu.2
    | start r next ih => exact ih hu
    | branch test yes no ihyes ihno => exact ⟨ihyes hu.2.2.1, ihno hu.2.2.2⟩
  refine ⟨hplain t h, ?_⟩
  induction t with
  | done => exact absurd rfl ht
  | countDown next _ => exact Nat.succ_le_succ (Nat.zero_le _)
  | reset n next _ => cases h
  | act f next ih => exact ih h.2 h.1
  | start r next _ => exact Nat.succ_le_succ (Nat.zero_le _)
  | branch test yes no ihyes ihno =>
    exact le_min (ihyes h.2.2.1 h.1.1) (ihno h.2.2.2 h.1.2)

section
variable {code : ρ → Thread σ ρ} {price length : ρ → ℕ} (hc : Priced code price length)
include hc

theorem code_least (r : ρ) : Plain (code r) ∧ 1 ≤ least (code r) :=
  fair_least _ (hc.worth r).fair (hc.worth r).live

/-- The counts made and the least to come never become fewer. -/
theorem step_least (p : Pool σ ρ) (i : ℕ) (h : ∀ t ∈ p.threads, Plain t) :
    (∀ t ∈ (step code p i).threads, Plain t) ∧
      p.counted+total least p ≤ (step code p i).counted+total least (step code p i) := by
  unfold step
  cases hi : p.threads[i]? with
  | none => exact ⟨h, le_rfl⟩
  | some t =>
    have ht := h t (List.mem_of_getElem? hi)
    have hsum := fun u => sum_set least p.threads i t u hi
    cases t with
    | done => exact ⟨h, le_rfl⟩
    | countDown next =>
      have hs := hsum next
      refine ⟨forall_mem_set _ _ _ _ h ht, ?_⟩
      simp only [least, advance, total] at hs ⊢
      omega
    | reset n next => cases ht
    | act f next =>
      have hs := hsum next
      refine ⟨forall_mem_set _ _ _ _ h ht, ?_⟩
      simp only [least, advance, total] at hs ⊢
      omega
    | start r next =>
      have hs := hsum next
      obtain ⟨hplain, hone⟩ := code_least hc r
      refine ⟨forall_mem_started _ _ _ next _ h ht hplain, ?_⟩
      simp only [least, advance, total, List.map_append, List.sum_append, List.map_cons,
        List.map_nil, List.sum_singleton] at hs ⊢
      omega
    | branch test yes no =>
      have hs := hsum (if test p.state then yes else no)
      refine ⟨forall_mem_set _ _ _ _ h ?_, ?_⟩
      · split
        · exact ht.1
        · exact ht.2
      · have hmin : min (least yes) (least no) ≤ least (if test p.state then yes else no) := by
          split
          · exact min_le_left _ _
          · exact min_le_right _ _
        simp only [least, advance, total] at hs ⊢
        omega

theorem run_least (is : List ℕ) (p : Pool σ ρ) (h : ∀ t ∈ p.threads, Plain t) :
    p.counted+total least p ≤ (run code is p).counted+total least (run code is p) := by
  induction is generalizing p with
  | nil => exact le_rfl
  | cons i is ih =>
    obtain ⟨hplain, hle⟩ := step_least hc p i h
    exact hle.trans (ih _ hplain)

omit hc in
theorem run_twice (n : ℕ) (p : Pool σ ρ) (k : ℕ) (t u : Thread σ ρ)
    (hk : p.threads[k]? = some (.reset n t)) :
    run code [k, p.threads.length] (p.enter (.reset n u)) =
      { p.armed n with threads := p.threads.set k t++[u] } := by
  have hlt := (List.getElem?_eq_some_iff.mp hk).1
  have hlen : (p.threads.set k t).length = p.threads.length := List.length_set
  have hfirst : step code (p.enter (.reset n u)) k =
      { p.armed n with threads := p.threads.set k t++[.reset n u] } := by
    rw [step, Pool.enter, List.getElem?_append_left hlt, hk]
    simp only [advance, Pool.armed, List.set_append_left _ _ hlt]
  have hsecond : (p.threads.set k t++[.reset n u])[p.threads.length]? = some (.reset n u) := by
    rw [← hlen]
    exact List.getElem?_concat_length
  rw [run, List.foldl_cons, List.foldl_cons, List.foldl_nil, hfirst, step, hsecond]
  simp only [advance, Pool.armed, List.set_append_right _ _ hlen.le, hlen, Nat.sub_self,
    List.set_cons_zero]

/-- A thread that enters while another is to set the latch: both set it, one
behind the other, and then count for one setting. -/
theorem entered_twice (n : ℕ) (p : Pool σ ρ) (k : ℕ) (t u : Thread σ ρ)
    (hlone : Lone p k (.reset n t)) (ht : Plain t) (hu : Plain u) (hn : n < least t+least u) :
    ¬ Settles code n (p.enter (.reset n u)) := by
  intro h
  obtain ⟨q, hq⟩ : ∃ q, run code [k, p.threads.length] (p.enter (.reset n u)) = q := ⟨_, rfl⟩
  have htwice := @run_twice _ _ code n p k t u hlone.here
  have hthreads : q.threads = p.threads.set k t++[u] := by
    rw [← hq, htwice]
  have hcounted : q.counted = 0 := by
    rw [← hq, htwice]
    rfl
  have hplain : ∀ v ∈ q.threads, Plain v := by
    intro v hv
    rw [hthreads] at hv
    rcases List.mem_append.mp hv with hv | hv
    · rcases lone_set_threads p k _ t hlone v hv with rfl | rfl
      · trivial
      · exact ht
    · rw [List.mem_singleton.mp hv]
      exact hu
  have htotal : total least q = least t+least u := by
    have hfirst : ((p.threads.set k t).map least).sum = least t :=
      lone_total least rfl { p with threads := p.threads.set k t } k t (hlone.set _ t rfl)
    rw [total, hthreads, List.map_append, List.sum_append, hfirst, List.map_singleton,
      List.sum_singleton]
  obtain ⟨is, his⟩ := comes_to_rest hc q
  have hrest : total least (run code is q) = 0 := by
    rw [total, List.sum_eq_zero_iff]
    intro m hm
    obtain ⟨v, hv, rfl⟩ := List.mem_map.mp hm
    rw [his v hv]
    rfl
  have hrun : run code ([k, p.threads.length]++is) (p.enter (.reset n u)) = run code is q := by
    rw [← hq, run, run, run, List.foldl_append]
  have hcounts := (h.counts ([k, p.threads.length]++is) (by rw [hrun]; exact his)).1
  have hleast := run_least hc is q hplain
  rw [hrun] at hcounts
  omega

end

end CountingLatch
