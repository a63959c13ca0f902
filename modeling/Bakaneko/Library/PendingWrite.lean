import Bakaneko.Library.LoneThread

/-!
# Writes that are still to come

A property of the state that one thread is still to bring about, and that all
others leave alone, holds when the threads have ended, in whatever order they
take their steps. A thread that does not act asks for what the state, as it
stands, lets it ask for.
-/

set_option autoImplicit false

namespace PendingWrite
open CountingLatch

variable {σ ρ : Type}

/-- What one step of a thread makes of the state and leaves of the thread, and
the request it starts. -/
def written (s : σ) : Thread σ ρ → σ
  | .act f _ => f s
  | _ => s

def rest (s : σ) : Thread σ ρ → Thread σ ρ
  | .done => .done
  | .countDown next => next
  | .reset _ next => next
  | .act _ next => next
  | .start _ next => next
  | .branch test yes no => if test s then yes else no

def asked : Thread σ ρ → List ρ
  | .start r _ => [r]
  | _ => []

section
variable (code : ρ → Thread σ ρ)

def started (p : Pool σ ρ) (i : ℕ) : List ρ := (p.threads[i]?.map asked).getD []

/-- The requests that are started along a schedule. -/
def requests : List ℕ → Pool σ ρ → List ρ
  | [], _ => []
  | i::is, p => started p i++requests is (step code p i)

theorem step_shape (p : Pool σ ρ) (i : ℕ) (t : Thread σ ρ) (h : p.threads[i]? = some t) :
    (step code p i).state = written p.state t ∧
      (step code p i).threads = p.threads.set i (rest p.state t)++(asked t).map code := by
  rw [step, h]
  cases t with
  | done =>
    obtain ⟨hi, hdone⟩ := List.getElem?_eq_some_iff.mp h
    refine ⟨rfl, ?_⟩
    rw [rest, ← hdone, List.set_getElem_self, hdone]
    exact (List.append_nil _).symm
  | start r next => exact ⟨rfl, rfl⟩
  | countDown next => exact ⟨rfl, (List.append_nil _).symm⟩
  | reset n next => exact ⟨rfl, (List.append_nil _).symm⟩
  | act f next => exact ⟨rfl, (List.append_nil _).symm⟩
  | branch test yes no => exact ⟨rfl, (List.append_nil _).symm⟩

/-- A thread after a step is the one that took it, another as it was, or a new
one. -/
theorem thread_after (threads : List (Thread σ ρ)) (i : ℕ) (t : Thread σ ρ) (rs : List ρ) (j : ℕ)
    (u : Thread σ ρ) (h : (threads.set i t++rs.map code)[j]? = some u) :
    (j = i ∧ u = t) ∨ (j ≠ i ∧ threads[j]? = some u) ∨
      (threads.length ≤ j ∧ ∃ r ∈ rs, u = code r) := by
  by_cases hj : j < threads.length
  · rw [List.getElem?_append_left (by simpa using hj)] at h
    by_cases hji : j = i
    · rw [hji, List.getElem?_set_self (hji ▸ hj)] at h
      exact .inl ⟨hji, (Option.some.inj h).symm⟩
    · rw [List.getElem?_set_ne (Ne.symm hji)] at h
      exact .inr (.inl ⟨hji, h⟩)
  · rw [List.getElem?_append_right (by simpa using hj)] at h
    obtain ⟨r, hr, rfl⟩ := List.mem_map.mp (List.mem_of_getElem? h)
    exact .inr (.inr ⟨Nat.le_of_not_lt hj, r, hr, rfl⟩)

omit code in
theorem thread_self (threads us : List (Thread σ ρ)) (i : ℕ) (t u : Thread σ ρ)
    (h : threads[i]? = some u) : (threads.set i t++us)[i]? = some t := by
  have hi := (List.getElem?_eq_some_iff.mp h).1
  rw [List.getElem?_append_left (by simpa using hi), List.getElem?_set_self hi]

omit code in
theorem thread_other (threads us : List (Thread σ ρ)) (i k : ℕ) (t u : Thread σ ρ)
    (h : threads[k]? = some u) (hk : i ≠ k) : (threads.set i t++us)[k]? = some u := by
  have hlt := (List.getElem?_eq_some_iff.mp h).1
  rw [List.getElem?_append_left (by simpa using hlt), List.getElem?_set_ne hk, h]

theorem lone_rest (p : Pool σ ρ) (k : ℕ) (t u : Thread σ ρ) (h : Lone p k t)
    (hu : Lone (step code p k) k u) : u = rest p.state t := by
  have hself := thread_self p.threads ((asked t).map code) k (rest p.state t) t h.here
  rw [← (step_shape code p k t h.here).2, hu.here] at hself
  exact Option.some.inj hself

end

section
variable (P : σ → Prop) (leaves brings : ρ → Prop)

/-- Nothing a thread does, or starts, ends the property. -/
def Leaves : Thread σ ρ → Prop
  | .done => True
  | .countDown next => Leaves next
  | .reset _ next => Leaves next
  | .act f next => (∀ s, P s → P (f s)) ∧ Leaves next
  | .start r next => leaves r ∧ Leaves next
  | .branch _ yes no => Leaves yes ∧ Leaves no

/-- A thread, or one it starts, is still to bring the property about. -/
def Brings : Thread σ ρ → Prop
  | .done => False
  | .countDown next => Brings next
  | .reset _ next => Brings next
  | .act f next => ((∀ s, P (f s)) ∧ Leaves P leaves next) ∨ Brings next
  | .start r next => (brings r ∧ Leaves P leaves next) ∨ (leaves r ∧ Brings next)
  | .branch _ yes no => Brings yes ∧ Brings no

/-- The property holds and is left alone, or one thread is to bring it about
and the others leave it alone. -/
def Due (p : Pool σ ρ) : Prop :=
  (P p.state ∧ ∀ t ∈ p.threads, Leaves P leaves t) ∨
    ∃ (k : ℕ) (t : Thread σ ρ), p.threads[k]? = some t ∧ Brings P leaves brings t ∧
      ∀ (i : ℕ) (u : Thread σ ρ), p.threads[i]? = some u → i ≠ k → Leaves P leaves u

end

section
variable {P : σ → Prop} {leaves brings : ρ → Prop}

theorem due_idle (p : Pool σ ρ) (h : Due P leaves brings p) (hidle : Idle p) : P p.state := by
  rcases h with h | ⟨k, t, hk, ht, -⟩
  · exact h.1
  · rw [hidle t (List.mem_of_getElem? hk)] at ht
    cases ht

/-- What is not seen ends no property of what is seen. -/
theorem leaves_unseen {α : Type} (view : σ → α) (hview : ∀ s t, view s = view t → P s → P t)
    (t : Thread σ ρ) (h : Unseen view t) : Leaves P (fun _ => True) t := by
  induction t with
  | done => trivial
  | countDown next ih => exact ih h
  | reset n next ih => exact ih h
  | act f next ih => exact ⟨fun s => hview s (f s) (h.1 s).symm, ih h.2⟩
  | start r next ih => exact ⟨trivial, ih h⟩
  | branch test yes no ihyes ihno => exact ⟨ihyes h.1, ihno h.2⟩

/-- The property holds behind the acts and tests of a lone thread, and what is
left of the thread leaves it alone. -/
theorem settled_leaves (p : Pool σ ρ) (k : ℕ) (t u : Thread σ ρ) (hlone : Lone p k u)
    (hp : P (acted t p.state)) (ht : Leaves P leaves (behind t p.state)) :
    Due P leaves brings (settled p k t) := by
  refine .inl ⟨hp, fun v hv => ?_⟩
  rcases lone_set_threads p k u _ hlone v hv with rfl | rfl
  · trivial
  · exact ht

theorem settled_brings (p : Pool σ ρ) (k : ℕ) (t u : Thread σ ρ) (hlone : Lone p k u)
    (ht : Brings P leaves brings (behind t p.state)) : Due P leaves brings (settled p k t) := by
  have hone : Lone (settled p k t) k (behind t p.state) := hlone.set _ _ rfl
  refine .inr ⟨k, _, hone.here, ht, fun i v hv hi => ?_⟩
  rw [hone.others i v hv hi]
  trivial

section
variable {code : ρ → Thread σ ρ} (hleaves : ∀ r, leaves r → Leaves P leaves (code r))
include hleaves

theorem leaves_step (s : σ) (t : Thread σ ρ) (h : Leaves P leaves t) :
    (P s → P (written s t)) ∧ Leaves P leaves (rest s t) ∧
      ∀ r ∈ asked t, Leaves P leaves (code r) := by
  cases t with
  | done => exact ⟨id, trivial, List.forall_mem_nil _⟩
  | countDown next => exact ⟨id, h, List.forall_mem_nil _⟩
  | reset n next => exact ⟨id, h, List.forall_mem_nil _⟩
  | act f next => exact ⟨h.1 s, h.2, List.forall_mem_nil _⟩
  | start r next =>
    refine ⟨id, h.2, fun r' hr => ?_⟩
    rw [List.mem_singleton.mp hr]
    exact hleaves r h.1
  | branch test yes no =>
    refine ⟨id, ?_, List.forall_mem_nil _⟩
    rw [rest]
    split
    · exact h.1
    · exact h.2

/-- The write is done, or still to be done by the thread or the one it has
started. -/
theorem brings_step (hbrings : ∀ r, brings r → Brings P leaves brings (code r)) (s : σ)
    (t : Thread σ ρ) (h : Brings P leaves brings t) :
    (P (written s t) ∧ Leaves P leaves (rest s t) ∧ asked t = []) ∨
    (Brings P leaves brings (rest s t) ∧ ∀ r ∈ asked t, Leaves P leaves (code r)) ∨
    (Leaves P leaves (rest s t) ∧ ∃ r, asked t = [r] ∧ Brings P leaves brings (code r)) := by
  cases t with
  | done => cases h
  | countDown next => exact .inr (.inl ⟨h, List.forall_mem_nil _⟩)
  | reset n next => exact .inr (.inl ⟨h, List.forall_mem_nil _⟩)
  | act f next =>
    rcases h with ⟨hf, hnext⟩ | hnext
    · exact .inl ⟨hf s, hnext, rfl⟩
    · exact .inr (.inl ⟨hnext, List.forall_mem_nil _⟩)
  | start r next =>
    rcases h with ⟨hr, hnext⟩ | ⟨hr, hnext⟩
    · exact .inr (.inr ⟨hnext, r, rfl, hbrings r hr⟩)
    · refine .inr (.inl ⟨hnext, fun r' hr' => ?_⟩)
      rw [List.mem_singleton.mp hr']
      exact hleaves r hr
  | branch test yes no =>
    refine .inr (.inl ⟨?_, List.forall_mem_nil _⟩)
    rw [rest]
    split
    · exact h.1
    · exact h.2

theorem step_leaves (p : Pool σ ρ) (i : ℕ) (hp : P p.state)
    (h : ∀ t ∈ p.threads, Leaves P leaves t) :
    P (step code p i).state ∧ ∀ t ∈ (step code p i).threads, Leaves P leaves t := by
  cases hi : p.threads[i]? with
  | none =>
    rw [step, hi]
    exact ⟨hp, h⟩
  | some t =>
    obtain ⟨hstate, hrest, hasked⟩ := leaves_step hleaves p.state t (h t (List.mem_of_getElem? hi))
    obtain ⟨hs, ht⟩ := step_shape code p i t hi
    rw [hs, ht]
    refine ⟨hstate hp, fun u hu => ?_⟩
    rcases List.mem_append.mp hu with hu | hu
    · exact forall_mem_set _ _ _ _ h hrest u hu
    · obtain ⟨r, hr, rfl⟩ := List.mem_map.mp hu
      exact hasked r hr

section
variable (p : Pool σ ρ) (k : ℕ) (t : Thread σ ρ) (hk : p.threads[k]? = some t)
  (ht : Brings P leaves brings t)
  (hothers : ∀ (i : ℕ) (u : Thread σ ρ), p.threads[i]? = some u → i ≠ k → Leaves P leaves u)
include hk ht hothers

/-- The thread that is to write takes a step. -/
theorem step_bringing (hbrings : ∀ r, brings r → Brings P leaves brings (code r)) :
    Due P leaves brings (step code p k) := by
  obtain ⟨hs, hthreads⟩ := step_shape code p k t hk
  rw [Due, hs, hthreads]
  rcases brings_step hleaves hbrings p.state t ht with ⟨hp, hrest, hasked⟩ |
    ⟨hrest, hasked⟩ | ⟨hrest, r, hasked, hr⟩
  · refine .inl ⟨hp, fun u hu => ?_⟩
    obtain ⟨j, hj⟩ := List.mem_iff_getElem?.mp hu
    rcases thread_after code _ _ _ _ j u hj with ⟨-, rfl⟩ | ⟨hjk, hu⟩ | ⟨-, r, hr, -⟩
    · exact hrest
    · exact hothers j u hu hjk
    · rw [hasked] at hr
      cases hr
  · refine .inr ⟨k, _, thread_self _ _ _ _ _ hk, hrest, fun j u hj hjk => ?_⟩
    rcases thread_after code _ _ _ _ j u hj with ⟨rfl, -⟩ | ⟨-, hu⟩ | ⟨-, r, hr, rfl⟩
    · exact absurd rfl hjk
    · exact hothers j u hu hjk
    · exact hasked r hr
  · rw [hasked]
    refine .inr ⟨p.threads.length, code r, by simp, hr, fun j u hj hlast => ?_⟩
    rcases thread_after code _ _ _ _ j u hj with ⟨-, rfl⟩ | ⟨hjk, hu⟩ | ⟨hle, -⟩
    · exact hrest
    · exact hothers j u hu hjk
    · have hlt := (List.getElem?_eq_some_iff.mp hj).1
      simp only [List.length_append, List.length_set, List.map_singleton,
        List.length_singleton] at hlt
      omega

/-- Another thread takes a step. -/
theorem step_aside (i : ℕ) (hik : i ≠ k) : Due P leaves brings (step code p i) := by
  cases hi : p.threads[i]? with
  | none =>
    rw [step, hi]
    exact .inr ⟨k, t, hk, ht, hothers⟩
  | some u =>
    obtain ⟨-, hrest, hasked⟩ := leaves_step hleaves p.state u (hothers i u hi hik)
    obtain ⟨hs, hthreads⟩ := step_shape code p i u hi
    rw [Due, hs, hthreads]
    refine .inr ⟨k, t, thread_other _ _ _ _ _ _ hk hik, ht, fun j v hj hjk => ?_⟩
    rcases thread_after code _ _ _ _ j v hj with ⟨-, rfl⟩ | ⟨-, hv⟩ | ⟨-, r, hr, rfl⟩
    · exact hrest
    · exact hothers j v hv hjk
    · exact hasked r hr

end

theorem step_due (hbrings : ∀ r, brings r → Brings P leaves brings (code r)) (p : Pool σ ρ) (i : ℕ)
    (h : Due P leaves brings p) : Due P leaves brings (step code p i) := by
  rcases h with ⟨hp, h⟩ | ⟨k, t, hk, ht, hothers⟩
  · exact .inl (step_leaves hleaves p i hp h)
  · by_cases hik : i = k
    · rw [hik]
      exact step_bringing hleaves p k t hk ht hothers hbrings
    · exact step_aside hleaves p k t hk ht hothers i hik

end

end

section
variable (code : ρ → Thread σ ρ)

/-- A thread that does not act and starts only requests that count down. -/
def Asks : Thread σ ρ → Prop
  | .done => True
  | .countDown next => Asks next
  | .reset _ next => Asks next
  | .act _ _ => False
  | .start r next => Counting (code r) ∧ Asks next
  | .branch _ yes no => Asks yes ∧ Asks no

/-- The requests it starts where the state stays as it is. -/
def asks (s : σ) : Thread σ ρ → List ρ
  | .done => []
  | .countDown next => asks s next
  | .reset _ next => asks s next
  | .act _ next => asks s next
  | .start r next => r::asks s next
  | .branch test yes no => if test s then asks s yes else asks s no

variable {code}

theorem asks_step (s : σ) (t : Thread σ ρ) (h : Asks code t) : written s t = s ∧
    Asks code (rest s t) ∧ (∀ r ∈ asked t, Counting (code r)) ∧
      asked t++asks s (rest s t) = asks s t := by
  cases t with
  | done => exact ⟨rfl, trivial, List.forall_mem_nil _, rfl⟩
  | countDown next => exact ⟨rfl, h, List.forall_mem_nil _, rfl⟩
  | reset n next => exact ⟨rfl, h, List.forall_mem_nil _, rfl⟩
  | act f next => cases h
  | start r next =>
    refine ⟨rfl, h.2, fun r' hr => ?_, rfl⟩
    rw [List.mem_singleton.mp hr]
    exact h.1
  | branch test yes no =>
    refine ⟨rfl, ?_, List.forall_mem_nil _, ?_⟩
    · rw [rest]
      split
      · exact h.1
      · exact h.2
    · change asks s (if test s then yes else no) = if test s then asks s yes else asks s no
      split <;> rfl

theorem counting_step (s : σ) (t : Thread σ ρ) (h : Counting t) :
    written s t = s ∧ Counting (rest s t) ∧ asked t = [] := by
  cases t with
  | done => exact ⟨rfl, trivial, rfl⟩
  | countDown next => exact ⟨rfl, h, rfl⟩
  | reset n next => cases h
  | act f next => cases h
  | start r next => cases h
  | branch test yes no => cases h

/-- One thread asks, and the others only count down. -/
structure Asking (code : ρ → Thread σ ρ) (p : Pool σ ρ) (k : ℕ) (t : Thread σ ρ) : Prop where
  here : p.threads[k]? = some t
  asks : Asks code t
  others : ∀ (i : ℕ) (u : Thread σ ρ), p.threads[i]? = some u → i ≠ k → Counting u

theorem step_asking (p : Pool σ ρ) (k : ℕ) (t : Thread σ ρ) (h : Asking code p k t) (i : ℕ) :
    (step code p i).state = p.state ∧ ∃ t', Asking code (step code p i) k t' ∧
      started p i++asks p.state t' = asks p.state t := by
  by_cases hik : i = k
  · subst hik
    obtain ⟨hstate, hrest, hasked, happend⟩ := asks_step p.state t h.asks
    obtain ⟨hs, hthreads⟩ := step_shape code p i t h.here
    refine ⟨hs.trans hstate, rest p.state t, ⟨?_, hrest, fun j u hj hji => ?_⟩, ?_⟩
    · rw [hthreads]
      exact thread_self _ _ _ _ _ h.here
    · rw [hthreads] at hj
      rcases thread_after code _ _ _ _ j u hj with ⟨rfl, -⟩ | ⟨-, hu⟩ | ⟨-, r, hr, rfl⟩
      · exact absurd rfl hji
      · exact h.others j u hu hji
      · exact hasked r hr
    · rw [started, h.here]
      exact happend
  · cases hi : p.threads[i]? with
    | none =>
      rw [step, started, hi]
      exact ⟨rfl, t, h, rfl⟩
    | some u =>
      obtain ⟨hstate, hrest, hasked⟩ := counting_step p.state u (h.others i u hi hik)
      obtain ⟨hs, hthreads⟩ := step_shape code p i u hi
      refine ⟨hs.trans hstate, t, ⟨?_, h.asks, fun j v hj hjk => ?_⟩, ?_⟩
      · rw [hthreads]
        exact thread_other _ _ _ _ _ _ h.here hik
      · rw [hthreads] at hj
        rcases thread_after code _ _ _ _ j v hj with ⟨-, rfl⟩ | ⟨-, hv⟩ | ⟨-, r, hr, -⟩
        · exact hrest
        · exact h.others j v hv hjk
        · rw [hasked] at hr
          cases hr
      · rw [started, hi]
        exact congrArg (·++asks p.state t) hasked

theorem run_asking (is : List ℕ) (p : Pool σ ρ) (k : ℕ) (t : Thread σ ρ) (h : Asking code p k t) :
    ∃ t', Asking code (run code is p) k t' := by
  induction is generalizing p t with
  | nil => exact ⟨t, h⟩
  | cons i is ih =>
    obtain ⟨-, t', hnext, -⟩ := step_asking p k t h i
    exact ih _ t' hnext

/-- On the way from one pool to the other thread `k` starts nothing, and
comes before all others. -/
structure Leads (code : ρ → Thread σ ρ) (k : ℕ) (p q : Pool σ ρ) : Prop where
  reached : ∃ is, run code is p = q ∧ ∀ js, requests code (is++js) p = requests code js q
  first : ∀ is, (run code is p).threads[k]? = some .done →
    ∃ js, run code is p = run code js q ∧ requests code is p = requests code js q

theorem Leads.trans {k : ℕ} {p q r : Pool σ ρ} (h : Leads code k p q) (h' : Leads code k q r) :
    Leads code k p r := by
  obtain ⟨is, hrun, hrequests⟩ := h.reached
  obtain ⟨js, hrun', hrequests'⟩ := h'.reached
  refine ⟨⟨is++js, ?_, fun ks => ?_⟩, fun ks hend => ?_⟩
  · rw [run, List.foldl_append]
    rw [run] at hrun hrun'
    rw [hrun, hrun']
  · rw [List.append_assoc, hrequests, hrequests']
  · obtain ⟨ls, hls, hreq⟩ := h.first ks hend
    rw [hls] at hend
    obtain ⟨ms, hms, hreq'⟩ := h'.first ls hend
    exact ⟨ms, hls.trans hms, hreq.trans hreq'⟩

/-- A lone thread has taken its next step before anything else happens. -/
theorem lone_leads (p : Pool σ ρ) (k : ℕ) (t : Thread σ ρ) (h : Lone p k t) (ht : t ≠ .done)
    (hasked : asked t = []) : Leads code k p (step code p k) := by
  have hnone : started p k = [] := by
    rw [started, h.here]
    exact hasked
  refine ⟨⟨[k], rfl, fun js => by rw [List.singleton_append, requests, hnone, List.nil_append]⟩,
    fun is => ?_⟩
  induction is with
  | nil =>
    intro hend
    rw [run, List.foldl_nil, h.here] at hend
    exact absurd (Option.some.inj hend) ht
  | cons i is ih =>
    intro hend
    by_cases hik : i = k
    · subst hik
      exact ⟨is, rfl, by rw [requests, hnone, List.nil_append]⟩
    · have hsame := lone_aside code p k t h i hik
      have hother : started p i = [] := by
        rw [started]
        cases hi : p.threads[i]? with
        | none => rfl
        | some u =>
          rw [h.others i u hi hik]
          rfl
      rw [run, List.foldl_cons, hsame] at hend
      rw [run, List.foldl_cons, hsame, requests, hsame, hother]
      exact ih hend

/-- The next step of a lone thread that asks for nothing. -/
theorem lone_opens (p : Pool σ ρ) (k : ℕ) (t : Thread σ ρ) (h : Lone p k t) (ht : t ≠ .done)
    (hasked : asked t = []) : ∃ q, q.state = written p.state t ∧ Lone q k (rest p.state t) ∧
      Leads code k p q := by
  obtain ⟨hstate, hthreads⟩ := step_shape code p k t h.here
  rw [hasked, List.map_nil, List.append_nil] at hthreads
  exact ⟨_, hstate, h.set _ _ hthreads, lone_leads p k t h ht hasked⟩

/-- Once the thread has ended it has started what it asks for. -/
theorem requests_asking (is : List ℕ) (p : Pool σ ρ) (k : ℕ) (t : Thread σ ρ)
    (h : Asking code p k t) (hend : (run code is p).threads[k]? = some .done) :
    requests code is p = asks p.state t := by
  induction is generalizing p t with
  | nil =>
    cases h.here.symm.trans hend
    rfl
  | cons i is ih =>
    obtain ⟨hstate, t', hnext, happend⟩ := step_asking p k t h i
    rw [requests, ih _ t' hnext hend, hstate, happend]

end

end PendingWrite
