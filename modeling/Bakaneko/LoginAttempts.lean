import Bakaneko.Library.PartialRun
import Mathlib.Data.List.Basic
import Mathlib.Data.List.Perm.Basic

/-!
# Attempts to log in on one server

`open_term` and `control_service` connect the signals of the server object
with the page and the dialog of the attempt, start a task and return. The
task ends with a signal of the server, which goes to everything connected by
then: nothing is ever disconnected, and a slot connected twice is called
twice. A task of `control_service` that throws ends without a signal.
-/

set_option autoImplicit false

namespace Bakaneko.LoginAttempts
open PartialRun

inductive Signal where
  | openTerm
  | connectingFail
  | serviceActionDone
  deriving DecidableEq, Repr

/-- A slot of a page or of a dialog. -/
inductive Slot where
  | openTerm (page : ℕ)
  | connectingFail (login : ℕ)
  | done (login : ℕ)
  deriving DecidableEq, Repr

structure LoginData where
  page : ℕ
  login : ℕ
  deriving DecidableEq, Repr

inductive Kind where
  | openTerm
  | controlService
  deriving DecidableEq, Repr

def connections (login : LoginData) : Kind → List (Signal × Slot)
  | .openTerm => [
    (.openTerm, .openTerm login.page),
    (.connectingFail, .connectingFail login.login),
    (.openTerm, .done login.login)]
  | .controlService => [
    (.connectingFail, .connectingFail login.login),
    (.serviceActionDone, .done login.login)]

/-- How the operations of a task end: those of `open_term` one by one, then
those of `network_post`. -/
inductive Outcome where
  | noSession
  | notConnected
  | notAuthenticated
  | noChannel
  | notOpened
  | opened
  | status (code : ℕ)
  | thrown
  deriving DecidableEq, Repr

/-- What the task emits; nothing at all for an outcome it does not know. -/
def emits : Kind → Outcome → Option (List Signal)
  | .openTerm, .opened => some [.openTerm]
  | .openTerm, .status _ => none
  | .openTerm, .thrown => none
  | .openTerm, _ => some [.connectingFail]
  | .controlService, .status code =>
    some [if code = 200 then .serviceActionDone else .connectingFail]
  | .controlService, .thrown => some []
  | .controlService, _ => none

structure End where
  emitted : List Signal
  delivered : List Slot
  deriving DecidableEq, Repr

structure Attempt where
  kind : Kind
  login : LoginData
  ended : Option End
  deriving DecidableEq, Repr

structure Server where
  connected : List (Signal × Slot)
  attempts : List Attempt
  deriving DecidableEq

def slots (signal : Signal) (cs : List (Signal × Slot)) : List Slot :=
  (cs.filter fun c => c.1 = signal).map Prod.snd

inductive Event where
  | openTerm (login : LoginData)
  | controlService (login : LoginData)
  | finish (attempt : ℕ) (outcome : Outcome)

def begin (kind : Kind) (login : LoginData) (s : Server) : Server :=
  ⟨s.connected++connections login kind, s.attempts++[⟨kind, login, none⟩]⟩

def finish (i : ℕ) (outcome : Outcome) (s : Server) : Server :=
  match s.attempts[i]? with
  | none => s
  | some a => match a.ended, emits a.kind outcome with
    | none, some signals =>
      let delivered := signals.flatMap fun signal => slots signal s.connected
      { s with attempts := s.attempts.set i { a with ended := some ⟨signals, delivered⟩ } }
    | _, _ => s

def step : Event → Server → Except Empty Server
  | .openTerm login, s => .ok (begin .openTerm login s)
  | .controlService login, s => .ok (begin .controlService login s)
  | .finish i outcome, s => .ok (finish i outcome s)

def idle : Server := ⟨[], []⟩

/-- One completion, and each slot the attempt itself has connected to it is
called once, and no other. -/
def Completed (a : Attempt) (e : End) : Prop :=
  ∃ signal, e.emitted = [signal] ∧ slots signal (connections a.login a.kind) ≠ [] ∧
    e.delivered.Perm (slots signal (connections a.login a.kind))

def Delivered (s : Server) : Prop :=
  ∀ a ∈ s.attempts, ∀ e, a.ended = some e → Completed a e

/-- The attempt connects something to the signal. -/
def connects (signal : Signal) (a : Attempt) : Bool :=
  (connections a.login a.kind).any fun c => c.1 = signal

/-- The task does not throw, and of all attempts so far its own is the only
one that is connected to the signal it emits. -/
def Alone : Event → Server → Prop
  | .finish i outcome, s => ∀ a, s.attempts[i]? = some a → a.ended = none →
    ∀ signals, emits a.kind outcome = some signals →
      outcome ≠ .thrown ∧ ∀ signal ∈ signals, s.attempts.countP (connects signal) = 1
  | _, _ => True

/-- What is connected are the connections of the attempts so far. -/
def Accounted (s : Server) : Prop :=
  s.connected = s.attempts.flatMap fun a => connections a.login a.kind

theorem finish_cases (i : ℕ) (outcome : Outcome) (s : Server) :
    (∃ a signals, s.attempts[i]? = some a ∧ a.ended = none ∧
      emits a.kind outcome = some signals ∧ finish i outcome s = { s with
        attempts := s.attempts.set i { a with
          ended := some ⟨signals, signals.flatMap fun signal => slots signal s.connected⟩ } }) ∨
    (finish i outcome s = s ∧ ∀ a, s.attempts[i]? = some a → a.ended = none →
      emits a.kind outcome = none) := by
  unfold finish
  cases ha : s.attempts[i]? with
  | none => exact .inr ⟨rfl, fun _ h => by cases h⟩
  | some a =>
    dsimp only
    cases he : a.ended with
    | some e =>
      refine .inr ⟨rfl, fun b hb hn => ?_⟩
      cases hb
      rw [he] at hn
      cases hn
    | none =>
      cases hs : emits a.kind outcome with
      | none =>
        refine .inr ⟨rfl, fun b hb _ => ?_⟩
        cases hb
        exact hs
      | some signals => exact .inl ⟨a, signals, rfl, he, hs, rfl⟩

theorem emits_cases (kind : Kind) (outcome : Outcome) (signals : List Signal)
    (h : emits kind outcome = some signals) :
    (outcome = .thrown ∧ signals = []) ∨
    (outcome ≠ .thrown ∧ ∃ signal, signals = [signal] ∧
      ∀ login, slots signal (connections login kind) ≠ []) := by
  have hfail : ∀ login kind, slots .connectingFail (connections login kind) ≠ [] := by
    intro login kind
    cases kind <;> simp [slots, connections]
  cases kind with
  | openTerm =>
    cases outcome <;> cases h
    case opened.refl => exact .inr ⟨by simp, _, rfl, fun _ => by simp [slots, connections]⟩
    all_goals exact .inr ⟨by simp, _, rfl, fun login => hfail login _⟩
  | controlService =>
    cases outcome <;> cases h
    case thrown.refl => exact .inl ⟨rfl, rfl⟩
    case status.refl code =>
      refine .inr ⟨by simp, _, rfl, fun login => ?_⟩
      split
      · simp [slots, connections]
      · exact hfail login _

theorem slots_empty (signal : Signal) (a : Attempt) :
    slots signal (connections a.login a.kind) = [] ↔ ¬ connects signal a = true := by
  rw [slots, List.map_eq_nil_iff, List.filter_eq_nil_iff, connects, List.any_eq_true]
  simp only [not_exists, not_and]

theorem slots_flatMap (signal : Signal) (as : List Attempt) :
    slots signal (as.flatMap fun a => connections a.login a.kind) =
      as.flatMap fun a => slots signal (connections a.login a.kind) := by
  simp [slots, List.filter_flatMap, List.map_flatMap]

theorem flatMap_empty (signal : Signal) (as : List Attempt) :
    (as.flatMap fun a => slots signal (connections a.login a.kind)) = [] ↔
      as.countP (connects signal) = 0 := by
  rw [List.flatMap_eq_nil_iff, List.countP_eq_zero]
  exact forall₂_congr fun a _ => slots_empty signal a

/-- A signal reaches the slots of one attempt alone exactly if no other
attempt is connected to it. -/
theorem delivered_iff (signal : Signal) (s : Server) (hj : Accounted s) (i : ℕ) (a : Attempt)
    (ha : s.attempts[i]? = some a) (hne : slots signal (connections a.login a.kind) ≠ []) :
    (slots signal s.connected).Perm (slots signal (connections a.login a.kind)) ↔
      s.attempts.countP (connects signal) = 1 := by
  obtain ⟨hi, rfl⟩ := List.getElem?_eq_some_iff.mp ha
  have hsplit : s.attempts = s.attempts.take i++s.attempts[i]::s.attempts.drop (i+1) := by simp
  have hconn : connects signal s.attempts[i] = true :=
    not_not.mp fun h => hne ((slots_empty signal _).mpr h)
  generalize s.attempts[i] = a at *
  generalize s.attempts.take i = before at *
  generalize s.attempts.drop (i+1) = behind at *
  rw [hj, slots_flatMap, hsplit, List.flatMap_append, List.flatMap_cons, List.countP_append,
    List.countP_cons_of_pos hconn]
  have hb := flatMap_empty signal before
  have hr := flatMap_empty signal behind
  generalize (before.flatMap fun a => slots signal (connections a.login a.kind)) = pre at *
  generalize (behind.flatMap fun a => slots signal (connections a.login a.kind)) = post at *
  constructor
  · intro hp
    have hlen := hp.length_eq
    rw [List.length_append, List.length_append] at hlen
    have hpre : pre = [] := List.length_eq_zero_iff.mp (by omega)
    have hpost : post = [] := List.length_eq_zero_iff.mp (by omega)
    have := hb.mp hpre
    have := hr.mp hpost
    omega
  · intro hc
    rw [hb.mpr (by omega), hr.mpr (by omega), List.nil_append, List.append_nil]

theorem set_connections (as : List Attempt) (i : ℕ) (a : Attempt) (ha : as[i]? = some a)
    (e : Option End) :
    (as.set i { a with ended := e }).flatMap (fun a => connections a.login a.kind) =
      as.flatMap fun a => connections a.login a.kind := by
  obtain ⟨hi, rfl⟩ := List.getElem?_eq_some_iff.mp ha
  rw [List.flatMap_def, List.flatMap_def, List.map_set]
  congr 1
  refine List.ext_getElem (by simp) fun j hj _ => ?_
  rw [List.getElem_set]
  split
  · next heq => subst heq; simp
  · rfl

theorem step_accounted (i : Event) (s t : Server) (hj : Accounted s) (h : step i s = .ok t) :
    Accounted t := by
  have hbegin : ∀ kind login, Accounted (begin kind login s) := by
    intro kind login
    rw [Accounted, begin, List.flatMap_append, ← show s.connected = _ from hj]
    simp
  cases i with
  | openTerm login => cases h; exact hbegin _ _
  | controlService login => cases h; exact hbegin _ _
  | finish i outcome =>
    cases h
    obtain ⟨a, signals, ha, -, -, hf⟩ | ⟨hf, -⟩ := finish_cases i outcome s
    · rw [hf, Accounted, set_connections _ _ _ ha]
      exact hj
    · rw [hf]
      exact hj

theorem begin_delivered (kind : Kind) (login : LoginData) (s : Server) (hs : Delivered s) :
    Delivered (begin kind login s) := by
  intro a ha e he
  rcases List.mem_append.mp ha with hold | hnew
  · exact hs a hold e he
  · rw [List.mem_singleton.mp hnew] at he
    cases he

/-- The end of a task is right exactly if the attempt is alone. -/
theorem finish_delivered (i : ℕ) (outcome : Outcome) (s : Server) (hj : Accounted s)
    (hs : Delivered s) : Alone (.finish i outcome) s ↔ Delivered (finish i outcome s) := by
  obtain ⟨a, signals, ha, hn, he, hf⟩ | ⟨hf, hnone⟩ := finish_cases i outcome s
  · have hi : i < s.attempts.length := (List.getElem?_eq_some_iff.mp ha).1
    have hnew : Delivered (finish i outcome s) ↔ Completed a ⟨signals,
        signals.flatMap fun signal => slots signal s.connected⟩ := by
      rw [hf]
      constructor
      · intro h
        exact h _ (List.mem_set hi _) _ rfl
      · intro hc b hb e hbe
        rcases List.mem_or_eq_of_mem_set hb with hold | rfl
        · exact hs b hold e hbe
        · cases hbe
          exact hc
    have halone : Alone (.finish i outcome) s ↔
        outcome ≠ .thrown ∧ ∀ signal ∈ signals, s.attempts.countP (connects signal) = 1 := by
      constructor
      · exact fun h => h a ha hn signals he
      · intro h b hb _ signals' he'
        obtain rfl : a = b := Option.some.inj (ha.symm.trans hb)
        obtain rfl : signals = signals' := Option.some.inj (he.symm.trans he')
        exact h
    rw [hnew, halone]
    obtain ⟨hthrown, rfl⟩ | ⟨hthrown, signal, rfl, hslots⟩ := emits_cases a.kind outcome signals he
    · refine iff_of_false (fun h => h.1 hthrown) ?_
      rintro ⟨signal, hone, -⟩
      cases hone
    · rw [List.forall_mem_singleton, and_iff_right hthrown,
        ← delivered_iff signal s hj i a ha (hslots a.login)]
      constructor
      · intro h
        exact ⟨signal, rfl, hslots a.login, by simpa using h⟩
      · rintro ⟨other, hone, -, hp⟩
        obtain rfl : signal = other := List.head_eq_of_cons_eq hone
        simpa using hp
  · rw [hf]
    refine iff_of_true (fun a ha hn signals he => ?_) hs
    rw [hnone a ha hn] at he
    cases he

/-- Along every run each attempt that has ended has ended with one completion
that reached its own slots once and no others, exactly as long as no task
throws and each ends while no other attempt is connected to its signal. -/
theorem attempts_delivered_iff (events : List Event) :
    Always step Delivered events idle ↔ Meets step Alone events idle := by
  refine always_iff_meets step Delivered Accounted Alone step_accounted ?_ events idle rfl
    fun _ h => by cases h
  intro i s hj hs
  cases i with
  | openTerm login =>
    exact iff_of_true trivial fun t ht => by cases ht; exact begin_delivered _ _ s hs
  | controlService login =>
    exact iff_of_true trivial fun t ht => by cases ht; exact begin_delivered _ _ s hs
  | finish i outcome =>
    rw [finish_delivered i outcome s hj hs]
    exact ⟨fun h _ ht => Except.ok.inj ht ▸ h, fun h => h _ rfl⟩

/-- A wrong password, and a second try in the same dialog: the terminal is
opened twice. -/
theorem terminal_opened_twice :
    ¬ Always step Delivered [.openTerm ⟨0, 0⟩, .finish 0 .notAuthenticated, .openTerm ⟨0, 0⟩,
      .finish 1 .opened] idle := by
  intro h
  have hlast := (((h.2 _ rfl).2 _ rfl).2 _ rfl).2 _ rfl
  obtain ⟨signal, hone, -, hp⟩ := (show Delivered _ from hlast)
    ⟨.openTerm, ⟨0, 0⟩, some ⟨[.openTerm], [.openTerm 0, .done 0, .openTerm 0, .done 0]⟩⟩
    (by decide) _ rfl
  obtain rfl : .openTerm = signal := List.head_eq_of_cons_eq hone
  exact absurd hp.length_eq (by decide)

end Bakaneko.LoginAttempts
