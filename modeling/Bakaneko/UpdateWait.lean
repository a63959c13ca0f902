import Bakaneko.UpdateTasks

/-!
# Waiting for the updates

`update_server_info(true)` goes through the list and looks at the latch of
each server as long as it is zero. The latch is zero before the task has armed
it and again when the round is over, and it is not zero in between.
-/

set_option autoImplicit false

namespace Bakaneko.UpdateWait
open Bakaneko.Native Bakaneko.UpdateTasks PartialRun
open Bakaneko.ServerObjects (Manager Server)
open Bakaneko.ServerRound (Replies maxSteps)

/-- The loop at a position of the list, with the threads in which tasks of this
call have found a latch at zero, the servers for which they have armed it and
those whose latch has been zero again since. -/
structure Wait where
  world : World
  call : ℕ
  position : ℕ
  calls : List (ℕ × ℕ)
  began : List ℕ
  completed : List ℕ

inductive Event where
  | work (v : Work)
  | look

/-- The threads in which the tasks of the call go on. -/
def callsBy (v : Work) (s : Wait) : List (ℕ × ℕ) :=
  match v with
  | .updateInfo call _ _ =>
    if s.world.entered.any (· = call) ∧ call.task.call = s.call ∧
        (s.world.rounds call.server).latch = 0 then
      s.calls++[(call.server, (s.world.rounds call.server).threads.length)]
    else s.calls
  | _ => s.calls

/-- The servers for which the tasks of the call have begun a round. -/
def beganBy (v : Work) (s : Wait) : List ℕ :=
  match v with
  | .thread server i =>
    if s.calls.any (· = (server, i)) ∧
        ((s.world.rounds server).threads[i]?).any CountingLatch.arming then s.began++[server]
    else s.began
  | _ => s.began

def record (v : Work) (s : Wait) (after : World) : Wait :=
  { s with
    world := after
    calls := callsBy v s
    began := beganBy v s
    completed := s.completed++(beganBy v s).filter fun id => (after.rounds id).latch = 0 }

/-- One turn of the loop. Behind the end of the list the call has returned. -/
def look (s : Wait) : Wait :=
  match s.world.manager.servers[s.position]? with
  | none => s
  | some server =>
    if (s.world.rounds server.id).latch = 0 then s else { s with position := s.position+1 }

def step : Event → Wait → Except Failure Wait
  | .work v, s => (work v s.world).map (record v s)
  | .look, s => .ok (look s)

def updateAndWait (w : World) : Wait := ⟨updateServerInfo w, w.scheduled, 0, [], [], []⟩

def Returned (s : Wait) : Prop := s.world.manager.servers.length ≤ s.position

/-- A round of this call has completed for every server in the list. -/
def Complete (s : Wait) : Prop := ∀ server ∈ s.world.manager.servers, server.id ∈ s.completed

def first (events : ℕ → Event) (n : ℕ) : List Event := (List.range n).map events

/-- Whenever the loop returns, all rounds of the call have completed. -/
def Completes (s : Wait) : Prop :=
  ∀ events t, run step events s = .ok t → Returned t → Complete t

/-- In an endless run that comes back to the loop again and again and in which
all rounds of the call complete, the loop returns. -/
def Ends (s : Wait) : Prop :=
  ∀ events : ℕ → Event, (∀ n, ∃ m, n ≤ m ∧ events m = .look) →
    (∀ n, ∃ t, run step (first events n) s = .ok t) →
    (∃ n t, run step (first events n) s = .ok t ∧ Complete t) →
    ∃ n t, run step (first events n) s = .ok t ∧ Returned t

theorem step_manager (event : Event) (s t : Wait) (h : step event s = .ok t) :
    t.world.manager = s.world.manager := by
  cases event with
  | work v =>
    obtain ⟨after, hafter, rfl⟩ := (Fallible.map_ok _ _ _).mp h
    exact (work_manager v s.world after hafter).1
  | look =>
    cases h
    unfold look
    split
    · rfl
    · split <;> rfl

theorem run_manager (events : List Event) (s t : Wait) (h : run step events s = .ok t) :
    t.world.manager = s.world.manager :=
  always_last step (fun t => t.world.manager = s.world.manager) events s t
    (always_of_meets step _ (fun _ _ => True)
      (fun event u v hu _ hv => (step_manager event u v hv).trans hu) events s rfl
      (meets_true step events s)) h

/-- The tasks from `next` on have not run, and the rounds that have begun are
on their way. -/
structure Early (next : ℕ) (s : Wait) : Prop where
  waiting : ∀ (a : ℕ) (server : Server), next ≤ a →
    s.world.manager.servers[a]? = some server → ⟨a, server.id, s.call⟩ ∈ s.world.pending
  armed : ∀ id ∈ s.began, (s.world.rounds id).latch ≠ 0
  none : s.completed = []

theorem updateAndWait_early (w : World) : Early 0 (updateAndWait w) := by
  refine ⟨fun a server _ hs => ?_, fun _ h => absurd h List.not_mem_nil, rfl⟩
  apply List.mem_append_right
  obtain ⟨ha, rfl⟩ := List.getElem?_eq_some_iff.mp hs
  exact List.mem_mapIdx.mpr ⟨a, ha, rfl⟩

theorem record_early (v : Work) (next : ℕ) (s : Wait) (after : World) (h : Early next s)
    (hwaiting : ∀ (a : ℕ) (server : Server), next ≤ a →
      after.manager.servers[a]? = some server → ⟨a, server.id, s.call⟩ ∈ after.pending)
    (harmed : ∀ id ∈ beganBy v s, (after.rounds id).latch ≠ 0) :
    Early next (record v s after) := by
  refine ⟨hwaiting, harmed, ?_⟩
  rw [record, h.none, List.nil_append, List.filter_eq_nil_iff]
  intro id hid
  simpa using harmed id hid

/-- Tasks have gone on, and neither the list nor the loop has. -/
structure Unmoved (s t : Wait) : Prop where
  manager : t.world.manager = s.world.manager
  capacity : t.world.capacity = s.world.capacity
  position : t.position = s.position

theorem Unmoved.trans {s t u : Wait} (h : Unmoved s t) (h' : Unmoved t u) : Unmoved s u :=
  ⟨h'.manager.trans h.manager, h'.capacity.trans h.capacity, h'.position.trans h.position⟩

/-- The task under the loop finds the buffer. -/
theorem lookUp_early (s : Wait) (h : Early s.position s) (server : Server)
    (hs : s.world.manager.servers[s.position]? = some server) :
    ∃ t, step (.work (.lookUp ⟨s.position, server.id, s.call⟩)) s = .ok t ∧
      Early (s.position+1) t ∧ Unmoved s t ∧ t.world.rounds = s.world.rounds ∧
      ⟨⟨s.position, server.id, s.call⟩, s.world.capacity⟩ ∈ t.world.reading := by
  have hmem := h.waiting s.position server le_rfl hs
  refine ⟨_, congrArg (Except.map _) (lookUp_ok _ s.world hmem), ?_, ⟨rfl, rfl, rfl⟩, rfl,
    List.mem_append_right _ (List.mem_singleton_self _)⟩
  refine record_early _ _ _ _ ⟨fun a other ha ho => ?_, h.armed, h.none⟩
    (fun a other ha ho => ?_) h.armed
  · exact h.waiting a other (Nat.le_of_succ_le ha) ho
  · have hne : (⟨a, other.id, s.call⟩ : Task) ≠ ⟨s.position, server.id, s.call⟩ := by
      intro he
      have := congrArg Task.index he
      dsimp only at this
      omega
    exact (List.mem_erase_of_ne hne).mpr (h.waiting a other (Nat.le_of_succ_le ha) ho)

/-- In the buffer it finds its server. -/
theorem take_early (next : ℕ) (s : Wait) (h : Early next s) (r : Reading)
    (hr : r ∈ s.world.reading) (hcapacity : r.capacity = s.world.capacity) (server : Server)
    (hs : s.world.manager.servers[r.task.index]? = some server) :
    ∃ t, step (.work (.take r)) s = .ok t ∧ Early next t ∧ Unmoved s t ∧
      t.world.rounds = s.world.rounds ∧ ⟨r.task, server.id⟩ ∈ t.world.entered :=
  ⟨_, congrArg (Except.map _) (take_ok r s.world server hr hcapacity hs),
    record_early _ next s _ h h.waiting h.armed, ⟨rfl, rfl, rfl⟩, rfl,
    List.mem_append_right _ (List.mem_singleton_self _)⟩

def unanswered : Replies := ⟨.failed, .failed, .failed, .failed, .failed, .failed⟩

theorem poll_latch (ping : Option ℕ) (replies : Replies) (client : ServerRound.Client) :
    (ServerRound.poll ping replies client).latch = client.latch := by
  unfold ServerRound.poll
  split <;> rfl

/-- A call of `update_info` finds a server at rest. -/
theorem updateInfo_early (next : ℕ) (s : Wait) (h : Early next s) (call : Call)
    (hcall : call ∈ s.world.entered) (hzero : (s.world.rounds call.server).latch = 0) :
    ∃ (t : Wait) (i : ℕ), step (.work (.updateInfo call none unanswered)) s = .ok t ∧ Early next t ∧
      Unmoved s t ∧ (t.world.rounds call.server).threads[i]? =
        some (ServerRound.updateInfo none unanswered) := by
  refine ⟨_, (s.world.rounds call.server).threads.length,
    congrArg (Except.map _) (updateInfo_ok call none unanswered s.world hcall), ?_,
    ⟨rfl, rfl, rfl⟩, ?_⟩
  · refine record_early _ _ _ _ h h.waiting fun id hid => ?_
    dsimp only
    by_cases hserver : id = call.server
    · rw [hserver, Function.update_self, poll_latch]
      exact hserver ▸ h.armed id hid
    · rw [Function.update_of_ne hserver]
      exact h.armed id hid
  · dsimp only [record]
    rw [Function.update_self, ServerRound.poll, if_pos hzero]
    exact List.getElem?_concat_length

/-- The call arms the latch. -/
theorem thread_early (next : ℕ) (s : Wait) (h : Early next s) (server i : ℕ)
    (ht : (s.world.rounds server).threads[i]? = some (ServerRound.updateInfo none unanswered)) :
    ∃ t, step (.work (.thread server i)) s = .ok t ∧ Early next t ∧ Unmoved s t ∧
      (t.world.rounds server).latch ≠ 0 := by
  have hlatch : (CountingLatch.step ServerRound.code (s.world.rounds server) i).latch = maxSteps := by
    rw [CountingLatch.step, ht]
    rfl
  have harmed : (CountingLatch.step ServerRound.code (s.world.rounds server) i).latch ≠ 0 := by
    rw [hlatch]
    decide
  refine ⟨_, rfl, record_early _ _ _ _ h h.waiting fun id hid => ?_, ⟨rfl, rfl, rfl⟩, ?_⟩
  · dsimp only
    by_cases hserver : id = server
    · rw [hserver, Function.update_self]
      exact harmed
    · rw [Function.update_of_ne hserver]
      refine h.armed id ?_
      dsimp only [beganBy] at hid
      split at hid
      · exact (List.mem_append.mp hid).resolve_right
          fun hnew => hserver (List.mem_singleton.mp hnew)
      · exact hid
  · dsimp only [record]
    rw [Function.update_self]
    exact harmed

/-- A latch that is seen armed lets the loop go on. -/
theorem look_early (s : Wait) (h : Early (s.position+1) s) (server : Server)
    (hs : s.world.manager.servers[s.position]? = some server)
    (harmed : (s.world.rounds server.id).latch ≠ 0) :
    ∃ t, step .look s = .ok t ∧ Early t.position t ∧ t.position = s.position+1 := by
  have hl : look s = { s with position := s.position+1 } := by
    unfold look
    rw [hs]
    exact if_neg harmed
  exact ⟨_, congrArg Except.ok hl, ⟨h.waiting, h.armed, h.none⟩, rfl⟩

/-- The loop can pass the next server before any round completes. -/
theorem passes_next (s : Wait) (h : Early s.position s) (server : Server)
    (hs : s.world.manager.servers[s.position]? = some server) :
    ∃ events t, run step events s = .ok t ∧ Early t.position t ∧ t.position = s.position+1 := by
  by_cases hzero : (s.world.rounds server.id).latch = 0
  · obtain ⟨a, ha, hea, hsa, hra, hread⟩ := lookUp_early s h server hs
    obtain ⟨b, hb, heb, hab, hrb, hentered⟩ := take_early _ a hea _ hread hsa.capacity.symm server
      (by rw [hsa.manager]; exact hs)
    have hsb := hsa.trans hab
    obtain ⟨c, i, hc, hec, hbc, hthread⟩ := updateInfo_early _ b heb _ hentered
      (by rw [hrb, hra]; exact hzero)
    obtain ⟨d, hd, hed, hcd, harmed⟩ := thread_early _ c hec server.id i hthread
    have hsd := (hsb.trans hbc).trans hcd
    obtain ⟨e, hlook, hee, hpe⟩ := look_early d (by rw [hsd.position]; exact hed) server
      (by rw [hsd.manager, hsd.position]; exact hs) harmed
    refine ⟨[.work (.lookUp ⟨s.position, server.id, s.call⟩),
      .work (.take ⟨⟨s.position, server.id, s.call⟩, s.world.capacity⟩),
      .work (.updateInfo ⟨⟨s.position, server.id, s.call⟩, server.id⟩ none unanswered),
      .work (.thread server.id i), .look], e, ?_, hee, by rw [hpe, hsd.position]⟩
    simp only [run, ha, hb, hc, hd, hlook]
  · have hlater : Early (s.position+1) s :=
      ⟨fun a other ho => h.waiting a other (Nat.le_of_succ_le ho), h.armed, h.none⟩
    obtain ⟨t, hlook, het, hpt⟩ := look_early s hlater server hs hzero
    exact ⟨[.look], t, by simp only [run, hlook], het, hpt⟩

theorem passes_all (s : Wait) (h : Early s.position s) :
    ∃ events t, run step events s = .ok t ∧ Returned t ∧ t.completed = [] := by
  induction hn : s.world.manager.servers.length-s.position generalizing s with
  | zero => exact ⟨[], s, rfl, Nat.le_of_sub_eq_zero hn, h.none⟩
  | succ n ih =>
    have hlt : s.position < s.world.manager.servers.length := by omega
    obtain ⟨before, t, ht, het, hpt⟩ := passes_next s h _ (List.getElem?_eq_getElem hlt)
    have hm := run_manager before s t ht
    obtain ⟨behind, u, hu, hreturned, hnone⟩ := ih t het (by rw [hm, hpt]; omega)
    exact ⟨before++behind, u, by rw [run_append, ht]; exact hu, hreturned, hnone⟩

/-- The call waits for the rounds it has started only if there are none: with
any server in the list it can return while the rounds are on their way. -/
theorem waits_iff (w : World) :
    Completes (updateAndWait w) ∧ Ends (updateAndWait w) ↔ w.manager.servers = [] := by
  constructor
  · rintro ⟨hcomplete, -⟩
    obtain ⟨events, t, ht, hreturned, hnone⟩ := passes_all (updateAndWait w) (updateAndWait_early w)
    have hm : t.world.manager = w.manager := run_manager events _ t ht
    refine List.eq_nil_iff_forall_not_mem.mpr fun server hs => ?_
    have hmem := hcomplete events t ht hreturned server (by rw [hm]; exact hs)
    rw [hnone] at hmem
    cases hmem
  · intro hempty
    constructor
    · intro events t ht _ server hs
      have hm : t.world.manager = w.manager := run_manager events _ t ht
      rw [hm, hempty] at hs
      cases hs
    · intro events _ _ _
      refine ⟨0, updateAndWait w, rfl, ?_⟩
      rw [Returned, show (updateAndWait w).world.manager.servers = [] from hempty]
      exact Nat.zero_le _

def oneServer : World := launched [⟨bytes "a", [], []⟩]

/-- The task begins its round. -/
def starting : List Event :=
  [.work (.lookUp ⟨0, 0, 0⟩), .work (.take ⟨⟨0, 0, 0⟩, 1⟩),
    .work (.updateInfo ⟨⟨0, 0, 0⟩, 0⟩ none unanswered), .work (.thread 0 0)]

/-- The round finds the server offline. -/
def through : List Event := List.replicate 11 (.work (.thread 0 0))

/-- The round is over before the loop looks for the first time. -/
def overBefore (n : ℕ) : Event := (starting++through).getD n .look

theorem look_stuck (s : Wait) (server : Server)
    (hs : s.world.manager.servers[s.position]? = some server)
    (hzero : (s.world.rounds server.id).latch = 0) (n : ℕ) :
    run step (List.replicate n .look) s = .ok s := by
  have hl : step .look s = .ok s := by
    rw [step, look, hs]
    exact congrArg Except.ok (if_pos hzero)
  induction n with
  | zero => rfl
  | succ n ih =>
    rw [List.replicate_succ, run, hl]
    exact ih

theorem first_overBefore (n : ℕ) :
    first overBefore n = (starting++through).take n++List.replicate (n-15) .look := by
  apply List.ext_getElem?
  intro i
  have hlen : (starting++through).length = 15 := rfl
  rw [first, List.getElem?_map, List.getElem?_append, List.length_take, hlen, List.getElem?_take,
    List.getElem?_replicate]
  by_cases hi : i < n
  · rw [List.getElem?_range hi, Option.map_some, overBefore]
    by_cases h15 : i < 15
    · rw [if_pos (by omega), if_pos hi, List.getD_eq_getElem?_getD,
        List.getElem?_eq_getElem (by omega)]
      rfl
    · rw [if_neg (by omega), if_pos (by omega), List.getD_eq_getElem?_getD,
        List.getElem?_eq_none (by omega)]
      rfl
  · rw [List.getElem?_eq_none (by simp; omega), if_neg (by omega), if_neg (by omega)]
    rfl

theorem overBefore_stays (n : ℕ) :
    ∃ t, run step (first overBefore n) (updateAndWait oneServer) = .ok t ∧ t.position = 0 ∧
      (n = 15 → t.completed = [0]) := by
  rw [first_overBefore]
  by_cases hn : n < 15
  · have hbefore : ∀ n < 15, (run step ((starting++through).take n)
        (updateAndWait oneServer)).map Wait.position = .ok 0 := by decide
    obtain ⟨t, ht, hposition⟩ := (Fallible.map_ok _ _ _).mp (hbefore n hn)
    rw [Nat.sub_eq_zero_of_le hn.le, List.replicate_zero, List.append_nil]
    exact ⟨t, ht, hposition, fun h => by omega⟩
  · have hover : (run step (starting++through) (updateAndWait oneServer)).map (fun t =>
        (t.position, t.completed, (t.world.rounds 0).latch)) = .ok (0, [0], 0) := by rfl
    obtain ⟨t, ht, hvalues⟩ := (Fallible.map_ok _ _ _).mp hover
    simp only [Prod.mk.injEq] at hvalues
    have hserver : t.world.manager.servers[t.position]? = some ⟨0, ⟨bytes "a", [], []⟩, []⟩ := by
      rw [run_manager _ _ t ht, hvalues.1]
      rfl
    rw [List.take_of_length_le (show 15 ≤ n by omega), run_append, ht]
    exact ⟨t, look_stuck t _ hserver hvalues.2.2 _, hvalues.1, fun _ => hvalues.2.1⟩

/-- The loop returns while the only round is on its way, and it looks for ever
when the round is over before it is seen. -/
theorem returned_too_early_or_never :
    ¬ Completes (updateAndWait oneServer) ∧ ¬ Ends (updateAndWait oneServer) := by
  have hservers : ∀ events t, run step events (updateAndWait oneServer) = .ok t →
      t.world.manager.servers = [⟨0, ⟨bytes "a", [], []⟩, []⟩] := by
    intro events t ht
    rw [run_manager events _ t ht]
    rfl
  constructor
  · intro h
    have hreturned : (run step (starting++[.look]) (updateAndWait oneServer)).map (fun t =>
        (t.position, t.completed)) = .ok (1, []) := by rfl
    obtain ⟨t, ht, hvalues⟩ := (Fallible.map_ok _ _ _).mp hreturned
    simp only [Prod.mk.injEq] at hvalues
    have hcomplete := h _ t ht (by rw [Returned, hservers _ t ht, hvalues.1]; rfl)
    rw [Complete, hservers _ t ht, hvalues.2] at hcomplete
    exact absurd (hcomplete _ (List.mem_singleton_self _)) List.not_mem_nil
  · intro h
    have hlooks : ∀ n, overBefore (n+15) = .look := by
      intro n
      rw [overBefore, List.getD_eq_getElem?_getD, List.getElem?_eq_none (Nat.le_add_left 15 n)]
      rfl
    obtain ⟨n, t, ht, hreturned⟩ := h overBefore (fun n => ⟨n+15, Nat.le_add_right n 15, hlooks n⟩)
      (fun n => (overBefore_stays n).imp fun _ ht => ht.1) (by
        obtain ⟨t, ht, -, hcompleted⟩ := overBefore_stays 15
        refine ⟨15, t, ht, ?_⟩
        rw [Complete, hservers _ t ht, hcompleted rfl]
        decide)
    obtain ⟨u, hu, hposition, -⟩ := overBefore_stays n
    obtain rfl : t = u := Except.ok.inj (ht.symm.trans hu)
    rw [Returned, hservers _ t ht, hposition] at hreturned
    exact absurd hreturned (by decide)

end Bakaneko.UpdateWait
