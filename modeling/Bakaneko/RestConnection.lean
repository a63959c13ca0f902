import Bakaneko.RestResponses
import Bakaneko.Library.Interleaving

/-!
# Connections of the REST server

A connection starts one asynchronous operation after the other: `do_read`,
then for every response the handler sends an `async_write`, then `do_read`
again or `do_close`. The completions of all connections come in any order. A
write refers to its response, which only the pointer `res` keeps alive.
-/

set_option autoImplicit false

namespace Bakaneko.RestConnection
open Bakaneko.Native Bakaneko.Messages Bakaneko.Rest Bakaneko.SystemBus Bakaneko.HostControl
open Bakaneko.RestResponses PartialRun

inductive Pending where
  | read
  | write (message : Response) (close : Bool)
  deriving DecidableEq

/-- Why nothing more is started on a connection. -/
inductive Ending where
  | readFailed | writeFailed | unanswered | endOfStream | needEof
  deriving DecidableEq, Repr

/-- A request that was read and what it found: the host, the version of the
protocol and the service manager known so far. -/
structure Exchange where
  visit : Visit
  http11 : Bool
  manager : Option ServiceManager

/-- A connection, with what was asked, sent and delivered on it. -/
structure Connection where
  outstanding : List Pending := []
  res : Option Response := none
  exchanges : List Exchange := []
  sent : List Response := []
  delivered : List Response := []
  shutdown : Bool := false
  ending : Option Ending := none

def doRead (c : Connection) : Connection := { c with outstanding := c.outstanding++[.read] }

def doClose (why : Ending) (c : Connection) : Connection :=
  { c with shutdown := true, ending := some why }

/-- What Beast documents of `need_eof` for a response with a length, as all of
these have: what `keep_alive` has set decides, and without it the version of the
protocol. -/
structure Documented (needEof : Bool → Response → Bool) : Prop where
  asked : ∀ http11 message keep, message.keepAlive = some keep → needEof http11 message = !keep
  version : ∀ http11 message, message.keepAlive = none → needEof http11 message = !http11

section
variable (needEof : Bool → Response → Bool)

def send (http11 : Bool) (c : Connection) (message : Response) : Connection :=
  { c with
    res := some message
    outstanding := c.outstanding++[.write message (needEof http11 message)]
    sent := c.sent++[message] }

/-- A handler that sends nothing leaves the connection to be destroyed. -/
def answer (responses : List Response) (http11 : Bool) (c : Connection) : Connection :=
  if responses = [] then { c with ending := some .unanswered }
  else responses.foldl (send needEof http11) c

end

def onWrite (message : Response) (close ok : Bool) (c : Connection) : Connection :=
  if ok then
    let c := { c with delivered := c.delivered++[message] }
    if close then doClose .needEof c else doRead { c with res := none }
  else { c with ending := some .writeFailed }

/-- How an asynchronous operation completes. -/
inductive Completion where
  | request (visit : Visit) (http11 : Bool)
  | endOfStream
  | readFailed
  | write (ok : Bool)

section
variable (json : Nlohmann) (needEof : Bool → Response → Bool)

def onRequest (visit : Visit) (http11 : Bool) (manager : Option ServiceManager) (c : Connection) :
    Except Failure (Connection × Option ServiceManager) :=
  match (handled json visit manager).escaped with
  | some e => .error e
  | none =>
    let c := { c with exchanges := c.exchanges++[⟨visit, http11, manager⟩] }
    .ok (answer needEof (handled json visit manager).sent http11 c,
      remembered json visit.host visit.req manager)

/-- A completion of the operation, which is no longer outstanding; one of
another kind is not delivered. -/
def completed (operation : Pending) (completion : Completion) (manager : Option ServiceManager)
    (c : Connection) : Except Failure (Connection × Option ServiceManager) :=
  match operation, completion with
  | .read, .request visit http11 => onRequest json needEof visit http11 manager c
  | .read, .endOfStream => .ok (doClose .endOfStream c, manager)
  | .read, .readFailed => .ok ({ c with ending := some .readFailed }, manager)
  | .write message close, .write ok => .ok (onWrite message close ok c, manager)
  | operation, _ => .ok ({ c with outstanding := operation::c.outstanding }, manager)

def complete (i : ℕ) (completion : Completion) (manager : Option ServiceManager) (c : Connection) :
    Except Failure (Connection × Option ServiceManager) :=
  match c.outstanding[i]? with
  | none => .ok (c, manager)
  | some operation =>
    completed json needEof operation completion manager { c with outstanding := c.outstanding.eraseIdx i }

/-- The server process: the static variable of `get_service_manager`, the
accept operations outstanding and all connections so far. -/
structure Server where
  manager : Option ServiceManager := none
  accepts : ℕ := 1
  connections : List Connection := []

/-- How an accept operation completes. The constructor of `Connection` throws
when the peer has gone again. -/
inductive Accepted where
  | failed
  | connected
  | gone (what : Bytes)

inductive Event where
  | accepted (outcome : Accepted)
  | completion (connection operation : ℕ) (completion : Completion)

def doAccept (server : Server) : Server := { server with accepts := server.accepts+1 }

def onAccept (server : Server) : Accepted → Except Failure Server
  | .failed => .ok (doAccept server)
  | .connected => .ok (doAccept { server with connections := server.connections++[doRead {}] })
  | .gone what => .error (.exception (.runtimeError what))

def step : Event → Server → Except Failure Server
  | .accepted outcome, server =>
    if server.accepts = 0 then .ok server
    else onAccept { server with accepts := server.accepts-1 } outcome
  | .completion k i completion, server => match server.connections[k]? with
    | none => .ok server
    | some c => match complete json needEof i completion server.manager c with
      | .error e => .error e
      | .ok (c, manager) =>
        .ok { server with manager, connections := server.connections.set k c }

end

theorem respond_keepAlive {α : Type} (json : Nlohmann) (render : Option (α → Json)) (req : Request)
    (value : α) : (respond json render req value).keepAlive =
      if (respond json render req value).status = 200 then none else some req.keepAlive := by
  unfold respond
  repeat' split
  all_goals simp_all [plain]

/-- `Run` sends at most one response, and leaves the connection of a 200 to
the version of the protocol. -/
theorem run_sent {α : Type} (json : Nlohmann) (render : Option (α → Json)) (req : Request)
    (reply : Reply α) : (Run json render req reply).sent = [] ∨
      ∃ message, (Run json render req reply).sent = [message] ∧
        message.keepAlive = if message.status = 200 then none else some req.keepAlive := by
  unfold Run
  split
  case h_1 value _ => exact .inr ⟨_, rfl, respond_keepAlive json render req value⟩
  case h_5 => exact .inl rfl
  case h_7 => exact .inl rfl
  all_goals exact .inr ⟨_, rfl, rfl⟩

theorem handler_sent (json : Nlohmann) (endpoints : Endpoints) (req : Request) :
    (handler json endpoints req).sent = [] ∨
      ∃ message, (handler json endpoints req).sent = [message] ∧
        message.keepAlive = if message.status = 200 then none else some req.keepAlive := by
  unfold handler
  split
  · exact .inr ⟨_, rfl, rfl⟩
  · split
    case h_1 r _ => cases r <;> exact run_sent json _ req _
    case h_2 => exact .inr ⟨_, rfl, rfl⟩

section
variable (json : Nlohmann) (needEof : Bool → Response → Bool)

/-- What the handler sends for a request. -/
def responses (e : Exchange) : List Response := (handled json e.visit e.manager).sent

/-- The connection ends behind this response. -/
def closes (e : Exchange) (message : Response) : Bool :=
  if message.status = 200 then !e.http11 else !e.visit.req.keepAlive

theorem responses_cases (hneed : Documented needEof) (e : Exchange) : responses json e = [] ∨
    ∃ message, responses json e = [message] ∧ needEof e.http11 message = closes e message := by
  refine (handler_sent json _ e.visit.req).imp id ?_
  rintro ⟨message, hm, hk⟩
  refine ⟨message, hm, ?_⟩
  rw [closes]
  by_cases hs : message.status = 200
  · rw [if_pos hs] at hk ⊢
    exact hneed.version _ _ hk
  · rw [if_neg hs] at hk ⊢
    exact hneed.asked _ _ _ hk

/-- Every request was answered by one response that keeps the connection. -/
def Kept (es : List Exchange) : Prop :=
  ∀ e ∈ es, ∃ message, responses json e = [message] ∧ closes e message = false

/-- The states of a connection: waiting for a request, writing the one answer
to the last request, and the five ways to be over. -/
inductive Reached : Connection → Prop where
  | reading (es : List Exchange) (h : Kept json es) :
    Reached ⟨[.read], none, es, es.flatMap (responses json), es.flatMap (responses json),
      false, none⟩
  | writing (es : List Exchange) (e : Exchange) (message : Response) (h : Kept json es)
    (hm : responses json e = [message]) :
    Reached ⟨[.write message (closes e message)], some message, es++[e],
      es.flatMap (responses json)++[message], es.flatMap (responses json), false, none⟩
  | readFailed (es : List Exchange) (h : Kept json es) :
    Reached ⟨[], none, es, es.flatMap (responses json), es.flatMap (responses json),
      false, some .readFailed⟩
  | endOfStream (es : List Exchange) (h : Kept json es) :
    Reached ⟨[], none, es, es.flatMap (responses json), es.flatMap (responses json),
      true, some .endOfStream⟩
  | unanswered (es : List Exchange) (e : Exchange) (h : Kept json es)
    (hm : responses json e = []) :
    Reached ⟨[], none, es++[e], es.flatMap (responses json), es.flatMap (responses json),
      false, some .unanswered⟩
  | writeFailed (es : List Exchange) (e : Exchange) (message : Response) (h : Kept json es)
    (hm : responses json e = [message]) :
    Reached ⟨[], some message, es++[e], es.flatMap (responses json)++[message],
      es.flatMap (responses json), false, some .writeFailed⟩
  | needEof (es : List Exchange) (e : Exchange) (message : Response) (h : Kept json es)
    (hm : responses json e = [message]) (hc : closes e message = true) :
    Reached ⟨[], some message, es++[e], es.flatMap (responses json)++[message],
      es.flatMap (responses json)++[message], true, some .needEof⟩

theorem Kept.snoc {es : List Exchange} (h : Kept json es) (e : Exchange) (message : Response)
    (hm : responses json e = [message]) (hc : closes e message = false) : Kept json (es++[e]) := by
  intro e' he'
  rcases List.mem_append.mp he' with he' | he'
  · exact h e' he'
  · rw [List.mem_singleton.mp he']
    exact ⟨message, hm, hc⟩

/-- The request is answered, or the connection is over without an answer. -/
theorem onRequest_reached (hneed : Documented needEof) (es : List Exchange) (h : Kept json es) (visit : Visit) (http11 : Bool)
    (manager manager' : Option ServiceManager) (c : Connection)
    (hc : onRequest json needEof visit http11 manager ⟨[], none, es, es.flatMap (responses json),
      es.flatMap (responses json), false, none⟩ = .ok (c, manager')) : Reached json c := by
  unfold onRequest at hc
  split at hc
  · cases hc
  cases hc
  have hsent : (handled json visit manager).sent = responses json ⟨visit, http11, manager⟩ := rfl
  rw [hsent, answer]
  obtain hm | ⟨message, hm, he⟩ := responses_cases json needEof hneed ⟨visit, http11, manager⟩
  · rw [if_pos hm]
    exact .unanswered es _ h hm
  · rw [if_neg (by simp [hm]), hm]
    have := Reached.writing es ⟨visit, http11, manager⟩ message h hm
    simpa [send, ← he] using this

theorem onWrite_reached (es : List Exchange) (e : Exchange) (message : Response)
    (h : Kept json es) (hm : responses json e = [message]) (ok : Bool) :
    Reached json (onWrite message (closes e message) ok
      ⟨[], some message, es++[e], es.flatMap (responses json)++[message],
        es.flatMap (responses json), false, none⟩) := by
  cases ok with
  | false => exact .writeFailed es e message h hm
  | true =>
    cases hc : closes e message with
    | true => simpa [onWrite, doClose] using Reached.needEof es e message h hm hc
    | false =>
      have := Reached.reading (es++[e]) (h.snoc json e message hm hc)
      simpa [onWrite, doRead, hm] using this

theorem eraseIdx_one {α : Type} (a b : α) (i : ℕ) (h : [a][i]? = some b) :
    b = a ∧ [a].eraseIdx i = [] := by
  cases i with
  | zero => exact ⟨(Option.some.inj h).symm, rfl⟩
  | succ i => simp at h

/-- One completion takes a connection from one of these states to another. -/
theorem complete_reached (hneed : Documented needEof) (i : ℕ) (completion : Completion) (manager manager' : Option ServiceManager)
    (c c' : Connection) (h : Reached json c)
    (hc : complete json needEof i completion manager c = .ok (c', manager')) : Reached json c' := by
  unfold complete at hc
  cases ho : c.outstanding[i]? with
  | none =>
    rw [ho] at hc
    cases hc
    exact h
  | some operation =>
    simp only [ho] at hc
    cases h with
    | reading es h =>
      obtain ⟨rfl, he⟩ := eraseIdx_one _ _ i ho
      simp only [he] at hc
      cases completion with
      | request visit http11 => exact onRequest_reached json needEof hneed es h visit http11 _ _ _ hc
      | endOfStream =>
        cases hc
        exact .endOfStream es h
      | readFailed =>
        cases hc
        exact .readFailed es h
      | write ok =>
        cases hc
        exact .reading es h
    | writing es e message h hm =>
      obtain ⟨rfl, he⟩ := eraseIdx_one _ _ i ho
      simp only [he] at hc
      cases completion with
      | write ok =>
        cases hc
        exact onWrite_reached json es e message h hm ok
      | request visit http11 =>
        cases hc
        exact .writing es e message h hm
      | endOfStream =>
        cases hc
        exact .writing es e message h hm
      | readFailed =>
        cases hc
        exact .writing es e message h hm
    | readFailed es h => simp at ho
    | endOfStream es h => simp at ho
    | unanswered es e h hm => simp at ho
    | writeFailed es e message h hm => simp at ho
    | needEof es e message h hm hc => simp at ho

/-- What an event does to a server: an accept operation is started again for
the one that completed, and a completion is one step of its connection. -/
inductive Stepped (server : Server) : Event → Server → Prop where
  | idle (outcome : Accepted) : Stepped server (.accepted outcome) server
  | connected : Stepped server (.accepted .connected)
      { server with connections := server.connections++[doRead {}] }
  | absent (k i : ℕ) (completion : Completion) (h : server.connections[k]? = none) :
    Stepped server (.completion k i completion) server
  | completed (k i : ℕ) (completion : Completion) (c c' : Connection)
    (manager : Option ServiceManager) (hk : server.connections[k]? = some c)
    (hc : complete json needEof i completion server.manager c = .ok (c', manager)) :
    Stepped server (.completion k i completion)
      { server with manager, connections := server.connections.set k c' }

theorem step_stepped (event : Event) (server after : Server)
    (hs : step json needEof event server = .ok after) : Stepped json needEof server event after := by
  cases event with
  | accepted outcome =>
    rw [step] at hs
    by_cases hz : server.accepts = 0
    · rw [if_pos hz] at hs
      cases hs
      exact .idle outcome
    · have hagain : server.accepts-1+1 = server.accepts := Nat.sub_one_add_one hz
      rw [if_neg hz] at hs
      cases outcome with
      | failed =>
        rw [onAccept, doAccept, hagain] at hs
        cases hs
        exact .idle _
      | connected =>
        rw [onAccept, doAccept, hagain] at hs
        cases hs
        exact .connected
      | gone what => cases hs
  | completion k i completion =>
    rw [step] at hs
    cases hk : server.connections[k]? with
    | none =>
      rw [hk] at hs
      cases hs
      exact .absent k i completion hk
    | some c =>
      simp only [hk] at hs
      split at hs
      · cases hs
      case _ c' manager hc =>
        cases hs
        exact .completed k i completion c c' manager hk hc

/-- The server keeps one accept operation going, and every connection is in
one of the states above. -/
structure Sound (server : Server) : Prop where
  accepts : server.accepts = 1
  reached : ∀ c ∈ server.connections, Reached json c

theorem step_sound (hneed : Documented needEof) (event : Event) (server after : Server) (h : Sound json server)
    (hs : step json needEof event server = .ok after) : Sound json after := by
  cases step_stepped json needEof event server after hs with
  | idle outcome => exact h
  | connected =>
    refine ⟨h.accepts, fun c hc => ?_⟩
    rcases List.mem_append.mp hc with hc | hc
    · exact h.reached c hc
    · rw [List.mem_singleton.mp hc]
      exact .reading [] (by simp [Kept])
  | absent k i completion hk => exact h
  | completed k i completion c c' manager hk hc =>
    refine ⟨h.accepts, fun d hd => ?_⟩
    rcases List.mem_or_eq_of_mem_set hd with hd | rfl
    · exact h.reached d hd
    · exact complete_reached json needEof hneed i completion _ _ c d
        (h.reached c (List.mem_of_getElem? hk)) hc

/-- The server behind its first `do_accept`. -/
def listening : Server := {}

theorem run_sound (hneed : Documented needEof) (events : List Event) (server : Server)
    (h : run (step json needEof) events listening = .ok server) : Sound json server :=
  run_keeps (step json needEof) (Sound json) (step_sound json needEof hneed) events listening server
    ⟨rfl, fun _ hc => nomatch hc⟩ h

/-- What holds of a connection at any time. -/
structure Orderly (c : Connection) : Prop where
  single : c.outstanding.length ≤ 1
  alive : ∀ message close, .write message close ∈ c.outstanding → c.res = some message
  sent : c.sent = c.exchanges.flatMap (responses json)
  delivered : c.delivered <+: c.sent
  answered : .read ∈ c.outstanding → c.delivered = c.sent ∧ c.sent.length = c.exchanges.length
  ended : c.outstanding = [] ↔ c.ending.isSome
  /-- A request behind another one finds it answered and the answer delivered. -/
  earlier : ∀ es e, c.exchanges = es++[e] → Kept json es ∧ es.flatMap (responses json) <+: c.delivered

theorem Kept.length {es : List Exchange} (h : Kept json es) :
    (es.flatMap (responses json)).length = es.length := by
  induction es with
  | nil => rfl
  | cons e es ih =>
    obtain ⟨message, hm, -⟩ := h e List.mem_cons_self
    rw [List.flatMap_cons, hm, List.singleton_append, List.length_cons, List.length_cons,
      ih fun e' he' => h e' (List.mem_cons_of_mem e he')]

theorem Kept.init {es : List Exchange} {e : Exchange} (h : Kept json (es++[e])) : Kept json es :=
  fun e' he' => h e' (List.mem_append_left _ he')

theorem Kept.earlier {es : List Exchange} (h : Kept json es) (es' : List Exchange) (e : Exchange)
    (he : es = es'++[e]) :
    Kept json es' ∧ es'.flatMap (responses json) <+: es.flatMap (responses json) := by
  subst he
  exact ⟨h.init json, by simp⟩

theorem snoc_inj {α : Type} {as bs : List α} {a b : α} (h : as++[a] = bs++[b]) :
    as = bs ∧ a = b := by
  have := List.append_inj' h rfl
  exact ⟨this.1, by simpa using this.2⟩

theorem Reached.orderly {c : Connection} (h : Reached json c) : Orderly json c := by
  cases h with
  | reading es h =>
    refine ⟨by simp, by simp, rfl, List.prefix_rfl, fun _ => ⟨rfl, h.length json⟩, by simp, ?_⟩
    exact fun es' e he => h.earlier json es' e he
  | writing es e message h hm =>
    refine ⟨by simp, by simp, by simp [hm], by simp, by simp, by simp, fun es' e' he => ?_⟩
    obtain ⟨rfl, -⟩ := snoc_inj he
    exact ⟨h, List.prefix_rfl⟩
  | readFailed es h =>
    refine ⟨by simp, by simp, rfl, List.prefix_rfl, by simp, by simp, ?_⟩
    exact fun es' e he => h.earlier json es' e he
  | endOfStream es h =>
    refine ⟨by simp, by simp, rfl, List.prefix_rfl, by simp, by simp, ?_⟩
    exact fun es' e he => h.earlier json es' e he
  | unanswered es e h hm =>
    refine ⟨by simp, by simp, by simp [hm], by simp, by simp, by simp, fun es' e' he => ?_⟩
    obtain ⟨rfl, -⟩ := snoc_inj he
    exact ⟨h, List.prefix_rfl⟩
  | writeFailed es e message h hm =>
    refine ⟨by simp, by simp, by simp [hm], by simp, by simp, by simp, fun es' e' he => ?_⟩
    obtain ⟨rfl, -⟩ := snoc_inj he
    exact ⟨h, List.prefix_rfl⟩
  | needEof es e message h hm hc =>
    refine ⟨by simp, by simp, by simp [hm], by simp, by simp, by simp, fun es' e' he => ?_⟩
    obtain ⟨rfl, -⟩ := snoc_inj he
    exact ⟨h, by simp⟩

/-- However accepts and completions of any number of connections are
interleaved, each connection answers its requests one at a time and in order,
and every write refers to a response that is still alive. -/
theorem connections_orderly (hneed : Documented needEof) (events : List Event) (server : Server)
    (h : run (step json needEof) events listening = .ok server) :
    server.accepts = 1 ∧ ∀ c ∈ server.connections, Orderly json c :=
  ⟨(run_sound json needEof hneed events server h).accepts,
    fun c hc => ((run_sound json needEof hneed events server h).reached c hc).orderly json⟩

def beastNeedEof (http11 : Bool) (message : Response) : Bool := !message.keepAlive.getD http11

theorem beast_documented : Documented beastNeedEof where
  asked http11 message keep h := by rw [beastNeedEof, h, Option.getD_some]
  version http11 message h := by rw [beastNeedEof, h, Option.getD_none]

/-- A host that runs OpenRC. -/
def rcHost : Host := { busDown with openrc := true }

/-- Two clients ask for the service manager; between them OpenRC goes away. -/
def twoClients : List Event := [
  .accepted .connected, .accepted .connected,
  .completion 1 0 (.request ⟨rcHost, getService⟩ true),
  .completion 0 0 (.request ⟨busDown, getService⟩ false),
  .completion 1 0 (.write true), .completion 0 0 (.write true), .completion 1 0 .endOfStream]

theorem connections_orderly_two : ∃ server, run (step quietJson beastNeedEof) twoClients listening = .ok server ∧
    server.connections.length = 2 ∧ ∀ c ∈ server.connections, Orderly quietJson c :=
  ⟨_, rfl, rfl, (connections_orderly quietJson beastNeedEof beast_documented twoClients _ rfl).2⟩

/-- The server ends a connection on its own exactly behind an answer that
closes. What the request asks for only counts where the answer is no 200. -/
theorem connection_closed_iff (hneed : Documented needEof) (events : List Event) (server : Server)
    (h : run (step json needEof) events listening = .ok server) (c : Connection)
    (hc : c ∈ server.connections) : c.ending = some .needEof ↔
      ∃ es e message, c.exchanges = es++[e] ∧ responses json e = [message] ∧
        c.delivered = c.sent ∧ closes e message = true := by
  have open_kept : ∀ es : List Exchange, Kept json es → ¬ ∃ es' e message, es = es'++[e] ∧
      responses json e = [message] ∧ closes e message = true := by
    rintro es hk ⟨es', e, message, rfl, hm, hcl⟩
    obtain ⟨message', hm', hcl'⟩ := hk e (by simp)
    rw [hm, List.singleton_inj] at hm'
    rw [hm', hcl'] at hcl
    cases hcl
  have undelivered : ∀ (sent : List Response) message, sent ≠ sent++[message] := by simp
  cases (run_sound json needEof hneed events server h).reached c hc with
  | reading es h =>
    refine iff_of_false (by simp) ?_
    rintro ⟨es', e, message, he, hm, -, hcl⟩
    exact open_kept es h ⟨es', e, message, he, hm, hcl⟩
  | writing es e message h hm =>
    refine iff_of_false (by simp) ?_
    rintro ⟨-, -, -, -, -, hd, -⟩
    exact undelivered _ message hd
  | readFailed es h =>
    refine iff_of_false (by simp) ?_
    rintro ⟨es', e, message, he, hm, -, hcl⟩
    exact open_kept es h ⟨es', e, message, he, hm, hcl⟩
  | endOfStream es h =>
    refine iff_of_false (by simp) ?_
    rintro ⟨es', e, message, he, hm, -, hcl⟩
    exact open_kept es h ⟨es', e, message, he, hm, hcl⟩
  | unanswered es e h hm =>
    refine iff_of_false (by simp) ?_
    rintro ⟨es', e', message, he, hm', -⟩
    obtain ⟨-, rfl⟩ := snoc_inj he
    rw [hm] at hm'
    cases hm'
  | writeFailed es e message h hm =>
    refine iff_of_false (by simp) ?_
    rintro ⟨-, -, -, -, -, hd, -⟩
    exact undelivered _ message hd
  | needEof es e message h hm hcl =>
    exact iff_of_true rfl ⟨es, e, message, rfl, hm, rfl, hcl⟩

theorem connection_closed_two : ∃ server c, run (step quietJson beastNeedEof) twoClients listening = .ok server ∧
    server.connections[0]? = some c ∧ c.ending = some .needEof ∧
    (c.ending = some .needEof ↔ ∃ es e message, c.exchanges = es++[e] ∧
      responses quietJson e = [message] ∧ c.delivered = c.sent ∧ closes e message = true) :=
  ⟨_, _, rfl, rfl, rfl, connection_closed_iff quietJson beastNeedEof beast_documented twoClients _ rfl _
    (List.mem_of_getElem? (i := 0) rfl)⟩

/-- The static variable is written once. -/
theorem remembered_known (host : Host) (req : Request) (m : ServiceManager) :
    remembered json host req (some m) = some m := by
  unfold remembered
  split <;> rfl

theorem onWrite_exchanges (message : Response) (close ok : Bool) (c : Connection) :
    (onWrite message close ok c).exchanges = c.exchanges := by
  unfold onWrite
  repeat' split
  all_goals rfl

theorem answer_exchanges (rs : List Response) (http11 : Bool) (c : Connection) :
    (answer needEof rs http11 c).exchanges = c.exchanges := by
  unfold answer
  split
  · rfl
  · clear * -
    induction rs generalizing c with
    | nil => rfl
    | cons r rs ih => rw [List.foldl_cons, ih, send]

/-- One completion answers no request, or one that then has been answered
with the service manager known before it. -/
theorem complete_exchanges (i : ℕ) (completion : Completion)
    (manager manager' : Option ServiceManager) (c c' : Connection)
    (h : complete json needEof i completion manager c = .ok (c', manager')) :
    (c'.exchanges = c.exchanges ∧ manager' = manager) ∨
    ∃ e, e.manager = manager ∧ c'.exchanges = c.exchanges++[e] ∧
      manager' = remembered json e.visit.host e.visit.req manager := by
  unfold complete at h
  split at h
  · cases h
    exact .inl ⟨rfl, rfl⟩
  · unfold completed at h
    split at h
    · unfold onRequest at h
      split at h
      · cases h
      · cases h
        exact .inr ⟨_, rfl, answer_exchanges needEof _ _ _, rfl⟩
    · cases h
      exact .inl ⟨rfl, rfl⟩
    · cases h
      exact .inl ⟨rfl, rfl⟩
    · cases h
      exact .inl ⟨onWrite_exchanges _ _ _ _, rfl⟩
    · cases h
      exact .inl ⟨rfl, rfl⟩

/-- A service manager that is known stays. -/
theorem complete_manager (i : ℕ) (completion : Completion) (manager manager' : Option ServiceManager)
    (c c' : Connection) (h : complete json needEof i completion manager c = .ok (c', manager'))
    (m : ServiceManager) (hm : manager = some m) : manager' = some m := by
  obtain ⟨-, rfl⟩ | ⟨e, -, -, rfl⟩ := complete_exchanges json needEof i completion _ _ c c' h
  · exact hm
  · rw [hm, remembered_known]

/-- What a request has learnt of the service manager, the server remembers. -/
def Remembers (server : Server) : Prop :=
  ∀ c ∈ server.connections, ∀ e ∈ c.exchanges, ∀ m,
    remembered json e.visit.host e.visit.req e.manager = some m → server.manager = some m

theorem step_remembers (event : Event) (server after : Server) (h : Remembers json server)
    (hs : step json needEof event server = .ok after) : Remembers json after := by
  cases step_stepped json needEof event server after hs with
  | idle outcome => exact h
  | connected =>
    intro c hc e he m hm
    rcases List.mem_append.mp hc with hc | hc
    · exact h c hc e he m hm
    · rw [List.mem_singleton.mp hc] at he
      cases he
  | absent k i completion hk => exact h
  | completed k i completion c c' manager hk hc =>
    have hkeep : ∀ m, server.manager = some m → manager = some m :=
      complete_manager json needEof i completion _ _ c c' hc
    intro d hd e he m hm
    rcases List.mem_or_eq_of_mem_set hd with hd | rfl
    · exact hkeep m (h d hd e he m hm)
    · obtain ⟨hex, -⟩ | ⟨e', hman, hex, rfl⟩ := complete_exchanges json needEof i completion _ _ c d hc
      · rw [hex] at he
        exact hkeep m (h c (List.mem_of_getElem? hk) e he m hm)
      · rw [hex] at he
        rcases List.mem_append.mp he with he | he
        · exact hkeep m (h c (List.mem_of_getElem? hk) e he m hm)
        · rw [List.mem_singleton.mp he, hman] at hm
          exact hm

/-- The body of a 200 to `GET /service` follows from the manager it settles. -/
theorem service_body (e : Exchange) (message : Response) (hr : route e.visit.req = some .service)
    (hm : message ∈ responses json e) (hs : message.status = 200) :
    ∃ m info, remembered json e.visit.host e.visit.req e.manager = some m ∧
      infoService e.visit.host (some m) = .ok (.ok info) ∧
      json.dump info.toJson = .ok message.body := by
  have hasks : asksManager json e.visit.host e.visit.req = true := by simp [asksManager, hr]
  rw [responses, handled, handler_route _ _ _ _ hr] at hm
  simp only [runRoute, endpoints, infoService] at hm
  rw [remembered, if_pos hasks]
  cases hg : getServiceManager e.visit.host e.manager with
  | error f =>
    rw [hg] at hm
    cases f with
    | exception x =>
      rw [List.mem_singleton.mp hm] at hs
      cases hs
    | dbusError => cases hm
    | undefined u => cases hm
  | ok m =>
    have hbody : ∀ info, message ∈ (Run json (some ServiceInfo.toJson) e.visit.req
        { outcome := .ok (.ok info) }).sent → json.dump info.toJson = .ok message.body := by
      intro info hm
      rw [List.mem_singleton.mp hm] at hs ⊢
      simp only [respond] at hs ⊢
      split at hs
      case isTrue hj =>
        rw [if_pos hj]
        cases hb : json.dump info.toJson with
        | error x =>
          simp only [hb] at hs
          cases hs
        | ok body => rfl
      case isFalse => cases hs
    rw [hg] at hm
    cases m with
    | systemd => exact ⟨.systemd, _, rfl, rfl, hbody _ hm⟩
    | openrc => exact ⟨.openrc, _, rfl, rfl, hbody _ hm⟩
    | unknown =>
      rw [List.mem_singleton.mp hm] at hs
      cases hs

/-- All answers 200 to `GET /service` that a server process ever gives, on any
of its connections, have the same body, whatever becomes of the host. -/
theorem one_service_manager (events : List Event) (server : Server)
    (h : run (step json needEof) events listening = .ok server) (c c' : Connection)
    (hc : c ∈ server.connections) (hc' : c' ∈ server.connections) (e e' : Exchange)
    (he : e ∈ c.exchanges) (he' : e' ∈ c'.exchanges) (hr : route e.visit.req = some .service)
    (hr' : route e'.visit.req = some .service) (message message' : Response)
    (hm : message ∈ responses json e) (hm' : message' ∈ responses json e')
    (hs : message.status = 200) (hs' : message'.status = 200) : message.body = message'.body := by
  have hinv : Remembers json server :=
    run_keeps (step json needEof) (Remembers json) (step_remembers json needEof) events listening server
      (fun _ hc => nomatch hc) h
  obtain ⟨m, info, hk, hi, hb⟩ := service_body json e message hr hm hs
  obtain ⟨m', info', hk', hi', hb'⟩ := service_body json e' message' hr' hm' hs'
  have hmm : m = m' := by
    have h1 := hinv c hc e he m hk
    rw [hinv c' hc' e' he' m' hk'] at h1
    exact (Option.some.inj h1).symm
  subst hmm
  have hii : infoService e'.visit.host (some m) = infoService e.visit.host (some m) := rfl
  rw [hii, hi] at hi'
  cases hi'
  rw [hb] at hb'
  exact Except.ok.inj hb'

theorem one_service_manager_two : ∃ server, run (step quietJson beastNeedEof) twoClients listening = .ok server ∧
    ∃ message message' : Response,
      message ∈ responses quietJson ⟨⟨rcHost, getService⟩, true, none⟩ ∧
      message' ∈ responses quietJson ⟨⟨busDown, getService⟩, false, some .openrc⟩ ∧
      message.body = message'.body :=
  ⟨_, rfl, _, _, List.mem_cons_self, List.mem_cons_self,
    one_service_manager quietJson beastNeedEof twoClients _ rfl _ _ (List.mem_of_getElem? (i := 1) rfl)
      (List.mem_of_getElem? (i := 0) rfl) _ _ List.mem_cons_self List.mem_cons_self (by decide)
      (by decide) _ _ List.mem_cons_self List.mem_cons_self rfl rfl⟩

/-- A connection's own completions, as events of a connection alone. -/
def own (k : ℕ) : Event → Option (ℕ × Completion)
  | .accepted _ => none
  | .completion k' i completion => if k' = k then some (i, completion) else none

def alone (m : ServiceManager) (event : ℕ × Completion) (c : Connection) :
    Except Failure Connection :=
  (complete json needEof event.1 event.2 (some m) c).map Prod.fst

theorem own_completion (k k' i i' : ℕ) (completion completion' : Completion)
    (h : own k (.completion k' i completion) = some (i', completion')) :
    k' = k ∧ i = i' ∧ completion = completion' := by
  rw [own] at h
  split at h
  case isTrue hk =>
    cases h
    exact ⟨hk, rfl, rfl⟩
  case isFalse => cases h

theorem completion_apart (m : ServiceManager) (k : ℕ) :
    Apart (step json needEof) (own k) (alone json needEof m) fun server c =>
      server.manager = some m ∧ server.connections[k]? = some c where
  mine := by
    rintro event ⟨i, completion⟩ server after c ho ⟨hm, hc⟩ hs
    cases step_stepped json needEof event server after hs with
    | idle outcome => cases ho
    | connected => cases ho
    | absent k' i' completion' hk =>
      obtain ⟨rfl, -, -⟩ := own_completion k k' i' i completion' completion ho
      cases hk.symm.trans hc
    | completed k' i' completion' d c' manager hk hcomplete =>
      obtain ⟨rfl, rfl, rfl⟩ := own_completion k k' i' i completion' completion ho
      cases hk.symm.trans hc
      have hknown := complete_manager json needEof i' completion' _ _ c c' hcomplete m hm
      rw [hm] at hcomplete
      refine ⟨c', by rw [alone, hcomplete]; rfl, hknown, ?_⟩
      exact List.getElem?_set_self (List.getElem?_eq_some_iff.mp hk).1
  other := by
    rintro event server after c ho ⟨hm, hc⟩ hs
    cases step_stepped json needEof event server after hs with
    | idle outcome => exact ⟨hm, hc⟩
    | connected =>
      exact ⟨hm, (List.getElem?_append_left (List.getElem?_eq_some_iff.mp hc).1).trans hc⟩
    | absent k' i completion hk => exact ⟨hm, hc⟩
    | completed k' i completion d d' manager hk hcomplete =>
      have hne : k' ≠ k := fun hk => by simp [own, hk] at ho
      exact ⟨complete_manager json needEof i completion _ _ d d' hcomplete m hm,
        (List.getElem?_set_ne hne).trans hc⟩

/-- Once the service manager is known, a connection goes through the run of
the server as it would through its own completions alone. -/
theorem connections_apart (events : List Event) (server after : Server) (m : ServiceManager) (k : ℕ)
    (c : Connection) (hm : server.manager = some m) (hc : server.connections[k]? = some c)
    (h : run (step json needEof) events server = .ok after) :
    ∃ c', run (alone json needEof m) (events.filterMap (own k)) c = .ok c' ∧
      after.connections[k]? = some c' := by
  obtain ⟨c', hrun, -, hc'⟩ :=
    (completion_apart json needEof m k).run events server after c ⟨hm, hc⟩ h
  exact ⟨c', hrun, hc'⟩

theorem connections_apart_two : ∃ after c',
    run (step quietJson beastNeedEof) (twoClients.drop 2)
      { manager := some .openrc, connections := [doRead {}, doRead {}] } = .ok after ∧
    run (alone quietJson beastNeedEof .openrc) ((twoClients.drop 2).filterMap (own 0)) (doRead {}) = .ok c' ∧
    after.connections[0]? = some c' := by
  obtain ⟨c', hrun, hc'⟩ := connections_apart quietJson beastNeedEof (twoClients.drop 2)
    { manager := some .openrc, connections := [doRead {}, doRead {}] } _ .openrc 0 (doRead {})
    rfl rfl rfl
  exact ⟨_, c', rfl, hrun, hc'⟩

end

end Bakaneko.RestConnection
