import Bakaneko.Library.Fallible
import Bakaneko.Library.PendingWrite
import Bakaneko.RoundLatch

/-!
# What a server is taken for

A round writes the state and announces the change, and when the server has
gone offline it clears the flags of the pages. The replies set flags from
threads of their own, so that the flags stay clear only if no reply of an
earlier round is left when the latch lets the next one begin.
-/

set_option autoImplicit false

namespace Bakaneko.OnlineSignals
open Bakaneko.ServerRound Bakaneko.RoundLatch CountingLatch PartialRun
open PendingWrite (rest step_shape thread_self thread_other lone_rest)

/-- The thread is a call of `update_info` in the middle of its writes. -/
def writing : Code → Bool
  | .act _ _ => true
  | _ => false

/-- The thread is a call of `update_info` that has pinged the server, and next
compares the result with the state. -/
def comparing : Code → Bool
  | .branch _ _ no => writing no
  | _ => false

/-- The server with the calls of `update_info` and what their pings say, and
the results of the pings that are in. -/
structure History where
  client : Client
  pings : List State
  calls : List (ℕ × State)

/-- The results that come in with a step of this thread. -/
def History.pinged (h : History) (i : ℕ) : List State :=
  (h.calls.filter fun c => c.1 = i && (h.client.threads[i]?).any comparing).map Prod.snd

def step : Event → History → Except Empty History
  | .poll ping replies, h => .ok (if h.client.latch = 0 then
      { h with
        client := poll ping replies h.client
        calls := h.calls++[(h.client.threads.length, pingComputer ping)] }
    else h)
  | .step i, h => .ok { h with
      client := CountingLatch.step code h.client i
      pings := h.pings++h.pinged i }

def start (hostname : Native.Bytes) : History := ⟨idle { hostname }, [], []⟩

def announced (server : Server) : List Signal :=
  server.emitted.filter fun s => s = .thisOnline ∨ s = .thisOffline

def announcement (new : State) : Signal := if new = .offline then .thisOffline else .thisOnline

/-- The changes along the results of the pings. -/
def changes : List State → List Signal
  | [] => []
  | [_] => []
  | a::b::rest => if a = b then changes (b::rest) else announcement b::changes (b::rest)

/-- A call of `update_info` brings the state up to date. -/
def busy (h : History) : Bool := h.calls.any fun c => (h.client.threads[c.1]?).any writing

structure Consistent (h : History) : Prop where
  offline : h.client.state.state = .offline → ∀ page, h.client.state.avaliable page = false
  last : ∀ ping, h.pings.getLast? = some ping → h.client.state.state = ping
  changes : announced h.client.state = changes h.pings
  alternate : (announced h.client.state).IsChain (· ≠ ·)

def Reports (h : History) : Prop := busy h = false → Consistent h

/-- No call is between its look at the latch and its setting when a round
begins, and no round in which the server comes online has both the chained
request and a refused request for the adapters. -/
def InTime : Event → Client → Prop
  | .poll ping replies, client => client.latch = 0 →
    (∀ t ∈ client.threads, arming t = false) ∧
    (pingComputer ping = .online → client.state.state ≠ .online →
      ¬ (Chains replies ∧ AdaptersRefused replies))
  | .step _, _ => True

theorem step_tick (event : Event) (h t : History) (ht : step event h = .ok t) :
    tick event h.client = .ok t.client := by
  cases event with
  | step i => cases ht; rfl
  | poll ping replies =>
    cases ht
    dsimp only [tick]
    split
    · rfl
    · next hz => rw [poll, if_neg hz]

theorem changes_append (pings : List State) (old new : State) (h : pings.getLast? = some old) :
    changes (pings++[new]) = changes pings++if old = new then [] else [announcement new] := by
  induction pings with
  | nil => cases h
  | cons a rest ih =>
    cases rest with
    | nil =>
      obtain rfl : a = old := Option.some.inj h
      rw [List.singleton_append, changes, changes, changes]
      split <;> rfl
    | cons b rest =>
      have hrest := ih h
      rw [List.cons_append, List.cons_append, changes, changes]
      rw [List.cons_append] at hrest
      split
      · exact hrest
      · rw [hrest, List.cons_append]

theorem announcement_ne : ∀ a b : State, a ≠ .unknown → b ≠ .unknown → a ≠ b →
    announcement b ≠ announcement a
  | .unknown, _, ha, _, _ => absurd rfl ha
  | _, .unknown, _, hb, _ => absurd rfl hb
  | .online, .offline, _, _, _ => by decide
  | .offline, .online, _, _, _ => by decide
  | .online, .online, _, _, hab => absurd rfl hab
  | .offline, .offline, _, _, hab => absurd rfl hab

theorem changes_first (a : State) (rest : List State) (hknown : ∀ s ∈ a::rest, s ≠ .unknown)
    (signal : Signal) (h : (changes (a::rest)).head? = some signal) :
    signal ≠ announcement a := by
  induction rest generalizing a with
  | nil => cases h
  | cons b rest ih =>
    rw [changes] at h
    split at h
    · next hab =>
      rw [hab]
      exact ih b (fun s hs => hknown s (List.mem_cons_of_mem _ hs)) h
    · next hab =>
      obtain rfl : announcement b = signal := Option.some.inj h
      exact announcement_ne a b (hknown a (by simp)) (hknown b (by simp)) hab

theorem changes_alternate (pings : List State) (hknown : ∀ s ∈ pings, s ≠ .unknown) :
    (changes pings).IsChain (· ≠ ·) := by
  induction pings with
  | nil => exact .nil
  | cons a rest ih =>
    cases rest with
    | nil => exact .nil
    | cons b rest =>
      have hrest : ∀ s ∈ b::rest, s ≠ .unknown := fun s hs => hknown s (List.mem_cons_of_mem _ hs)
      rw [changes]
      split
      · exact ih hrest
      · rw [List.isChain_cons]
        refine ⟨fun signal hs => ?_, ih hrest⟩
        exact (changes_first b rest hrest signal hs).symm

/-- What no reply changes. -/
def view (server : Server) : State × List Signal := (server.state, announced server)

theorem view_emit (signals : List Signal) (server : Server)
    (h : ∀ s ∈ signals, s ≠ .thisOnline ∧ s ≠ .thisOffline) :
    view (emit signals server) = view server := by
  have hnone : signals.filter (fun s => s = .thisOnline ∨ s = .thisOffline) = [] :=
    List.filter_eq_nil_iff.mpr fun s hs => by simpa using h s hs
  simp only [view, announced, emit, List.filter_append, hnone, List.append_nil]

theorem unseen_setControl (control : Option Page) (value : Bool) (next : Code)
    (h : Unseen view next) : Unseen view (setControl control value next) := by
  cases control with
  | none => exact h
  | some page => exact ⟨fun _ => rfl, fun _ => view_emit _ _ (by decide), h⟩

theorem unseen_networkGet {α : Type} (reply : Reply α) (control : Option Page) (slot : α → Code)
    (h : ∀ info, Unseen view (slot info)) : Unseen view (networkGet reply control slot) := by
  apply networkGet_cases (Unseen view)
  · exact fun _ => trivial
  · exact fun _ => unseen_setControl control true _ trivial
  · exact fun info _ => unseen_setControl control true _ (h info)
  · intro status _ _ _
    unfold refused
    dsimp only
    split
    · apply unseen_setControl
      split <;> trivial
    · split <;> trivial

theorem view_receiveInfo (info : Messages.System) (server : Server) :
    view (receiveInfo info server) = view server := by
  unfold receiveInfo
  dsimp only
  split
  · exact (view_emit [.changedHostname] _ (by decide)).trans
      (view_emit [.changedOs, .changedIcon, .changedKernel, .changedArch]
        { server with systemInfo := info } (by decide))
  · exact view_emit _ _ (by decide)

theorem unseen_code (get : Get) : Unseen view (code get) := by
  obtain ⟨path, control, replies⟩ := get
  cases path with
  | system =>
    exact unseen_networkGet _ control _ fun info => ⟨view_receiveInfo info, trivial⟩
  | service =>
    exact unseen_networkGet _ control _ fun info => ⟨fun server =>
      view_emit [.changedServiceManager] { server with serviceManager := info.server }
        (by decide), trivial⟩
  | drives => exact unseen_networkGet _ control _ fun _ => trivial
  | updates => exact unseen_networkGet _ control _ fun _ => trivial
  | adapters => exact unseen_networkGet _ control _ fun _ => trivial
  | services => exact unseen_networkGet _ control _ fun _ => trivial

/-- The thread writes nothing itself, and does not set the latch. -/
def Still : Code → Prop
  | .done => True
  | .countDown next => Still next
  | .start _ next => Still next
  | .branch _ yes no => Still yes ∧ Still no
  | _ => False

/-- What the thread writes, it writes first. -/
def Writer : Code → Prop
  | .act _ next => Writer next
  | t => Still t

structure Known (h : History) : Prop extends Consistent h where
  first : h.client.state.state = .unknown ↔ h.pings = []
  known : ∀ ping ∈ h.pings, ping ≠ .unknown

/-- No call is about to write, and while the server is offline the threads
only count down. -/
structure Settled (h : History) : Prop extends Known h where
  unseen : ∀ t ∈ h.client.threads, Unseen view t
  counting : h.client.state.state = .offline → ∀ t ∈ h.client.threads, Counting t
  still : ∀ c ∈ h.calls, ∃ t, h.client.threads[c.1]? = some t ∧ Still t

def History.settle (h : History) (k : ℕ) (t : Code) : History :=
  { h with client := settled h.client k t }

/-- A call is the only thread, and with its writes done it has settled. -/
def Settling (h : History) : Prop :=
  ∃ k t, Lone h.client k t ∧ Writer t ∧ (∃ new, (k, new) ∈ h.calls) ∧ Settled (h.settle k t)

/-- A call is the only thread, and is to set the latch or has pinged. -/
def Pinging (h : History) : Prop :=
  ∃ k t new replies earlier, Lone h.client k t ∧
    (t = .reset maxSteps (pinged new replies) ∨ t = pinged new replies) ∧
    h.calls = earlier++[(k, new)] ∧ new ≠ .unknown ∧
    (∀ c ∈ earlier, c.1 ≠ k ∧ c.1 < h.client.threads.length) ∧ Known h

/-- The latch was set to all counts at least, or is to be set. -/
def Counted (client : Client) : Prop :=
  ∃ n sum, sum ≤ n ∧ Nearing Called (Kept price n sum) maxSteps client

def Inv (h : History) : Prop := (Settled h ∨ Settling h ∨ Pinging h) ∧ Counted h.client

theorem still_writer (t : Code) (h : Still t) : Writer t := by
  cases t with
  | act f next => cases h
  | _ => exact h

theorem still_acted (t : Code) (h : Still t) (server : Server) : acted t server = server := by
  induction t with
  | act f next _ => cases h
  | reset n next _ => cases h
  | branch test yes no ihyes ihno =>
    rw [acted]
    split
    · exact ihyes h.1
    · exact ihno h.2
  | _ => rfl

theorem still_rest (t : Code) (h : Still t) (server : Server) : Still (rest server t) := by
  cases t with
  | branch test yes no =>
    rw [rest]
    split
    · exact h.1
    · exact h.2
  | act f next => cases h
  | reset n next => cases h
  | _ => exact h

theorem still_compares (t : Code) (h : Still t) : comparing t = false := by
  cases t with
  | branch test yes no =>
    cases no with
    | act f next => exact h.2.elim
    | _ => rfl
  | _ => rfl

/-- The step of a thread that does not compare a ping. -/
theorem step_unpinged (h : History) (i : ℕ) (hno : ∀ new t, (i, new) ∈ h.calls →
    h.client.threads[i]? = some t → comparing t = false) :
    step (.step i) h = .ok { h with client := CountingLatch.step code h.client i } := by
  have hnone : h.pinged i = [] := by
    rw [History.pinged, List.map_eq_nil_iff, List.filter_eq_nil_iff]
    rintro ⟨j, new⟩ hc htrue
    obtain ⟨hj, hany⟩ : j = i ∧ (h.client.threads[i]?).any comparing = true := by simpa using htrue
    subst hj
    obtain ⟨t, ht, hcompares⟩ := (Option.any_eq_true comparing _).mp hany
    rw [hno new t hc ht] at hcompares
    cases hcompares
  rw [step, hnone, List.append_nil]

/-- Nothing comes of the step of another thread than the only one. -/
theorem step_beside (h : History) (k : ℕ) (t : Code) (hlone : Lone h.client k t) (i : ℕ)
    (hik : i ≠ k) : step (.step i) h = .ok h := by
  have hno : ∀ new u, (i, new) ∈ h.calls → h.client.threads[i]? = some u →
      comparing u = false := by
    intro new u _ hu
    rw [hlone.others i u hu hik]
    rfl
  rw [step_unpinged h i hno, lone_aside code h.client k t hlone i hik]

theorem consistent_of_state (h h' : History) (hs : h'.client.state = h.client.state)
    (hp : h'.pings = h.pings) (hc : Consistent h) : Consistent h' := by
  constructor
  · rw [hs]
    exact hc.offline
  · rw [hs, hp]
    exact hc.last
  · rw [hs, hp]
    exact hc.changes
  · rw [hs]
    exact hc.alternate

theorem inv_reports (h : History) (hi : Inv h) : Reports h := by
  intro hquiet
  rcases hi.1 with hs | ⟨k, t, hlone, ht, ⟨new, hk⟩, hs⟩ | ⟨k, t, new, replies, earlier, -, -, -, -,
    -, hs⟩
  · exact hs.toConsistent
  · have hnot : writing t = false := by
      have hany := List.any_eq_false.mp hquiet _ hk
      simpa [hlone.here] using hany
    have hstill : Still t := by
      cases t with
      | act f next => cases hnot
      | _ => exact ht
    exact consistent_of_state (h.settle k t) h (still_acted t hstill h.client.state).symm rfl
      hs.toConsistent
  · exact hs.toConsistent

theorem step_still (client : Client) (j : ℕ) (t : Code) (ht : client.threads[j]? = some t)
    (hs : Still t) (i : ℕ) :
    ∃ u, (CountingLatch.step code client i).threads[j]? = some u ∧ Still u := by
  cases hi : client.threads[i]? with
  | none =>
    rw [CountingLatch.step, hi]
    exact ⟨t, ht, hs⟩
  | some v =>
    rw [(step_shape code client i v hi).2]
    by_cases hij : i = j
    · subst hij
      cases hi.symm.trans ht
      exact ⟨_, thread_self _ _ _ _ _ hi, still_rest t hs client.state⟩
    · exact ⟨t, thread_other _ _ _ _ _ _ ht hij, hs⟩

theorem step_settled (h : History) (hs : Settled h) (i : ℕ) :
    ∃ h', step (.step i) h = .ok h' ∧ Settled h' := by
  have hno : ∀ new t, (i, new) ∈ h.calls → h.client.threads[i]? = some t →
      comparing t = false := by
    intro new t hc ht
    obtain ⟨u, hu, hstill⟩ := hs.still _ hc
    cases hu.symm.trans ht
    exact still_compares t hstill
  refine ⟨_, step_unpinged h i hno, ?_⟩
  obtain ⟨hview, hunseen⟩ := step_unseen view code unseen_code h.client hs.unseen i
  have hstate : (CountingLatch.step code h.client i).state.state = h.client.state.state :=
    congrArg Prod.fst hview
  have hannounced : announced (CountingLatch.step code h.client i).state =
    announced h.client.state := congrArg Prod.snd hview
  refine ⟨⟨⟨?_, ?_, ?_, ?_⟩, ?_, hs.known⟩, hunseen, ?_, ?_⟩
  · intro hoff page
    dsimp only at hoff ⊢
    rw [hstate] at hoff
    rw [(step_counting code h.client (hs.counting hoff) i).1]
    exact hs.offline hoff page
  · exact fun ping hp => hstate.trans (hs.last ping hp)
  · exact hannounced.trans hs.changes
  · dsimp only
    rw [hannounced]
    exact hs.alternate
  · dsimp only
    rw [hstate]
    exact hs.first
  · intro hoff
    dsimp only at hoff ⊢
    rw [hstate] at hoff
    exact (step_counting code h.client (hs.counting hoff) i).2
  · intro c hc
    obtain ⟨t, ht, hstill⟩ := hs.still c hc
    exact step_still h.client c.1 t ht hstill i

/-- The only thread does the next of its writes. -/
theorem step_writer (client : Client) (k : ℕ) (t : Code) (hlone : Lone client k t)
    (hw : Writer t) (ht : acts t = true) : ∃ u, Lone (CountingLatch.step code client k) k u ∧
      Writer u ∧ settled (CountingLatch.step code client k) k u = settled client k t := by
  obtain ⟨u, hu, -, hsame⟩ := lone_acts code client k t hlone ht
  refine ⟨u, hu, ?_, hsame⟩
  rw [lone_rest code client k t u hlone hu]
  cases t with
  | act f next => exact hw
  | branch test yes no => exact still_writer _ (still_rest (.branch test yes no) hw client.state)
  | _ => cases ht

theorem step_settling (h : History) (hs : Settling h) (i : ℕ) :
    ∃ h', step (.step i) h = .ok h' ∧ (Settled h' ∨ Settling h') := by
  obtain ⟨k, t, hlone, hw, ⟨new, hk⟩, hsettled⟩ := hs
  by_cases ht : acts t = true
  · by_cases hik : i = k
    · subst hik
      have hno : ∀ new u, (i, new) ∈ h.calls → h.client.threads[i]? = some u →
          comparing u = false := by
        intro _ u _ hu
        cases hlone.here.symm.trans hu
        cases t with
        | act f next => rfl
        | _ => exact still_compares _ hw
      obtain ⟨u, hu, hwriter, hsame⟩ := step_writer h.client i t hlone hw ht
      refine ⟨_, step_unpinged h i hno, .inr ⟨i, u, hu, hwriter, ⟨new, hk⟩, ?_⟩⟩
      rw [History.settle] at hsettled ⊢
      dsimp only
      rw [hsame]
      exact hsettled
    · exact ⟨h, step_beside h k t hlone i hik, .inr ⟨k, t, hlone, hw, ⟨new, hk⟩, hsettled⟩⟩
  · have hsame := lone_settled h.client k t hlone (Bool.eq_false_iff.mpr ht)
    rw [History.settle, hsame] at hsettled
    obtain ⟨h', hstep, hnext⟩ := step_settled h hsettled i
    exact ⟨h', hstep, .inl hnext⟩

theorem announced_announce (new : State) (server : Server) :
    announced (announce new server) =
      announced server++if server.state = .unknown then [] else [announcement new] := by
  unfold announce announcement
  split
  · rw [List.append_nil]
  · split <;> simp [announced, emit]

theorem announced_changeState (new : State) (server : Server) :
    announced (changeState new server) = announced server :=
  congrArg Prod.snd (view_emit [.changedState] { server with state := new } (by decide))

theorem view_restoreHostname (server : Server) : view (restoreHostname server) = view server := by
  unfold restoreHostname
  split
  · exact view_emit [.changedHostname] { server with hostname := server.defualtHostname }
      (by decide)
  · rfl

theorem view_disablePages (server : Server) : view (disablePages server) = view server :=
  view_emit [.changedEnabledPages] { server with avaliable := fun _ => false } (by decide)

/-- What the writes of a call come to: the new state and its announcement. -/
theorem acted_pinged (new : State) (replies : Replies) (server : Server) :
    (acted (pinged new replies) server).state = new ∧
    announced (acted (pinged new replies) server) = announced server++
      (if server.state = new ∨ server.state = .unknown then [] else [announcement new]) := by
  by_cases hsame : server.state = new
  · have hacted : acted (pinged new replies) server = server := by
      simp only [pinged, acted, decide_eq_true_eq, if_pos hsame]
      split <;> rfl
    rw [hacted, if_pos (.inl hsame), List.append_nil]
    exact ⟨hsame, rfl⟩
  · have hannounced : announced (changeState new (announce new server)) = announced server++
        (if server.state = new ∨ server.state = .unknown then [] else [announcement new]) := by
      rw [announced_changeState, announced_announce]
      simp only [hsame, false_or]
    simp only [pinged, acted, decide_eq_true_eq, if_neg hsame]
    by_cases hoff : new = .offline
    · rw [if_pos hoff]
      have hview := (view_disablePages (restoreHostname
        (changeState new (announce new server)))).trans (view_restoreHostname _)
      exact ⟨congrArg Prod.fst hview, (congrArg Prod.snd hview).trans hannounced⟩
    · rw [if_neg hoff]
      exact ⟨rfl, hannounced⟩

/-- A call that finds the server offline leaves no page. -/
theorem acted_offline (replies : Replies) (server : Server)
    (hflags : server.state = .offline → ∀ page, server.avaliable page = false) (page : Page) :
    (acted (pinged .offline replies) server).avaliable page = false := by
  by_cases hsame : server.state = .offline
  · simp only [pinged, acted, hsame, decide_true, if_true, reduceCtorEq, decide_false]
    exact hflags hsame page
  · simp only [pinged, acted, decide_eq_true_eq, if_neg hsame]
    rfl

theorem still_stayOnline (replies : Replies) : Still (stayOnline replies) := by
  simp [stayOnline, getIf, Still]

theorem writer_pinged (new : State) (replies : Replies) (server : Server) :
    Writer (rest server (pinged new replies)) := by
  by_cases hsame : server.state = new
  · simp only [pinged, rest, decide_eq_true_eq, if_pos hsame]
    exact ⟨still_stayOnline replies, trivial⟩
  · simp only [pinged, rest, decide_eq_true_eq, if_neg hsame]
    split <;> trivial

theorem behind_pinged (new : State) (replies : Replies) (server : Server) :
    Unseen view (behind (pinged new replies) server) ∧
      (new = .offline → Counting (behind (pinged new replies) server)) ∧
      Still (behind (pinged new replies) server) := by
  have hstay : Unseen view (stayOnline replies) := by
    simp [stayOnline, getIf, Unseen]
  by_cases hsame : server.state = new
  · simp only [pinged, behind, decide_eq_true_eq, if_pos hsame]
    by_cases hon : server.state = .online
    · rw [if_pos hon]
      refine ⟨hstay, fun hoff => ?_, still_stayOnline replies⟩
      cases hon.symm.trans (hsame.trans hoff)
    · rw [if_neg hon]
      exact ⟨trivial, fun _ => trivial, trivial⟩
  · simp only [pinged, behind, decide_eq_true_eq, if_neg hsame]
    by_cases hoff : new = .offline
    · rw [if_pos hoff]
      exact ⟨trivial, fun _ => trivial, trivial⟩
    · rw [if_neg hoff]
      exact ⟨trivial, fun h => absurd h hoff, trivial⟩

theorem changes_pinged (h : History) (hs : Known h) (new : State) :
    changes (h.pings++[new]) = changes h.pings++
      if h.client.state.state = new ∨ h.client.state.state = .unknown then []
      else [announcement new] := by
  cases hp : h.pings.getLast? with
  | none =>
    have hnone := List.getLast?_eq_none_iff.mp hp
    rw [if_pos (.inr (hs.first.mpr hnone)), hnone]
    rfl
  | some last =>
    have hknown : h.client.state.state ≠ .unknown := by
      intro hu
      rw [hs.first.mp hu] at hp
      cases hp
    rw [changes_append _ last new hp, hs.last last hp]
    rw [hs.last last hp] at hknown
    simp only [hknown, or_false]

/-- The state once the only call has compared its ping and written. -/
theorem pinged_settled (h : History) (hs : Known h) (k : ℕ) (t : Code) (new : State)
    (replies : Replies) (earlier : List (ℕ × State)) (hlone : Lone h.client k t)
    (hcalls : h.calls = earlier++[(k, new)]) (hnew : new ≠ .unknown)
    (hearlier : ∀ c ∈ earlier, c.1 ≠ k ∧ c.1 < h.client.threads.length) :
    Settled { h with
      client := settled h.client k (pinged new replies)
      pings := h.pings++[new] } := by
  obtain ⟨hstate, hannounced⟩ := acted_pinged new replies h.client.state
  obtain ⟨hunseen, hcounting, hstill⟩ := behind_pinged new replies h.client.state
  have hthreads := lone_set_threads h.client k t (behind (pinged new replies) h.client.state) hlone
  have hknown : ∀ ping ∈ h.pings++[new], ping ≠ .unknown := by
    intro ping hp
    rcases List.mem_append.mp hp with hold | hlast
    · exact hs.known ping hold
    · exact List.mem_singleton.mp hlast ▸ hnew
  have hchanges : announced (acted (pinged new replies) h.client.state) =
      changes (h.pings++[new]) := by
    rw [hannounced, hs.changes, changes_pinged h hs new]
  refine ⟨⟨⟨?_, ?_, hchanges, hchanges.symm ▸ changes_alternate _ hknown⟩, ?_, hknown⟩, ?_, ?_, ?_⟩
  · intro hoff
    obtain rfl : new = .offline := hstate.symm.trans hoff
    exact acted_offline replies h.client.state hs.offline
  · intro ping hl
    rw [show ping = new from Option.some.inj (hl.symm.trans List.getLast?_concat)]
    exact hstate
  · exact iff_of_false (fun hu => hnew (hstate.symm.trans hu)) (by simp)
  · intro u hu
    rcases hthreads u hu with rfl | rfl
    · trivial
    · exact hunseen
  · intro hoff u hu
    rcases hthreads u hu with rfl | rfl
    · trivial
    · exact hcounting (hstate.symm.trans hoff)
  · intro c hc
    rw [hcalls] at hc
    rcases List.mem_append.mp hc with hc | hc
    · obtain ⟨hck, hlt⟩ := hearlier c hc
      refine ⟨.done, ?_, trivial⟩
      dsimp only [settled]
      rw [List.getElem?_set_ne (Ne.symm hck), List.getElem?_eq_getElem hlt,
        hlone.others c.1 _ (List.getElem?_eq_getElem hlt) hck]
    · rw [List.mem_singleton.mp hc]
      exact ⟨_, List.getElem?_set_self (List.getElem?_eq_some_iff.mp hlone.here).1, hstill⟩

/-- What comes in when the only call compares its ping. -/
theorem pinged_own (h : History) (k : ℕ) (t : Code) (new : State) (earlier : List (ℕ × State))
    (ht : h.client.threads[k]? = some t) (hcompares : comparing t = true)
    (hcalls : h.calls = earlier++[(k, new)]) (hearlier : ∀ c ∈ earlier, c.1 ≠ k) :
    h.pinged k = [new] := by
  have hnone : earlier.filter (fun c => c.1 = k && (some t).any comparing) = [] :=
    List.filter_eq_nil_iff.mpr fun c hc => by simp [hearlier c hc]
  rw [History.pinged, hcalls, ht, List.filter_append, hnone]
  simp [hcompares]

theorem step_pinging (h : History) (hs : Pinging h) (i : ℕ) :
    ∃ h', step (.step i) h = .ok h' ∧ (Settling h' ∨ Pinging h') := by
  obtain ⟨k, t, new, replies, earlier, hlone, ht, hcalls, hnew, hearlier, hknown⟩ := hs
  by_cases hik : i = k
  · subst hik
    rcases ht with rfl | rfl
    · have hno : ∀ n u, (i, n) ∈ h.calls → h.client.threads[i]? = some u →
          comparing u = false := by
        intro n u _ hu
        cases hlone.here.symm.trans hu
        rfl
      have hset : CountingLatch.step code h.client i = { h.client.armed maxSteps with
          threads := h.client.threads.set i (pinged new replies) } := by
        rw [CountingLatch.step, hlone.here]
        rfl
      refine ⟨_, step_unpinged h i hno, .inr ⟨i, _, new, replies, earlier, ?_, .inr rfl, hcalls,
        hnew, ?_, ?_⟩⟩
      · rw [hset]
        exact hlone.set _ _ rfl
      · rw [hset]
        simpa [Pool.armed] using hearlier
      · rw [hset]
        exact ⟨consistent_of_state h _ rfl rfl hknown.toConsistent, hknown.first, hknown.known⟩
    · have hcompares : comparing (pinged new replies) = true := rfl
      have hpinged := pinged_own h i _ new earlier hlone.here hcompares hcalls fun c hc =>
        (hearlier c hc).1
      obtain ⟨u, hu, -, hsame⟩ := lone_acts code h.client i _ hlone rfl
      refine ⟨_, rfl, .inl ⟨i, u, hu, ?_, ⟨new, by rw [hcalls]; simp⟩, ?_⟩⟩
      · rw [lone_rest code h.client i _ u hlone hu]
        exact writer_pinged new replies h.client.state
      · have hsettled := pinged_settled h hknown i _ new replies earlier hlone hcalls hnew hearlier
        rw [History.settle]
        dsimp only
        rw [hsame, hpinged]
        exact hsettled
  · exact ⟨h, step_beside h k t hlone i hik,
      .inr ⟨k, t, new, replies, earlier, hlone, ht, hcalls, hnew, hearlier, hknown⟩⟩

theorem roundPrice_le (old : State) (ping : Option ℕ) (replies : Replies)
    (h : pingComputer ping = .online → old ≠ .online →
      ¬ (Chains replies ∧ AdaptersRefused replies)) : roundPrice old ping replies ≤ maxSteps := by
  unfold roundPrice
  split
  · next hc =>
    have hnot := h hc.1 hc.2
    rcases price_service replies with ⟨hs, hp⟩ | ⟨hs, hp⟩ <;>
      rcases price_adapters replies with ⟨ha, hq⟩ | ⟨ha, hq⟩ <;> rw [hp, hq]
    · exact absurd ⟨hs, ha⟩ hnot
    all_goals decide
  · exact le_rfl

/-- A latch that was set to all counts at least lets a round begin only when
all threads have ended. -/
theorem counted_idle (client : Client) (h : Counted client) (hz : client.latch = 0)
    (halone : ∀ t ∈ client.threads, arming t = false) : client.late = 0 ∧ Idle client := by
  obtain ⟨n, sum, hle, h⟩ := h
  rcases nearing_zero (kept_idle price price_pos n sum hle) client h hz with
    ⟨hk, hidle⟩ | ⟨k, t, -, hlone⟩
  · exact ⟨kept_inTime price n sum hle client hk, hidle⟩
  · exact absurd (halone _ (List.mem_of_getElem? hlone.here)) (by simp [arming])

theorem tick_counted (event : Event) (client after : Client) (h : Counted client)
    (hin : InTime event client) (ht : tick event client = .ok after) : Counted after := by
  cases event with
  | step i =>
    obtain rfl : CountingLatch.step code client i = after := Except.ok.inj ht
    obtain ⟨n, sum, hle, h⟩ := h
    exact ⟨n, sum, hle, nearing_step (step_kept code_priced n sum) client i h⟩
  | poll ping replies =>
    obtain rfl : poll ping replies client = after := Except.ok.inj ht
    unfold poll
    split
    case isFalse => exact h
    case isTrue hz =>
      obtain ⟨halone, hcount⟩ := hin hz
      obtain ⟨hlate, hidle⟩ := counted_idle client h hz halone
      obtain ⟨time, hw⟩ := worth_pinged client.state ping replies
      exact ⟨maxSteps, _, roundPrice_le _ _ _ hcount,
        enter_kept maxSteps client _ hidle ⟨hlate, _, _, rfl⟩ hw⟩

theorem poll_pinging (ping : Option ℕ) (replies : Replies) (h : History)
    (hs : Settled h ∨ Settling h ∨ Pinging h) (hidle : Idle h.client) (hz : h.client.latch = 0) :
    Pinging { h with
      client := poll ping replies h.client
      calls := h.calls++[(h.client.threads.length, pingComputer ping)] } := by
  have hsettled : Settled h := by
    rcases hs with hs | ⟨k, t, hlone, hw, -, hs⟩ | ⟨k, t, new, before, earlier, hlone, ht, -⟩
    · exact hs
    · have hdone := hidle t (List.mem_of_getElem? hlone.here)
      subst hdone
      rw [History.settle, lone_settled h.client k _ hlone rfl] at hs
      exact hs
    · have hdone := hidle t (List.mem_of_getElem? hlone.here)
      rcases ht with rfl | rfl <;> cases hdone
  have hpinged : pingComputer ping ≠ .unknown := by
    rcases pingComputer_cases ping with hp | hp <;> rw [hp] <;> decide
  have hlone := enter_lone h.client (updateInfo ping replies) hidle
  refine ⟨_, _, pingComputer ping, replies, h.calls, ?_, .inl rfl, rfl, hpinged, ?_, ?_⟩
  · dsimp only
    rw [poll, if_pos hz]
    exact hlone
  · intro c hc
    obtain ⟨t, ht, -⟩ := hsettled.still c hc
    have hlt := (List.getElem?_eq_some_iff.mp ht).1
    dsimp only
    rw [poll, if_pos hz, Pool.enter, List.length_append, List.length_singleton]
    omega
  · have hstate : (poll ping replies h.client).state = h.client.state := by
      rw [poll, if_pos hz]
      rfl
    refine ⟨consistent_of_state h _ hstate rfl hsettled.toConsistent, ?_, hsettled.known⟩
    dsimp only
    rw [hstate]
    exact hsettled.first

theorem step_inv (event : Event) (h h' : History) (hi : Inv h) (hin : InTime event h.client)
    (hstep : step event h = .ok h') : Inv h' := by
  obtain ⟨hs, hcounted⟩ := hi
  refine ⟨?_, tick_counted event h.client h'.client hcounted hin (step_tick event h h' hstep)⟩
  cases event with
  | step i =>
    rcases hs with hs | hs | hs
    · obtain ⟨t, ht, hnext⟩ := step_settled h hs i
      cases hstep.symm.trans ht
      exact .inl hnext
    · obtain ⟨t, ht, hnext⟩ := step_settling h hs i
      cases hstep.symm.trans ht
      exact hnext.imp_right .inl
    · obtain ⟨t, ht, hnext⟩ := step_pinging h hs i
      cases hstep.symm.trans ht
      exact .inr hnext
  | poll ping replies =>
    cases hstep
    split
    · next hz =>
      have hidle := (counted_idle h.client hcounted hz (hin hz).1).2
      exact .inr (.inr (poll_pinging ping replies h hs hidle hz))
    · exact hs

theorem start_inv (hostname : Native.Bytes) : Inv (start hostname) := by
  refine ⟨.inl ⟨⟨⟨nofun, nofun, rfl, .nil⟩, ⟨fun _ => rfl, fun _ => rfl⟩, nofun⟩, nofun, nofun,
    nofun⟩, 0, 0, le_rfl, .reached ⟨nofun, rfl, fun _ => rfl, fun _ => rfl⟩⟩

/-- Along every run whose rounds count in time, whatever the order of the
replies, the server is what its last ping has said, shows no page while it is
offline, and has announced its changes in turns. -/
theorem reports_of_inTime (hostname : Native.Bytes) (events : List Event)
    (h : Meets step (fun event h => InTime event h.client) events (start hostname)) :
    Always step Reports events (start hostname) :=
  always_imp step Inv Reports inv_reports events _
    (always_of_meets step Inv _ (fun event h h' hi hin => step_inv event h h' hi hin) events _
      (start_inv hostname) h)

/-- A server that answers every request. -/
def everyPage : Replies where
  system := .response 200 (some {})
  service := .response 200 (some ⟨[], []⟩)
  drives := .response 200 (some ⟨[]⟩)
  updates := .response 200 (some ⟨[]⟩)
  adapters := .response 200 (some ⟨[]⟩)
  services := .response 200 (some ⟨[]⟩)

/-- A round that finds the server offline, and one that finds it online. -/
def offAndOn : List Event :=
  .poll none everyPage::(List.replicate 12 0).map .step++
  .poll (some 302) everyPage::((inOrder++[2, 2, 6]).map (·+1)).map .step

theorem round_in_time (ping : Option ℕ) (is : List ℕ) (h : History)
    (harming : h.client.threads.any arming = false) :
    Meets step (fun event h => InTime event h.client) (.poll ping everyPage::is.map .step) h := by
  refine ⟨fun _ => ⟨fun t ht => ?_, fun _ _ => ?_⟩, fun h' _ =>
    meets_of_forall step _ _ (List.forall_mem_map.mpr fun _ _ _ => trivial) h'⟩
  · exact Bool.eq_false_iff.mpr (List.any_eq_false.mp harming t ht)
  · rintro ⟨-, status, info, hadapters, hstatus⟩
    cases hadapters
    exact hstatus rfl

/-- The server goes offline, online and offline again. -/
theorem reports_off_on_off :
    Always step Reports (offAndOn++.poll none everyPage::(List.replicate 12 8).map .step)
      (start []) ∧
    (run step (offAndOn++.poll none everyPage::(List.replicate 12 8).map .step) (start [])).map
      (fun h => (h.pings, announced h.client.state, busy h)) =
        .ok ([.offline, .online, .offline], [.thisOnline, .thisOffline], false) := by
  have harming : ∀ events h, (run step events (start [])).map
      (fun h => h.client.threads.any arming) = .ok false →
        run step events (start []) = .ok h → h.client.threads.any arming = false := by
    intro events h hany hrun
    rw [hrun] at hany
    exact Except.ok.inj hany
  refine ⟨reports_of_inTime [] _ ?_, by rfl⟩
  rw [meets_append, offAndOn, meets_append]
  refine ⟨⟨round_in_time none _ _ rfl, fun h hrun => ?_⟩, fun h hrun => ?_⟩
  · exact round_in_time (some 302) _ h (harming _ h (by rfl) hrun)
  · exact round_in_time none _ h (harming _ h (by rfl) hrun)

/-- The server comes online, its service manager works and the request for the
adapters is refused. -/
def adaptersRefused : Replies where
  system := .response 200 (some {})
  service := .response 200 (some ⟨[], []⟩)
  drives := .response 200 (some ⟨[]⟩)
  updates := .response 200 (some ⟨[]⟩)
  adapters := .response 500 none
  services := .response 200 (some ⟨[]⟩)

/-- All requests but the one for the drives are answered, the server goes
offline, and then the drives arrive. -/
def lateDrives : List Event :=
  .poll (some 302) adaptersRefused::(List.replicate 9 0++List.replicate 2 1++
    List.replicate 5 2++List.replicate 3 4++List.replicate 2 5++[6]).map .step++
  .poll none adaptersRefused::(List.replicate 12 7++[3]).map .step

theorem page_while_offline : ¬ Always step Reports lateDrives (start []) := by
  intro h
  have hlast : (run step lateDrives (start [])).map (fun h => (h.client.state.state,
      h.client.state.avaliable .drives, busy h)) = .ok (.offline, true, false) := by rfl
  obtain ⟨t, ht, hvalues⟩ := (Fallible.map_ok _ _ _).mp hlast
  simp only [Prod.mk.injEq] at hvalues
  have hclear := (always_last step Reports _ _ t h ht hvalues.2.2).offline hvalues.1 .drives
  rw [hvalues.2.1] at hclear
  cases hclear

end Bakaneko.OnlineSignals
