import Bakaneko.OnlineSignals
import Bakaneko.Library.PendingWrite

/-!
# The requests of a round online

While a server stays online a round refreshes its pages. The flags of the
pages are what the replies made of them in the round that brought the server
online. Three of the four requests look at the flag of another page.
-/

set_option autoImplicit false

namespace Bakaneko.PageRequests
open Bakaneko.ServerRound Bakaneko.RoundLatch CountingLatch PartialRun PendingWrite

/-- The endpoint whose reply sets the flag of a page. -/
def setBy : Page → Path
  | .adapters => .adapters
  | .drives => .drives
  | .updates => .updates
  | .services => .service

/-- The endpoint a page is refreshed from. -/
def refreshedBy : Page → Path
  | .adapters => .adapters
  | .drives => .drives
  | .updates => .updates
  | .services => .services

def ok {α : Type} : Reply α → Bool
  | .failed => false
  | .response status _ => status = 200

def accepted (replies : Replies) : Path → Bool
  | .system => ok replies.system
  | .service => ok replies.service
  | .drives => ok replies.drives
  | .updates => ok replies.updates
  | .adapters => ok replies.adapters
  | .services => ok replies.services

def chained : Reply Messages.ServiceInfo → Bool
  | .response status (some _) => status = 200
  | _ => false

/-- An endpoint has answered 200 in a round that brings the server online. The
services are asked for only by the slot of the service manager. -/
def answered (replies : Replies) : Path → Bool
  | .services => chained replies.service && ok replies.services
  | path => accepted replies path

/-- The server with the replies of the round that brought it online, if it is. -/
structure Watch where
  client : Client
  origin : Option Replies

def Watch.originAfter (ping : Option ℕ) (replies : Replies) (w : Watch) : Option Replies :=
  if pingComputer ping = .offline then none
  else if w.client.state.state = .online then w.origin
  else some replies

def step : Event → Watch → Except Empty Watch
  | .poll ping replies, w => .ok (if w.client.latch = 0 then
      ⟨poll ping replies w.client, w.originAfter ping replies⟩
    else w)
  | .step i, w => .ok { w with client := CountingLatch.step code w.client i }

def start (hostname : Native.Bytes) : Watch := ⟨idle { hostname }, none⟩

/-- A round begins only when the requests of the rounds before have ended. -/
def Quiet : Event → Watch → Prop
  | .poll _ _, w => w.client.latch = 0 → Idle w.client
  | .step _, _ => True

/-- A round begins in which the server was and stays online. -/
def StaysOnline (ping : Option ℕ) (client : Client) : Prop :=
  client.latch = 0 ∧ pingComputer ping = .online ∧ client.state.state = .online

/-- Whatever the order of the steps, the call of `update_info` has asked for
the pages with a flag when it has ended. -/
def Refreshes (ping : Option ℕ) (replies : Replies) (client : Client) : Prop :=
  ∀ is, (run code is (poll ping replies client)).threads[client.threads.length]? = some .done →
    ∀ page, refreshedBy page ∈ (requests code is (poll ping replies client)).map Get.path ↔
      client.state.avaliable page = true

/-- The requests are those of the flags, and each flag says whether its
endpoint has answered 200 in the round that brought the server online. -/
def Paired (endpoint : Page → Path) : Event → Watch → Prop
  | .poll ping replies, w => StaysOnline ping w.client → Refreshes ping replies w.client ∧
    ∃ origin, w.origin = some origin ∧
      ∀ page, w.client.state.avaliable page = answered origin (endpoint page)
  | .step _, _ => True

/-- The flags that three of the requests look at are the same. -/
def FlagsAlike (server : Server) : Prop :=
  server.avaliable .adapters = server.avaliable .drives ∧
    server.avaliable .drives = server.avaliable .updates

def Alike (endpoint : Page → Path) : Event → Watch → Prop
  | .poll ping _, w => StaysOnline ping w.client → FlagsAlike w.client.state ∧
    ∀ origin, w.origin = some origin →
      ∀ page, answered origin (setBy page) = answered origin (endpoint page)
  | .step _, _ => True

/-- What the flags are to be. -/
def shown : Option Replies → Page → Bool
  | none, _ => false
  | some origin, page => answered origin (setBy page)

/-- The server does what it does without being watched. -/
theorem step_tick (event : Event) (w w' : Watch) (h : step event w = .ok w') :
    tick event w.client = .ok w'.client := by
  cases event with
  | step i => cases h; rfl
  | poll ping replies =>
    cases h
    dsimp only [tick]
    split
    · rfl
    · next hz => rw [poll, if_neg hz]

theorem accepted_setBy (replies : Replies) (page : Page) :
    answered replies (setBy page) = accepted replies (setBy page) := by
  cases page <;> rfl

def Online (online : Prop) (server : Server) : Prop := server.state = .online ↔ online

def Flag (page : Page) (value : Bool) (server : Server) : Prop := server.avaliable page = value

/-- A request that is not refused would set the flag it controls. -/
def leavesFlag (page : Page) (value : Bool) (get : Get) : Prop :=
  get.control = some page → value = false ∧ accepted get.replies get.path = false

def bringsFlag (page : Page) (value : Bool) (get : Get) : Prop :=
  get.control = some page ∧ value = true ∧ accepted get.replies get.path = true

theorem uncontrolled (page : Page) (value : Bool) (path : Path) (replies : Replies) :
    leavesFlag page value ⟨path, none, replies⟩ := by
  intro h
  cases h

theorem flag_setAvaliable (page other : Page) (value b : Bool) (server : Server)
    (hb : page = other → b = value) (h : Flag other value server) :
    Flag other value (setAvaliable page b server) := by
  unfold Flag setAvaliable at *
  dsimp only
  by_cases hp : other = page
  · rw [hp, Function.update_self]
    exact hb hp.symm
  · rw [Function.update_of_ne hp]
    exact h

section
variable {page : Page} {value : Bool}

theorem leaves_setControl (control : Option Page) (b : Bool) (next : Code)
    (hb : control = some page → b = value)
    (h : Leaves (Flag page value) (leavesFlag page value) next) :
    Leaves (Flag page value) (leavesFlag page value) (setControl control b next) := by
  cases control with
  | none => exact h
  | some other =>
    exact ⟨fun s => flag_setAvaliable other page value b s fun he => hb (congrArg some he),
      fun _ => id, h⟩

theorem leaves_networkGet {α : Type} (reply : Reply α) (control : Option Page) (slot : α → Code)
    (hleaves : control = some page → value = false ∧ ok reply = false)
    (hslot : ∀ info, Leaves (Flag page value) (leavesFlag page value) (slot info)) :
    Leaves (Flag page value) (leavesFlag page value) (networkGet reply control slot) := by
  have hother (info : Option α) (hr : reply = .response 200 info) :
      control = some page → true = value := by
    intro hc
    have hok := (hleaves hc).2
    rw [hr] at hok
    cases hok
  apply networkGet_cases (Leaves (Flag page value) (leavesFlag page value))
  · exact fun _ => trivial
  · exact fun hr => leaves_setControl control true _ (hother none hr) trivial
  · exact fun info hr => leaves_setControl control true _ (hother (some info) hr) (hslot info)
  · intro status _ _ _
    have hcount : Leaves (Flag page value) (leavesFlag page value)
        (if control = some .adapters then .countDown countDown else countDown) := by
      split <;> trivial
    unfold refused
    dsimp only
    split
    · exact leaves_setControl control false _ (fun hc => (hleaves hc).1.symm) hcount
    · exact hcount

theorem brings_setControl (next : Code) (hvalue : value = true)
    (h : Leaves (Flag page value) (leavesFlag page value) next) :
    Brings (Flag page value) (leavesFlag page value) (bringsFlag page value)
      (setControl (some page) true next) := by
  refine .inl ⟨fun s => ?_, fun _ => id, h⟩
  rw [hvalue, Flag, setAvaliable]
  exact Function.update_self _ _ _

theorem brings_networkGet {α : Type} (reply : Reply α) (slot : α → Code) (hvalue : value = true)
    (hok : ok reply = true)
    (hslot : ∀ info, Leaves (Flag page value) (leavesFlag page value) (slot info)) :
    Brings (Flag page value) (leavesFlag page value) (bringsFlag page value)
      (networkGet reply (some page) slot) := by
  apply networkGet_cases (Brings (Flag page value) (leavesFlag page value) (bringsFlag page value))
  · rintro rfl
    cases hok
  · exact fun _ => brings_setControl _ hvalue trivial
  · exact fun info _ => brings_setControl _ hvalue (hslot info)
  · rintro status info rfl hs
    exact absurd (of_decide_eq_true hok) hs

theorem receiveInfo_avaliable (info : Messages.System) (server : Server) :
    (receiveInfo info server).avaliable = server.avaliable := by
  unfold receiveInfo
  dsimp only
  split <;> rfl

theorem leaves_handleInfo (info : Messages.System) :
    Leaves (Flag page value) (leavesFlag page value) (handleInfo info) := by
  refine ⟨fun s h => ?_, trivial⟩
  rw [Flag, receiveInfo_avaliable]
  exact h

theorem leaves_handleService (replies : Replies) (info : Messages.ServiceInfo) :
    Leaves (Flag page value) (leavesFlag page value) (handleService replies info) :=
  ⟨fun _ => id, uncontrolled page value .services replies, trivial⟩

theorem leaves_code (get : Get) (h : leavesFlag page value get) :
    Leaves (Flag page value) (leavesFlag page value) (code get) := by
  obtain ⟨path, control, replies⟩ := get
  cases path with
  | system => exact leaves_networkGet _ control _ h leaves_handleInfo
  | service => exact leaves_networkGet _ control _ h (leaves_handleService replies)
  | drives => exact leaves_networkGet _ control _ h fun _ => trivial
  | updates => exact leaves_networkGet _ control _ h fun _ => trivial
  | adapters => exact leaves_networkGet _ control _ h fun _ => trivial
  | services => exact leaves_networkGet _ control _ h fun _ => trivial

theorem brings_code (get : Get) (h : bringsFlag page value get) :
    Brings (Flag page value) (leavesFlag page value) (bringsFlag page value) (code get) := by
  obtain ⟨path, control, replies⟩ := get
  obtain ⟨rfl, hvalue, hok⟩ := h
  cases path with
  | system => exact brings_networkGet _ _ hvalue hok leaves_handleInfo
  | service => exact brings_networkGet _ _ hvalue hok (leaves_handleService replies)
  | drives => exact brings_networkGet _ _ hvalue hok fun _ => trivial
  | updates => exact brings_networkGet _ _ hvalue hok fun _ => trivial
  | adapters => exact brings_networkGet _ _ hvalue hok fun _ => trivial
  | services => exact brings_networkGet _ _ hvalue hok fun _ => trivial

end

theorem avaliable_announce (new : State) (server : Server) :
    (announce new server).avaliable = server.avaliable := by
  unfold announce
  repeat' split
  all_goals rfl

/-- The four courses of a round. -/
theorem round_cases (ping : Option ℕ) (replies : Replies) (w : Watch) (call : Code)
    (hcall : call = pinged (pingComputer ping) replies) :
    (w.client.state.state = .online ∧ w.originAfter ping replies = w.origin ∧
      acted call w.client.state = w.client.state ∧
      behind call w.client.state = stayOnline replies) ∨
    (w.client.state.state = .offline ∧ w.originAfter ping replies = none ∧
      acted call w.client.state = w.client.state ∧
      behind call w.client.state = countDowns maxSteps) ∨
    (w.originAfter ping replies = none ∧
      (∀ page, (acted call w.client.state).avaliable page = false) ∧
      behind call w.client.state = countDowns maxSteps) ∨
    (w.client.state.state ≠ .online ∧ w.originAfter ping replies = some replies ∧
      (acted call w.client.state).avaliable = w.client.state.avaliable ∧
      behind call w.client.state = goOnline replies) := by
  rw [hcall, Watch.originAfter]
  rcases pingComputer_cases ping with hp | hp
  · rw [hp]
    by_cases hon : w.client.state.state = .online
    · refine .inl ⟨hon, by simp [hon], ?_, ?_⟩
      · simp [pinged, acted, hon, stayOnline]
      · simp [pinged, behind, hon, stayOnline]
    · refine .inr (.inr (.inr ⟨hon, by simp [hon], ?_, ?_⟩))
      · simp only [pinged, acted, hon, decide_false, Bool.false_eq_true, if_false, reduceCtorEq]
        exact avaliable_announce .online w.client.state
      · simp [pinged, behind, hon, goOnline]
  · rw [hp]
    by_cases hoff : w.client.state.state = .offline
    · refine .inr (.inl ⟨hoff, rfl, ?_, ?_⟩)
      · simp [pinged, acted, hoff, countDowns, maxSteps]
      · simp [pinged, behind, hoff, countDowns, maxSteps]
    · refine .inr (.inr (.inl ⟨rfl, ?_, ?_⟩))
      · exact OnlineSignals.acted_offline replies w.client.state fun h => absurd h hoff
      · simp [pinged, behind, hoff, goOffline, countDowns, maxSteps]

section
variable {P : Server → Prop} {leaves brings : Get → Prop}

theorem leaves_countDowns (n : ℕ) : Leaves P leaves (countDowns n) := by
  induction n with
  | zero => trivial
  | succ n ih => exact ih

theorem leaves_getIf (page : Page) (get : Get) (next : Code) (hget : leaves get)
    (h : Leaves P leaves next) : Leaves P leaves (getIf page get next) := ⟨⟨hget, h⟩, h⟩

theorem leaves_stayOnline (replies : Replies) (h : ∀ path, leaves ⟨path, none, replies⟩) :
    Leaves P leaves (stayOnline replies) :=
  leaves_getIf .adapters _ _ (h _) (leaves_getIf .drives _ _ (h _)
    (leaves_getIf .updates _ _ (h _) (leaves_getIf .services _ _ (h _) trivial)))

end

theorem online_view (online : Prop) (s t : Server) (h : OnlineSignals.view s = OnlineSignals.view t)
    (hs : Online online s) : Online online t := by
  have hstate : s.state = t.state := congrArg Prod.fst h
  rw [Online, ← hstate]
  exact hs

/-- A call that has found the latch at zero, among threads that have ended. -/
theorem poll_lone (ping : Option ℕ) (replies : Replies) (client : Client) (hidle : Idle client)
    (hz : client.latch = 0) : poll ping replies client = client.enter (updateInfo ping replies) ∧
      Lone (poll ping replies client) client.threads.length (updateInfo ping replies) := by
  have hpoll : poll ping replies client = client.enter (updateInfo ping replies) := by
    rw [poll, if_pos hz]
  exact ⟨hpoll, hpoll ▸ enter_lone client _ hidle⟩

/-- What a round makes of the state. -/
theorem round_online (ping : Option ℕ) (replies : Replies) (w : Watch) (p : Client) (k : ℕ)
    (u : Code) (hlone : Lone p k u) (h : Online (w.origin ≠ none) w.client.state) :
    Due (Online (w.originAfter ping replies ≠ none)) (fun _ => True) (fun _ => False)
      (settled p k (pinged (pingComputer ping) replies)) := by
  apply settled_leaves p k _ u hlone
  · rw [Online, (OnlineSignals.acted_pinged _ replies p.state).1, Watch.originAfter]
    rcases pingComputer_cases ping with hping | hping
    · by_cases hon : w.client.state.state = .online
      · simpa [hping, hon] using h.mp hon
      · simp [hping, hon]
    · simp [hping]
  · exact leaves_unseen OnlineSignals.view (online_view _) _
      (OnlineSignals.behind_pinged _ replies p.state).1

/-- The requests of a round that brings the server online, and the flag of a
page. -/
theorem goOnline_flag (page : Page) (replies : Replies) :
    (answered replies (setBy page) = false ∧
      Leaves (Flag page false) (leavesFlag page false) (goOnline replies)) ∨
    (answered replies (setBy page) = true ∧ Brings (Flag page true) (leavesFlag page true)
      (bringsFlag page true) (goOnline replies)) := by
  rw [accepted_setBy]
  cases h : accepted replies (setBy page) with
  | false =>
    refine .inl ⟨rfl, ?_⟩
    cases page <;> simp [goOnline, Leaves, leavesFlag] <;> exact h
  | true =>
    refine .inr ⟨rfl, ?_⟩
    cases page <;> simp [goOnline, Leaves, Brings, leavesFlag, bringsFlag] <;> exact h

/-- What a round makes of the flag of a page. -/
theorem round_flag (ping : Option ℕ) (replies : Replies) (w : Watch) (page : Page) (p : Client)
    (k : ℕ) (u : Code) (hlone : Lone p k u) (hp : p.state = w.client.state)
    (ho : Online (w.origin ≠ none) w.client.state)
    (h : Flag page (shown w.origin page) w.client.state) :
    Due (Flag page (shown (w.originAfter ping replies) page))
      (leavesFlag page (shown (w.originAfter ping replies) page))
      (bringsFlag page (shown (w.originAfter ping replies) page))
      (settled p k (pinged (pingComputer ping) replies)) := by
  have hnone : w.client.state.state ≠ .online → w.origin = none := fun hs => by
    by_contra hsome
    exact hs (ho.mpr hsome)
  rcases round_cases ping replies w _ rfl with ⟨-, horigin, hacted, hbehind⟩ |
    ⟨hs, horigin, hacted, hbehind⟩ | ⟨horigin, hacted, hbehind⟩ | ⟨hs, horigin, hacted, hbehind⟩ <;>
    rw [horigin] <;> rw [← hp] at hacted hbehind h
  · apply settled_leaves p k _ u hlone
    · rw [hacted]
      exact h
    · rw [hbehind]
      exact leaves_stayOnline replies fun path => uncontrolled page _ path replies
  · rw [hnone (by rw [hs]; decide)] at h
    apply settled_leaves p k _ u hlone
    · rw [hacted]
      exact h
    · rw [hbehind]
      exact leaves_countDowns _
  · apply settled_leaves p k _ u hlone
    · exact hacted page
    · rw [hbehind]
      exact leaves_countDowns _
  · rw [hnone hs] at h
    rcases goOnline_flag page replies with ⟨hno, hl⟩ | ⟨hyes, hb⟩
    · rw [shown, hno]
      apply settled_leaves p k _ u hlone
      · rw [Flag, hacted]
        exact h
      · rw [hbehind]
        exact hl
    · rw [shown, hyes]
      apply settled_brings p k _ u hlone
      rw [hbehind]
      exact hb

/-- What is due while the threads run: the state and the flags are, or are
still to become, what the round that brought the server online makes them. -/
structure Dues (origin : Option Replies) (client : Client) : Prop where
  online : Due (Online (origin ≠ none)) (fun _ => True) (fun _ => False) client
  flags : ∀ page, Due (Flag page (shown origin page)) (leavesFlag page (shown origin page))
    (bringsFlag page (shown origin page)) client

def Inv (w : Watch) : Prop := Nearing (fun _ _ => True) (Dues w.origin) maxSteps w.client

theorem step_dues (origin : Option Replies) (client : Client) (i : ℕ) (h : Dues origin client) :
    Dues origin (CountingLatch.step code client i) := by
  constructor
  · exact step_due (fun get _ => leaves_unseen _ (online_view _) _ (OnlineSignals.unseen_code get))
      (fun _ => False.elim) client i h.online
  · exact fun page => step_due leaves_code brings_code client i (h.flags page)

theorem tick_inv (event : Event) (w w' : Watch) (h : Inv w) (hq : Quiet event w)
    (ht : step event w = .ok w') : Inv w' := by
  cases event with
  | step i =>
    cases ht
    exact nearing_step (step_dues w.origin) w.client i h
  | poll ping replies =>
    cases ht
    split
    case isFalse => exact h
    case isTrue hz =>
      have hidle := hq hz
      obtain ⟨hpoll, hlone⟩ := poll_lone ping replies w.client hidle hz
      have hdues := nearing_idle w.client h hidle
      have hon := due_idle w.client hdues.online hidle
      obtain ⟨time, hw⟩ := worth_pinged w.client.state ping replies
      rw [Inv]
      dsimp only
      rw [hpoll] at hlone ⊢
      refine enter_nearing w.client _ hidle trivial hw.live ⟨?_, fun page => ?_⟩
      · exact round_online ping replies w _ _ (updateInfo ping replies)
          ⟨hlone.here, hlone.others⟩ hon
      · exact round_flag ping replies w page _ _ (updateInfo ping replies)
          ⟨hlone.here, hlone.others⟩ rfl hon (due_idle w.client (hdues.flags page) hidle)

theorem start_inv (hostname : Native.Bytes) : Inv (start hostname) :=
  .reached ⟨.inl ⟨by simp [Online, start, idle], nofun⟩, fun _ => .inl ⟨rfl, nofun⟩⟩

theorem counting_uncontrolled {α : Type} (reply : Reply α) (slot : α → Code)
    (h : ∀ info, Counting (slot info)) : Counting (networkGet reply none slot) := by
  apply networkGet_cases Counting
  · exact fun _ => trivial
  · exact fun _ => trivial
  · exact fun info _ => h info
  · intro status _ _ _
    simp only [refused, setControl, reduceCtorEq, if_false, ite_self]
    trivial

theorem asks_getIf (page : Page) (get : Get) (next : Code) (hget : Counting (code get))
    (h : Asks code next) : Asks code (getIf page get next) := ⟨⟨hget, h⟩, h⟩

theorem asks_stayOnline (replies : Replies) : Asks code (stayOnline replies) := by
  have hdrives : Counting (code ⟨.drives, none, replies⟩) :=
    counting_uncontrolled replies.drives handleTable fun _ => trivial
  have hupdates : Counting (code ⟨.updates, none, replies⟩) :=
    counting_uncontrolled replies.updates handleTable fun _ => trivial
  have hadapters : Counting (code ⟨.adapters, none, replies⟩) :=
    counting_uncontrolled replies.adapters handleTable fun _ => trivial
  have hservices : Counting (code ⟨.services, none, replies⟩) :=
    counting_uncontrolled replies.services handleTable fun _ => trivial
  exact asks_getIf .adapters _ _ hdrives (asks_getIf .drives _ _ hupdates
    (asks_getIf .updates _ _ hadapters (asks_getIf .services _ _ hservices trivial)))

theorem mem_getIf (page : Page) (get : Get) (next : Code) (server : Server) (path : Path) :
    path ∈ (asks server (getIf page get next)).map Get.path ↔
      (server.avaliable page = true ∧ path = get.path) ∨
        path ∈ (asks server next).map Get.path := by
  by_cases h : server.avaliable page = true <;> simp [getIf, asks, h]

/-- The flag that the request for a page looks at. -/
def lookedAt : Page → Page
  | .drives => .adapters
  | .updates => .drives
  | .adapters => .updates
  | .services => .services

theorem asked_stayOnline (replies : Replies) (server : Server) (page : Page) :
    refreshedBy page ∈ (asks server (stayOnline replies)).map Get.path ↔
      server.avaliable (lookedAt page) = true := by
  simp only [stayOnline, asks, mem_getIf, List.map_nil, List.not_mem_nil]
  cases page <;> simp [refreshedBy, lookedAt]

/-- A call that finds the server online, and is the only thread, sets the latch,
compares twice and then asks. -/
theorem opening (ping : Option ℕ) (replies : Replies) (p : Client) (k : ℕ)
    (hlone : Lone p k (updateInfo ping replies)) (hp : pingComputer ping = .online)
    (hs : p.state.state = .online) :
    ∃ q, q.state = p.state ∧ Asking code q k (stayOnline replies) ∧ Leads code k p q := by
  rw [updateInfo, hp] at hlone
  obtain ⟨q, hq, hlone, hset⟩ := @lone_opens _ _ code p k _ hlone (by simp) rfl
  have hq : q.state = p.state := hq
  have hlone : Lone q k (pinged .online replies) := hlone
  obtain ⟨r, hr, hlone, hcompared⟩ := @lone_opens _ _ code q k _ hlone (by simp [pinged]) rfl
  have hr : r.state = p.state := hr.trans hq
  rw [hq] at hlone
  have hlone : Lone r k (.branch (·.state = .online) (stayOnline replies)
      (countDowns maxSteps)) := by
    simpa [pinged, rest, hs] using hlone
  obtain ⟨u, hu, hlone, hlooked⟩ := @lone_opens _ _ code r k _ hlone (by simp) rfl
  rw [hr] at hlone
  have hlone : Lone u k (stayOnline replies) := by simpa [rest, hs] using hlone
  refine ⟨u, hu.trans hr, ⟨hlone.here, asks_stayOnline replies, fun i v hv hi => ?_⟩,
    (hset.trans hcompared).trans hlooked⟩
  rw [hlone.others i v hv hi]
  trivial

theorem alike_iff (server : Server) : FlagsAlike server ↔ ∀ page,
    (server.avaliable (lookedAt page) = true ↔ server.avaliable page = true) := by
  simp only [← Bool.eq_iff_iff]
  constructor
  · rintro ⟨had, hdu⟩ page
    cases page with
    | adapters => exact (had.trans hdu).symm
    | drives => exact had
    | updates => exact hdu
    | services => rfl
  · exact fun h => ⟨h .drives, h .updates⟩

/-- With whatever flags, a round online asks for the right pages exactly when
the flags are alike. -/
theorem refreshes_iff (ping : Option ℕ) (replies : Replies) (client : Client) (hidle : Idle client)
    (hz : client.latch = 0) (hp : pingComputer ping = .online)
    (hs : client.state.state = .online) :
    Refreshes ping replies client ↔ FlagsAlike client.state := by
  obtain ⟨hpoll, hlone⟩ := poll_lone ping replies client hidle hz
  have hstate : (poll ping replies client).state = client.state := by
    rw [hpoll]
    rfl
  obtain ⟨q, hq, hasking, hleads⟩ := opening ping replies _ _ hlone hp (hstate ▸ hs)
  rw [hstate] at hq
  have hasked : ∀ is, (run code is q).threads[client.threads.length]? = some .done →
      ∀ page, refreshedBy page ∈ (requests code is q).map Get.path ↔
        client.state.avaliable (lookedAt page) = true := by
    intro is hend page
    rw [requests_asking is _ _ _ hasking hend, ← hq]
    exact asked_stayOnline replies q.state page
  rw [alike_iff]
  constructor
  · intro h page
    obtain ⟨is, hrun, hrequests⟩ := hleads.reached
    obtain ⟨js, hrest⟩ := comes_to_rest code_priced q
    obtain ⟨t, hlast⟩ := run_asking js _ _ _ hasking
    have hend := hlast.here
    rw [hrest t (List.mem_of_getElem? hend)] at hend
    have happend : run code (is++js) (poll ping replies client) = run code js q := by
      rw [← hrun]
      exact List.foldl_append
    have hpages := h (is++js) (by rw [happend]; exact hend) page
    rw [hrequests] at hpages
    exact (hasked js hend page).symm.trans hpages
  · intro h is hend page
    obtain ⟨js, hrun, hrequests⟩ := hleads.first is hend
    rw [hrun] at hend
    rw [hrequests]
    exact (hasked js hend page).trans (h page)

theorem paired_alike (endpoint : Page → Path) (event : Event) (w : Watch) (h : Inv w)
    (hq : Quiet event w) : Paired endpoint event w ↔ Alike endpoint event w := by
  cases event with
  | step i => exact Iff.rfl
  | poll ping replies =>
    apply imp_congr_right
    rintro ⟨hz, hp, hs⟩
    have hidle := hq hz
    have hdues := nearing_idle w.client h hidle
    have hflags := fun page => due_idle w.client (hdues.flags page) hidle
    obtain ⟨origin, ho⟩ :=
      Option.ne_none_iff_exists'.mp ((due_idle w.client hdues.online hidle).mp hs)
    rw [ho] at hflags
    refine and_congr (refreshes_iff ping replies w.client hidle hz hp hs) ⟨?_, fun halike => ?_⟩
    · rintro ⟨origin', ho', hanswered⟩ other hother page
      cases ho'.symm.trans hother
      cases ho'.symm.trans ho
      exact (hflags page).symm.trans (hanswered page)
    · exact ⟨origin, ho, fun page => (hflags page).trans (halike origin ho page)⟩

/-- Rounds that count in time begin when all requests have ended. -/
theorem quiet_of_inTime (hostname : Native.Bytes) (events : List Event)
    (h : Meets step (fun event w => OnlineSignals.InTime event w.client) events (start hostname)) :
    Meets step Quiet events (start hostname) := by
  have hcounted : OnlineSignals.Counted (start hostname).client :=
    ⟨0, 0, le_rfl, .reached ⟨nofun, rfl, fun _ => rfl, fun _ => rfl⟩⟩
  refine meets_of_always step (fun w => OnlineSignals.Counted w.client) _ Quiet ?_ events _
    (always_of_meets step _ _ (fun event w w' hw hin hstep =>
      OnlineSignals.tick_counted event _ _ hw hin (step_tick event w w' hstep))
      events _ hcounted h) h
  intro event w hw hin
  cases event with
  | step i => trivial
  | poll ping replies =>
    exact fun hz => (OnlineSignals.counted_idle w.client hw hz (hin hz).1).2

/-- Along every run whose rounds begin when all requests have ended, each round
online asks for the pages it should exactly when the flags are alike in all of
them. A flag may be taken to speak of any endpoint that answers as the one it
is set by. -/
theorem pages_paired_iff (endpoint : Page → Path) (hostname : Native.Bytes) (events : List Event)
    (hq : Meets step Quiet events (start hostname)) :
    Meets step (Paired endpoint) events (start hostname) ↔
      Meets step (Alike endpoint) events (start hostname) :=
  meets_iff_under step Inv Quiet (Paired endpoint) (Alike endpoint) tick_inv
    (paired_alike endpoint) events (start hostname) (start_inv hostname) hq

theorem run_steps (is : List ℕ) (w : Watch) :
    PartialRun.run step (is.map .step) w = .ok { w with client := run code is w.client } := by
  induction is generalizing w with
  | nil => rfl
  | cons i is ih => exact ih _

/-- A server is polled, its threads take these steps, and it is polled again. -/
def polledTwice (replies : Replies) (is : List ℕ) : List Event :=
  .poll (some 302) replies::is.map .step++[.poll (some 302) replies]

/-- The server when it is polled again. -/
def polledOnce (replies : Replies) (is : List ℕ) : Watch :=
  ⟨run code is (poll (some 302) replies (idle home)), some replies⟩

theorem meets_polledTwice (C : Event → Watch → Prop) (hC : ∀ i w, C (.step i) w)
    (replies : Replies) (is : List ℕ) : Meets step C (polledTwice replies is) (start []) ↔
      C (.poll (some 302) replies) (start []) ∧
        C (.poll (some 302) replies) (polledOnce replies is) := by
  have hrun : PartialRun.run step (.poll (some 302) replies::is.map .step) (start []) =
      .ok (polledOnce replies is) := run_steps is _
  rw [polledTwice, meets_append, hrun]
  constructor
  · rintro ⟨⟨hfirst, -⟩, h⟩
    exact ⟨hfirst, (h _ rfl).1⟩
  · rintro ⟨hfirst, hlast⟩
    refine ⟨⟨hfirst, fun w _ =>
      meets_of_forall step C _ (List.forall_mem_map.mpr fun i _ => hC i) w⟩, ?_⟩
    rintro w ⟨⟩
    exact ⟨hlast, fun _ _ => trivial⟩

theorem idle_of_replicate (client : Client) (n : ℕ) (h : client.threads = List.replicate n .done) :
    Idle client := by
  intro t ht
  rw [h] at ht
  exact (List.mem_replicate.mp ht).2

/-- With every page there, a round that stays online asks for all of them. -/
theorem everyPage_paired :
    StaysOnline (some 302) (polledOnce OnlineSignals.everyPage (inOrder++[2, 2, 6])).client ∧
    Meets step (Paired refreshedBy) (polledTwice OnlineSignals.everyPage (inOrder++[2, 2, 6]))
      (start []) := by
  have hidle : Idle (polledOnce OnlineSignals.everyPage (inOrder++[2, 2, 6])).client :=
    idle_of_replicate _ 7 (by rfl)
  refine ⟨⟨by rfl, rfl, by rfl⟩, (pages_paired_iff refreshedBy [] _ ?_).mpr ?_⟩
  · rw [meets_polledTwice Quiet fun _ _ => trivial]
    exact ⟨fun _ => nofun, fun _ => hidle⟩
  · rw [meets_polledTwice (Alike refreshedBy) fun _ _ => trivial]
    refine ⟨fun h => absurd h.2.2 (by decide), fun _ => ⟨⟨by rfl, by rfl⟩, ?_⟩⟩
    rintro origin ⟨⟩ page
    cases page <;> rfl

def drivesOnly : Replies where
  system := .response 200 (some {})
  service := .response 501 none
  drives := .response 200 (some ⟨[]⟩)
  updates := .response 501 none
  adapters := .response 501 none
  services := .response 501 none

/-- Only the drives are there: the next round asks for the updates, and not for
the drives. -/
theorem drivesOnly_not_paired : ¬ ∃ endpoint,
    Meets step (Paired endpoint) (polledTwice drivesOnly (inOrder++[5])) (start []) := by
  rintro ⟨endpoint, h⟩
  rw [meets_polledTwice (Paired endpoint) fun _ _ => trivial] at h
  have hidle : Idle (polledOnce drivesOnly (inOrder++[5])).client :=
    idle_of_replicate _ 6 (by rfl)
  have hpaired := h.2 ⟨by rfl, rfl, by rfl⟩
  have halike := (refreshes_iff _ _ _ hidle (by rfl) rfl (by rfl)).mp hpaired.1
  exact absurd halike.1 (by decide)

end Bakaneko.PageRequests
