import Bakaneko.ServerRound
import Bakaneko.Library.LoneThread
import Bakaneko.Library.PartialRun

/-!
# The latch of a round

Six counts are due in a round. A round in which the server comes online owes
one for each of its five requests, one more when the reply about the service
manager brings on the request for the services, and one more when the request
for the adapters is refused: the counts come to six when exactly one of the
two happens. Two calls that have both found the latch at zero count twice.
-/

set_option autoImplicit false

namespace Bakaneko.RoundLatch
open Bakaneko.ServerRound CountingLatch PartialRun

def replyPrice {α : Type} (reply : Reply α) (control : Option Page) (slot : ℕ) : ℕ :=
  match reply with
  | .failed => 1
  | .response status info =>
    if status = 200 then (if info.isSome then slot else 1)
    else if control = some .adapters then 2 else 1

def price (get : Get) : ℕ :=
  match get.path with
  | .system => replyPrice get.replies.system get.control 1
  | .service => replyPrice get.replies.service get.control
    (replyPrice get.replies.services none 1+1)
  | .drives => replyPrice get.replies.drives get.control 1
  | .updates => replyPrice get.replies.updates get.control 1
  | .adapters => replyPrice get.replies.adapters get.control 1
  | .services => replyPrice get.replies.services get.control 1

/-- The steps of a request, with those of the request its slot sends. -/
def length (get : Get) : ℕ := if get.path = .service then 9 else 4

theorem replyPrice_pos {α : Type} (reply : Reply α) (control : Option Page) (slot : ℕ)
    (h : 0 < slot) : 0 < replyPrice reply control slot := by
  unfold replyPrice
  repeat' split
  all_goals omega

theorem price_pos (get : Get) : 0 < price get := by
  unfold price
  split <;> exact replyPrice_pos _ _ _ (Nat.succ_pos _)

/-- What a request comes to, by what it meets with. -/
theorem networkGet_cases {α : Type} (Q : Code → Prop) (reply : Reply α) (control : Option Page)
    (slot : α → Code) (hfailed : reply = .failed → Q countDown)
    (hunread : reply = .response 200 none → Q (setControl control true countDown))
    (hread : ∀ info, reply = .response 200 (some info) → Q (setControl control true (slot info)))
    (hrefused : ∀ status info, reply = .response status info → status ≠ 200 →
      Q (refused control status)) : Q (networkGet reply control slot) := by
  cases reply with
  | failed => exact hfailed rfl
  | response status info =>
    by_cases hs : status = 200
    · subst hs
      cases info with
      | none => exact hunread rfl
      | some info => exact hread info rfl
    · simp only [networkGet, if_neg hs]
      exact hrefused status info rfl hs

section
variable {price length : Get → ℕ} {counts time : ℕ} (control : Option Page)

theorem worth_setControl (value : Bool) {next : Code} (h : Worth price length counts time next) :
    Worth price length counts (time+2) (setControl control value next) := by
  cases control with
  | none => exact h.mono (Nat.le_add_right time 2)
  | some page => exact (h.act _).act _

theorem worth_refused (status : ℕ) :
    Worth price length (if control = some .adapters then 2 else 1) 4 (refused control status) := by
  have hcount : Worth price length (if control = some .adapters then 2 else 1) 2
      (if control = some .adapters then .countDown countDown else countDown) := by
    split
    · exact worth_countDown_done.countDown
    · exact worth_countDown_done.mono (by decide)
  by_cases hs : status = 501
  · simp only [refused, if_pos hs]
    exact worth_setControl control false hcount
  · simp only [refused, if_neg hs]
    exact hcount.mono (by decide)

theorem worth_networkGet {α : Type} (reply : Reply α) (slot : α → Code) (hone : 2 ≤ time)
    (h : ∀ info, Worth price length counts time (slot info)) :
    Worth price length (replyPrice reply control counts) (time+2)
      (networkGet reply control slot) := by
  apply networkGet_cases (Worth price length (replyPrice reply control counts) (time+2))
  · rintro rfl
    exact worth_countDown_done.mono (by omega)
  · rintro rfl
    exact worth_setControl control true (worth_countDown_done.mono (by omega))
  · rintro info rfl
    exact worth_setControl control true (h info)
  · rintro status info rfl hs
    simp only [replyPrice, if_neg hs]
    exact (worth_refused control status).mono (by omega)

end

theorem worth_countDown : Worth price length 1 2 countDown := worth_countDown_done.mono (by decide)

theorem worth_code (get : Get) : Worth price length (price get) (length get) (code get) := by
  obtain ⟨path, control, replies⟩ := get
  cases path with
  | service =>
    have hslot : ∀ info, Worth price length (price ⟨.services, none, replies⟩+1) 7
        (handleService replies info) :=
      fun info => (worth_start_done (Get.mk .services none replies)).countDown.act
        (receiveService info)
    exact worth_networkGet control replies.service _ (by decide) hslot
  | system =>
    exact worth_networkGet control replies.system _ le_rfl fun info => worth_countDown_done.act _
  | drives => exact worth_networkGet control replies.drives _ le_rfl fun _ => worth_countDown
  | updates => exact worth_networkGet control replies.updates _ le_rfl fun _ => worth_countDown
  | adapters => exact worth_networkGet control replies.adapters _ le_rfl fun _ => worth_countDown
  | services => exact worth_networkGet control replies.services _ le_rfl fun _ => worth_countDown

theorem code_priced : Priced code price length := ⟨price_pos, worth_code⟩

theorem replyPrice_plain {α : Type} (reply : Reply α) (control : Option Page)
    (h : control ≠ some .adapters) : replyPrice reply control 1 = 1 := by
  unfold replyPrice
  rw [if_neg h]
  repeat' split
  all_goals rfl

theorem price_services (replies : Replies) : price ⟨.services, none, replies⟩ = 1 :=
  replyPrice_plain replies.services none (by decide)

/-- The reply about the service manager brings on the request for the services. -/
def Chains (replies : Replies) : Prop := ∃ info, replies.service = .response 200 (some info)

def AdaptersRefused (replies : Replies) : Prop :=
  ∃ status info, replies.adapters = .response status info ∧ status ≠ 200

theorem price_service (replies : Replies) :
    (Chains replies ∧ price ⟨.service, some .services, replies⟩ = 2) ∨
      (¬ Chains replies ∧ price ⟨.service, some .services, replies⟩ = 1) := by
  have hp : price ⟨.service, some .services, replies⟩ =
      replyPrice replies.service (some .services) 2 := by
    change replyPrice _ _ (replyPrice replies.services none 1+1) = _
    rw [replyPrice_plain replies.services none (by decide)]
  rw [hp, Chains]
  unfold replyPrice
  cases replies.service with
  | failed => simp
  | response status info =>
    by_cases hs : status = 200
    · cases info <;> simp [hs]
    · simp [hs]

theorem price_adapters (replies : Replies) :
    (AdaptersRefused replies ∧ price ⟨.adapters, some .adapters, replies⟩ = 2) ∨
      (¬ AdaptersRefused replies ∧ price ⟨.adapters, some .adapters, replies⟩ = 1) := by
  unfold AdaptersRefused price replyPrice
  cases replies.adapters with
  | failed => simp
  | response status info =>
    by_cases hs : status = 200
    · simp [hs]
    · simp [hs]

theorem worth_countDowns (n : ℕ) : Worth price length (n+1) (n+1) (countDowns (n+1)) := by
  induction n with
  | zero => exact worth_countDown_done
  | succ n ih => exact ih.countDown

theorem worth_getIf (page : Page) (get : Get) (hone : price get = 1) {counts time : ℕ}
    {next : Code} (h : Worth price length counts time next) :
    Worth price length (counts+1) (length get+time+2) (getIf page get next) := by
  have hstart := h.start get
  rw [hone, Nat.add_comm] at hstart
  exact hstart.branch _ (h.countDown.mono (by omega))

theorem worth_getIf_done (page : Page) (get : Get) (hone : price get = 1) :
    Worth price length 1 (length get+2) (getIf page get .done) := by
  have hstart : Worth price length (price get) (length get+1) (.start get .done : Code) :=
    worth_start_done get
  rw [hone] at hstart
  exact hstart.branch _ (worth_countDown_done.mono (by omega))

theorem worth_stayOnline (replies : Replies) :
    ∃ time, Worth price length maxSteps time (stayOnline replies) := by
  have hdrives : price ⟨.drives, none, replies⟩ = 1 := replyPrice_plain _ none (by decide)
  have hupdates : price ⟨.updates, none, replies⟩ = 1 := replyPrice_plain _ none (by decide)
  have hadapters : price ⟨.adapters, none, replies⟩ = 1 := replyPrice_plain _ none (by decide)
  have hlast := worth_getIf_done .services _ (price_services replies)
  have hthree := worth_getIf .updates _ hadapters hlast
  have htwo := worth_getIf .drives _ hupdates hthree
  have hone := worth_getIf .adapters _ hdrives htwo
  exact ⟨_, hone.countDown.countDown⟩

theorem worth_goOnline (replies : Replies) : ∃ time, Worth price length
    (3+price ⟨.service, some .services, replies⟩+price ⟨.adapters, some .adapters, replies⟩)
    time (goOnline replies) := by
  have hsystem : price ⟨.system, none, replies⟩ = 1 := replyPrice_plain _ none (by decide)
  have hdrives : price ⟨.drives, some .drives, replies⟩ = 1 :=
    replyPrice_plain _ (some .drives) (by decide)
  have hupdates : price ⟨.updates, some .updates, replies⟩ = 1 :=
    replyPrice_plain _ (some .updates) (by decide)
  have hlast : Worth price length _ _ (.start ⟨.adapters, some .adapters, replies⟩ .done : Code) :=
    worth_start_done _
  have h := (((hlast.start (Get.mk .updates (some .updates) replies)).start
    (Get.mk .drives (some .drives) replies)).start
    (Get.mk .service (some .services) replies)).start (Get.mk .system none replies)
  refine ⟨_, h.live, h.fair, h.owed.trans ?_, h.steps⟩
  rw [hsystem, hdrives, hupdates]
  omega

/-- The counts of a round, by the state it finds. -/
def roundPrice (old : State) (ping : Option ℕ) (replies : Replies) : ℕ :=
  if pingComputer ping = .online ∧ old ≠ .online then
    3+price ⟨.service, some .services, replies⟩+price ⟨.adapters, some .adapters, replies⟩
  else maxSteps

theorem pingComputer_cases (ping : Option ℕ) :
    pingComputer ping = .online ∨ pingComputer ping = .offline := by
  unfold pingComputer
  split
  · exact .inl rfl
  · exact .inr rfl

/-- What a call does behind its acts and tests, in a server that it finds in
this state. -/
theorem worth_pinged (server : Server) (ping : Option ℕ) (replies : Replies) :
    ∃ time, Worth price length (roundPrice server.state ping replies) time
      (behind (pinged (pingComputer ping) replies) server) := by
  unfold roundPrice
  by_cases hsame : server.state = pingComputer ping
  · rw [if_neg (by rw [hsame]; exact fun h => h.2 h.1)]
    simp only [pinged, behind, decide_eq_true_eq, if_pos hsame]
    split
    · exact worth_stayOnline replies
    · exact ⟨_, worth_countDowns 5⟩
  · simp only [pinged, behind, decide_eq_true_eq, if_neg hsame]
    rcases pingComputer_cases ping with hp | hp
    · rw [hp] at hsame ⊢
      simpa [goOnline, behind, hsame] using worth_goOnline replies
    · rw [hp]
      simpa [goOffline, behind, countDowns, maxSteps] using ⟨_, worth_countDowns 5⟩

/-- The round is over when the latch is: what has to hold whenever a round
begins. -/
def Counts : Event → Client → Prop
  | .poll ping replies, client => client.latch = 0 →
    Settles code maxSteps (poll ping replies client)
  | .step _, _ => True

/-- No other call is between its look at the latch and its setting, and a round
in which the server comes online has either the chained request or a refused
request for the adapters. -/
def Balanced : Event → Client → Prop
  | .poll ping replies, client => client.latch = 0 →
    (∀ t ∈ client.threads, arming t = false) ∧
    (pingComputer ping = .online → client.state.state ≠ .online →
      (Chains replies ↔ ¬ AdaptersRefused replies))
  | .step _, _ => True

theorem roundPrice_iff (old : State) (ping : Option ℕ) (replies : Replies) :
    roundPrice old ping replies = maxSteps ↔
      (pingComputer ping = .online → old ≠ .online →
        (Chains replies ↔ ¬ AdaptersRefused replies)) := by
  unfold roundPrice maxSteps
  by_cases h : pingComputer ping = .online ∧ old ≠ .online
  · rw [if_pos h]
    rcases price_service replies with ⟨hc, hs⟩ | ⟨hc, hs⟩ <;>
      rcases price_adapters replies with ⟨hr, ha⟩ | ⟨hr, ha⟩ <;>
      simp [h, hc, hr, hs, ha]
  · rw [if_neg h]
    exact iff_of_true rfl fun hp ho => absurd ⟨hp, ho⟩ h

/-- The thread is a call of `update_info` that is to set a latch no count has
found at zero. -/
def Called (client : Client) (t : Code) : Prop :=
  client.late = 0 ∧ ∃ new replies, t = pinged new replies

/-- The latch is what all threads together still owe, or a call that found it
at zero is alone at it. -/
def Sound (client : Client) : Prop := ∃ n, Nearing Called (Kept price n n) maxSteps client

/-- A call comes to five counts at least: coming online it starts five requests,
and else it makes six. -/
theorem least_pinged (new : State) (replies : Replies) :
    Plain (pinged new replies) ∧ 5 ≤ least (pinged new replies) := by
  cases new <;> simp [pinged, stayOnline, getIf, goOffline, goOnline, countDowns, maxSteps, Plain,
    least]

theorem sound_zero (client : Client) (h : Sound client) (hz : client.latch = 0) :
    (client.late = 0 ∧ Idle client) ∨
      ∃ k t, Called client t ∧ Lone client k (.reset maxSteps t) := by
  obtain ⟨n, h⟩ := h
  refine (nearing_zero (kept_idle price price_pos n n le_rfl) client h hz).imp ?_ id
  rintro ⟨hk, hidle⟩
  exact ⟨kept_inTime price n n le_rfl client hk, hidle⟩

theorem counts_iff (event : Event) (client : Client) (h : Sound client) :
    Counts event client ↔ Balanced event client := by
  cases event with
  | step i => exact Iff.rfl
  | poll ping replies =>
    apply imp_congr_right
    intro hz
    rw [poll, if_pos hz]
    rcases sound_zero client h hz with ⟨hlate, hidle⟩ | ⟨k, t, ⟨-, new, before, rfl⟩, hlone⟩
    · obtain ⟨time, hw⟩ := worth_pinged client.state ping replies
      rw [updateInfo, settles_iff code_priced maxSteps client _ hidle hlate hw, roundPrice_iff,
        and_iff_right]
      intro t ht
      rw [hidle t ht]
      rfl
    · obtain ⟨hplain, hleast⟩ := least_pinged new before
      obtain ⟨hplain', hleast'⟩ := least_pinged (pingComputer ping) replies
      refine iff_of_false (entered_twice code_priced maxSteps client k _ _ hlone hplain hplain' ?_)
        fun hb => ?_
      · rw [maxSteps]
        omega
      · exact absurd (hb.1 _ (List.mem_of_getElem? hlone.here)) (by simp [arming])

theorem tick_sound (event : Event) (client after : Client) (h : Sound client)
    (hb : Balanced event client) (ht : tick event client = .ok after) : Sound after := by
  cases event with
  | step i =>
    obtain rfl : step code client i = after := Except.ok.inj ht
    obtain ⟨n, h⟩ := h
    exact ⟨n, nearing_step (step_kept code_priced n n) client i h⟩
  | poll ping replies =>
    obtain rfl : poll ping replies client = after := Except.ok.inj ht
    unfold poll
    split
    case isFalse => exact h
    case isTrue hz =>
      obtain ⟨halone, hcount⟩ := hb hz
      rcases sound_zero client h hz with ⟨hlate, hidle⟩ | ⟨k, t, -, hlone⟩
      · obtain ⟨time, hw⟩ := worth_pinged client.state ping replies
        rw [(roundPrice_iff _ _ _).mpr hcount] at hw
        exact ⟨maxSteps, enter_kept maxSteps client _ hidle ⟨hlate, _, _, rfl⟩ hw⟩
      · exact absurd (halone _ (List.mem_of_getElem? hlone.here)) (by simp [arming])

theorem idle_sound (server : Server) : Sound (idle server) :=
  ⟨0, .reached ⟨by simp [idle], rfl, fun _ => rfl, fun _ => rfl⟩⟩

/-- Along every run of polls and steps of the threads, the latch does its work
in all rounds exactly when all rounds are balanced. -/
theorem rounds_count_iff (server : Server) (events : List Event) :
    Meets tick Counts events (idle server) ↔ Meets tick Balanced events (idle server) :=
  meets_iff_of_kept tick Sound Counts Balanced tick_sound counts_iff events (idle server)
    (idle_sound server)

/-- A server without a service manager it knows. -/
def withoutServices : Replies where
  system := .response 200 (some {})
  service := .response 501 none
  drives := .response 200 (some ⟨[]⟩)
  updates := .response 200 (some ⟨[]⟩)
  adapters := .response 200 (some ⟨[]⟩)
  services := .response 501 none

def home : Server := { hostname := [] }

/-- The threads one after the other, each to its end. -/
def inOrder : List ℕ :=
  List.replicate 9 0++List.replicate 2 1++List.replicate 3 2++List.replicate 3 3++
    List.replicate 3 4++List.replicate 3 5

/-- A server that answers 501 for its service manager is polled once: five
counts are made, no thread is left and the latch stays at one. -/
theorem polled_once :
    ¬ Meets tick Counts [.poll (some 302) withoutServices] (idle home) ∧
    Idle (run code inOrder (poll (some 302) withoutServices (idle home))) ∧
    (run code inOrder (poll (some 302) withoutServices (idle home))).counted = 5 ∧
    (run code inOrder (poll (some 302) withoutServices (idle home))).latch = 1 := by
  have hthreads : (run code inOrder (poll (some 302) withoutServices (idle home))).threads =
      List.replicate 6 .done := by rfl
  have hidle : Idle (run code inOrder (poll (some 302) withoutServices (idle home))) := by
    intro t ht
    rw [hthreads] at ht
    exact (List.mem_replicate.mp ht).2
  refine ⟨fun h => ?_, hidle, by rfl, by rfl⟩
  have hlatch := ((h.1 rfl).counts inOrder hidle).2
  exact absurd hlatch (by decide)

end Bakaneko.RoundLatch
