import Bakaneko.PageReports

/-!
# Rounds of a client that polls this server

Every request of a round reaches the server at a moment of its own, or does
not reach it. The replies then follow from the hosts, and with them whether
the round counts its latch down to zero.
-/

set_option autoImplicit false

namespace Bakaneko.HostRounds
open Bakaneko.Native Bakaneko.Messages Bakaneko.JsonValues Bakaneko.JsonText
open Bakaneko.Rest Bakaneko.SystemBus Bakaneko.HostControl Bakaneko.PageReports
open Bakaneko.ServerRound (Replies Client Server tick idle pingComputer)
open Bakaneko.RoundLatch CountingLatch PartialRun

/-- What the requests of a round find, the ping among them. -/
structure Contact where
  ping : Option Report
  system : Option Report
  service : Option Report
  drives : Option Report
  updates : Option Report
  adapters : Option Report
  services : Option Report
  held : ∀ r ∈ adapters, Holds r

/-- The request of `ping_computer`. -/
def pingRequest : Request := { method := .head, target := bytes "/" }

def statusOf (json : Nlohmann) (r : Report) : Option ℕ :=
  (handled json ⟨r.host, pingRequest⟩ r.manager).sent.head?.map Response.status

theorem statusOf_eq (json : Nlohmann) (r : Report) : statusOf json r = some 302 := rfl

def met {α : Type} (p : Page α) (json : Nlohmann) : Option Report → ServerRound.Reply α
  | none => .failed
  | some r => p.reply json r

def replies (json : Nlohmann) (contact : Contact) : Replies where
  system := met systemPage json contact.system
  service := met servicePage json contact.service
  drives := met drivesPage json contact.drives
  updates := met updatesPage json contact.updates
  adapters := met adaptersPage json contact.adapters
  services := met servicesPage json contact.services

inductive Event where
  | poll (contact : Contact)
  | step (thread : ℕ)

def toEvent (json : Nlohmann) : Event → ServerRound.Event
  | .poll contact => .poll (contact.ping.bind (statusOf json)) (replies json contact)
  | .step i => .step i

def act (json : Nlohmann) (event : Event) (client : Client) : Except Empty Client :=
  tick (toEvent json event) client

/-- The server knows a service manager. -/
def Manages (r : Report) : Prop := ∃ info, infoService r.host r.manager = .ok (.ok info)

/-- The server answers the request for the adapters, but not with adapters. -/
def Refuses (r : Report) : Prop :=
  match r.host.adapters with
  | .ok (.ok adapters) => ¬ AllUtf8 adapters.toJson
  | .ok (.error e) => e ≠ .none
  | .error (.exception _) => True
  | .error _ => False

/-- A round begins while no other call is between its look at the latch and its
setting, and one that finds the server come online finds it with a service
manager or with adapters it refuses, and not with both. -/
def Matched : Event → Client → Prop
  | .poll contact, client => client.latch = 0 →
    (∀ t ∈ client.threads, arming t = false) ∧
    (contact.ping.isSome → client.state.state ≠ .online →
      ((∃ r ∈ contact.service, Manages r) ↔ ¬ ∃ r ∈ contact.adapters, Refuses r))
  | .step _, _ => True

theorem infoService_utf8 (r : Report) (info : ServiceInfo)
    (h : infoService r.host r.manager = .ok (.ok info)) : AllUtf8 info.toJson := by
  unfold infoService at h
  split at h <;> cases h
  · decide +kernel
  · decide +kernel

section
variable (json : Nlohmann) (hjson : Inverse json) (hstrict : Strict json)
include hjson hstrict

theorem chains_iff (contact : Contact) :
    Chains (replies json contact) ↔ ∃ r ∈ contact.service, Manages r := by
  unfold Chains replies met
  cases contact.service with
  | none => simp
  | some r =>
    simp only [service_served.reply_eq json hjson hstrict r fun _ _ => trivial, Option.mem_def,
      Option.some.injEq, exists_eq_left', Manages]
    change (∃ info, expected _ (infoService r.host r.manager) = _) ↔ _
    apply exists_congr
    intro info
    cases hi : infoService r.host r.manager with
    | error f => cases f <;> simp [expected]
    | ok result =>
      cases result with
      | error e => cases e <;> simp [expected]
      | ok info' => simp [expected, servicePage, infoService_utf8 r info' hi]

theorem adaptersRefused_iff (contact : Contact) :
    AdaptersRefused (replies json contact) ↔ ∃ r ∈ contact.adapters, Refuses r := by
  have hheld := contact.held
  unfold AdaptersRefused replies met
  cases hc : contact.adapters with
  | none => simp
  | some r =>
    simp only [adapters_served.reply_eq json hjson hstrict r (hheld r hc).adapters, Option.mem_def,
      Option.some.injEq, exists_eq_left', Refuses]
    change (∃ status info, expected _ r.host.adapters = _ ∧ _) ↔ _
    cases r.host.adapters with
    | error f => cases f <;> simp [expected]
    | ok result =>
      cases result with
      | error e => cases e <;> simp [expected]
      | ok adapters => by_cases hu : AllUtf8 adapters.toJson <;> simp [expected, adaptersPage, hu]

theorem balanced_iff (event : Event) (client : Client) :
    RoundLatch.Balanced (toEvent json event) client ↔ Matched event client := by
  cases event with
  | step i => exact Iff.rfl
  | poll contact =>
    simp only [toEvent, RoundLatch.Balanced, Matched, chains_iff json hjson hstrict,
      adaptersRefused_iff json hjson hstrict]
    have hping : pingComputer (contact.ping.bind (statusOf json)) = .online ↔
        contact.ping.isSome := by
      cases contact.ping with
      | none => simp [pingComputer]
      | some r => simp [pingComputer, statusOf_eq]
    rw [hping]

/-- Along every run of polls of this repository's server, whatever its host is
like at each request, the latch does its work in all rounds exactly when each
round that finds the server come online is matched. -/
theorem host_rounds_count_iff (server : Server) (events : List Event) :
    Meets (act json) (fun event => Counts (toEvent json event)) events (idle server) ↔
      Meets (act json) Matched events (idle server) :=
  meets_iff_of_kept (act json) Sound _ Matched
    (fun event client after h hm ht => tick_sound _ client after h
      ((balanced_iff json hjson hstrict event client).mpr hm) ht)
    (fun event client h => (counts_iff _ client h).trans
      (balanced_iff json hjson hstrict event client)) events (idle server) (idle_sound server)

end

/-- A host whose service manager the server does not know. -/
def unmanaged : Report :=
  ⟨{ busDown with listNames := .ok [], adapters := .ok (.ok ⟨[]⟩) }, none⟩

theorem unmanaged_holds : Holds unmanaged where
  drives := nofun
  adapters := by
    rintro adapters ⟨⟩
    simp [Adapters.Held]
  services := nofun

def allOf (r : Report) (h : Holds r) : Contact :=
  ⟨some r, some r, some r, some r, some r, some r, some r, by simpa using h⟩

/-- Its first round does not count its latch down. -/
theorem unmanaged_miscounts :
    ¬ Meets (act library) (fun event => Counts (toEvent library event))
      [.poll (allOf unmanaged unmanaged_holds)] (idle home) := by
  rw [host_rounds_count_iff library library_inverse library_strict]
  intro h
  obtain ⟨r, hr, info, hi⟩ := ((h.1 rfl).2 rfl (by decide)).mpr (by
    rintro ⟨r, hr, href⟩
    cases hr
    exact href (by decide +kernel))
  cases hr
  cases hi

end Bakaneko.HostRounds
