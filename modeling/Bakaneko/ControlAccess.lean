import Bakaneko.RestResponses
import Bakaneko.Library.PartialRun

/-!
# Who may change the host

`Control::Service` checks the password before it does anything, the two power
endpoints do not. The check itself answers some bad credentials with an
exception, and a body that cannot be read is answered before the check.
-/

set_option autoImplicit false

namespace Bakaneko.ControlAccess
open Bakaneko.Native Bakaneko.Messages Bakaneko.Rest Bakaneko.Authenticate Bakaneko.SystemBus
open Bakaneko.HostControl Bakaneko.RestResponses PartialRun

/-- The request's own header authenticates as the admin of the configuration. -/
def Authenticates (visit : Visit) : Prop :=
  ∃ a, visit.req.authorization = some a ∧ authenticate visit.host.config a = .ok true

def IsPower (req : Request) : Prop :=
  req.target = bytes "/power/shutdown" ∨ req.target = bytes "/power/reboot"

def IsServicePost (req : Request) : Prop := req.method = .post ∧ req.target = bytes "/service"

/-- Only authenticated requests change the host, and all other requests to the
power paths or `POST /service` do nothing and are answered 401. -/
def Guarded (json : Nlohmann) (visit : Visit) (manager : Option ServiceManager) : Prop :=
  ((handled json visit manager).performed ≠ [] → Authenticates visit) ∧
  (IsPower visit.req ∨ IsServicePost visit.req → ¬ Authenticates visit →
    (handled json visit manager).performed = [] ∧
      Answered (handled json visit manager) (some 401))

/-- What a request has to be for this: a power request authenticates, and a
service request that does not has a readable body and credentials, if any,
that `Authenticate` turns down. -/
def Admitted (json : Nlohmann) (visit : Visit) : Prop :=
  (IsPower visit.req → Authenticates visit) ∧
  (IsServicePost visit.req → ¬ Authenticates visit →
    (∃ data, readBody json Control.fromJson ⟨[], visit.host.indeterminate⟩ visit.req = .ok data) ∧
    ∀ a, visit.req.authorization = some a → authenticate visit.host.config a = .ok false)

theorem handled_route (json : Nlohmann) (visit : Visit) (manager : Option ServiceManager)
    (r : Route) (hr : route visit.req = some r) :
    handled json visit manager = runRoute json (endpoints visit.host manager) visit.req r :=
  handler_route json (endpoints visit.host manager) visit.req r hr

theorem route_servicePost (req : Request) (h : IsServicePost req) :
    route req = some .controlService := by
  simp +decide [route, h.1, h.2]

/-- A power path has an endpoint for `POST` only. -/
theorem route_power (req : Request) (h : IsPower req) :
    route req = some .shutdown ∨ route req = some .reboot ∨ route req = none := by
  by_cases hm : req.method = .post
  · rcases h with h | h
    · exact .inl (by simp +decide [route, hm, h])
    · exact .inr (.inl (by simp +decide [route, hm, h]))
  · rcases h with h | h
    · exact .inr (.inr (by simp +decide [route, hm, h]))
    · exact .inr (.inr (by simp +decide [route, hm, h]))

/-- Where a request neither goes to a power path nor is a `POST /service`. -/
theorem route_info (req : Request) (hp : ¬ IsPower req) (hs : ¬ IsServicePost req) (r : Route)
    (hr : route req = some r) : r ≠ .shutdown ∧ r ≠ .reboot ∧ r ≠ .controlService := by
  simp only [IsPower, IsServicePost, not_or] at hp hs
  have h : route req ≠ some .shutdown ∧ route req ≠ some .reboot ∧
      route req ≠ some .controlService := by
    unfold route
    simp only [hp, hs, and_false, if_false]
    repeat' split
    all_goals decide
  rw [hr] at h
  exact ⟨fun he => h.1 (congrArg some he), fun he => h.2.1 (congrArg some he),
    fun he => h.2.2 (congrArg some he)⟩

theorem handled_none (json : Nlohmann) (visit : Visit) (manager : Option ServiceManager)
    (hr : route visit.req = none) : ∃ status, status ≠ 401 ∧
      handled json visit manager = ⟨[plain status visit.req], none, []⟩ := by
  rw [handled, handler, hr]
  split
  · exact ⟨302, by decide, rfl⟩
  · exact ⟨404, by decide, rfl⟩

theorem info_performs_nothing (json : Nlohmann) (visit : Visit) (manager : Option ServiceManager)
    (hp : ¬ IsPower visit.req) (hs : ¬ IsServicePost visit.req) :
    (handled json visit manager).performed = [] := by
  cases hr : route visit.req with
  | none =>
    obtain ⟨status, -, hh⟩ := handled_none json visit manager hr
    rw [hh]
  | some r =>
    have hc := route_info visit.req hp hs r hr
    rw [handled_route json visit manager r hr]
    cases r with
    | shutdown => exact absurd rfl hc.1
    | reboot => exact absurd rfl hc.2.1
    | controlService => exact absurd rfl hc.2.2
    | services =>
      rw [runRoute, run_performed, servicesReply]
      cases readBody json ServicesRequest.fromJson {} visit.req <;> rfl
    | drives => exact run_performed json _ _ _
    | system => exact run_performed json _ _ _
    | updates => exact run_performed json _ _ _
    | adapters => exact run_performed json _ _ _
    | service => exact run_performed json _ _ _

theorem failure_not_401 {α : Type} (json : Nlohmann) (render : Option (α → Json)) (req : Request)
    (f : Failure) : ¬ Answered (Run json render req { outcome := .error f }) (some 401) := by
  rintro ⟨r, hr, -, hs⟩
  cases f <;> cases hr
  cases hs

/-- A power command is performed, unless it cannot even be started. -/
theorem powerCommands_cases (host : Host) (first second : Bytes) :
    powerCommands host first second = { outcome := .error popenFailed } ∨
      (powerCommands host first second).performed ≠ [] := by
  unfold powerCommands
  rw [runCommand]
  cases host.exec first with
  | none => exact .inl rfl
  | some exit => exact .inr (List.cons_ne_nil _ _)

theorem powerCommands_trace (json : Nlohmann) (host : Host) (first second : Bytes)
    (req : Request) :
    ¬ ((Run json none req (powerCommands host first second)).performed = [] ∧
      Answered (Run json none req (powerCommands host first second)) (some 401)) := by
  rintro ⟨hp, hans⟩
  rw [run_performed] at hp
  rcases powerCommands_cases host first second with he | he
  · rw [he] at hans
    exact failure_not_401 json none req popenFailed hans
  · exact he hp

theorem refused_answered (json : Nlohmann) (req : Request) :
    (Run json none req (refuse .needsPassword)).performed = [] ∧
      Answered (Run json none req (refuse .needsPassword)) (some 401) :=
  ⟨rfl, unauthorized req, rfl, rfl, rfl⟩

/-- Without authentication `Control::Service` does nothing, and is answered
401 exactly when the body is read and the credentials are turned down. -/
theorem control_unauthenticated (json : Nlohmann) (visit : Visit)
    (manager : Option ServiceManager) (hn : ¬ Authenticates visit) :
    ((Run json none visit.req (controlReply json (endpoints visit.host manager) visit.req)).performed
        = [] ∧
      Answered (Run json none visit.req (controlReply json (endpoints visit.host manager) visit.req))
        (some 401)) ↔
    (∃ data, readBody json Control.fromJson ⟨[], visit.host.indeterminate⟩ visit.req = .ok data) ∧
    ∀ a, visit.req.authorization = some a → authenticate visit.host.config a = .ok false := by
  unfold controlReply
  change _ ↔ (∃ data, readBody json Control.fromJson
    ⟨[], (endpoints visit.host manager).indeterminate⟩ visit.req = .ok data) ∧ _
  cases readBody json Control.fromJson ⟨[], (endpoints visit.host manager).indeterminate⟩
    visit.req with
  | error e => exact iff_of_false (fun h => failure_not_401 json none _ _ h.2) (by simp)
  | ok data =>
    change ((Run json none visit.req (controlService visit.host manager
      ⟨visit.req.authorization⟩ data)).performed = [] ∧ Answered (Run json none visit.req
      (controlService visit.host manager ⟨visit.req.authorization⟩ data)) (some 401)) ↔ _
    unfold controlService
    cases ha : visit.req.authorization with
    | none => exact iff_of_true (refused_answered json visit.req) ⟨⟨data, rfl⟩, by simp⟩
    | some a =>
      cases hk : authenticate visit.host.config a with
      | error f =>
        simp only [hk]
        exact iff_of_false (fun h => failure_not_401 json none _ f h.2) (by simp [hk])
      | ok b =>
        cases b with
        | true => exact absurd ⟨a, ha, hk⟩ hn
        | false =>
          simp only [hk]
          exact iff_of_true (refused_answered json visit.req) ⟨⟨data, rfl⟩, by simp [hk]⟩

/-- Nothing on a power path is answered 401. -/
theorem power_unguarded (json : Nlohmann) (visit : Visit) (manager : Option ServiceManager)
    (h : IsPower visit.req) : ¬ ((handled json visit manager).performed = [] ∧
      Answered (handled json visit manager) (some 401)) := by
  rcases route_power visit.req h with hr | hr | hr
  · rw [handled_route json visit manager _ hr]
    exact powerCommands_trace json visit.host _ _ visit.req
  · rw [handled_route json visit manager _ hr]
    exact powerCommands_trace json visit.host _ _ visit.req
  · obtain ⟨status, hstatus, hh⟩ := handled_none json visit manager hr
    rintro ⟨-, r, hsent, -, h401⟩
    rw [hh] at hsent
    cases hsent
    exact hstatus (Option.some.inj h401).symm

/-- One request is guarded exactly when it is admitted. -/
theorem guarded_iff (json : Nlohmann) (visit : Visit) (manager : Option ServiceManager) :
    Guarded json visit manager ↔ Admitted json visit := by
  by_cases hauth : Authenticates visit
  · exact iff_of_true ⟨fun _ => hauth, fun _ hn => absurd hauth hn⟩
      ⟨fun _ => hauth, fun _ hn => absurd hauth hn⟩
  by_cases hp : IsPower visit.req
  · exact iff_of_false (fun h => power_unguarded json visit manager hp (h.2 (.inl hp) hauth))
      fun h => hauth (h.1 hp)
  by_cases hs : IsServicePost visit.req
  · have hr := route_servicePost visit.req hs
    have hc := control_unauthenticated json visit manager hauth
    unfold Guarded Admitted
    rw [handled_route json visit manager _ hr, runRoute]
    constructor
    · intro h
      exact ⟨fun h' => absurd h' hp, fun _ _ => hc.mp (h.2 (.inr hs) hauth)⟩
    · intro h
      have hdone := hc.mpr (h.2 hs hauth)
      exact ⟨fun hne => absurd hdone.1 hne, fun _ _ => hdone⟩
  · have hnothing := info_performs_nothing json visit manager hp hs
    exact iff_of_true ⟨fun hne => absurd hnothing hne, fun h => absurd h (not_or.mpr ⟨hp, hs⟩)⟩
      ⟨fun h => absurd h hp, fun h => absurd h hs⟩

/-- Along every run of the server, all requests are guarded exactly when all
of them are admitted. -/
theorem access_guarded_iff (json : Nlohmann) (visits : List Visit) :
    Meets (serve json) (Guarded json) visits none ↔
      Meets (serve json) (fun visit _ => Admitted json visit) visits none :=
  meets_congr (serve json) _ _ (guarded_iff json) visits none

def postShutdown : Visit := ⟨busDown, { method := .post, target := bytes "/power/shutdown" }⟩

/-- Anyone can switch the host off. -/
theorem shutdown_without_password : ¬ Meets (serve quietJson) (Guarded quietJson) [postShutdown] none ∧
    (handled quietJson postShutdown none).performed = [.command (bytes "poweroff now")] := by
  have hr : route postShutdown.req = some .shutdown := by decide
  have hp : (handled quietJson postShutdown none).performed =
      [.command (bytes "poweroff now")] := by
    rw [handled_route _ _ _ _ hr]
    rfl
  refine ⟨fun h => ?_, hp⟩
  obtain ⟨a, ha, -⟩ := h.1.1 (by rw [hp]; simp)
  cases ha

end Bakaneko.ControlAccess
