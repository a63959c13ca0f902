import Bakaneko.HostControl

/-!
# One response to every request

The status a request is owed follows from its route and from how the endpoint
ends. The handler pays it for every way of ending except two: an exception
that is not one of the standard library, and an error value that stands for
no error.
-/

set_option autoImplicit false

namespace Bakaneko.RestResponses
open Bakaneko.Native Bakaneko.Messages Bakaneko.Rest Bakaneko.SystemBus Bakaneko.HostControl

/-- How an endpoint ends, with the body read in front of it and the value
printed behind it. -/
inductive Ended where
  | void
  | value (dumps : Bool)
  | error (e : Errors)
  | failure (f : Failure)
  deriving DecidableEq

def ended {α : Type} (json : Nlohmann) (render : Option (α → Json)) : Outcome α → Ended
  | .ok (.ok value) => match render with
    | none => .void
    | some render => .value (json.dump (render value)).isOk
  | .ok (.error e) => .error e
  | .error f => .failure f

def routeEnded (json : Nlohmann) (endpoints : Endpoints) (req : Request) : Route → Ended
  | .drives => ended json (some Drives.toJson) (endpoints.drives ⟨req.authorization⟩).outcome
  | .system => ended json (some System.toJson) (endpoints.system ⟨req.authorization⟩).outcome
  | .updates => ended json (some Updates.toJson) (endpoints.updates ⟨req.authorization⟩).outcome
  | .adapters => ended json (some Adapters.toJson) (endpoints.adapters ⟨req.authorization⟩).outcome
  | .service => ended json (some ServiceInfo.toJson) (endpoints.service ⟨req.authorization⟩).outcome
  | .services => ended json (some Services.toJson) (servicesReply json endpoints req).outcome
  | .shutdown => ended json none (endpoints.shutdown ⟨req.authorization⟩).outcome
  | .reboot => ended json none (endpoints.reboot ⟨req.authorization⟩).outcome
  | .controlService => ended json none (controlReply json endpoints req).outcome

/-- The status owed for an ending; none is named for `Errors::None` and for
behaviour the language leaves undefined. -/
def owed (req : Request) : Ended → Option ℕ
  | .void => some 200
  | .value dumps =>
    if req.contentType = some applicationJson then some (if dumps then 200 else 500) else some 415
  | .error .notImplemented => some 501
  | .error .failed => some 500
  | .error .needsPassword => some 401
  | .error .none => none
  | .failure (.exception _) => some 500
  | .failure .dbusError => some 500
  | .failure (.undefined _) => none

/-- Exactly one response goes out, with this status, and nothing is thrown. -/
def Answered (h : Handled) (status : Option ℕ) : Prop :=
  ∃ r, h.sent = [r] ∧ h.escaped = none ∧ status = some r.status

def Responds (json : Nlohmann) (endpoints : Endpoints) (req : Request) : Prop :=
  Answered (handler json endpoints req)
    (if req.target = bytes "/" then some 302
      else match route req with
        | none => some 404
        | some r => owed req (routeEnded json endpoints req r))

/-- The endings `Run` has a response for. -/
def Settled : Ended → Prop
  | .void => True
  | .value _ => True
  | .error e => e ≠ .none
  | .failure f => ∃ e, f = .exception e

theorem respond_status {α : Type} (json : Nlohmann) (render : Option (α → Json)) (req : Request)
    (value : α) :
    owed req (ended json render (.ok (.ok value))) = some (respond json render req value).status := by
  cases render with
  | none => rfl
  | some render =>
    simp only [ended, owed, respond]
    split
    · cases json.dump (render value) <;> rfl
    · rfl

theorem run_answered {α : Type} (json : Nlohmann) (render : Option (α → Json)) (req : Request)
    (reply : Reply α) :
    Answered (Run json render req reply) (owed req (ended json render reply.outcome)) ↔
      Settled (ended json render reply.outcome) := by
  obtain ⟨outcome, performed, loaded⟩ := reply
  match outcome with
  | .ok (.ok value) =>
    have hs : Settled (ended json render (.ok (.ok value))) := by cases render <;> trivial
    exact iff_of_true ⟨_, rfl, rfl, respond_status json render req value⟩ hs
  | .ok (.error .notImplemented) => exact iff_of_true ⟨_, rfl, rfl, rfl⟩ (by simp [ended, Settled])
  | .ok (.error .failed) => exact iff_of_true ⟨_, rfl, rfl, rfl⟩ (by simp [ended, Settled])
  | .ok (.error .needsPassword) => exact iff_of_true ⟨_, rfl, rfl, rfl⟩ (by simp [ended, Settled])
  | .ok (.error .none) =>
    refine iff_of_false ?_ (by simp [ended, Settled])
    rintro ⟨r, hr, -, -⟩
    cases hr
  | .error (.exception e) => exact iff_of_true ⟨_, rfl, rfl, rfl⟩ ⟨e, rfl⟩
  | .error .dbusError =>
    refine iff_of_false ?_ (by simp [ended, Settled])
    rintro ⟨r, hr, -, -⟩
    cases hr
  | .error (.undefined u) =>
    refine iff_of_false ?_ (by simp [ended, Settled])
    rintro ⟨r, hr, -, -⟩
    cases hr

/-- The handler answers a request as it is owed exactly when the endpoint the
request selects ends in one of the ways `Run` has a response for. -/
theorem responds_iff (json : Nlohmann) (endpoints : Endpoints) (req : Request) :
    Responds json endpoints req ↔
      (req.target ≠ bytes "/" → ∀ r, route req = some r →
        Settled (routeEnded json endpoints req r)) := by
  unfold Responds handler
  by_cases hroot : req.target = bytes "/"
  · rw [if_pos hroot, if_pos hroot]
    exact iff_of_true ⟨_, rfl, rfl, rfl⟩ fun h => absurd hroot h
  rw [if_neg hroot, if_neg hroot]
  cases hr : route req with
  | none => exact iff_of_true ⟨_, rfl, rfl, rfl⟩ fun _ r h => by cases h
  | some r =>
    have hrun : Answered (runRoute json endpoints req r)
        (owed req (routeEnded json endpoints req r)) ↔
        Settled (routeEnded json endpoints req r) := by
      cases r <;> exact run_answered json _ req _
    exact hrun.trans ⟨fun h _ r' hr' => Option.some.inj hr' ▸ h, fun h => h hroot r rfl⟩

def quietJson : Nlohmann := ⟨fun _ => .error .json, fun _ => .ok []⟩

def getService : Request :=
  { method := .get, target := bytes "/service", contentType := some applicationJson }

/-- `GET /service` without a system bus throws out of the handler. -/
theorem service_escapes : ¬ Responds quietJson (endpoints busDown none) getService ∧
    (handler quietJson (endpoints busDown none) getService).escaped = some .dbusError := by
  have hr : route getService = some .service := by decide
  have hh : handler quietJson (endpoints busDown none) getService = ⟨[], some .dbusError, []⟩ := by
    rw [handler_route _ _ _ _ hr]
    rfl
  refine ⟨?_, by rw [hh]⟩
  rintro ⟨r, hs, -, -⟩
  rw [hh] at hs
  cases hs

end Bakaneko.RestResponses
