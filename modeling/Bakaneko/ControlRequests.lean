import Bakaneko.Credentials
import Bakaneko.LoginAttempts
import Bakaneko.RestResponses
import Bakaneko.WireFormat

/-!
# Service actions from the dialog to the host

`Server::control_service` packs user, password, id and action into a request
and `network_post` sends it. Header, body, parser and check behind it may be
left out: what a sequence of attempts does to the host is what `performControl`
does for the attempts whose password arrives, and nothing for the others.
-/

set_option autoImplicit false

namespace Bakaneko.ControlRequests
open Bakaneko.Native Bakaneko.Messages Bakaneko.JsonValues Bakaneko.JsonText Bakaneko.WireFormat
open Bakaneko.Rest Bakaneko.SystemBus Bakaneko.HostControl Bakaneko.Base64
open Bakaneko.Authenticate Bakaneko.Credentials PartialRun

/-- A use of the dialog, the host it acts on and the password configured there.
The id comes from a `QString` and the action from the menu. -/
structure Attempt where
  host : Host
  password : Bytes
  started : StartupCheck host.config password
  user : Bytes
  pass : Bytes
  user_plain : 58 ∉ user
  short : user.length+1+pass.length ≤ 2147483646
  data : Control
  held : data.Held
  utf8 : AllUtf8 data.toJson

/-- What the attempts have done: to the hosts, to the dialogs, and to the static
variable of the server. -/
structure Done where
  performed : List Operation := []
  emitted : List LoginAttempts.Signal := []
  manager : Option ServiceManager := none

section
variable (json : Nlohmann)

def postRequest (header body : Bytes) : Request :=
  { method := .post, target := bytes "/service", authorization := some header, keepAlive := false,
    body }

/-- The request of `control_service`, unless printing throws. -/
def request (a : Attempt) : Option Request :=
  (controlHeader a.user a.pass).bind fun header =>
    (json.dump a.data.toJson).toOption.map (postRequest header)

/-- What `network_post` emits for the responses on its connection. -/
def signals : List Response → List LoginAttempts.Signal
  | [] => []
  | res::_ => [if res.status = 200 then .serviceActionDone else .connectingFail]

/-- An attempt on its way through the server. -/
def attempt (a : Attempt) (d : Done) : Except Failure Done :=
  match request json a with
  | none => .ok d
  | some req =>
    let h := handled json ⟨a.host, req⟩ d.manager
    match h.escaped with
    | some e => .error e
    | none => .ok {
        performed := d.performed++h.performed
        emitted := d.emitted++signals h.sent
        manager := remembered json a.host req d.manager }

end

/-- The password is the one the server has, and `Base64` carries it. -/
def Admitted (a : Attempt) : Prop :=
  a.user = bytes "admin" ∧ ¬ zeroDigit (smear a.pass) ∧ received a.pass = a.password

open Classical in
/-- An attempt as it is meant: a check of the password, then the action. -/
noncomputable def intended (a : Attempt) (d : Done) : Except Failure Done :=
  if Admitted a then
    let reply := performControl a.host d.manager a.data
    let after (signal : LoginAttempts.Signal) : Done := {
      performed := d.performed++reply.performed
      emitted := d.emitted++[signal]
      manager := (getServiceManager a.host d.manager).toOption }
    match reply.outcome with
    | .ok (.ok ()) => .ok (after .serviceActionDone)
    | .ok (.error _) => .ok (after .connectingFail)
    | .error (.exception _) => .ok (after .connectingFail)
    | .error e => .error e
  else .ok { d with emitted := d.emitted++[.connectingFail] }

def header (a : Attempt) : Bytes := bytes "Basic "++encodeGroups (a.user++58::a.pass)

theorem controlHeader_attempt (a : Attempt) : controlHeader a.user a.pass = some (header a) := by
  rw [controlHeader_eq, if_pos a.short, header]

/-- The check lets in who is admitted, and refuses or throws for all others. -/
theorem authenticate_attempt (a : Attempt) :
    (Admitted a ∧ authenticate a.host.config (header a) = .ok true) ∨
    (¬ Admitted a ∧ (authenticate a.host.config (header a) = .ok false ∨
      ∃ e, authenticate a.host.config (header a) = .error (.exception e))) := by
  unfold header Admitted
  by_cases ha : a.user = bytes "admin"
  · rw [ha]
    obtain ⟨hz, he⟩ | ⟨hz, he⟩ := authenticate_admin a.host.config a.password a.pass a.started
    · exact .inr ⟨fun h => h.2.1 hz, .inr ⟨_, he⟩⟩
    · by_cases hr : received a.pass = a.password
      · exact .inl ⟨⟨rfl, hz, hr⟩, by rw [he, decide_eq_true hr]⟩
      · exact .inr ⟨fun h => hr h.2.2, .inl (by rw [he, decide_eq_false hr])⟩
  · exact .inr ⟨fun h => ha h.1, .inr (authenticate_stranger _ a.user a.pass a.user_plain ha)⟩

theorem rcCommand_settled (host : Host) (text : Bytes) :
    (rcCommand host text).outcome ≠ .ok (.error .none) := by
  unfold rcCommand runCommand
  split
  · simp
  · simp only
    split <;> simp [refuse, succeed]

theorem onBus_settled {α : Type} (answer : Except DbusError α) (next : α → Reply Unit)
    (h : ∀ v, (next v).outcome ≠ .ok (.error .none)) :
    (onBus answer next).outcome ≠ .ok (.error .none) := by
  unfold onBus
  split
  · simp
  · exact h _

theorem changeUnitFiles_settled (host : Host) (path id : Bytes) (enabled : Bool) :
    (changeUnitFiles host path id enabled).outcome ≠ .ok (.error .none) := by
  refine onBus_settled _ _ fun fragment => ?_
  split
  · simp [refuse]
  · exact onBus_settled _ _ fun _ => by simp [succeed]

/-- `performControl` never ends with the error value that stands for no error. -/
theorem performControl_settled (host : Host) (manager : Option ServiceManager) (data : Control) :
    (performControl host manager data).outcome ≠ .ok (.error .none) := by
  have hcall : ∀ path method, (callUnit host path method).outcome ≠ .ok (.error .none) :=
    fun path method => onBus_settled _ _ fun _ => by simp [succeed]
  unfold performControl
  split
  · simp
  · refine onBus_settled _ _ fun _ => onBus_settled _ _ fun path => ?_
    split
    all_goals first
      | exact hcall path _
      | exact changeUnitFiles_settled host path data.id _
      | simp [refuse]
  · unfold controlOpenrc
    split
    · simp
    · unfold controlResolved
      split
      all_goals first | exact rcCommand_settled host _ | simp [refuse, succeed]
      split <;> simp
  · simp [refuse]

theorem postRequest_route (header body : Bytes) :
    route (postRequest header body) = some .controlService := by
  simp +decide [route, postRequest]

section
variable (json : Nlohmann) (hjson : Inverse json)
variable (hbody : ∀ j body, json.dump j = .ok body → body ≠ [])
include hjson hbody

/-- The request carries the header, and a body that is read as the action. -/
theorem request_eq (a : Attempt) : ∃ body, request json a = some (postRequest (header a) body) ∧
    ∀ initial, readBody json Control.fromJson initial (postRequest (header a) body) =
      .ok a.data := by
  obtain ⟨body, hd, hback⟩ := (control_codec.carries json hjson).back a.data a.held a.utf8
  refine ⟨body, ?_, fun initial => ?_⟩
  · rw [request, controlHeader_attempt, hd]
    rfl
  · have hne : body.length ≠ 0 := fun h => hbody _ body hd (List.eq_nil_of_length_eq_zero h)
    rw [readBody, if_pos (by simpa [postRequest] using hne)]
    exact hback

omit hjson hbody in
/-- The server, given a request whose body is read as the action. -/
theorem handled_control (a : Attempt) (body : Bytes) (manager : Option ServiceManager)
    (hread : ∀ initial, readBody json Control.fromJson initial (postRequest (header a) body) =
      .ok a.data) :
    handled json ⟨a.host, postRequest (header a) body⟩ manager =
        Run json none (postRequest (header a) body)
          (controlService a.host manager ⟨some (header a)⟩ a.data) ∧
      remembered json a.host (postRequest (header a) body) manager =
        if authenticate a.host.config (header a) = .ok true then
          (getServiceManager a.host manager).toOption else manager := by
  have hroute := postRequest_route (header a) body
  constructor
  · rw [handled, handler_route json _ _ _ hroute, runRoute, controlReply]
    simp only [endpoints, hread, withBody]
    rfl
  · rw [remembered, asksManager, hroute]
    simp only [hread, Except.isOk, Except.toBool, Bool.true_and]
    rw [show (postRequest (header a) body).authorization = some (header a) from rfl]
    simp

theorem attempt_eq (a : Attempt) (d : Done) : attempt json a d = intended a d := by
  obtain ⟨body, hr, hread⟩ := request_eq json hjson hbody a
  obtain ⟨hh, hrem⟩ := handled_control json a body d.manager hread
  rw [attempt, hr]
  simp only [hh, hrem]
  obtain ⟨had, hauth⟩ | ⟨had, hauth⟩ := authenticate_attempt a
  · rw [intended, if_pos had, if_pos hauth]
    simp only [controlService, hauth]
    have hsettled := performControl_settled a.host d.manager a.data
    cases ho : (performControl a.host d.manager a.data).outcome with
    | error f =>
      cases f <;> simp [Run, ho, signals, plain]
    | ok result =>
      cases result with
      | ok value => simp [Run, ho, signals, respond]
      | error e =>
        cases e with
        | none => exact absurd ho hsettled
        | notImplemented => simp [Run, ho, signals, plain]
        | failed => simp [Run, ho, signals, plain]
        | needsPassword => simp [Run, ho, signals, plain, unauthorized]
  · rw [intended, if_neg had]
    obtain hauth | ⟨e, hauth⟩ := hauth
    · simp [controlService, hauth, refuse, Run, signals, unauthorized, plain]
    · simp [controlService, hauth, Run, signals, plain]

/-- For every sequence of uses of the dialogs, against any hosts: what happens
to the hosts, to the dialogs and to the server is what is meant to. -/
theorem attempts_intended (attempts : List Attempt) (d : Done) :
    run (attempt json) attempts d = run intended attempts d := by
  rw [show attempt json = intended from
    funext fun a => funext fun d => attempt_eq json hjson hbody a d]

end

theorem integer_ne (n : ℤ) : integer n ≠ [] := by
  cases n with
  | ofNat n =>
    obtain ⟨d, ds, hd, -⟩ := numeral_cons n
    rw [integer, hd]
    exact List.cons_ne_nil _ _
  | negSucc n => exact List.cons_ne_nil _ _

theorem print_ne (j : Json) : print j ≠ [] := by
  cases j with
  | null => decide
  | boolean b => cases b <;> decide
  | number n => exact integer_ne n
  | float n => exact List.append_ne_nil_of_left_ne_nil (integer_ne n) _
  | text s => exact List.cons_ne_nil _ _
  | array elements => cases elements <;> exact List.cons_ne_nil _ _
  | object fields => cases fields <;> exact List.cons_ne_nil _ _

theorem library_prints (j : Json) (body : Bytes) (h : library.dump j = .ok body) : body ≠ [] := by
  change dump j = .ok body at h
  unfold dump at h
  split at h <;> cases h
  exact print_ne _

/-- A host with OpenRC whose services are all in one directory. -/
def gentoo : Host := { busDown with
  config := bytes "[admin]\npassword=key\n", openrc := true,
  rcServiceResolve := fun id => some (bytes "/etc/init.d/"++id) }

theorem gentoo_started : StartupCheck gentoo.config (bytes "key") :=
  ⟨[⟨bytes "admin", [⟨bytes "password", some (bytes "key")⟩]⟩], rfl, rfl, rfl⟩

def restart (pass : Bytes) (h : 6+pass.length ≤ 2147483646) : Attempt where
  host := gentoo
  password := bytes "key"
  started := gentoo_started
  user := bytes "admin"
  pass := pass
  user_plain := by decide
  short := h
  data := ⟨bytes "sshd", .restart⟩
  held := nofun
  utf8 := by decide +kernel

/-- A wrong password, then the right one. -/
theorem attempts_intended_restart :
    run (attempt library) [restart (bytes "kex") (by decide), restart (bytes "key") (by decide)] {} =
      .ok ⟨[.command (bytes "/etc/init.d/sshd restart")], [.connectingFail, .serviceActionDone],
        some .openrc⟩ := by
  rw [attempts_intended library library_inverse library_prints]
  have hwrong : ¬ Admitted (restart (bytes "kex") (by decide)) := fun h => absurd h.2.2 (by decide)
  have hkey : smear (bytes "key") = [107, 101, 121] := by decide
  have hdigits : ¬ zeroDigit (smear (bytes "key")) := by simp [hkey, zeroDigit]
  have hright : Admitted (restart (bytes "key") (by decide)) := ⟨rfl, hdigits, by decide⟩
  simp only [run, intended, if_neg hwrong, if_pos hright]
  rfl

end Bakaneko.ControlRequests
