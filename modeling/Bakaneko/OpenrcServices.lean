import Bakaneko.ControlAccess
import Bakaneko.Library.LastWrite

/-!
# Services of an OpenRC host

A service is shown as enabled when it is linked in one of the run levels. The
server has `librc` link it in `default` and delete it from all of them, and
goes on when a deletion fails; no other request does either. After any requests
the list therefore shows each service as linked where the last call that
succeeded there has left it so.
-/

set_option autoImplicit false

namespace Bakaneko.OpenrcServices
open Bakaneko.Native Bakaneko.Messages Bakaneko.Rest Bakaneko.Authenticate Bakaneko.SystemBus
open Bakaneko.HostControl Bakaneko.ControlAccess Fallible LastWrite PartialRun

/-- What `librc` says of an entry of `/etc/init.d`. -/
structure RcService where
  id : Bytes
  known : Bool
  description : Option Bytes
  state : ℕ

/-- Whether a service is linked in a run level. -/
abbrev Links := Bytes → Bytes → Bool

/-- A call of `librc`: what it returns, and the links behind it. -/
structure RcCall where
  answer : Bool
  left : Links → Links

/-- The calls of `librc`, which is loaded at run time, as a request finds them. -/
structure Librc where
  rcServiceAdd : Bytes → Bytes → RcCall
  rcServiceDelete : Bytes → Bytes → RcCall

def Librc.call (librc : Librc) : Bool → Bytes → Bytes → RcCall
  | true => librc.rcServiceAdd
  | false => librc.rcServiceDelete

/-- What is documented of both calls: they return whether they have linked the
service in the level, or removed it from there, and they concern no other. -/
structure Librc.Documented (librc : Librc) : Prop where
  done : ∀ linked level id links, (librc.call linked level id).answer = true →
    (librc.call linked level id).left links id level = linked
  failed : ∀ linked level id links, (librc.call linked level id).answer = false →
    (librc.call linked level id).left links id level = links id level
  others : ∀ linked level id links i l, ¬ (id = i ∧ level = l) →
    (librc.call linked level id).left links i l = links i l

def rcState (state : ℕ) : State :=
  if state &&& 0xFF = 0x0002 then .running
  else if state &&& 0xFF = 0x0008 then .starting
  else if state &&& 0xFF = 0x0004 then .stopping
  else .stopped

section
variable (levels : List Bytes)

/-- A description that is null is assigned to a string. -/
def rcServiceInfo (links : Links) (entry : RcService) : Except Failure Service :=
  match entry.description with
  | none => .error (.undefined .nullPointer)
  | some description => .ok ⟨entry.id, rcState entry.state, levels.any (links entry.id),
      bytes "Service", entry.id, description⟩

def openrcServices (links : Links) (entries : List RcService) : Outcome Services :=
  ((entries.filter (·.known)).mapM (rcServiceInfo levels links)).map fun services => .ok { services }

/-- A request, and what it finds besides the links. -/
structure RcVisit where
  host : Host
  librc : Librc
  entries : List RcService
  req : Request

def hostOf (v : RcVisit) (links : Links) : Host := { v.host with
  openrc := true
  rcServiceAdd := fun level id => (v.librc.rcServiceAdd level id).answer
  rcRunLevels := levels
  rcServiceInRunLevel := links
  rcServices := openrcServices levels links v.entries }

/-- The links behind an operation. Nothing but `librc` changes them. -/
def applied (librc : Librc) (links : Links) : Operation → Links
  | .runLevel level id linked => (librc.call linked level id).left links
  | _ => links

/-- The server over one request, once it has found OpenRC. -/
def serveRc (json : Nlohmann) (v : RcVisit) (links : Links) : Except Failure Links :=
  let h := handled json ⟨hostOf levels v links, v.req⟩ (some .openrc)
  match h.escaped with
  | some e => .error e
  | none => .ok (h.performed.foldl (applied v.librc) links)

end

/-- The action a request brings, if it is let in and its service is found. -/
def admitted (json : Nlohmann) (v : RcVisit) : Option Control :=
  if v.req.method = .post ∧ v.req.target = bytes "/service" then
    match readBody json Control.fromJson ⟨[], v.host.indeterminate⟩ v.req with
    | .error _ => none
    | .ok data =>
      if (v.req.authorization.any fun a => decide (authenticate v.host.config a = .ok true)) ∧
        (v.host.rcServiceResolve data.id).isSome then some data else none
  else none

section
variable (levels : List Bytes)

/-- What an action makes of a service in a level, where `librc` carries it out. -/
def effect (librc : Librc) (id level : Bytes) (data : Control) : Option Bool :=
  match data.action with
  | .enable =>
    if data.id = id ∧ bytes "default" = level ∧ (librc.rcServiceAdd level id).answer then some true
    else none
  | .disable =>
    if data.id = id ∧ levels.any (· = level) ∧ (librc.rcServiceDelete level id).answer then
      some false
    else none
  | _ => none

/-- What a request makes of a service in a level. -/
def writes (json : Nlohmann) (key : Bytes × Bytes) (v : RcVisit) : Option Bool :=
  (admitted json v).bind (effect levels v.librc key.1 key.2)

end

section
variable (librc : Librc)

/-- Commands make no links. -/
theorem foldl_commands (ops : List Operation) (links : Links)
    (h : ∀ op ∈ ops, ∃ text, op = .command text) : ops.foldl (applied librc) links = links := by
  induction ops generalizing links with
  | nil => rfl
  | cons op ops ih =>
    obtain ⟨⟨text, rfl⟩, hrest⟩ := List.forall_mem_cons.mp h
    exact ih _ hrest

theorem runCommand_commands (host : Host) (text : Bytes) (next : ℤ → Reply Unit)
    (hnext : ∀ exit, ∀ op ∈ (next exit).performed, ∃ text, op = .command text) :
    ∀ op ∈ (runCommand host text next).performed, ∃ text, op = .command text := by
  intro op hop
  unfold runCommand at hop
  split at hop
  · cases hop
  · rcases List.mem_cons.mp hop with rfl | hop
    · exact ⟨text, rfl⟩
    · exact hnext _ op hop

theorem powerCommands_commands (host : Host) (first second : Bytes) :
    ∀ op ∈ (powerCommands host first second).performed, ∃ text, op = .command text := by
  refine runCommand_commands host first _ fun exit op hop => ?_
  split at hop
  · refine runCommand_commands host second _ (fun exit op hop => ?_) op hop
    split at hop <;> cases hop
  · cases hop

theorem rcCommand_commands (host : Host) (text : Bytes) :
    ∀ op ∈ (rcCommand host text).performed, ∃ text, op = .command text := by
  refine runCommand_commands host text _ fun exit op hop => ?_
  split at hop <;> cases hop

variable (hlibrc : librc.Documented)
include hlibrc

theorem call_links (linked : Bool) (level id : Bytes) (links : Links) (i l : Bytes) :
    (librc.call linked level id).left links i l =
      (if id = i ∧ level = l ∧ (librc.call linked level id).answer then some linked
        else none).getD (links i l) := by
  by_cases hkey : id = i ∧ level = l
  · obtain ⟨rfl, rfl⟩ := hkey
    cases ha : (librc.call linked level id).answer with
    | true => simpa using hlibrc.done linked level id links ha
    | false => simpa using hlibrc.failed linked level id links ha
  · rw [if_neg fun h => hkey ⟨h.1, h.2.1⟩]
    exact hlibrc.others linked level id links i l hkey

/-- Deleting a service from levels leaves the links of all others, and of the
service those in other levels and those whose deletion fails. -/
theorem foldl_deleted (id : Bytes) (gone : List Bytes) (links : Links) (i l : Bytes) :
    (gone.map (Operation.runLevel · id false)).foldl (applied librc) links i l =
      (if id = i ∧ l ∈ gone ∧ (librc.rcServiceDelete l id).answer then some false
        else none).getD (links i l) := by
  induction gone generalizing links with
  | nil => simp
  | cons level gone ih =>
    rw [List.map_cons, List.foldl_cons, ih, applied, call_links librc hlibrc]
    by_cases hi : id = i <;> by_cases hl : level = l
    · subst hi hl
      by_cases ha : (librc.rcServiceDelete level id).answer
      · simp only [Librc.call, ha, List.mem_cons, true_or, and_true, and_self, if_true]
        split <;> rfl
      · simp [ha, Librc.call]
    · simp [hi, hl, Ne.symm hl]
    · simp [hi]
    · simp [hi]

/-- The server does not ask for the deletion of links that are not there. -/
theorem disable_links (levels : List Bytes) (links : Links) (id i l : Bytes) :
    ((levels.filter (links id)).map (Operation.runLevel · id false)).foldl (applied librc) links i l =
      (if id = i ∧ l ∈ levels ∧ (librc.rcServiceDelete l id).answer then some false
        else none).getD (links i l) := by
  rw [foldl_deleted librc hlibrc]
  by_cases hi : id = i
  · subst hi
    cases hk : links id l with
    | true => simp [hk]
    | false =>
      simp only [List.mem_filter, hk]
      split <;> split <;> rfl
  · rw [if_neg fun h => hi h.1, if_neg fun h => hi h.1]

end

section
variable (json : Nlohmann) (levels : List Bytes) (v : RcVisit) (hlibrc : v.librc.Documented)
include hlibrc

/-- An action on a service that is found. -/
theorem controlResolved_links (links : Links) (path : Bytes) (data : Control) (id level : Bytes) :
    (controlResolved (hostOf levels v links) path data).performed.foldl (applied v.librc) links
      id level = (effect levels v.librc id level data).getD (links id level) := by
  have hcommand (text : Bytes) := foldl_commands v.librc _ links
    (rcCommand_commands (hostOf levels v links) text)
  obtain ⟨i, action⟩ := data
  cases action with
  | stop => exact congrArg (fun l => l id level) (hcommand _)
  | start => exact congrArg (fun l => l id level) (hcommand _)
  | restart => exact congrArg (fun l => l id level) (hcommand _)
  | enable =>
    refine (call_links v.librc hlibrc true (bytes "default") i links id level).trans ?_
    rw [effect]
    dsimp only
    by_cases hkey : i = id ∧ bytes "default" = level
    · obtain ⟨rfl, rfl⟩ := hkey
      rfl
    · rw [if_neg fun h => hkey ⟨h.1, h.2.1⟩, if_neg fun h => hkey ⟨h.1, h.2.1⟩]
  | disable =>
    refine (disable_links v.librc hlibrc levels links i id level).trans ?_
    rw [effect]
    dsimp only
    simp only [List.any_eq_true, decide_eq_true_eq, exists_eq_right]
    by_cases hi : i = id
    · subst hi
      rfl
    · rw [if_neg fun h => hi h.1, if_neg fun h => hi h.1]
  | undeclared n => rfl

/-- An action behind the check of the password. -/
theorem performControl_links (links : Links) (data : Control) (id level : Bytes) :
    (performControl (hostOf levels v links) (some .openrc) data).performed.foldl (applied v.librc)
      links id level = (if (v.host.rcServiceResolve data.id).isSome then
        effect levels v.librc id level data else none).getD (links id level) := by
  have hfound : (hostOf levels v links).rcServiceResolve = v.host.rcServiceResolve := rfl
  rw [performControl, getServiceManager]
  dsimp only
  rw [controlOpenrc, hfound]
  cases v.host.rcServiceResolve data.id with
  | none => rfl
  | some path =>
    rw [if_pos Option.isSome_some]
    exact controlResolved_links levels v hlibrc links path data id level

theorem controlService_links (links : Links) (data : Control) (id level : Bytes) :
    (controlService (hostOf levels v links) (some .openrc) ⟨v.req.authorization⟩
      data).performed.foldl (applied v.librc) links id level =
        (if (v.req.authorization.any fun a => decide (authenticate v.host.config a = .ok true)) ∧
          (v.host.rcServiceResolve data.id).isSome then effect levels v.librc id level data
            else none).getD (links id level) := by
  have hconfig : (hostOf levels v links).config = v.host.config := rfl
  rw [controlService]
  dsimp only
  cases v.req.authorization with
  | none => simp [refuse]
  | some a =>
    rw [Option.any_some]
    dsimp only
    rw [hconfig]
    cases hauth : authenticate v.host.config a with
    | error e => simp
    | ok good =>
      cases good with
      | false => simp [refuse]
      | true =>
        dsimp only
        rw [performControl_links levels v hlibrc]
        simp

theorem control_links (links : Links) (hpost : IsServicePost v.req) (id level : Bytes) :
    (controlReply json (endpoints (hostOf levels v links) (some .openrc)) v.req).performed.foldl
      (applied v.librc) links id level =
        (writes levels json (id, level) v).getD (links id level) := by
  have hreply : (controlReply json (endpoints (hostOf levels v links) (some .openrc)) v.req) =
    withBody (readBody json Control.fromJson ⟨[], v.host.indeterminate⟩ v.req) fun data =>
      controlService (hostOf levels v links) (some .openrc) ⟨v.req.authorization⟩ data := rfl
  rw [writes, admitted, if_pos ⟨hpost.1, hpost.2⟩, hreply]
  cases readBody json Control.fromJson ⟨[], v.host.indeterminate⟩ v.req with
  | error e => rfl
  | ok data =>
    rw [withBody, controlService_links levels v hlibrc]
    dsimp only
    split <;> rfl

/-- What one request changes. -/
theorem serveRc_writes : Writes (serveRc levels json) (fun links key => links key.1 key.2)
    (writes levels json) v := by
  rintro links links' h ⟨id, level⟩
  rw [serveRc] at h
  split at h
  · cases h
  cases h
  by_cases hpost : IsServicePost v.req
  · rw [handled_route json _ _ _ (route_servicePost v.req hpost), runRoute, run_performed]
    exact control_links json levels v hlibrc links hpost id level
  have hwrites : writes levels json (id, level) v = none := by
    rw [writes, admitted, if_neg fun h => hpost ⟨h.1, h.2⟩]
    rfl
  have hkept : ∀ ops : List Operation, (∀ op ∈ ops, ∃ text, op = .command text) →
      ops.foldl (applied v.librc) links id level =
        (writes levels json (id, level) v).getD (links id level) := by
    intro ops hops
    rw [foldl_commands v.librc ops links hops, hwrites]
    rfl
  refine hkept _ ?_
  by_cases hpower : IsPower v.req
  · rcases route_power v.req hpower with hr | hr | hr
    · rw [handled_route json _ _ _ hr, runRoute, run_performed]
      exact powerCommands_commands _ _ _
    · rw [handled_route json _ _ _ hr, runRoute, run_performed]
      exact powerCommands_commands _ _ _
    · obtain ⟨status, -, hh⟩ := handled_none json ⟨hostOf levels v links, v.req⟩ (some .openrc) hr
      rw [hh]
      exact fun op hop => by cases hop
  · rw [info_performs_nothing json ⟨hostOf levels v links, v.req⟩ _ hpower hpost]
    exact fun op hop => by cases hop

end

section
variable (json : Nlohmann) (levels : List Bytes)

/-- Every entry that is known has a description, and is shown with its links. -/
theorem openrcServices_ok (links : Links) (entries : List RcService)
    (reply : Except Errors Services) : openrcServices levels links entries = .ok reply ↔
      (∀ entry ∈ entries, entry.known → entry.description.isSome) ∧
      reply = .ok ⟨(entries.filter (·.known)).map fun entry => ⟨entry.id, rcState entry.state,
        levels.any (links entry.id), bytes "Service", entry.id, entry.description.getD []⟩⟩ := by
  have hentry : ∀ entry service, rcServiceInfo levels links entry = .ok service ↔
      entry.description.isSome ∧ service = ⟨entry.id, rcState entry.state,
        levels.any (links entry.id), bytes "Service", entry.id, entry.description.getD []⟩ := by
    intro entry service
    rw [rcServiceInfo]
    cases entry.description <;> simp [eq_comm]
  rw [openrcServices, map_ok]
  simp only [mapM_ok_iff _ _ _ hentry, List.mem_filter]
  constructor
  · rintro ⟨services, ⟨hall, rfl⟩, rfl⟩
    exact ⟨fun entry he hk => hall entry ⟨he, hk⟩, rfl⟩
  · rintro ⟨hall, rfl⟩
    exact ⟨_, ⟨fun entry he => hall entry he.1 he.2, rfl⟩, rfl⟩

/-- After any requests that the server survives, the list has the known entries
in their order, and each is enabled when there is a run level in which the last
action that got through to it, and that `librc` carried out there, has linked
it, or in which it was linked and none has come. -/
theorem services_after (visits : List RcVisit) (hlibrc : ∀ visit ∈ visits, visit.librc.Documented)
    (links links' : Links) (hrun : run (serveRc levels json) visits links = .ok links') (v : RcVisit)
    (data : ServicesRequest) (reply : Except Errors Services) :
    infoServices (hostOf levels v links') (some .openrc) data = .ok reply ↔
      (∀ entry ∈ v.entries, entry.known → entry.description.isSome) ∧
      reply = .ok ⟨(v.entries.filter (·.known)).map fun entry => ⟨entry.id, rcState entry.state,
        levels.any fun level => (last (writes levels json (entry.id, level)) visits).getD
          (links entry.id level), bytes "Service", entry.id, entry.description.getD []⟩⟩ := by
  have hread (id : Bytes) : links' id = fun level =>
      (last (writes levels json (id, level)) visits).getD (links id level) := funext fun level =>
    run_read (serveRc levels json) _ _ visits
      (fun visit hvisit => serveRc_writes json levels visit (hlibrc visit hvisit)) links links' hrun
      (id, level)
  refine (openrcServices_ok levels links' v.entries reply).trans ?_
  simp only [hread]

end

def place (linked : Bool) (level id : Bytes) (answer : Bool) : RcCall where
  answer := answer
  left links i l := if (id = i ∧ level = l) ∧ answer then linked else links i l

/-- Where these links are, a service is added to levels it is not in, and
deleted from those it is in. -/
def linker (present : Links) : Librc where
  rcServiceAdd level id := place true level id !(present id level)
  rcServiceDelete level id := place false level id (present id level)

theorem linker_call (present : Links) (linked : Bool) (level id : Bytes) :
    (linker present).call linked level id =
      place linked level id (if linked then !(present id level) else present id level) := by
  cases linked <;> rfl

theorem linker_documented (present : Links) : (linker present).Documented where
  done linked level id links ha := by
    rw [linker_call] at ha ⊢
    exact if_pos ⟨⟨rfl, rfl⟩, ha⟩
  failed linked level id links ha := by
    rw [linker_call] at ha ⊢
    exact if_neg fun h => absurd (h.2.symm.trans ha) (by decide)
  others linked level id links i l hother := by
    rw [linker_call]
    exact if_neg fun h => hother h.1

/-- A body that asks for sshd to be enabled. -/
def asks : Nlohmann := ⟨fun _ => .ok (Control.toJson ⟨bytes "sshd", .enable⟩), fun _ => .ok []⟩

def enableSshd (present : Links) : RcVisit where
  host := { busDown with
    config := bytes "[admin]\npassword=key\n"
    rcServiceResolve := fun id => some (bytes "/etc/init.d/"++id) }
  librc := linker present
  entries := [⟨bytes "sshd", true, some (bytes "OpenSSH"), 0x102⟩,
    ⟨bytes "functions.sh", false, none, 0⟩]
  req := {
    method := .post
    target := bytes "/service"
    authorization := some (bytes "Basic YWRtaW46a2V5")
    body := bytes "\x7b\"id\":\"sshd\",\"action\":3\x7d" }

def nowhere : Links := fun _ _ => false

/-- The service is linked, and then it is there already. -/
def enabledTwice : List RcVisit := [enableSshd nowhere,
  enableSshd fun id level => decide (id = bytes "sshd" ∧ level = bytes "default")]

theorem services_after_enable : ∃ links',
    run (serveRc [bytes "default"] asks) enabledTwice nowhere = .ok links' ∧
    infoServices (hostOf [bytes "default"] (enableSshd links') links') (some .openrc) {} = .ok (.ok
      ⟨[⟨bytes "sshd", .running, true, bytes "Service", bytes "sshd", bytes "OpenSSH"⟩]⟩) := by
  have hok : (run (serveRc [bytes "default"] asks) enabledTwice nowhere).isOk = true := by
    decide +kernel
  cases hrun : run (serveRc [bytes "default"] asks) enabledTwice nowhere with
  | error e => simp [hrun, Except.isOk, Except.toBool] at hok
  | ok links' =>
  have hlibrc : ∀ visit ∈ enabledTwice, visit.librc.Documented := by
    simp [enabledTwice, enableSshd, linker_documented]
  refine ⟨links', rfl, (services_after asks [bytes "default"] enabledTwice hlibrc _ links' hrun
    (enableSshd links') {} _).mpr ⟨by simp [enableSshd], ?_⟩⟩
  have hlast : last (writes [bytes "default"] asks (bytes "sshd", bytes "default")) enabledTwice =
      some true := by
    decide +kernel
  have hknown : (enableSshd links').entries.filter (·.known) =
      [⟨bytes "sshd", true, some (bytes "OpenSSH"), 0x102⟩] := rfl
  rw [hknown, List.map_singleton, List.any_cons, hlast]
  rfl

end Bakaneko.OpenrcServices
