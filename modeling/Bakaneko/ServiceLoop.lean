import Bakaneko.ControlRequests
import Bakaneko.OpenrcServices
import Bakaneko.PageReports
import Bakaneko.Serialisable

/-!
# What the users see of what they have set

Users enable and disable services in the dialogs of their clients, the server
links them in the run levels of the host, and a round of a client asks for the
list and brings its table up to date. Between the click and the check mark lie
a header, two bodies, two parsers, the calls of `librc` and the rows of a table.
-/

set_option autoImplicit false

namespace Bakaneko.ServiceLoop
open Bakaneko.Native Bakaneko.Messages Bakaneko.JsonText Bakaneko.JsonValues Bakaneko.Rest
open Bakaneko.SystemBus Bakaneko.HostControl Bakaneko.ControlAccess Bakaneko.ControlRequests
open Bakaneko.OpenrcServices Bakaneko.PageReports Bakaneko.RowModels Bakaneko.TableHandlers
open Bakaneko.Authenticate Bakaneko.Base64 Bakaneko.Serialisable KeyedRows LastWrite PartialRun

/-- A use of a dialog, or a round of a client that asks for the services. -/
inductive Event (κ : Type) where
  | action (a : Attempt) (librc : Librc)
  | report (client : κ) (host : Host) (librc : Librc) (entries : List RcService)

def Event.librc {κ : Type} : Event κ → Librc
  | .action _ librc => librc
  | .report _ _ librc _ => librc

/-- The links of the host, and the tables of the clients. -/
structure Sight (κ : Type) where
  links : Links
  tables : κ → ServiceModel

section
variable {κ : Type} [DecidableEq κ] (json : Nlohmann) (levels : List Bytes)

/-- The request of a round, and what it finds. -/
def asked (host : Host) (librc : Librc) (entries : List RcService) : RcVisit :=
  ⟨host, librc, entries, getRequest servicesPage.path⟩

/-- The slot is called when the body could be read. -/
def shown (reply : ServerRound.Reply Services) (table : ServiceModel) : ServiceModel :=
  match reply with
  | .response _ (some services) => handleServices services table
  | _ => table

def step : Event κ → Sight κ → Except Failure (Sight κ)
  | .action a librc, s => match request json a with
    | none => .ok s
    | some req => (serveRc levels json ⟨a.host, librc, [], req⟩ s.links).map (⟨·, s.tables⟩)
  | .report client host librc entries, s =>
    let v := asked host librc entries
    let reply := servicesPage.reply json ⟨hostOf levels v s.links, some .openrc⟩
    (serveRc levels json v s.links).map
      (⟨·, Function.update s.tables client (shown reply (s.tables client))⟩)

end

open Classical in
/-- What an event makes of a service in a run level, as the user means it: his
password is the right one, the service is found, the action is one that enables
or disables, and `librc` carries it out there. -/
noncomputable def setting {κ : Type} (levels : List Bytes) (key : Bytes × Bytes) :
    Event κ → Option Bool
  | .action a librc =>
    if Admitted a ∧ (a.host.rcServiceResolve a.data.id).isSome then
      effect levels librc key.1 key.2 a.data else none
  | .report _ _ _ _ => none

section
variable {κ : Type} (json : Nlohmann) (levels : List Bytes) (hjson : Inverse json)
variable (hbody : ∀ j body, json.dump j = .ok body → body ≠ [])
include hjson hbody

/-- What the server writes for a use of the dialog is what the user means. -/
theorem writes_action (a : Attempt) (librc : Librc) (req : Request)
    (hreq : request json a = some req) (key : Bytes × Bytes) :
    writes levels json key ⟨a.host, librc, [], req⟩ =
      setting levels key (.action a librc : Event κ) := by
  obtain ⟨body, hr, hread⟩ := request_eq json hjson hbody a
  obtain rfl : postRequest (header a) body = req := Option.some.inj (hr.symm.trans hreq)
  have hauth : decide (authenticate a.host.config (header a) = .ok true) = true ↔ Admitted a := by
    rw [decide_eq_true_iff]
    obtain ⟨had, hok⟩ | ⟨had, hfalse | ⟨e, he⟩⟩ := authenticate_attempt a
    · simp [had, hok]
    · simp [had, hfalse]
    · simp [had, he]
  rw [writes, admitted, if_pos ⟨rfl, rfl⟩, hread]
  dsimp only
  rw [setting]
  by_cases hadmitted : Admitted a ∧ (a.host.rcServiceResolve a.data.id).isSome
  · rw [if_pos ⟨hauth.mpr hadmitted.1, hadmitted.2⟩, if_pos hadmitted]
    rfl
  · rw [if_neg fun h => hadmitted ⟨hauth.mp h.1, h.2⟩, if_neg hadmitted]
    rfl

variable [DecidableEq κ]

/-- An event changes the links as it is meant to, and no others. -/
theorem step_writes (event : Event κ) (hlibrc : event.librc.Documented) :
    Writes (step json levels) (fun (s : Sight κ) key => s.links key.1 key.2) (setting levels)
      event := by
  intro s t h key
  cases event with
  | action a librc =>
    obtain ⟨body, hr, -⟩ := request_eq json hjson hbody a
    rw [step, hr] at h
    obtain ⟨links, hlinks, rfl⟩ := (Fallible.map_ok _ _ _).mp h
    have hwrites := serveRc_writes json levels ⟨a.host, librc, [], postRequest (header a) body⟩
      hlibrc s.links links hlinks key
    rwa [writes_action json levels hjson hbody a librc _ hr] at hwrites
  | report client host librc entries =>
    obtain ⟨links, hlinks, rfl⟩ := (Fallible.map_ok _ _ _).mp h
    exact serveRc_writes json levels (asked host librc entries) hlibrc s.links links hlinks key

end

/-- Every known entry has a description, and what is sent of it is text. -/
def Printable (entries : List RcService) : Prop :=
  ∀ entry ∈ entries, entry.known → ∃ description, entry.description = some description ∧
    Utf8.Valid entry.id ∧ Utf8.Valid description

section
variable (json : Nlohmann) (levels : List Bytes)

/-- The list of the known entries with these links. -/
def listing (links : Links) (entries : List RcService) : Services :=
  ⟨(entries.filter (·.known)).map fun entry => ⟨entry.id, rcState entry.state,
    levels.any (links entry.id), bytes "Service", entry.id, entry.description.getD []⟩⟩

theorem listing_held (links : Links) (entries : List RcService) :
    (listing levels links entries).Held := by
  intro service hservice n
  obtain ⟨entry, -, rfl⟩ := List.mem_map.mp hservice
  show rcState entry.state ≠ _
  unfold rcState
  split
  · simp
  split
  · simp
  split <;> simp

theorem listing_utf8 (links : Links) (entries : List RcService) (h : Printable entries) :
    AllUtf8 (listing levels links entries).toJson := by
  rw [services_utf8]
  intro service hservice
  obtain ⟨entry, hentry, rfl⟩ := List.mem_map.mp hservice
  obtain ⟨hin, hknown⟩ := List.mem_filter.mp hentry
  obtain ⟨description, hd, hid, htext⟩ := h entry hin hknown
  have htype : Utf8.Valid (bytes "Service") := by decide +kernel
  rw [service_utf8, hd]
  exact ⟨hid, htype, hid, htext⟩

theorem report_reply (hjson : Inverse json) (hstrict : Strict json) (host : Host) (librc : Librc)
    (links : Links) (entries : List RcService) (h : Printable entries) :
    servicesPage.reply json ⟨hostOf levels (asked host librc entries) links, some .openrc⟩ =
      .response 200 (some (listing levels links entries)) := by
  have houtcome : servicesPage.outcome
      ⟨hostOf levels (asked host librc entries) links, some .openrc⟩ =
        .ok (.ok (listing levels links entries)) := by
    refine (openrcServices_ok levels links entries _).mpr ⟨fun entry hentry hknown => ?_, rfl⟩
    obtain ⟨description, hd, -⟩ := h entry hentry hknown
    rw [hd]
    rfl
  have hheld : ∀ value, servicesPage.outcome
      ⟨hostOf levels (asked host librc entries) links, some .openrc⟩ = .ok (.ok value) →
        value.Held := by
    intro value hvalue
    rw [houtcome] at hvalue
    cases hvalue
    exact listing_held levels links entries
  rw [services_served.reply_eq json hjson hstrict _ hheld, houtcome]
  exact if_pos (listing_utf8 levels links entries h)

end

/-- A refreshed row is enabled as all of its records are. -/
theorem refreshed_enabled (enabled : Bool) (records : List Service) (row : Service)
    (hrecords : ∀ m ∈ records, m.enabled = enabled)
    (hrow : records = [] → row.enabled = enabled) :
    (refreshed TableRows.refreshService records row).enabled = enabled := by
  induction records generalizing row with
  | nil => exact hrow rfl
  | cons m records ih =>
    obtain ⟨hm, hrest⟩ := List.forall_mem_cons.mp hrecords
    exact ih (TableRows.refreshService m row) hrest fun _ => hm

/-- Behind a message the rows are those it names, enabled as it says. -/
theorem handleServices_enabled (info : Services) (table : ServiceModel) (enabled : Bytes → Bool)
    (henabled : ∀ m ∈ info.services, m.enabled = enabled m.id) :
    (∀ k, k ∈ (handleServices info table).updates.map Service.id ↔
      k ∈ info.services.map Service.id) ∧
    ∀ row ∈ (handleServices info table).updates, row.enabled = enabled row.id := by
  rw [TableRows.handleServices_rows]
  refine ⟨mem_reconcile_keys TableRows.services_keeps _ _, fun row hrow => ?_⟩
  have hrecords : ∀ m ∈ recordsOf Service.id row.id info.services,
      m.enabled = enabled row.id := by
    intro m hm
    obtain ⟨hin, hkey⟩ := (mem_recordsOf _ _ m).mp hm
    rw [henabled m hin, hkey]
  obtain ⟨hne, ⟨old, -, -, hold⟩ | ⟨-, hnew⟩⟩ :=
    mem_reconcile TableRows.services_keeps info.services table.updates row hrow
  · exact (congrArg Service.enabled hold).trans
      (refreshed_enabled (enabled row.id) _ old hrecords fun h => absurd h hne)
  · obtain ⟨m, rest, hs, hc⟩ : ∃ m rest, recordsOf Service.id row.id info.services = m::rest ∧
        content TableRows.refreshService id (recordsOf Service.id row.id info.services) =
          some (refreshed TableRows.refreshService rest m) := content_some _ hne
    rw [hs] at hrecords
    obtain ⟨hm, hrest⟩ := List.forall_mem_cons.mp hrecords
    have hrow := Option.some.inj (hnew.symm.trans hc)
    exact (congrArg Service.enabled hrow).trans
      (refreshed_enabled (enabled row.id) rest m hrest fun _ => hm)

section
variable {κ : Type} [DecidableEq κ] (json : Nlohmann) (levels : List Bytes)
variable (hjson : Inverse json) (hstrict : Strict json)
variable (hbody : ∀ j body, json.dump j = .ok body → body ≠ [])
include hjson hstrict hbody

/-- After any uses of the dialogs and any rounds of any clients, whatever
passwords were wrong, whatever `librc` has refused and whatever answers were
lost: behind a round whose list can be printed the table of its client has the
known services, and each is shown as enabled when there is a run level in which
the last use that was carried out there, in whichever client, has linked it, or
in which it was linked and none has come. The other tables stay as they are. -/
theorem shown_as_set (events : List (Event κ)) (hlibrc : ∀ event ∈ events, event.librc.Documented)
    (client : κ) (host : Host) (librc : Librc) (entries : List RcService) (s t : Sight κ)
    (hrun : run (step json levels) (events++[.report client host librc entries]) s = .ok t)
    (hentries : Printable entries) :
    (∀ k, k ∈ (t.tables client).updates.map Service.id ↔
      ∃ entry ∈ entries, entry.known ∧ entry.id = k) ∧
    (∀ row ∈ (t.tables client).updates, row.enabled = levels.any fun level =>
      (last (setting levels (row.id, level)) events).getD (s.links row.id level)) ∧
    ∃ u, run (step json levels) events s = .ok u ∧ ∀ other ≠ client,
      t.tables other = u.tables other := by
  obtain ⟨u, hu, hlast⟩ := (run_append_ok _ _ _ _ _).mp hrun
  have hread (id : Bytes) : u.links id = fun level =>
      (last (setting levels (id, level)) events).getD (s.links id level) := funext fun level =>
    run_read (step json levels) _ _ events
      (fun event hevent => step_writes json levels hjson hbody event (hlibrc event hevent)) s u hu
      (id, level)
  rw [run_singleton] at hlast
  obtain ⟨links, -, rfl⟩ := (Fallible.map_ok _ _ _).mp hlast
  dsimp only
  rw [Function.update_self,
    report_reply json levels hjson hstrict host librc u.links entries hentries]
  obtain ⟨hkeys, hrows⟩ := handleServices_enabled (listing levels u.links entries)
    (u.tables client) (fun id => levels.any (u.links id))
    (List.forall_mem_map.mpr fun entry _ => rfl)
  refine ⟨fun k => ?_, fun row hrow => ?_, u, hu, fun other hother => ?_⟩
  · refine (hkeys k).trans ?_
    simp [listing, and_assoc]
  · rw [hrows row hrow, hread]
  · exact Function.update_of_ne hother _ _

end

theorem key_short : 6+(bytes "key").length ≤ 2147483646 := by decide

theorem enable_held : (⟨bytes "sshd", .enable⟩ : Control).Held := nofun

theorem enable_utf8 : AllUtf8 (⟨bytes "sshd", .enable⟩ : Control).toJson := by decide +kernel

/-- The right password, or another. -/
def enabling (pass : Bytes) (h : 6+pass.length ≤ 2147483646) : Attempt :=
  { restart pass h with
    data := ⟨bytes "sshd", .enable⟩
    held := enable_held
    utf8 := enable_utf8 }

def listed : List RcService :=
  [⟨bytes "sshd", true, some (bytes "OpenSSH"), 0x102⟩, ⟨bytes "functions.sh", false, none, 0⟩]

/-- One user has the wrong password, another enables a service without links. -/
def used : List (Event Bool) :=
  [.action (enabling (bytes "kex") (by decide)) (linker nowhere),
    .action (enabling (bytes "key") key_short) (linker nowhere)]

/-- Another client lists it. -/
def seen : List (Event Bool) := used++[.report true gentoo (linker nowhere) listed]

theorem shown_as_set_enabling : ∃ t,
    run (step library [bytes "default"]) seen ⟨nowhere, fun _ => {}⟩ = .ok t ∧
    bytes "sshd" ∈ (t.tables true).updates.map Service.id ∧
    ∀ row ∈ (t.tables true).updates, row.id = bytes "sshd" → row.enabled = true := by
  have hok : (run (step library [bytes "default"]) seen ⟨nowhere, fun _ => {}⟩).isOk = true := by
    decide +kernel
  cases hrun : run (step library [bytes "default"]) seen ⟨nowhere, fun _ => {}⟩ with
  | error e => simp [hrun, Except.isOk, Except.toBool] at hok
  | ok t =>
  have hlibrc : ∀ event ∈ used, event.librc.Documented := by
    simp [used, Event.librc, linker_documented]
  have hprintable : Printable listed := by
    intro entry hentry hknown
    rcases List.mem_cons.mp hentry with rfl | hentry
    · exact ⟨_, rfl, by decide +kernel, by decide +kernel⟩
    · rw [List.mem_singleton.mp hentry] at hknown
      cases hknown
  obtain ⟨hkeys, hrows, -⟩ := shown_as_set library [bytes "default"] library_inverse
    library_strict library_prints used hlibrc true gentoo (linker nowhere) listed _ t hrun hprintable
  refine ⟨t, rfl, (hkeys _).mpr ⟨_, List.mem_cons_self, rfl, rfl⟩, fun row hrow hid => ?_⟩
  have hkey : smear (bytes "key") = [107, 101, 121] := by decide
  have hdigits : ¬ zeroDigit (smear (bytes "key")) := by simp [hkey, zeroDigit]
  have hadmitted : Admitted (enabling (bytes "key") key_short) := ⟨rfl, hdigits, by decide⟩
  have hset : setting [bytes "default"] (bytes "sshd", bytes "default")
      (.action (enabling (bytes "key") key_short) (linker nowhere) : Event Bool) = some true := by
    rw [setting, if_pos ⟨hadmitted, rfl⟩]
    decide
  rw [hrows row hrow, hid, List.any_cons, used, last_cons, last, List.filterMap_cons_some hset]
  rfl

end Bakaneko.ServiceLoop
