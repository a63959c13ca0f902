import Bakaneko.ServerList
import Bakaneko.Library.PartialRun

/-!
# The list of servers in the settings

Adding and changing a server write one entry and the size of the array,
removing one writes all entries that are left and keeps the stale ones
behind them. A string goes into the settings as a `QString` and comes back
through `toUtf8().data()`, taken as a C string. The list read back is the
list in memory exactly as long as every address written survives this way.
-/

set_option autoImplicit false

namespace Bakaneko.ServerSettings
open Bakaneko.Native Bakaneko.Messages Bakaneko.ServerList PartialRun

/-- The world outside: the JSON library, what `toUtf8` makes of a
`fromStdString`, and the entries the settings held at first, as read. -/
structure Setting where
  json : Nlohmann
  recode : Bytes → Bytes
  file : ℕ → Entry

variable (q : Setting)

/-- What a written string is when it is read. -/
def carry (s : Bytes) : Bytes := (q.recode s).takeWhile (· ≠ 0)

/-- `Reload` reads one entry; one never written is that of the file. -/
def readEntry (settings : Settings) (a : ℕ) : Entry :=
  match settings.entries a with
  | some e => ⟨carry q e.hostname, carry q e.mac, carry q e.ip⟩
  | none => q.file a

def readServers (settings : Settings) : List Entry :=
  (List.range settings.size).map (readEntry q settings)

def Reload (settings : Settings) : ServerManager := ⟨readServers q settings, settings⟩

def writeAll (settings : Settings) (servers : List Entry) : Settings :=
  ⟨servers.length, fun a => match servers[a]? with
    | some e => some e
    | none => settings.entries a⟩

def RemoveServer (index : ℕ) (manager : ServerManager) : Except Failure ServerManager :=
  if index < manager.servers.length then
    let servers := manager.servers.eraseIdx index
    .ok ⟨servers, writeAll manager.settings servers⟩
  else .error (.undefined .pastEnd)

/-- `handle_info` takes over the host name a server reports. -/
def rename (index : ℕ) (hostname : Bytes) (manager : ServerManager) : ServerManager :=
  { manager with servers := manager.servers.modify index fun e => { e with hostname } }

inductive Op where
  | addServer (peer : Peer) (ip : Bytes)
  | changeServerOptions (peer : Peer) (index : ℕ) (ip : Bytes)
  | removeServer (index : ℕ)
  | rename (index : ℕ) (hostname : Bytes)

def step : Op → ServerManager → Except Failure ServerManager
  | .addServer peer ip, m => AddServer q.json peer ip m
  | .changeServerOptions peer index ip, m => changeServerOptions q.json peer index ip m
  | .removeServer index, m => RemoveServer index m
  | .rename index hostname, m => .ok (rename index hostname m)

def address (e : Entry) : Bytes × Bytes := (e.mac, e.ip)

/-- What `Reload` would read now are the servers in memory. -/
def Persisted (m : ServerManager) : Prop :=
  (readServers q m.settings).map address = m.servers.map address

/-- Both addresses come back as they were. -/
def Survives (e : Bytes × Bytes) : Prop := carry q e.1 = e.1 ∧ carry q e.2 = e.2

/-- The system information of a host that is taken into the list. -/
def Accepted (peer : Peer) (info : System) : Prop :=
  checkIfServer peer = true ∧ getSystemInfo q.json peer = .ok info ∧
    info.hostname ≠ [] ∧ info.macAddress ≠ [] ∧ info.ipAddress ≠ []

/-- Whatever the operation writes, survives. -/
def WritesSurvive : Op → ServerManager → Prop
  | .addServer peer ip, _ => ∀ info, Accepted q peer info → Survives q (info.macAddress, ip)
  | .changeServerOptions peer index ip, m =>
    index ≤ m.servers.length → ∀ info, Accepted q peer info → Survives q (info.macAddress, ip)
  | .removeServer index, m =>
    index < m.servers.length → ∀ e ∈ m.servers.eraseIdx index, Survives q (address e)
  | .rename _ _, _ => True

theorem persisted_iff_entries (m : ServerManager) :
    Persisted q m ↔ m.settings.size = m.servers.length ∧
      ∀ a e, m.servers[a]? = some e → address (readEntry q m.settings a) = address e := by
  constructor
  · intro h
    have hlen : m.settings.size = m.servers.length := by
      simpa [Persisted, readServers] using congrArg List.length h
    refine ⟨hlen, fun a e ha => ?_⟩
    have hlt : a < m.settings.size := by
      rw [hlen]
      exact (List.getElem?_eq_some_iff.mp ha).1
    have hget := congrArg (·[a]?) h
    simpa [readServers, ha, hlt] using hget
  · intro ⟨hlen, h⟩
    apply List.ext_getElem?
    intro a
    by_cases ha : a < m.servers.length
    · have hget : m.servers[a]? = some m.servers[a] := List.getElem?_eq_getElem ha
      have := h a _ hget
      simp [readServers, hlen, ha, this]
    · simp [readServers, hlen, ha]

theorem address_written (e : Entry) (settings : Settings) (a : ℕ)
    (h : settings.entries a = some e) :
    address (readEntry q settings a) = address e ↔ Survives q (address e) := by
  rw [readEntry, h]
  exact Prod.mk.injEq _ _ _ _ ▸ Iff.rfl

theorem put_getElem {α : Type} (servers : List α) (index : ℕ) (e : α)
    (hi : index ≤ servers.length) (a : ℕ) :
    (if index = servers.length then servers++[e] else servers.set index e)[a]? =
      if a = index then some e else servers[a]? := by
  by_cases hend : index = servers.length
  · rw [if_pos hend, List.getElem?_append, hend]
    by_cases ha : a = servers.length
    · simp [ha]
    · by_cases hlt : a < servers.length
      · rw [if_pos hlt, if_neg ha]
      · rw [if_neg hlt, if_neg ha, List.getElem?_eq_none (by simp; omega),
          List.getElem?_eq_none (by omega)]
  · rw [if_neg hend, List.getElem?_set]
    by_cases ha : a = index
    · rw [if_pos ha.symm, if_pos ha, if_pos (by omega)]
    · rw [if_neg (Ne.symm ha), if_neg ha]

theorem readEntry_write (settings : Settings) (size index : ℕ) (e : Entry) (a : ℕ)
    (ha : a ≠ index) : readEntry q (settings.write size index e) a = readEntry q settings a := by
  have hsame : (settings.write size index e).entries a = settings.entries a := if_neg ha
  rw [readEntry, readEntry, hsame]

/-- One entry written in its place keeps the list exactly if it survives. -/
theorem setServer_persisted (index : ℕ) (e : Entry) (m : ServerManager) (hm : Persisted q m)
    (hi : index ≤ m.servers.length) :
    ∃ after, setServer m index e = .ok after ∧ (Persisted q after ↔ Survives q (address e)) := by
  obtain ⟨-, hall⟩ := (persisted_iff_entries q m).mp hm
  have hput := put_getElem m.servers index e hi
  generalize hnew : (if index = m.servers.length then m.servers++[e]
    else m.servers.set index e) = servers at hput
  have hset : setServer m index e =
      .ok ⟨servers, m.settings.write servers.length index e⟩ := by
    rw [setServer, if_pos hi, hnew]
  have hwritten : (m.settings.write servers.length index e).entries index = some e := if_pos rfl
  refine ⟨_, hset, ?_⟩
  rw [persisted_iff_entries, ← address_written q e _ index hwritten]
  constructor
  · intro h
    exact h.2 index e ((hput index).trans (if_pos rfl))
  · intro hs
    refine ⟨rfl, fun a e' ha => ?_⟩
    rw [hput] at ha
    by_cases hai : a = index
    · subst hai
      rw [if_pos rfl] at ha
      cases ha
      exact hs
    · rw [if_neg hai] at ha
      rw [readEntry_write q _ _ _ _ a hai]
      exact hall a e' ha

theorem accepted_cases (peer : Peer) (index : ℕ) (ip : Bytes) (m : ServerManager) :
    (∃ info, Accepted q peer info ∧ changeServerOptions q.json peer index ip m =
      setServer m index ⟨info.hostname, info.macAddress, ip⟩) ∨
    ((∀ info, ¬ Accepted q peer info) ∧
      ((changeServerOptions q.json peer index ip m = .ok m) ∨
        ∃ e, changeServerOptions q.json peer index ip m = .error e)) := by
  unfold changeServerOptions
  by_cases hc : checkIfServer peer = true
  · rw [if_pos hc]
    cases hs : getSystemInfo q.json peer with
    | error e =>
      refine .inr ⟨fun info h => ?_, .inr ⟨_, rfl⟩⟩
      rw [Accepted, hs] at h
      cases h.2.1
    | ok info =>
      dsimp only
      by_cases hempty : info.hostname = [] ∨ info.macAddress = [] ∨ info.ipAddress = []
      · rw [if_pos hempty]
        refine .inr ⟨fun other h => ?_, .inl rfl⟩
        obtain ⟨-, ho, h1, h2, h3⟩ := h
        obtain rfl : info = other := Except.ok.inj (hs.symm.trans ho)
        rcases hempty with h | h | h
        · exact h1 h
        · exact h2 h
        · exact h3 h
      · rw [if_neg hempty]
        rw [not_or, not_or] at hempty
        exact .inl ⟨info, ⟨hc, hs, hempty.1, hempty.2.1, hempty.2.2⟩, rfl⟩
  · rw [if_neg hc]
    exact .inr ⟨fun info h => hc h.1, .inl rfl⟩

theorem accepted_unique (peer : Peer) (info other : System) (h : Accepted q peer info)
    (h' : Accepted q peer other) : info = other :=
  Except.ok.inj (h.2.1.symm.trans h'.2.1)

theorem changeServerOptions_persisted (peer : Peer) (index : ℕ) (ip : Bytes) (m : ServerManager)
    (hm : Persisted q m) :
    (index ≤ m.servers.length → ∀ info, Accepted q peer info → Survives q (info.macAddress, ip)) ↔
      ∀ after, changeServerOptions q.json peer index ip m = .ok after → Persisted q after := by
  obtain ⟨info, ha, hset⟩ | ⟨hnone, hsame | ⟨e, herr⟩⟩ := accepted_cases q peer index ip m
  · rw [hset]
    by_cases hi : index ≤ m.servers.length
    · obtain ⟨after, hok, hiff⟩ := setServer_persisted q index
        ⟨info.hostname, info.macAddress, ip⟩ m hm hi
      rw [hok]
      constructor
      · intro h after' he
        cases he
        exact hiff.mpr (h hi info ha)
      · intro h _ other ho
        obtain rfl := accepted_unique q peer info other ha ho
        exact hiff.mp (h after rfl)
    · have herr : setServer m index ⟨info.hostname, info.macAddress, ip⟩ =
          .error (.undefined .pastEnd) := if_neg hi
      rw [herr]
      exact iff_of_true (fun h => absurd h hi) fun _ he => by cases he
  · rw [hsame]
    exact iff_of_true (fun _ info ha => absurd ha (hnone info)) fun _ he => by cases he; exact hm
  · rw [herr]
    exact iff_of_true (fun _ info ha => absurd ha (hnone info)) fun _ he => by cases he

/-- All entries written in their places keep the list exactly if all survive. -/
theorem removeServer_persisted (index : ℕ) (m : ServerManager) :
    (index < m.servers.length → ∀ e ∈ m.servers.eraseIdx index, Survives q (address e)) ↔
      ∀ after, RemoveServer index m = .ok after → Persisted q after := by
  unfold RemoveServer
  by_cases hi : index < m.servers.length
  · rw [if_pos hi]
    have hiff : Persisted q ⟨m.servers.eraseIdx index,
          writeAll m.settings (m.servers.eraseIdx index)⟩ ↔
        ∀ e ∈ m.servers.eraseIdx index, Survives q (address e) := by
      generalize m.servers.eraseIdx index = servers
      have hwritten : ∀ a e, servers[a]? = some e →
          (writeAll m.settings servers).entries a = some e := by
        intro a e ha
        simp only [writeAll, ha]
      rw [persisted_iff_entries]
      constructor
      · intro h e he
        obtain ⟨a, ha⟩ := List.mem_iff_getElem?.mp he
        exact (address_written q e _ a (hwritten a e ha)).mp (h.2 a e ha)
      · intro h
        refine ⟨rfl, fun a e ha => ?_⟩
        exact (address_written q e _ a (hwritten a e ha)).mpr (h e (List.mem_of_getElem? ha))
    constructor
    · intro h after he
      cases he
      exact hiff.mpr (h hi)
    · intro h _
      exact hiff.mp (h _ rfl)
  · rw [if_neg hi]
    exact iff_of_true (fun h => absurd h hi) fun _ he => by cases he

theorem rename_persisted (index : ℕ) (hostname : Bytes) (m : ServerManager)
    (hm : Persisted q m) : Persisted q (rename index hostname m) := by
  have hsame : (rename index hostname m).servers.map address = m.servers.map address := by
    apply List.ext_getElem?
    intro a
    rw [rename, List.getElem?_map, List.getElem?_map, List.getElem?_modify]
    cases m.servers[a]? with
    | none => rfl
    | some e => by_cases ha : index = a <;> simp [ha, address]
  rw [Persisted, hsame]
  exact hm

theorem step_persisted (op : Op) (m : ServerManager) (hm : Persisted q m) :
    WritesSurvive q op m ↔ ∀ after, step q op m = .ok after → Persisted q after := by
  cases op with
  | addServer peer ip =>
    rw [step, AddServer, ← changeServerOptions_persisted q peer _ ip m hm]
    exact ⟨fun h _ => h, fun h => h le_rfl⟩
  | changeServerOptions peer index ip => exact changeServerOptions_persisted q peer index ip m hm
  | removeServer index => exact removeServer_persisted q index m
  | rename index hostname =>
    exact iff_of_true trivial fun _ he => by cases he; exact rename_persisted q index hostname m hm

/-- From a `Reload` on, the settings hold the addresses of the servers in
memory exactly as long as every address that is written survives. -/
theorem servers_persisted_iff (settings : Settings) (ops : List Op) :
    Always (step q) (Persisted q) ops (Reload q settings) ↔
      Meets (step q) (WritesSurvive q) ops (Reload q settings) :=
  always_iff_meets (step q) (Persisted q) (fun _ => True) (WritesSurvive q)
    (fun _ _ _ _ _ => trivial) (fun op m _ hm => step_persisted q op m hm) ops
    (Reload q settings) trivial rfl

def split : System :=
  { hostname := bytes "home", macAddress := 48::0::bytes "0", ipAddress := bytes "192.168.0.2" }

/-- A host outside this repository that answers the system request. -/
def splitPeer : Peer where
  connects := true
  exchange req := some { status := if req.method = .head then 302 else 200 }

def splitSetting : Setting := ⟨⟨fun _ => .ok (System.toJson split), fun _ => .ok []⟩, id,
  fun _ => ⟨[], [], []⟩⟩

/-- A MAC address with a NUL is cut when it is read back. -/
theorem nul_not_persisted :
    ¬ Always (step splitSetting) (Persisted splitSetting)
      [.addServer splitPeer (bytes "192.168.0.2")] (Reload splitSetting ⟨0, fun _ => none⟩) := by
  intro h
  have hinfo : getSystemInfo splitSetting.json splitPeer = .ok split := rfl
  have hok : step splitSetting (.addServer splitPeer (bytes "192.168.0.2"))
      (Reload splitSetting ⟨0, fun _ => none⟩) =
      setServer ⟨[], ⟨0, fun _ => none⟩⟩ 0
        ⟨split.hostname, split.macAddress, bytes "192.168.0.2"⟩ := by
    rw [step, AddServer, changeServerOptions, hinfo]
    rfl
  have hread : Persisted splitSetting _ := h.2 _ hok
  exact absurd hread (by rw [Persisted]; decide)

end Bakaneko.ServerSettings
