import Bakaneko.ServerSettings

/-!
# The objects in the list of servers

The list holds shared pointers, so a server is an object with an identity of
its own. Where it is put into the list it is connected to the model of the
list, if there is one, by a function that remembers the row. What happens to
the entries is what happens to the list of values.
-/

set_option autoImplicit false

namespace Bakaneko.ServerObjects
open Bakaneko.Native Bakaneko.Messages Bakaneko.ServerList Fallible

/-- A `Server` with the rows its `changed_state` updates, one for each connection. -/
structure Server where
  id : ℕ
  entry : Entry
  rows : List ℕ
  deriving DecidableEq

/-- The list, whether it has a model, and the next identity. -/
structure Manager where
  servers : List Server
  model : Bool
  next : ℕ
  deriving DecidableEq

def entries (m : Manager) : List Entry := m.servers.map Server.entry

def GetIndex (id : ℕ) (m : Manager) : Option ℕ := m.servers.findIdx? fun s => s.id = id

def connect (model : Bool) (row : ℕ) (s : Server) : Server :=
  if model then { s with rows := s.rows++[row] } else s

/-- Where no text parses, no host is taken into the list. -/
def noJson : Nlohmann := ⟨fun _ => .error .json, fun _ => .error .json⟩

/-- What the contacted host is taken into the list as. -/
def contact (json : Nlohmann) (peer : Peer) (ip : Bytes) : Except Failure (Option Entry) :=
  if checkIfServer peer then match getSystemInfo json peer with
    | .error e => .error (.exception e)
    | .ok info =>
      if info.hostname = [] ∨ info.macAddress = [] ∨ info.ipAddress = [] then .ok none
      else .ok (some ⟨info.hostname, info.macAddress, ip⟩)
  else .ok none

def put (index : ℕ) (e : Entry) (m : Manager) : Except Failure Manager :=
  if index ≤ m.servers.length then
    let temp := connect m.model index ⟨m.next, e, []⟩
    .ok { m with
      servers := if index = m.servers.length then m.servers++[temp] else m.servers.set index temp
      next := m.next+1 }
  else .error (.undefined .pastEnd)

def changeServerOptions (json : Nlohmann) (peer : Peer) (index : ℕ) (ip : Bytes) (m : Manager) :
    Except Failure Manager :=
  match contact json peer ip with
  | .error e => .error e
  | .ok none => .ok m
  | .ok (some e) => put index e m

def AddServer (json : Nlohmann) (peer : Peer) (ip : Bytes) (m : Manager) : Except Failure Manager :=
  changeServerOptions json peer m.servers.length ip m

def RemoveServer (index : ℕ) (m : Manager) : Except Failure Manager :=
  if index < m.servers.length then .ok { m with servers := m.servers.eraseIdx index }
  else .error (.undefined .pastEnd)

/-- `setModel` connects every server that is in the list. -/
def setModel (m : Manager) : Manager :=
  { m with model := true, servers := m.servers.mapIdx fun a s => connect true a s }

/-- `Reload` with the entries it reads. -/
def Reload (es : List Entry) (m : Manager) : Manager :=
  { m with
    servers := es.mapIdx fun a e => connect m.model a ⟨m.next+a, e, []⟩
    next := m.next+es.length }

def empty : Manager := ⟨[], false, 0⟩

theorem connect_entry (model : Bool) (row : ℕ) (s : Server) :
    (connect model row s).entry = s.entry := by
  unfold connect
  split <;> rfl

theorem connect_id (model : Bool) (row : ℕ) (s : Server) : (connect model row s).id = s.id := by
  unfold connect
  split <;> rfl

theorem contact_eq (json : Nlohmann) (peer : Peer) (index : ℕ) (ip : Bytes)
    (manager : ServerManager) :
    ServerList.changeServerOptions json peer index ip manager =
      match contact json peer ip with
      | .error e => .error e
      | .ok none => .ok manager
      | .ok (some e) => setServer manager index e := by
  unfold ServerList.changeServerOptions contact
  by_cases hc : checkIfServer peer = true
  · simp only [if_pos hc]
    cases getSystemInfo json peer with
    | error e => rfl
    | ok info =>
      by_cases he : info.hostname = [] ∨ info.macAddress = [] ∨ info.ipAddress = []
      · simp only [if_pos he]
      · simp only [if_neg he]
  · simp only [if_neg hc]

/-- The entries change as the list of values does. -/
theorem put_entries (index : ℕ) (e : Entry) (m : Manager) (settings : Settings) :
    (put index e m).map entries =
      (setServer ⟨entries m, settings⟩ index e).map ServerManager.servers := by
  have hlen : (entries m).length = m.servers.length := List.length_map _
  unfold put setServer
  dsimp only
  rw [hlen]
  by_cases hi : index ≤ m.servers.length
  · rw [if_pos hi, if_pos hi]
    by_cases hend : index = m.servers.length
    · simp only [Except.map, entries, hend, if_true, List.map_append, List.map_singleton,
        connect_entry]
    · simp only [Except.map, entries, hend, if_false, List.map_set, connect_entry]
  · rw [if_neg hi, if_neg hi]
    rfl

theorem changeServerOptions_entries (json : Nlohmann) (peer : Peer) (index : ℕ) (ip : Bytes)
    (m : Manager) (settings : Settings) :
    (changeServerOptions json peer index ip m).map entries =
      (ServerList.changeServerOptions json peer index ip ⟨entries m, settings⟩).map
        ServerManager.servers := by
  rw [contact_eq, changeServerOptions]
  cases contact json peer ip with
  | error e => rfl
  | ok answer =>
    cases answer with
    | none => rfl
    | some e => exact put_entries index e m settings

theorem removeServer_entries (index : ℕ) (m : Manager) (settings : Settings) :
    (RemoveServer index m).map entries =
      (ServerSettings.RemoveServer index ⟨entries m, settings⟩).map ServerManager.servers := by
  have hlen : (entries m).length = m.servers.length := List.length_map _
  unfold RemoveServer ServerSettings.RemoveServer
  dsimp only
  rw [hlen]
  by_cases hi : index < m.servers.length
  · rw [if_pos hi, if_pos hi]
    simp only [Except.map, entries, List.eraseIdx_map]
  · rw [if_neg hi, if_neg hi]
    rfl

theorem put_getElem (index : ℕ) (e : Entry) (m after : Manager)
    (h : put index e m = .ok after) :
    after.model = m.model ∧ ∀ i : ℕ, after.servers[i]? =
      if i = index then some (connect m.model index ⟨m.next, e, []⟩) else m.servers[i]? := by
  unfold put at h
  split at h
  case isFalse => cases h
  case isTrue hi =>
    cases h
    exact ⟨rfl, ServerSettings.put_getElem m.servers index _ hi⟩

theorem changeServerOptions_cases (json : Nlohmann) (peer : Peer) (index : ℕ) (ip : Bytes)
    (m after : Manager) (h : changeServerOptions json peer index ip m = .ok after) :
    after = m ∨ ∃ e, put index e m = .ok after := by
  unfold changeServerOptions at h
  split at h
  · cases h
  · exact .inl (Except.ok.inj h).symm
  case _ e _ => exact .inr ⟨e, h⟩

/-- The objects of the list are different ones, and none is yet to come. -/
structure Distinct (m : Manager) : Prop where
  nodup : (m.servers.map Server.id).Nodup
  old : ∀ s ∈ m.servers, s.id < m.next

theorem getIndex_at (m : Manager) (h : Distinct m) (i : ℕ) (s : Server)
    (hs : m.servers[i]? = some s) : GetIndex s.id m = some i := by
  obtain ⟨hi, rfl⟩ := List.getElem?_eq_some_iff.mp hs
  rw [GetIndex, List.findIdx?_eq_some_iff_getElem]
  refine ⟨hi, by simp, fun j hj => ?_⟩
  have hlt : j < m.servers.length := hj.trans hi
  have hne : m.servers[j].id ≠ m.servers[i].id := by
    intro he
    have hsame : (m.servers.map Server.id)[j]? = (m.servers.map Server.id)[i]? := by
      rw [List.getElem?_map, List.getElem?_map, List.getElem?_eq_getElem hlt,
        List.getElem?_eq_getElem hi]
      exact congrArg some he
    exact absurd ((List.getElem?_inj (by simpa using hlt) h.nodup).mp hsame) hj.ne
  simpa using hne

theorem place_of_id (m : Manager) (h : Distinct m) (i j : ℕ) (s t : Server)
    (hs : m.servers[i]? = some s) (ht : m.servers[j]? = some t) (hid : s.id = t.id) : i = j := by
  have hi := getIndex_at m h i s hs
  rw [hid, getIndex_at m h j t ht] at hi
  exact (Option.some.inj hi).symm

theorem put_distinct (index : ℕ) (e : Entry) (m after : Manager) (h : Distinct m)
    (hput : put index e m = .ok after) : Distinct after := by
  have hfresh : m.next ∉ m.servers.map Server.id := by
    intro hm
    obtain ⟨s, hs, he⟩ := List.mem_map.mp hm
    have := h.old s hs
    omega
  unfold put at hput
  split at hput <;> cases hput
  generalize htemp : connect m.model index ⟨m.next, e, []⟩ = temp
  have hid : temp.id = m.next := by rw [← htemp, connect_id]
  constructor
  · dsimp only
    split
    · rw [List.map_append, List.map_singleton, hid]
      exact List.nodup_append_comm.mp (List.nodup_cons.mpr ⟨hfresh, h.nodup⟩)
    · rw [List.map_set, hid]
      exact h.nodup.set hfresh
  · dsimp only
    intro s hs
    have hcases : s ∈ m.servers ∨ s = temp := by
      split at hs
      · simpa using hs
      · exact List.mem_or_eq_of_mem_set hs
    rcases hcases with hold | rfl
    · exact Nat.lt_succ_of_lt (h.old s hold)
    · rw [hid]
      exact Nat.lt_succ_self _

theorem removeServer_ok (index : ℕ) (m after : Manager) (h : RemoveServer index m = .ok after) :
    index < m.servers.length ∧ after = { m with servers := m.servers.eraseIdx index } := by
  unfold RemoveServer at h
  split at h <;> cases h
  exact ⟨‹_›, rfl⟩

theorem removeServer_distinct (index : ℕ) (m after : Manager) (h : Distinct m)
    (hr : RemoveServer index m = .ok after) : Distinct after := by
  obtain ⟨-, rfl⟩ := removeServer_ok index m after hr
  constructor
  · exact h.nodup.sublist ((List.eraseIdx_sublist _ _).map _)
  · intro s hs
    exact h.old s (List.mem_of_mem_eraseIdx hs)

theorem setModel_distinct (m : Manager) (h : Distinct m) : Distinct (setModel m) := by
  have hids : (setModel m).servers.map Server.id = m.servers.map Server.id := by
    apply List.ext_getElem?
    intro i
    rw [setModel, List.getElem?_map, List.getElem?_map, List.getElem?_mapIdx]
    cases m.servers[i]? with
    | none => rfl
    | some s => exact congrArg some (connect_id true i s)
  refine ⟨hids ▸ h.nodup, fun s hs => ?_⟩
  obtain ⟨t, ht, he⟩ := List.mem_map.mp (hids ▸ List.mem_map_of_mem hs)
  exact he ▸ h.old t ht

theorem reload_distinct (es : List Entry) (m : Manager) : Distinct (Reload es m) := by
  have hids : (Reload es m).servers.map Server.id = (List.range es.length).map (m.next+·) := by
    apply List.ext_getElem?
    intro i
    rw [Reload, List.getElem?_map, List.getElem?_mapIdx, List.getElem?_map]
    by_cases hi : i < es.length
    · simp [hi, connect_id]
    · simp [hi]
  constructor
  · rw [hids]
    exact List.nodup_range.map fun _ _ he => Nat.add_left_cancel he
  · intro s hs
    obtain ⟨i, hi, he⟩ := List.mem_map.mp (hids ▸ List.mem_map_of_mem hs)
    rw [← he, Reload]
    exact Nat.add_lt_add_left (List.mem_range.mp hi) _

end Bakaneko.ServerObjects
