import Bakaneko.ServerObjects

/-!
# Which row a change of state updates

A server is connected with the row it has at that moment, and the row is
never looked up again. Removing a server moves those behind it without their
connections, and another `setModel` adds a second connection to each.
-/

set_option autoImplicit false

namespace Bakaneko.StateSignals
open Bakaneko.Native Bakaneko.Messages Bakaneko.ServerObjects PartialRun
open Bakaneko.ServerList (Entry Peer)

inductive Op where
  | reload (es : List Entry)
  | setModel
  | addServer (peer : Peer) (ip : Bytes)
  | changeServerOptions (peer : Peer) (index : ℕ) (ip : Bytes)
  | removeServer (index : ℕ)

def step (json : Nlohmann) : Op → Manager → Except Failure Manager
  | .reload es, m => .ok (Reload es m)
  | .setModel, m => .ok (setModel m)
  | .addServer peer ip, m => AddServer json peer ip m
  | .changeServerOptions peer index ip, m => changeServerOptions json peer index ip m
  | .removeServer index, m => RemoveServer index m

/-- The rows the model emits `dataChanged` for when the server's state changes. -/
def dataChanged (m : Manager) (s : Server) : List ℕ := if m.model then s.rows else []

/-- Each server of the list updates the row it has, once, and no other row. -/
def Updates (m : Manager) : Prop :=
  m.model = true → ∀ s ∈ m.servers, ∃ row, GetIndex s.id m = some row ∧ dataChanged m s = [row]

/-- With a model in place only the last server is removed, and no other model
is set while there are servers. -/
def StaysInPlace : Op → Manager → Prop
  | .setModel, m => m.model = true → m.servers = []
  | .removeServer index, m =>
    m.model = true → index < m.servers.length → index+1 = m.servers.length
  | _, _ => True

/-- No connection is older than the model. -/
structure Connected (m : Manager) : Prop extends Distinct m where
  none : m.model = false → ∀ s ∈ m.servers, s.rows = []

theorem updates_iff (m : Manager) (h : Distinct m) :
    Updates m ↔
      (m.model = true → ∀ (i : ℕ) (s : Server), m.servers[i]? = some s → s.rows = [i]) := by
  apply imp_congr_right
  intro hm
  constructor
  · intro hall i s hs
    obtain ⟨row, hrow, hrows⟩ := hall s (List.mem_of_getElem? hs)
    rw [getIndex_at m h i s hs, Option.some.injEq] at hrow
    rw [dataChanged, if_pos hm] at hrows
    rw [hrows, hrow]
  · intro hall s hs
    obtain ⟨i, hi⟩ := List.mem_iff_getElem?.mp hs
    refine ⟨i, getIndex_at m h i s hi, ?_⟩
    rw [dataChanged, if_pos hm]
    exact hall i s hi

theorem connect_rows (model : Bool) (row : ℕ) (s : Server) :
    (connect model row s).rows = if model then s.rows++[row] else s.rows := by
  unfold connect
  split <;> rfl

theorem put_connected (index : ℕ) (e : Entry) (m after : Manager) (hm : Connected m)
    (h : put index e m = .ok after) : Connected after := by
  obtain ⟨hmodel, hget⟩ := put_getElem index e m after h
  refine ⟨put_distinct index e m after hm.toDistinct h, fun hn s hs => ?_⟩
  rw [hmodel] at hn
  obtain ⟨i, hi⟩ := List.mem_iff_getElem?.mp hs
  rw [hget] at hi
  split at hi
  · rw [← Option.some.inj hi, connect_rows, hn]
    rfl
  · exact hm.none hn s (List.mem_of_getElem? hi)

theorem put_updates (index : ℕ) (e : Entry) (m after : Manager) (hm : Connected m)
    (hu : Updates m) (h : put index e m = .ok after) : Updates after := by
  obtain ⟨hmodel, hget⟩ := put_getElem index e m after h
  rw [updates_iff _ (put_distinct index e m after hm.toDistinct h), hmodel]
  intro ht i s hs
  rw [hget] at hs
  split at hs
  · next hi =>
    rw [← Option.some.inj hs, connect_rows, ht, hi]
    rfl
  · exact (updates_iff m hm.toDistinct).mp hu ht i s hs

theorem setModel_updates (m : Manager) (hm : Connected m) (hu : Updates m) :
    Updates (setModel m) ↔ (m.model = true → m.servers = []) := by
  rw [updates_iff _ (setModel_distinct m hm.toDistinct)]
  have hget : ∀ i, (setModel m).servers[i]? = m.servers[i]?.map (connect true i) :=
    fun i => by rw [setModel, List.getElem?_mapIdx]
  constructor
  · intro h ht
    by_contra hne
    obtain ⟨s, rest, hs⟩ := List.exists_cons_of_ne_nil hne
    have h0 : m.servers[0]? = some s := by rw [hs]; rfl
    have hrows := (updates_iff m hm.toDistinct).mp hu ht 0 s h0
    have hnew := h rfl 0 (connect true 0 s) (by rw [hget, h0]; rfl)
    rw [connect_rows, hrows] at hnew
    cases hnew
  · intro h _ i s hs
    rw [hget] at hs
    obtain ⟨old, hold, rfl⟩ := Option.map_eq_some_iff.mp hs
    rw [connect_rows]
    cases hmodel : m.model with
    | true => rw [h hmodel] at hold; cases hold
    | false => rw [hm.none hmodel old (List.mem_of_getElem? hold)]; rfl

theorem removeServer_updates (index : ℕ) (m : Manager) (hm : Connected m) (hu : Updates m)
    (hi : index < m.servers.length) :
    Updates { m with servers := m.servers.eraseIdx index } ↔
      (m.model = true → index+1 = m.servers.length) := by
  have hr : RemoveServer index m = .ok { m with servers := m.servers.eraseIdx index } := if_pos hi
  rw [updates_iff _ (removeServer_distinct index m _ hm.toDistinct hr)]
  apply imp_congr_right
  intro ht
  have hrows := (updates_iff m hm.toDistinct).mp hu ht
  constructor
  · intro h
    by_contra hlast
    have hnext : m.servers[index+1]? = some m.servers[index+1] :=
      List.getElem?_eq_getElem (by omega)
    have hmoved : (m.servers.eraseIdx index)[index]? = some m.servers[index+1] := by
      rw [List.getElem?_eraseIdx, if_neg (lt_irrefl _), hnext]
    have := (h index _ hmoved).symm.trans (hrows (index+1) _ hnext)
    simp at this
  · intro hlast i s hs
    rw [List.getElem?_eraseIdx] at hs
    split at hs
    · exact hrows i s hs
    · rw [List.getElem?_eq_none (by omega)] at hs
      cases hs

theorem reload_getElem (es : List Entry) (m : Manager) (i : ℕ) (s : Server)
    (hs : (Reload es m).servers[i]? = some s) :
    ∃ e, s = connect m.model i ⟨m.next+i, e, []⟩ := by
  rw [Reload, List.getElem?_mapIdx] at hs
  obtain ⟨e, -, rfl⟩ := Option.map_eq_some_iff.mp hs
  exact ⟨e, rfl⟩

theorem step_connected (json : Nlohmann) (op : Op) (m after : Manager) (hm : Connected m)
    (h : step json op m = .ok after) : Connected after := by
  have hchange : ∀ peer index ip, changeServerOptions json peer index ip m = .ok after →
      Connected after := by
    intro peer index ip hc
    rcases changeServerOptions_cases json peer index ip m after hc with rfl | ⟨e, hput⟩
    · exact hm
    · exact put_connected index e m after hm hput
  cases op with
  | reload es =>
    cases h
    refine ⟨reload_distinct es m, fun hn s hs => ?_⟩
    obtain ⟨i, hi⟩ := List.mem_iff_getElem?.mp hs
    obtain ⟨e, rfl⟩ := reload_getElem es m i s hi
    rw [connect_rows, show m.model = false from hn]
    rfl
  | setModel =>
    cases h
    exact ⟨setModel_distinct m hm.toDistinct, fun hn => by cases hn⟩
  | addServer peer ip => exact hchange peer _ ip h
  | changeServerOptions peer index ip => exact hchange peer index ip h
  | removeServer index =>
    have hd := removeServer_distinct index m after hm.toDistinct h
    obtain ⟨-, rfl⟩ := removeServer_ok index m after h
    exact ⟨hd, fun hn s hs => hm.none hn s (List.mem_of_mem_eraseIdx hs)⟩

theorem step_updates (json : Nlohmann) (op : Op) (m : Manager) (hm : Connected m)
    (hu : Updates m) :
    StaysInPlace op m ↔ ∀ after, step json op m = .ok after → Updates after := by
  have hchange : ∀ peer index ip after, changeServerOptions json peer index ip m = .ok after →
      Updates after := by
    intro peer index ip after hc
    rcases changeServerOptions_cases json peer index ip m after hc with rfl | ⟨e, hput⟩
    · exact hu
    · exact put_updates index e m after hm hu hput
  cases op with
  | reload es =>
    refine iff_of_true trivial fun after h => ?_
    cases h
    rw [updates_iff _ (reload_distinct es m)]
    intro ht i s hs
    obtain ⟨e, rfl⟩ := reload_getElem es m i s hs
    rw [connect_rows, show m.model = true from ht]
    rfl
  | setModel =>
    rw [StaysInPlace, ← setModel_updates m hm hu]
    exact ⟨fun h _ he => Except.ok.inj he ▸ h, fun h => h _ rfl⟩
  | addServer peer ip => exact iff_of_true trivial (hchange peer _ ip)
  | changeServerOptions peer index ip => exact iff_of_true trivial (hchange peer index ip)
  | removeServer index =>
    rw [StaysInPlace, step, RemoveServer]
    by_cases hi : index < m.servers.length
    · rw [if_pos hi]
      have hiff := removeServer_updates index m hm hu hi
      constructor
      · intro h after he
        cases he
        exact hiff.mpr fun ht => h ht hi
      · intro h ht _
        exact hiff.mp (h _ rfl) ht
    · rw [if_neg hi]
      exact iff_of_true (fun _ hlt => absurd hlt hi) fun _ he => by cases he

theorem empty_connected : Connected empty :=
  ⟨⟨List.nodup_nil, fun _ hs => by cases hs⟩, fun _ _ hs => by cases hs⟩

theorem empty_updates : Updates empty := fun h => by cases h

/-- Along a history every change of state updates the row of its server, once,
exactly as long as no server with a connection changes its place and none is
connected twice. -/
theorem rows_updated_iff (json : Nlohmann) (ops : List Op) :
    Always (step json) Updates ops empty ↔ Meets (step json) StaysInPlace ops empty :=
  always_iff_meets (step json) Updates Connected StaysInPlace
    (fun op m after hm h => step_connected json op m after hm h)
    (fun op m hm hu => step_updates json op m hm hu) ops empty empty_connected empty_updates

def shifted : Manager := ⟨[⟨1, ⟨bytes "b", [], []⟩, [1]⟩], true, 2⟩

/-- Two servers are read, the model is set, and the first server is removed. -/
theorem wrong_row_after_removal :
    ¬ Always (step noJson) Updates
      [.reload [⟨bytes "a", [], []⟩, ⟨bytes "b", [], []⟩], .setModel, .removeServer 0] empty := by
  intro h
  have hlast : Updates shifted := ((h.2 _ rfl).2 _ rfl).2 _ rfl
  obtain ⟨row, hrow, hrows⟩ := hlast rfl ⟨1, ⟨bytes "b", [], []⟩, [1]⟩ (by simp [shifted])
  have hplace : 0 = row := Option.some.inj hrow
  have hupdated : 1 = row := List.head_eq_of_cons_eq (show [1] = [row] from hrows)
  omega

end Bakaneko.StateSignals
