import Bakaneko.ServerObjects
import Bakaneko.ServerRound
import Bakaneko.Library.PartialRun

/-!
# Tasks that update the servers

`update_server_info` schedules a task for each server while it holds the lock
of the list. A task runs later and without the lock: it looks up `servers[a]`
for the index it was given, first the buffer of the vector and then the element,
and goes on with a bare pointer to that object, which its requests keep as well.
-/

set_option autoImplicit false

namespace Bakaneko.UpdateTasks
open Bakaneko.Native Bakaneko.Messages Bakaneko.ServerObjects PartialRun
open Bakaneko.ServerList (Entry Peer)
open Bakaneko.ServerRound (Client Replies idle poll code)
open CountingLatch (Idle)

/-- A task captures its index. It was scheduled by the call with this number,
for the object that was there. -/
structure Task where
  index : ℕ
  server : ℕ
  call : ℕ
  deriving DecidableEq, Repr

/-- A task on its way to the element: the buffer it has found is the one the
vector had at this capacity. -/
structure Reading where
  task : Task
  capacity : ℕ
  deriving DecidableEq, Repr

/-- A task on its way into `update_info` of the object it has found. -/
structure Call where
  task : Task
  server : ℕ
  deriving DecidableEq, Repr

structure World where
  manager : Manager
  capacity : ℕ
  rounds : ℕ → Client
  scheduled : ℕ
  pending : List Task
  reading : List Reading
  entered : List Call

/-- What happens outside the lock: a task looks for `servers[a]` and takes it,
`update_info` looks at the latch and begins a round, and the threads of a round
go on. -/
inductive Work where
  | lookUp (task : Task)
  | take (r : Reading)
  | updateInfo (call : Call) (ping : Option ℕ) (replies : Replies)
  | thread (server i : ℕ)

def work : Work → World → Except Failure World
  | .lookUp task, w =>
    if w.pending.any (· = task) then .ok { w with
      pending := w.pending.erase task
      reading := w.reading++[⟨task, w.capacity⟩] }
    else .ok w
  | .take r, w =>
    if w.reading.any (· = r) then
      if r.capacity = w.capacity then match w.manager.servers[r.task.index]? with
        | none => .error (.undefined .pastEnd)
        | some s => .ok { w with
          reading := w.reading.erase r
          entered := w.entered++[⟨r.task, s.id⟩] }
      else .error (.undefined .pastEnd)
    else .ok w
  | .updateInfo call ping replies, w =>
    if w.entered.any (· = call) then .ok { w with
      entered := w.entered.erase call
      rounds := Function.update w.rounds call.server
        (poll ping replies (w.rounds call.server)) }
    else .ok w
  | .thread server i, w => .ok { w with
      rounds := Function.update w.rounds server
        (CountingLatch.step code (w.rounds server) i) }

def updateServerInfo (w : World) : World :=
  { w with
    scheduled := w.scheduled+1
    pending := w.pending++w.manager.servers.mapIdx fun a s => ⟨a, s.id, w.scheduled⟩ }

/-- The list after a change; servers that are new in it have no round yet. A
vector that grows beyond its capacity doubles it, in another buffer. -/
def construct (after : Manager) (w : World) : World :=
  { w with
    manager := after
    capacity := if w.capacity < after.servers.length then max 1 (2*w.capacity) else w.capacity
    rounds := fun id => if id < w.manager.next then w.rounds id
      else match after.servers.find? fun s => s.id = id with
        | none => w.rounds id
        | some s => idle { hostname := s.entry.hostname } }

inductive Event where
  | work (w : Work)
  | updateServerInfo
  | addServer (peer : Peer) (ip : Bytes)
  | removeServer (index : ℕ)
  | changeServerOptions (peer : Peer) (index : ℕ) (ip : Bytes)

def step (json : Nlohmann) : Event → World → Except Failure World
  | .work v, w => work v w
  | .updateServerInfo, w => .ok (updateServerInfo w)
  | .addServer peer ip, w => (AddServer json peer ip w.manager).map fun m => construct m w
  | .removeServer index, w => (RemoveServer index w.manager).map fun m => construct m w
  | .changeServerOptions peer index ip, w =>
    (changeServerOptions json peer index ip w.manager).map fun m => construct m w

/-- Nothing has been read, and the vector has room for this many servers. -/
def reserved (size : ℕ) : World :=
  ⟨ServerObjects.empty, size, fun _ => idle { hostname := [] }, 0, [], [], []⟩

/-- The manager has read its list, for which it reserves as much as it takes. -/
def launched (es : List Entry) : World :=
  construct (Reload es ServerObjects.empty) (reserved es.length)

/-- The tasks that have not taken their element. -/
def World.looking (w : World) : List Task := w.pending++w.reading.map Reading.task

/-- A task or a request that is not over yet refers to the object. -/
def Refers (w : World) (id : ℕ) : Prop :=
  (∃ task ∈ w.looking, task.server = id) ∨ (∃ call ∈ w.entered, call.server = id) ∨
    ¬ Idle (w.rounds id)

/-- Every task finds the object it was scheduled for or has found it, and what
is referred to has not been released, the buffer of the list included. -/
structure InPlace (w : World) : Prop where
  found : ∀ task ∈ w.looking, ∃ s, w.manager.servers[task.index]? = some s ∧ s.id = task.server
  buffer : ∀ r ∈ w.reading, r.capacity = w.capacity
  acted : ∀ call ∈ w.entered, call.server = call.task.server
  held : ∀ id, Refers w id → ∃ s ∈ w.manager.servers, s.id = id

/-- No server is taken from the list while something refers to it, and none is
removed while a task for a later one is looking for it. A full vector does not
grow while a task has found its buffer. -/
def Undisturbed (json : Nlohmann) : Event → World → Prop
  | .addServer peer ip, w => ∀ e, contact json peer ip = .ok (some e) →
    w.manager.servers.length = w.capacity → w.reading = []
  | .removeServer index, w => ∀ s, w.manager.servers[index]? = some s →
    ¬ Refers w s.id ∧ ∀ task ∈ w.looking, task.index ≤ index
  | .changeServerOptions peer index ip, w => ∀ e, contact json peer ip = .ok (some e) →
    (∀ s, w.manager.servers[index]? = some s → ¬ Refers w s.id) ∧
      (index = w.manager.servers.length → index = w.capacity → w.reading = [])
  | _, _ => True

/-- The list fits into its buffer. -/
def Fits (w : World) : Prop := w.manager.servers.length ≤ w.capacity

theorem construct_refers (m : Manager) (w : World) (id : ℕ) (hid : id < w.manager.next) :
    Refers (construct m w) id ↔ Refers w id := by
  simp only [Refers, World.looking, construct, if_pos hid]

/-- What is referred to after a change was referred to before it, or is new. -/
theorem construct_refers_cases (m : Manager) (w : World) (id : ℕ)
    (h : Refers (construct m w) id) : Refers w id ∨ ∃ s ∈ m.servers, s.id = id := by
  by_cases hid : id < w.manager.next
  · exact .inl ((construct_refers m w id hid).mp h)
  · cases hf : m.servers.find? fun s => s.id = id with
    | none =>
      refine .inl ?_
      simpa only [Refers, World.looking, construct, if_neg hid, hf] using h
    | some s =>
      exact .inr ⟨s, List.mem_of_find?_eq_some hf, by simpa using List.find?_some hf⟩

/-- A buffer that was found is still there exactly if the list has not outgrown
it. -/
theorem construct_buffer (m : Manager) (w : World)
    (hbuffer : ∀ r ∈ w.reading, r.capacity = w.capacity) :
    (∀ r ∈ w.reading, r.capacity = (construct m w).capacity) ↔
      (w.capacity < m.servers.length → w.reading = []) := by
  rw [construct]
  dsimp only
  split
  · next hgrown =>
    constructor
    · intro h _
      refine List.eq_nil_iff_forall_not_mem.mpr fun r hr => ?_
      have hold := hbuffer r hr
      have hnew := h r hr
      omega
    · intro h r hr
      rw [h hgrown] at hr
      cases hr
  · next hfits => exact iff_of_true hbuffer fun h => absurd h hfits

/-- A change of the list leaves the tasks what they refer to exactly if the
changed list has it, at the same indices and in the same buffer. -/
theorem construct_inPlace (m : Manager) (w : World) (hd : Distinct w.manager) (hw : InPlace w) :
    InPlace (construct m w) ↔
      (∀ task ∈ w.looking, ∃ s, m.servers[task.index]? = some s ∧ s.id = task.server) ∧
      (w.capacity < m.servers.length → w.reading = []) ∧
      ∀ s ∈ w.manager.servers, Refers w s.id → ∃ t ∈ m.servers, t.id = s.id := by
  rw [← construct_buffer m w hw.buffer]
  constructor
  · intro h
    exact ⟨h.found, h.buffer, fun s hs hr =>
      h.held s.id ((construct_refers m w s.id (hd.old s hs)).mpr hr)⟩
  · rintro ⟨hfound, hbuffer, hheld⟩
    refine ⟨hfound, hbuffer, hw.acted, fun id hr => ?_⟩
    rcases construct_refers_cases m w id hr with hold | hnew
    · obtain ⟨s, hs, rfl⟩ := hw.held id hold
      exact hheld s hs hold
    · exact hnew

theorem refers_of_looking (w : World) (task : Task) (h : task ∈ w.looking) :
    Refers w task.server :=
  .inl ⟨task, h, rfl⟩

/-- Behind a removed server every place is one less. -/
theorem erased_place (m : Manager) (hd : Distinct m) (index i j : ℕ) (s t : Server)
    (hi : (m.servers.eraseIdx index)[i]? = some s) (hj : m.servers[j]? = some t)
    (hid : s.id = t.id) : j ≠ index ∧ (j < index → i = j) ∧ (index < j → i+1 = j) := by
  rw [List.getElem?_eraseIdx] at hi
  split at hi
  · have := place_of_id m hd i j s t hi hj hid
    omega
  · have := place_of_id m hd (i+1) j s t hi hj hid
    omega

theorem removeServer_inPlace (index : ℕ) (w : World) (hd : Distinct w.manager) (hfits : Fits w)
    (hw : InPlace w) (m : Manager) (hm : RemoveServer index w.manager = .ok m) :
    InPlace (construct m w) ↔ ∀ s, w.manager.servers[index]? = some s →
      ¬ Refers w s.id ∧ ∀ task ∈ w.looking, task.index ≤ index := by
  obtain ⟨hi, rfl⟩ := removeServer_ok index w.manager m hm
  rw [construct_inPlace _ w hd hw]
  dsimp only
  constructor
  · rintro ⟨hfound, -, hheld⟩ s hs
    constructor
    · intro hr
      obtain ⟨t, ht, hid⟩ := hheld s (List.mem_of_getElem? hs) hr
      obtain ⟨i, hi⟩ := List.mem_iff_getElem?.mp ht
      exact (erased_place w.manager hd index i index t s hi hs hid).1 rfl
    · intro task ht
      obtain ⟨t, htask, hid⟩ := hw.found task ht
      obtain ⟨u, hu, hid'⟩ := hfound task ht
      have hplace := erased_place w.manager hd index _ _ u t hu htask (hid'.trans hid.symm)
      by_contra hlt
      exact absurd (hplace.2.2 (Nat.lt_of_not_le hlt)) (Nat.succ_ne_self _)
  · intro h
    obtain ⟨hfree, hbefore⟩ := h _ (List.getElem?_eq_getElem hi)
    have hkept : ∀ (j : ℕ) (s : Server), w.manager.servers[j]? = some s → Refers w s.id →
        j ≠ index := by
      rintro j s hj hr rfl
      rw [List.getElem?_eq_getElem hi, Option.some.injEq] at hj
      exact hfree (hj ▸ hr)
    refine ⟨fun task ht => ?_, fun hgrown => ?_, fun s hs hr => ?_⟩
    · obtain ⟨t, htask, hid⟩ := hw.found task ht
      have hne := hkept task.index t htask (hid ▸ refers_of_looking w task ht)
      have hlt := lt_of_le_of_ne (hbefore task ht) hne
      exact ⟨t, by rw [List.getElem?_eraseIdx, if_pos hlt]; exact htask, hid⟩
    · have hless := List.length_eraseIdx_le w.manager.servers index
      unfold Fits at hfits
      omega
    · obtain ⟨j, hj⟩ := List.mem_iff_getElem?.mp hs
      have hne := hkept j s hj hr
      exact ⟨s, List.mem_eraseIdx_iff_getElem?.mpr ⟨j, hne, hj⟩, rfl⟩

theorem put_length (index : ℕ) (e : Entry) (m after : Manager) (h : put index e m = .ok after) :
    index ≤ m.servers.length ∧ after.servers.length =
      if index = m.servers.length then m.servers.length+1 else m.servers.length := by
  unfold put at h
  split at h <;> cases h
  refine ⟨‹_›, ?_⟩
  dsimp only
  split
  · rw [List.length_append, List.length_singleton]
  · rw [List.length_set]

theorem put_inPlace (index : ℕ) (e : Entry) (w : World) (hd : Distinct w.manager) (hfits : Fits w)
    (hw : InPlace w) (m : Manager) (hm : put index e w.manager = .ok m) :
    InPlace (construct m w) ↔ (∀ s, w.manager.servers[index]? = some s → ¬ Refers w s.id) ∧
      (index = w.manager.servers.length → index = w.capacity → w.reading = []) := by
  obtain ⟨-, hget⟩ := put_getElem index e w.manager m hm
  have hgrown : w.capacity < m.servers.length ↔
      index = w.manager.servers.length ∧ index = w.capacity := by
    obtain ⟨hle, hlength⟩ := put_length index e w.manager m hm
    unfold Fits at hfits
    split at hlength <;> omega
  rw [construct_inPlace _ w hd hw, hgrown]
  constructor
  · rintro ⟨-, hbuffer, hheld⟩
    refine ⟨fun s hs hr => ?_, fun hend hfull => hbuffer ⟨hend, hfull⟩⟩
    have hsmem := List.mem_of_getElem? hs
    obtain ⟨t, ht, hid⟩ := hheld s hsmem hr
    obtain ⟨j, hj⟩ := List.mem_iff_getElem?.mp ht
    rw [hget] at hj
    split at hj
    · have hold := hd.old s hsmem
      rw [← hid, ← Option.some.inj hj, connect_id] at hold
      exact lt_irrefl _ hold
    · next hne => exact hne (place_of_id w.manager hd j index t s hj hs hid)
  · rintro ⟨hfree, hbuffer⟩
    refine ⟨fun task ht => ?_, fun h => hbuffer h.1 h.2, fun s hs hr => ?_⟩
    · obtain ⟨t, htask, hid⟩ := hw.found task ht
      have hne : task.index ≠ index := by
        rintro rfl
        exact hfree t htask (hid ▸ refers_of_looking w task ht)
      exact ⟨t, by rw [hget, if_neg hne]; exact htask, hid⟩
    · obtain ⟨j, hj⟩ := List.mem_iff_getElem?.mp hs
      have hne : j ≠ index := by
        rintro rfl
        exact hfree s hj hr
      exact ⟨s, List.mem_iff_getElem?.mpr ⟨j, by rw [hget, if_neg hne]; exact hj⟩, rfl⟩

theorem lookUp_cases (task : Task) (w t : World) (h : work (.lookUp task) w = .ok t) :
    t = w ∨ task ∈ w.pending ∧ t = { w with
      pending := w.pending.erase task
      reading := w.reading++[⟨task, w.capacity⟩] } := by
  rw [work] at h
  split at h <;> cases h
  · next hp => exact .inr ⟨by simpa using hp, rfl⟩
  · exact .inl rfl

theorem take_cases (r : Reading) (w t : World) (h : work (.take r) w = .ok t) :
    t = w ∨ r ∈ w.reading ∧ ∃ s, w.manager.servers[r.task.index]? = some s ∧
      t = { w with
        reading := w.reading.erase r
        entered := w.entered++[⟨r.task, s.id⟩] } := by
  rw [work] at h
  split at h
  · next hr =>
    split at h
    · split at h <;> cases h
      exact .inr ⟨by simpa using hr, _, ‹_›, rfl⟩
    · cases h
  · exact .inl (Except.ok.inj h).symm

theorem updateInfo_cases (call : Call) (ping : Option ℕ) (replies : Replies) (w t : World)
    (h : work (.updateInfo call ping replies) w = .ok t) :
    t = w ∨ call ∈ w.entered ∧ t = { w with
      entered := w.entered.erase call
      rounds := Function.update w.rounds call.server
        (poll ping replies (w.rounds call.server)) } := by
  rw [work] at h
  split at h <;> cases h
  · next hc => exact .inr ⟨by simpa using hc, rfl⟩
  · exact .inl rfl

theorem lookUp_ok (task : Task) (w : World) (h : task ∈ w.pending) :
    work (.lookUp task) w = .ok { w with
      pending := w.pending.erase task
      reading := w.reading++[⟨task, w.capacity⟩] } := by
  rw [work, if_pos (by simpa using h)]

theorem take_ok (r : Reading) (w : World) (s : Server) (h : r ∈ w.reading)
    (hcapacity : r.capacity = w.capacity) (hs : w.manager.servers[r.task.index]? = some s) :
    work (.take r) w = .ok { w with
      reading := w.reading.erase r
      entered := w.entered++[⟨r.task, s.id⟩] } := by
  rw [work, if_pos (by simpa using h), if_pos hcapacity, hs]

theorem updateInfo_ok (call : Call) (ping : Option ℕ) (replies : Replies) (w : World)
    (h : call ∈ w.entered) :
    work (.updateInfo call ping replies) w = .ok { w with
      entered := w.entered.erase call
      rounds := Function.update w.rounds call.server
        (poll ping replies (w.rounds call.server)) } := by
  rw [work, if_pos (by simpa using h)]

theorem work_manager (v : Work) (w t : World) (h : work v w = .ok t) :
    t.manager = w.manager ∧ t.capacity = w.capacity := by
  cases v with
  | lookUp task => obtain rfl | ⟨-, rfl⟩ := lookUp_cases task w t h <;> exact ⟨rfl, rfl⟩
  | take r => obtain rfl | ⟨-, s, -, rfl⟩ := take_cases r w t h <;> exact ⟨rfl, rfl⟩
  | updateInfo call ping replies =>
    obtain rfl | ⟨-, rfl⟩ := updateInfo_cases call ping replies w t h <;> exact ⟨rfl, rfl⟩
  | thread server i => cases h; exact ⟨rfl, rfl⟩

/-- No task begins to look that has not looked before. -/
theorem work_looking (v : Work) (w t : World) (h : work v w = .ok t) :
    ∀ task ∈ t.looking, task ∈ w.looking := by
  cases v with
  | lookUp task =>
    obtain rfl | ⟨hmem, rfl⟩ := lookUp_cases task w t h
    · exact fun _ => id
    · intro other ho
      simp only [World.looking, List.map_append, List.map_singleton, List.mem_append,
        List.mem_singleton] at ho ⊢
      rcases ho with hp | hr | rfl
      · exact .inl (List.mem_of_mem_erase hp)
      · exact .inr hr
      · exact .inl hmem
  | take r =>
    obtain rfl | ⟨-, s, -, rfl⟩ := take_cases r w t h
    · exact fun _ => id
    · intro other ho
      simp only [World.looking, List.mem_append, List.mem_map] at ho ⊢
      exact ho.imp_right fun ⟨q, hq, he⟩ => ⟨q, List.mem_of_mem_erase hq, he⟩
  | updateInfo call ping replies =>
    obtain rfl | ⟨-, rfl⟩ := updateInfo_cases call ping replies w t h <;> exact fun _ => id
  | thread server i =>
    cases h
    exact fun _ => id

/-- A task that takes its element has found the object it was scheduled for. -/
theorem take_found (r : Reading) (w : World) (hw : InPlace w) (hmem : r ∈ w.reading) (s : Server)
    (hs : w.manager.servers[r.task.index]? = some s) :
    r.task ∈ w.looking ∧ s.id = r.task.server := by
  have hlooking : r.task ∈ w.looking :=
    List.mem_append_right _ (List.mem_map_of_mem hmem)
  obtain ⟨found, hfound, hid⟩ := hw.found r.task hlooking
  obtain rfl : s = found := Option.some.inj (hs.symm.trans hfound)
  exact ⟨hlooking, hid⟩

/-- Work goes on with what is there and refers to nothing else. -/
theorem work_refers (v : Work) (w t : World) (hw : InPlace w) (h : work v w = .ok t) (id : ℕ)
    (hr : Refers t id) : Refers w id := by
  rcases hr with ⟨task, ht, rfl⟩ | hrest
  · exact refers_of_looking w task (work_looking v w t h task ht)
  cases v with
  | lookUp task =>
    obtain rfl | ⟨-, rfl⟩ := lookUp_cases task w t h <;> exact .inr hrest
  | take r =>
    obtain rfl | ⟨hmem, s, hs, rfl⟩ := take_cases r w t h
    · exact .inr hrest
    · rcases hrest with ⟨call, hc, rfl⟩ | hlive
      · rcases List.mem_append.mp hc with hold | hnew
        · exact .inr (.inl ⟨call, hold, rfl⟩)
        · obtain ⟨hlooking, hid⟩ := take_found r w hw hmem s hs
          rw [List.mem_singleton.mp hnew]
          exact .inl ⟨r.task, hlooking, hid.symm⟩
      · exact .inr (.inr hlive)
  | updateInfo call ping replies =>
    obtain rfl | ⟨hmem, rfl⟩ := updateInfo_cases call ping replies w t h
    · exact .inr hrest
    · rcases hrest with ⟨other, ho, rfl⟩ | hlive
      · exact .inr (.inl ⟨other, List.mem_of_mem_erase ho, rfl⟩)
      · by_cases hid : id = call.server
        · exact .inr (.inl ⟨call, hmem, hid.symm⟩)
        · dsimp only at hlive
          rw [Function.update_of_ne hid] at hlive
          exact .inr (.inr hlive)
  | thread server i =>
    cases h
    rcases hrest with hc | hlive
    · exact .inr (.inl hc)
    · refine .inr (.inr fun hidle => hlive ?_)
      dsimp only
      by_cases hid : id = server
      · rw [hid] at hidle
        rw [hid, Function.update_self, CountingLatch.step_idle _ _ _ hidle]
        exact hidle
      · rw [Function.update_of_ne hid]
        exact hidle

theorem work_tasks (v : Work) (w t : World) (hw : InPlace w) (h : work v w = .ok t) :
    (∀ r ∈ t.reading, r.capacity = w.capacity) ∧
      ∀ call ∈ t.entered, call.server = call.task.server := by
  cases v with
  | lookUp task =>
    obtain rfl | ⟨-, rfl⟩ := lookUp_cases task w t h
    · exact ⟨hw.buffer, hw.acted⟩
    · refine ⟨fun r hr => ?_, hw.acted⟩
      rcases List.mem_append.mp hr with hold | hnew
      · exact hw.buffer r hold
      · rw [List.mem_singleton.mp hnew]
  | take r =>
    obtain rfl | ⟨hmem, s, hs, rfl⟩ := take_cases r w t h
    · exact ⟨hw.buffer, hw.acted⟩
    · refine ⟨fun q hq => hw.buffer q (List.mem_of_mem_erase hq), fun call hc => ?_⟩
      rcases List.mem_append.mp hc with hold | hnew
      · exact hw.acted call hold
      · rw [List.mem_singleton.mp hnew]
        exact (take_found r w hw hmem s hs).2
  | updateInfo call ping replies =>
    obtain rfl | ⟨-, rfl⟩ := updateInfo_cases call ping replies w t h
    · exact ⟨hw.buffer, hw.acted⟩
    · exact ⟨hw.buffer, fun other ho => hw.acted other (List.mem_of_mem_erase ho)⟩
  | thread server i =>
    cases h
    exact ⟨hw.buffer, hw.acted⟩

theorem work_inPlace (v : Work) (w t : World) (hw : InPlace w) (h : work v w = .ok t) :
    InPlace t := by
  obtain ⟨hm, hcapacity⟩ := work_manager v w t h
  obtain ⟨hbuffer, hacted⟩ := work_tasks v w t hw h
  refine ⟨fun task ht => ?_, hcapacity ▸ hbuffer, hacted, fun id hr => ?_⟩
  · rw [hm]
    exact hw.found task (work_looking v w t h task ht)
  · rw [hm]
    exact hw.held id (work_refers v w t hw h id hr)

theorem updateServerInfo_inPlace (w : World) (hw : InPlace w) : InPlace (updateServerInfo w) := by
  have hnew : ∀ task ∈ (updateServerInfo w).looking, task ∈ w.looking ∨
      ∃ s, w.manager.servers[task.index]? = some s ∧ s.id = task.server := by
    intro task ht
    simp only [World.looking, updateServerInfo, List.mem_append, List.mem_mapIdx] at ht ⊢
    rcases ht with (hold | ⟨a, ha, rfl⟩) | hread
    · exact .inl (.inl hold)
    · exact .inr ⟨_, List.getElem?_eq_getElem ha, rfl⟩
    · exact .inl (.inr hread)
  refine ⟨fun task ht => ?_, hw.buffer, hw.acted, fun id hr => ?_⟩
  · rcases hnew task ht with hold | hfound
    · exact hw.found task hold
    · exact hfound
  · rcases hr with ⟨task, ht, rfl⟩ | hrest
    · rcases hnew task ht with hold | ⟨s, hs, hid⟩
      · exact hw.held _ (refers_of_looking w task hold)
      · exact ⟨s, List.mem_of_getElem? hs, hid⟩
    · exact hw.held id (.inr hrest)

/-- A change that nothing comes of. -/
theorem unchanged_inPlace (w : World) (hd : Distinct w.manager) (hfits : Fits w) (hw : InPlace w) :
    InPlace (construct w.manager w) := by
  rw [construct_inPlace _ w hd hw]
  exact ⟨hw.found, fun hgrown => absurd hfits (Nat.not_le.mpr hgrown), fun s hs _ => ⟨s, hs, rfl⟩⟩

theorem changeServerOptions_inPlace (json : Nlohmann) (peer : Peer) (index : ℕ) (ip : Bytes)
    (w : World) (hd : Distinct w.manager) (hfits : Fits w) (hw : InPlace w) :
    Undisturbed json (.changeServerOptions peer index ip) w ↔
    ∀ t, ((changeServerOptions json peer index ip w.manager).map fun m => construct m w) = .ok t →
      InPlace t := by
  simp only [Undisturbed, changeServerOptions]
  cases contact json peer ip with
  | error e => exact iff_of_true (fun _ h => by cases h) fun _ h => by cases h
  | ok answer =>
    cases answer with
    | none =>
      refine iff_of_true (fun _ h => by cases h) fun t h => ?_
      cases h
      exact unchanged_inPlace w hd hfits hw
    | some e =>
      dsimp only
      cases hm : put index e w.manager with
      | error f =>
        have hi : w.manager.servers.length < index := by
          unfold put at hm
          split at hm
          · cases hm
          · omega
        refine iff_of_true (fun _ _ => ⟨fun s hs => ?_, fun hend => ?_⟩) fun _ h => by cases h
        · rw [List.getElem?_eq_none hi.le] at hs
          cases hs
        · omega
      | ok m =>
        have hput := put_inPlace index e w hd hfits hw m hm
        constructor
        · intro h t ht
          cases ht
          exact hput.mpr (h e rfl)
        · intro h _ _
          exact hput.mp (h _ rfl)

theorem step_inPlace (json : Nlohmann) (event : Event) (w : World)
    (hi : Distinct w.manager ∧ Fits w) (hw : InPlace w) :
    Undisturbed json event w ↔ ∀ t, step json event w = .ok t → InPlace t := by
  obtain ⟨hd, hfits⟩ := hi
  cases event with
  | work v => exact iff_of_true trivial fun t h => work_inPlace v w t hw h
  | updateServerInfo =>
    refine iff_of_true trivial fun t h => ?_
    cases h
    exact updateServerInfo_inPlace w hw
  | addServer peer ip =>
    rw [step, AddServer, ← changeServerOptions_inPlace json peer _ ip w hd hfits hw]
    refine forall_congr' fun e => imp_congr_right fun _ => ?_
    rw [List.getElem?_eq_none le_rfl]
    simp
  | removeServer index =>
    rw [Undisturbed, step]
    cases hm : RemoveServer index w.manager with
    | error e =>
      refine iff_of_true (fun s hs => ?_) fun _ h => by cases h
      unfold RemoveServer at hm
      split at hm
      · cases hm
      · rw [List.getElem?_eq_none (by omega)] at hs
        cases hs
    | ok m =>
      rw [← removeServer_inPlace index w hd hfits hw m hm]
      exact ⟨fun h _ ht => Except.ok.inj ht ▸ h, fun h => h _ rfl⟩
  | changeServerOptions peer index ip =>
    exact changeServerOptions_inPlace json peer index ip w hd hfits hw

/-- A list that is longer by one at most fits again. -/
theorem construct_fits (m : Manager) (w : World) (hfits : Fits w)
    (hlength : m.servers.length ≤ w.manager.servers.length+1) : Fits (construct m w) := by
  unfold Fits construct at *
  dsimp only
  split <;> omega

theorem step_distinct (json : Nlohmann) (event : Event) (w t : World)
    (hi : Distinct w.manager ∧ Fits w) (h : step json event w = .ok t) :
    Distinct t.manager ∧ Fits t := by
  obtain ⟨hd, hfits⟩ := hi
  have hchange : ∀ peer index ip,
      ((changeServerOptions json peer index ip w.manager).map fun m => construct m w) = .ok t →
      Distinct t.manager ∧ Fits t := by
    intro peer index ip h
    obtain ⟨m, hm, rfl⟩ := (Fallible.map_ok _ _ _).mp h
    rcases changeServerOptions_cases json peer index ip w.manager m hm with rfl | ⟨e, hput⟩
    · exact ⟨hd, construct_fits _ w hfits (Nat.le_succ _)⟩
    · obtain ⟨-, hlength⟩ := put_length index e w.manager m hput
      refine ⟨put_distinct index e w.manager m hd hput, construct_fits m w hfits ?_⟩
      split at hlength <;> omega
  cases event with
  | work v =>
    obtain ⟨hm, hcapacity⟩ := work_manager v w t h
    exact ⟨hm ▸ hd, by rw [Fits, hm, hcapacity]; exact hfits⟩
  | updateServerInfo => cases h; exact ⟨hd, hfits⟩
  | addServer peer ip => exact hchange peer _ ip h
  | removeServer index =>
    obtain ⟨m, hm, rfl⟩ := (Fallible.map_ok _ _ _).mp h
    refine ⟨removeServer_distinct index w.manager m hd hm, construct_fits m w hfits ?_⟩
    obtain ⟨-, rfl⟩ := removeServer_ok index w.manager m hm
    exact (List.length_eraseIdx_le _ _).trans (Nat.le_succ _)
  | changeServerOptions peer index ip => exact hchange peer index ip h

theorem launched_inPlace (es : List Entry) : InPlace (launched es) := by
  have hnone : ∀ id, ¬ Refers (reserved es.length) id := by
    rintro id (⟨_, ht, -⟩ | ⟨_, hc, -⟩ | hlive)
    · cases ht
    · cases hc
    · exact hlive fun _ ht => by cases ht
  exact ⟨nofun, nofun, nofun, fun id hr =>
    (construct_refers_cases _ _ id hr).resolve_left (hnone id)⟩

theorem launched_fits (es : List Entry) : Fits (launched es) := by
  simp [Fits, launched, construct, reserved, Reload]

/-- Along every run every task acts on the object it was scheduled for, and
nothing is released that is still referred to, exactly as long as the list is
edited where no task and no request is concerned. -/
theorem tasks_in_place_iff (json : Nlohmann) (es : List Entry) (events : List Event) :
    Always (step json) InPlace events (launched es) ↔
      Meets (step json) (Undisturbed json) events (launched es) :=
  always_iff_meets (step json) InPlace (fun w => Distinct w.manager ∧ Fits w) (Undisturbed json)
    (fun event w t hi h => step_distinct json event w t hi h)
    (fun event w hi hw => step_inPlace json event w hi hw) events (launched es)
    ⟨reload_distinct es ServerObjects.empty, launched_fits es⟩ (launched_inPlace es)

def twoServers : List Entry := [⟨bytes "a", [], []⟩, ⟨bytes "b", [], []⟩]

/-- Both tasks wait, and the first server is removed: the first task finds the
second server, the second nothing. -/
theorem removed_before_tasks :
    ¬ Always (step noJson) InPlace [.updateServerInfo, .removeServer 0] (launched twoServers) ∧
    run (step noJson) [.updateServerInfo, .removeServer 0, .work (.lookUp ⟨1, 1, 0⟩),
      .work (.take ⟨⟨1, 1, 0⟩, 2⟩)] (launched twoServers) = .error (.undefined .pastEnd) := by
  refine ⟨fun h => ?_, rfl⟩
  have hlast := (h.2 _ rfl).2 _ rfl
  obtain ⟨s, hs, hid⟩ := (always_head _ _ _ _ hlast).found ⟨0, 0, 0⟩ (by decide)
  obtain rfl : (⟨1, ⟨bytes "b", [], []⟩, []⟩ : Server) = s := Option.some.inj hs
  cases hid

end Bakaneko.UpdateTasks
