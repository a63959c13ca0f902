import Bakaneko.Library.MoveOnly

/-!
# The connections of the terminals

An `ssh_connection` owns a session and a channel. It can be moved, and what it
owns is closed and freed when it is destroyed. An assignment writes over what
its target owns, and a target that is also the source ends with nothing.
-/

set_option autoImplicit false

namespace Bakaneko.SshConnections
open PartialRun

/-- A pointer is `none` when it is null. -/
structure SshConnection (σ χ : Type) where
  session : Option σ := none
  channel : Option χ := none

/-- What the destructor calls. -/
inductive Libssh (σ χ : Type) where
  | channelClose (channel : χ)
  | channelSendEof (channel : χ)
  | channelFree (channel : χ)
  | disconnect (session : σ)
  | free (session : σ)

/-- The operations of a program on its objects, which are numbered as they are
constructed. -/
inductive Op (σ χ : Type) where
  | construct (session : Option σ) (channel : Option χ)
  | moveConstruct (other : ℕ)
  | moveAssign (self other : ℕ)
  | destruct (self : ℕ)

/-- The objects, with `none` for one that has been destroyed, what constructors
were given, and the calls of destructors. -/
structure World (σ χ : Type) where
  objects : List (Option (SshConnection σ χ)) := []
  handed : List (SshConnection σ χ) := []
  calls : List (Libssh σ χ) := []

variable {σ χ : Type}

def SshConnection.destruct (connection : SshConnection σ χ) : List (Libssh σ χ) :=
  (match connection.channel with
    | some channel => [.channelClose channel, .channelSendEof channel, .channelFree channel]
    | none => [])++
  match connection.session with
    | some session => [.disconnect session, .free session]
    | none => []

def object (w : World σ χ) (i : ℕ) : Except MoveOnly.Fault (SshConnection σ χ) :=
  match w.objects[i]? with
  | some (some connection) => .ok connection
  | _ => .error .dead

def step : Op σ χ → World σ χ → Except MoveOnly.Fault (World σ χ)
  | .construct session channel, w =>
    .ok { w with
      objects := w.objects++[some ⟨session, channel⟩]
      handed := w.handed++[⟨session, channel⟩] }
  | .moveConstruct other, w => do
    let connection ← object w other
    return { w with objects := w.objects.set other (some {})++[some connection] }
  | .moveAssign self other, w => do
    let _ ← object w self
    let connection ← object w other
    -- the source is cleared last, also when it is the target
    return { w with objects := (w.objects.set self (some connection)).set other (some {}) }
  | .destruct self, w => do
    let connection ← object w self
    return { w with objects := w.objects.set self none, calls := w.calls++connection.destruct }

/-- One of the two pointers, and the calls that free one of its kind. -/
structure Kind (σ χ α : Type) where
  held : SshConnection σ χ → Option α
  freed : Libssh σ χ → Option α
  held_empty : held {} = none
  freed_destruct : ∀ connection, connection.destruct.filterMap freed = (held connection).toList

def sessions : Kind σ χ σ where
  held := SshConnection.session
  freed
    | .free session => some session
    | _ => none
  held_empty := rfl
  freed_destruct := by
    rintro ⟨session, channel⟩
    cases session <;> cases channel <;> rfl

def channels : Kind σ χ χ where
  held := SshConnection.channel
  freed
    | .channelFree channel => some channel
    | _ => none
  held_empty := rfl
  freed_destruct := by
    rintro ⟨session, channel⟩
    cases session <;> cases channel <;> rfl

section
variable {α : Type} (k : Kind σ χ α)

/-- What live objects own, once for each owner. -/
def Kind.owned (w : World σ χ) : List α := w.objects.filterMap (·.bind k.held)

def Kind.handed (w : World σ χ) : List α := w.handed.filterMap k.held

def Kind.released (w : World σ χ) : List α := w.calls.filterMap k.freed

/-- Nothing has two owners, and when the objects that are left have been
destroyed, all that constructors were given has been freed, each once. -/
structure Custody (w : World σ χ) : Prop where
  once : (k.owned w).Nodup
  released : ∀ (is : List ℕ) v, run step (is.map .destruct) w = .ok v →
    (∀ o ∈ v.objects, o = none) → (k.released v).Perm (k.handed v)

/-- The same object seen as the owner of one pointer. -/
def Kind.op : Op σ χ → MoveOnly.Op α
  | .construct session channel => .construct (k.held ⟨session, channel⟩)
  | .moveConstruct other => .moveConstruct other
  | .moveAssign self other => .moveAssign self other
  | .destruct self => .destroy self

def Kind.view (w : World σ χ) : MoveOnly.Store α :=
  ⟨w.objects.map (·.map k.held), k.handed w, k.released w⟩

theorem object_view (w : World σ χ) (i : ℕ) :
    (object w i).map k.held = MoveOnly.object (k.view w) i := by
  unfold object MoveOnly.object
  simp only [Kind.view, List.getElem?_map]
  cases w.objects[i]? with
  | none => rfl
  | some o => cases o <;> rfl

/-- Each pointer on its own is a handle that moves. -/
theorem step_view (op : Op σ χ) (w : World σ χ) :
    (step op w).map k.view = MoveOnly.step (k.op op) (k.view w) := by
  cases op with
  | construct session channel =>
    cases hk : k.held ⟨session, channel⟩ <;>
      simp [step, Kind.op, MoveOnly.step, Except.map, Kind.view, Kind.handed, Kind.released, hk]
  | moveConstruct other =>
    rw [step, Kind.op, MoveOnly.step, ← object_view]
    cases object w other with
    | error e => rfl
    | ok connection =>
      simp [bind, Except.bind, Except.map, pure, Except.pure, Kind.view, Kind.handed,
        Kind.released, List.map_set, k.held_empty]
  | moveAssign self other =>
    rw [step, Kind.op, MoveOnly.step, ← object_view, ← object_view]
    cases object w self with
    | error e => rfl
    | ok target =>
      cases object w other with
      | error e => rfl
      | ok connection =>
        simp [bind, Except.bind, Except.map, pure, Except.pure, Kind.view, Kind.handed,
          Kind.released, List.map_set, k.held_empty]
  | destruct self =>
    rw [step, Kind.op, MoveOnly.step, ← object_view]
    cases object w self with
    | error e => rfl
    | ok connection =>
      simp [bind, Except.bind, Except.map, pure, Except.pure, Kind.view, Kind.handed,
        Kind.released, List.map_set, k.freed_destruct]

theorem held_view (w : World σ χ) : MoveOnly.held (k.view w) = k.owned w := by
  rw [MoveOnly.held, Kind.view, List.filterMap_map, Kind.owned]
  congr 1
  funext o
  cases o <;> rfl

theorem destroyed_view (w : World σ χ) :
    MoveOnly.Destroyed (k.view w) ↔ ∀ o ∈ w.objects, o = none := by
  simp [MoveOnly.Destroyed, Kind.view]

theorem destructs_view (is : List ℕ) (w : World σ χ) :
    (run step (is.map .destruct) w).map k.view =
      run MoveOnly.step (is.map .destroy) (k.view w) := by
  have h := run_map step MoveOnly.step k.op k.view (step_view k) (is.map .destruct) w
  rw [List.map_map] at h
  exact h

theorem custody_iff (w : World σ χ) : Custody k w ↔ MoveOnly.Sound (k.view w) := by
  have hbalanced := MoveOnly.balanced_iff_released (k.view w)
  have hreleased : (∀ (is : List ℕ) t, run MoveOnly.step (is.map .destroy) (k.view w) = .ok t →
      MoveOnly.Destroyed t → t.released.Perm t.handed) ↔
      ∀ (is : List ℕ) v, run step (is.map .destruct) w = .ok v →
        (∀ o ∈ v.objects, o = none) → (k.released v).Perm (k.handed v) := by
    refine forall_congr' fun is => ?_
    rw [← destructs_view]
    exact Fallible.map_forall k.view _ _ _ fun v => by rw [destroyed_view]; rfl
  constructor
  · exact fun h => ⟨held_view k w ▸ h.once, hbalanced.mpr (hreleased.mpr h.released)⟩
  · exact fun h => ⟨held_view k w ▸ h.once, hreleased.mp (hbalanced.mp h.balanced)⟩

theorem custody_step (op : Op σ χ) (w : World σ χ) (h : Custody k w) :
    MoveOnly.Fits (k.op op) (k.view w) ↔ ∀ u, step op w = .ok u → Custody k u := by
  rw [MoveOnly.fits_iff _ _ ((custody_iff k w).mp h), ← step_view]
  exact Fallible.map_forall k.view _ _ _ fun u => (custody_iff k u).symm

end

/-- A constructor gets a session and a channel that no live object owns, and the
target of an assignment owns nothing. -/
def Fits : Op σ χ → World σ χ → Prop
  | .construct session channel, w =>
    (∀ s ∈ session, s ∉ sessions.owned w) ∧ ∀ c ∈ channel, c ∉ channels.owned w
  | .moveAssign self other, w => ∀ target connection,
    object w self = .ok target → object w other = .ok connection → target = {}
  | _, _ => True

/-- All through a program no session and no channel has two owners, and when
the objects are destroyed each has been freed once for every time it was
given to a constructor. -/
def Owned (ops : List (Op σ χ)) : Prop :=
  Always step (fun w => Custody sessions w ∧ Custody channels w) ops {}

theorem empty_iff (connection : SshConnection σ χ) :
    connection = {} ↔ connection.session = none ∧ connection.channel = none := by
  obtain ⟨session, channel⟩ := connection
  simp

theorem lost_assign {α : Type} (k : Kind σ χ α) (self other : ℕ) (w : World σ χ) :
    MoveOnly.lost (k.op (.moveAssign self other)) (k.view w) = [] ↔
      ∀ target connection, object w self = .ok target → object w other = .ok connection →
        k.held target = none := by
  rw [Kind.op, MoveOnly.lost, ← object_view, ← object_view]
  cases object w self with
  | error e => simp [Except.map]
  | ok target =>
    cases object w other with
    | error e => simp [Except.map]
    | ok connection => simp [Except.map]

theorem fits_iff (op : Op σ χ) (w : World σ χ) : Fits op w ↔
    MoveOnly.Fits (sessions.op op) (sessions.view w) ∧
      MoveOnly.Fits (channels.op op) (channels.view w) := by
  cases op with
  | construct session channel =>
    simp [Fits, MoveOnly.Fits, Kind.op, MoveOnly.given, MoveOnly.lost, held_view, sessions, channels]
  | moveAssign self other =>
    rw [MoveOnly.Fits, MoveOnly.Fits, lost_assign, lost_assign]
    constructor
    · intro h
      have hparts := fun target connection ht hc => (empty_iff target).mp (h target connection ht hc)
      exact ⟨⟨fun _ hx => absurd hx List.not_mem_nil, fun target connection ht hc =>
        (hparts target connection ht hc).1⟩, fun _ hx => absurd hx List.not_mem_nil,
        fun target connection ht hc => (hparts target connection ht hc).2⟩
    · rintro ⟨⟨-, hsession⟩, -, hchannel⟩ target connection ht hc
      exact (empty_iff target).mpr
        ⟨hsession target connection ht hc, hchannel target connection ht hc⟩
  | _ => simp [Fits, MoveOnly.Fits, Kind.op, MoveOnly.given, MoveOnly.lost]

theorem fits_step (op : Op σ χ) (w : World σ χ) (h : Custody sessions w ∧ Custody channels w) :
    Fits op w ↔ ∀ u, step op w = .ok u → Custody sessions u ∧ Custody channels u := by
  rw [fits_iff, custody_step sessions op w h.1, custody_step channels op w h.2]
  exact ⟨fun ⟨hs, hc⟩ u hu => ⟨hs u hu, hc u hu⟩,
    fun hu => ⟨fun u h => (hu u h).1, fun u h => (hu u h).2⟩⟩

theorem custody_empty {α : Type} (k : Kind σ χ α) : Custody k {} :=
  (custody_iff k {}).mpr MoveOnly.sound_empty

/-- Ownership is kept exactly by the programs that give constructors only what no
live object owns and never assign to an object that owns something, be it the
source itself. -/
theorem owned_iff (ops : List (Op σ χ)) : Owned ops ↔ Meets step Fits ops {} :=
  always_iff_meets step _ (fun _ => True) Fits (fun _ _ _ _ _ => trivial)
    (fun op w _ h => fits_step op w h) ops {} trivial ⟨custody_empty sessions, custody_empty channels⟩

/-- Two connections, the second moved onto the first: session 1 is never freed. -/
def assignOver : List (Op ℕ ℕ) :=
  [.construct (some 1) (some 1), .construct (some 2) (some 2), .moveAssign 0 1]

/-- A connection moved onto itself. -/
def assignSelf : List (Op ℕ ℕ) := [.construct (some 1) (some 1), .moveAssign 0 0]

theorem not_owned : ¬ Owned assignOver ∧ ¬ Owned assignSelf := by
  constructor
  · intro h
    have hlast := (always_last step _ assignOver {} _ h rfl).1.released [0, 1] _ rfl (by decide)
    exact absurd hlast.length_eq (by decide)
  · intro h
    have hlast := (always_last step _ assignSelf {} _ h rfl).1.released [0] _ rfl (by decide)
    exact absurd hlast.length_eq (by decide)

/-- Everything constructors are given is given once. -/
def Distinct {α : Type} (k : Kind σ χ α) (ops : List (Op σ χ)) (w : World σ χ) : Prop :=
  (k.handed w++ops.flatMap fun op => MoveOnly.given (k.op op)).Nodup

theorem handed_step {α : Type} (k : Kind σ χ α) (op : Op σ χ) (w u : World σ χ)
    (h : step op w = .ok u) : k.handed u = k.handed w++MoveOnly.given (k.op op) := by
  have hview : MoveOnly.step (k.op op) (k.view w) = .ok (k.view u) := by
    rw [← step_view, h]
    rfl
  exact MoveOnly.step_handed (k.op op) (k.view w) (k.view u) hview

theorem distinct_step {α : Type} (k : Kind σ χ α) (op : Op σ χ) (ops : List (Op σ χ))
    (w : World σ χ) (h : Distinct k (op::ops) w) :
    (k.handed w++MoveOnly.given (k.op op)).Nodup ∧
      ∀ u, step op w = .ok u → Distinct k ops u := by
  rw [Distinct, List.flatMap_cons, ← List.append_assoc] at h
  refine ⟨(List.nodup_append.mp h).1, fun u hu => ?_⟩
  rw [Distinct, handed_step k op w u hu]
  exact h

/-- A program without assignments, from a state in its middle. -/
structure Unassigned (ops : List (Op σ χ)) (w : World σ χ) : Prop where
  custody : Custody sessions w ∧ Custody channels w
  assigns : ∀ self other, Op.moveAssign self other ∉ ops
  sessions : Distinct sessions ops w
  channels : Distinct channels ops w

theorem unassigned_step (op : Op σ χ) (ops : List (Op σ χ)) (w u : World σ χ)
    (h : Unassigned (op::ops) w) (hu : step op w = .ok u) : Unassigned ops u := by
  obtain ⟨hsession, hsessions⟩ := distinct_step sessions op ops w h.sessions
  obtain ⟨hchannel, hchannels⟩ := distinct_step channels op ops w h.channels
  have hlost : ∀ {α : Type} (k : Kind σ χ α), MoveOnly.lost (k.op op) (k.view w) = [] := by
    intro α k
    cases op with
    | moveAssign self other => exact absurd List.mem_cons_self (h.assigns self other)
    | _ => rfl
  have hfits : Fits op w := (fits_iff op w).mpr
    ⟨MoveOnly.fits_fresh _ _ ((custody_iff sessions w).mp h.custody.1) hsession (hlost sessions),
      MoveOnly.fits_fresh _ _ ((custody_iff channels w).mp h.custody.2) hchannel (hlost channels)⟩
  exact ⟨(fits_step op w h.custody).mp hfits u hu,
    fun self other hm => h.assigns self other (List.mem_cons_of_mem _ hm),
    hsessions u hu, hchannels u hu⟩

/-- Programs that construct, move and destroy, as those of the client do, keep
ownership. -/
theorem owned_unassigned (ops : List (Op σ χ))
    (hassign : ∀ self other, Op.moveAssign self other ∉ ops)
    (hsessions : Distinct sessions ops {}) (hchannels : Distinct channels ops {}) : Owned ops :=
  always_of_stage step Unassigned _ (fun _ _ h => h.custody)
    (fun op ops w u h hu => unassigned_step op ops w u h hu) ops {}
    ⟨⟨custody_empty sessions, custody_empty channels⟩, hassign, hsessions, hchannels⟩

end Bakaneko.SshConnections
