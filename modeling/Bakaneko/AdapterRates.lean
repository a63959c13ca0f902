import Bakaneko.KeyReconciliation

/-!
# The rates of the adapters

A rate is the difference of two counters over the time between their samples.
The differences are taken in 64 bits and nothing is checked: the first sample
of an adapter is compared with itself, and a counter that has begun anew with
a larger one.
-/

set_option autoImplicit false

namespace Bakaneko.AdapterRates
open Bakaneko.Native Bakaneko.Messages Bakaneko.RowModels Bakaneko.TableRows
open Bakaneko.KeyReconciliation KeyedRows

/-- `ROLE_rx_rate` and `ROLE_tx_rate`. -/
inductive Direction where
  | rx
  | tx
  deriving DecidableEq, Repr

def octets (d : Direction) (a : Adapter) : ℕ :=
  match d with
  | .rx => a.bytesRx
  | .tx => a.bytesTx

/-- The count of a `std::chrono::nanoseconds`. -/
def int64 (n : ℕ) : ℤ := ((n:ℤ)+9223372036854775808)%18446744073709551616-9223372036854775808

/-- What a rate divides, and by what. -/
structure Rate where
  deltaBytes : ℕ
  deltaTime : ℤ
  deriving DecidableEq, Repr

def rate (d : Direction) (temp prec : Adapter) : Rate where
  deltaBytes := sizeT (sizeT (octets d temp-octets d prec)*8)
  deltaTime := int64 (sizeT (temp.time-prec.time))

/-- `data` for one of the two roles. -/
def data (row : ℕ) (d : Direction) (m : AdapterModel) : Option Rate :=
  match m.updates[row]?, m.prevous[row]? with
  | some temp, some prec => some (rate d temp prec)
  | _, _ => none

/-- Both quantities are the true differences, and none is divided by 0. -/
structure Exact (d : Direction) (cur prev : Adapter) (r : Rate) : Prop where
  time : prev.time ≤ cur.time
  bytes : octets d prev ≤ octets d cur
  deltaTime : r.deltaTime = (cur.time:ℤ)-prev.time
  nonzero : r.deltaTime ≠ 0
  deltaBytes : r.deltaBytes = (octets d cur-octets d prev)*8

/-- Every rate the rows show is exact; none is shown as unavailable. -/
def RatesExact (m : AdapterModel) : Prop := ∀ (row : ℕ) (cur prev : Adapter),
  m.updates[row]? = some cur → m.prevous[row]? = some prev →
    ∀ (d : Direction) (r : Rate), data row d m = some r → Exact d cur prev r

/-- A sample behind another one, in what 64 bits can count. -/
structure Later (prev cur : Adapter) : Prop where
  time : prev.time < cur.time ∧ cur.time-prev.time < 9223372036854775808
  bytes : ∀ d, octets d prev ≤ octets d cur ∧
    (octets d cur-octets d prev)*8 < 18446744073709551616

/-- The last sample of a streak has one before it that it is behind. -/
def Advances (samples : List Adapter) : Prop :=
  ∃ past prev cur, samples = past++[prev, cur] ∧ Later prev cur

/-- Each adapter of the last message has had a sample before, since a message
last left it out. -/
def SamplesAdvance (history : List Adapters) : Prop :=
  ∀ info ∈ history.getLast?, ∀ a ∈ info.adapters,
    Advances (streak Adapter.name a.name (history.map Adapters.adapters))

theorem later_counters (prev cur prev' cur' : Adapter) (hp : counters prev = counters prev')
    (hc : counters cur = counters cur') : Later prev cur ↔ Later prev' cur' := by
  have hbytes (a b : Adapter) (h : counters a = counters b) (d : Direction) :
      octets d a = octets d b := by
    simp only [counters, Prod.mk.injEq] at h
    cases d
    · exact h.1
    · exact h.2.1
  have htime (a b : Adapter) (h : counters a = counters b) : a.time = b.time :=
    congrArg (fun c => c.2.2) h
  have hiff (a b a' b' : Adapter) (ha : counters a = counters a') (hb : counters b = counters b')
      (h : Later a b) : Later a' b' := by
    refine ⟨?_, fun d => ?_⟩
    · rw [← htime a a' ha, ← htime b b' hb]
      exact h.time
    · rw [← hbytes a a' ha, ← hbytes b b' hb]
      exact h.bytes d
  exact ⟨hiff _ _ _ _ hp hc, hiff _ _ _ _ hp.symm hc.symm⟩

theorem deltaTime_range (d : Direction) (cur prev : Adapter) :
    (rate d cur prev).deltaTime < 9223372036854775808 := by
  unfold rate int64
  dsimp only
  omega

theorem deltaTime_eq (d : Direction) (cur prev : Adapter) (h : prev.time ≤ cur.time)
    (hrange : cur.time-prev.time < 9223372036854775808) :
    (rate d cur prev).deltaTime = (cur.time:ℤ)-prev.time := by
  unfold rate int64 sizeT
  dsimp only
  omega

theorem deltaBytes_range (d : Direction) (cur prev : Adapter) :
    (rate d cur prev).deltaBytes < 18446744073709551616 := by
  unfold rate sizeT
  dsimp only
  omega

theorem deltaBytes_eq (d : Direction) (cur prev : Adapter) (h : octets d prev ≤ octets d cur)
    (hrange : (octets d cur-octets d prev)*8 < 18446744073709551616) :
    (rate d cur prev).deltaBytes = (octets d cur-octets d prev)*8 := by
  unfold rate sizeT
  dsimp only
  omega

/-- The wrapped differences are the true ones exactly of a later sample. -/
theorem rate_exact_iff (cur prev : Adapter) :
    (∀ d, Exact d cur prev (rate d cur prev)) ↔ Later prev cur := by
  constructor
  · intro h
    refine ⟨?_, fun d => ⟨(h d).bytes, ?_⟩⟩
    · have hrange := deltaTime_range .rx cur prev
      have hzero := (h .rx).nonzero
      have hle := (h .rx).time
      rw [(h .rx).deltaTime] at hrange hzero
      omega
    · rw [← (h d).deltaBytes]
      exact deltaBytes_range d cur prev
  · intro h d
    have htime := deltaTime_eq d cur prev (Nat.le_of_lt h.time.1) h.time.2
    have hlater := h.time.1
    refine ⟨Nat.le_of_lt hlater, (h.bytes d).1, htime, ?_,
      deltaBytes_eq d cur prev (h.bytes d).1 (h.bytes d).2⟩
    rw [htime]
    omega

theorem advances_iff (past : List Adapter) (prev cur : Adapter) :
    Advances (past++[prev, cur]) ↔ Later prev cur := by
  constructor
  · rintro ⟨past', prev', cur', heq, h⟩
    have hlast := (List.append_inj' heq rfl).2
    simp only [List.cons.injEq, and_true] at hlast
    rw [hlast.1, hlast.2]
    exact h
  · exact fun h => ⟨past, prev, cur, rfl, h⟩

theorem not_advances_one (cur : Adapter) : ¬ Advances [cur] := by
  rintro ⟨past, prev, cur', heq, -⟩
  have hlen := congrArg List.length heq
  simp at hlen

theorem later_irrefl (prev cur : Adapter) (h : counters prev = counters cur) :
    ¬ Later prev cur := by
  intro hlater
  exact lt_irrefl _ ((later_counters prev cur cur cur h rfl).mp hlater).time.1

/-- A row has the last two samples of its streak. -/
theorem row_later_iff (history : List Adapters) (row : ℕ) (cur prev : Adapter)
    (hc : (adaptersAfter history).updates[row]? = some cur)
    (hp : (adaptersAfter history).prevous[row]? = some prev) :
    Later prev cur ↔
      Advances (streak Adapter.name cur.name (history.map Adapters.adapters)) := by
  obtain ⟨past, din, hs, hcur, hprev⟩ := (prevous_belong history).before row cur prev hc hp
  rw [hs]
  cases past using List.reverseRecOn with
  | nil => exact iff_of_false (later_irrefl _ _ (hprev.trans hcur.symm)) (not_advances_one din)
  | append_singleton past before =>
    rw [List.getLast?_concat] at hprev
    rw [List.append_assoc, List.singleton_append, advances_iff]
    exact later_counters _ _ _ _ hprev hcur

theorem data_row (m : AdapterModel) (row : ℕ) (cur prev : Adapter) (hc : m.updates[row]? = some cur)
    (hp : m.prevous[row]? = some prev) (d : Direction) :
    data row d m = some (rate d cur prev) := by
  rw [data, hc, hp]

theorem prevous_row (m : AdapterModel) (row : ℕ) (cur : Adapter) (hc : m.updates[row]? = some cur) :
    ∃ prev, m.prevous[row]? = some prev := by
  have hrow := (List.getElem?_eq_some_iff.mp hc).1
  rw [← m.aligned] at hrow
  exact ⟨_, List.getElem?_eq_getElem hrow⟩

theorem ratesExact_rows (m : AdapterModel) : RatesExact m ↔
    ∀ (row : ℕ) (cur prev : Adapter), m.updates[row]? = some cur → m.prevous[row]? = some prev →
      Later prev cur := by
  apply forall₃_congr
  intro row cur prev
  apply forall₂_congr
  intro hc hp
  rw [← rate_exact_iff]
  simp only [data_row m row cur prev hc hp, Option.some.injEq, forall_eq']

/-- The rates are exact exactly when every adapter of the last message has two
samples in a row, the second behind the first. -/
theorem ratesExact_iff (history : List Adapters) :
    RatesExact (adaptersAfter history) ↔ SamplesAdvance history := by
  rw [ratesExact_rows]
  cases history using List.reverseRecOn with
  | nil =>
    refine iff_of_true (fun row cur prev hc => ?_) fun info hinfo => by cases hinfo
    cases hc
  | append_singleton history info =>
    have hnamed := (adapters_reconciled history info).named
    simp only [SamplesAdvance, List.getLast?_concat, Option.mem_some_iff, forall_eq']
    constructor
    · intro h a ha
      obtain ⟨cur, hcur, hname⟩ :=
        List.mem_map.mp ((hnamed a.name).mpr (List.mem_map_of_mem ha))
      obtain ⟨row, hc⟩ := List.mem_iff_getElem?.mp hcur
      obtain ⟨prev, hp⟩ := prevous_row _ row cur hc
      rw [← hname]
      exact (row_later_iff _ row cur prev hc hp).mp (h row cur prev hc hp)
    · intro h row cur prev hc hp
      obtain ⟨a, ha, hname⟩ := List.mem_map.mp
        ((hnamed cur.name).mp (List.mem_map_of_mem (List.mem_of_getElem? hc)))
      rw [row_later_iff _ row cur prev hc hp, ← hname]
      exact h a ha

def sample (octets time : ℕ) : Adapter :=
  ⟨bytes "eth0", 1, 1000, 1500, [], [], octets, octets, time⟩

/-- A first sample is divided by no time, and a counter that begins anew has
received almost 2^64 bytes. -/
theorem rates_not_exact :
    data 0 .rx (adaptersAfter [⟨[sample 7 1]⟩]) = some ⟨0, 0⟩ ∧
      ¬ RatesExact (adaptersAfter [⟨[sample 7 1]⟩]) ∧
      data 0 .rx (adaptersAfter [⟨[sample 7 1]⟩, ⟨[sample 3 2]⟩]) =
        some ⟨18446744073709551584, 1⟩ ∧
      ¬ RatesExact (adaptersAfter [⟨[sample 7 1]⟩, ⟨[sample 3 2]⟩]) := by
  refine ⟨by decide, fun h => ?_, by decide, fun h => ?_⟩
  · exact absurd (h 0 _ _ rfl rfl .rx _ rfl).nonzero (by decide)
  · exact absurd (h 0 _ _ rfl rfl .rx _ rfl).bytes (by decide)

end Bakaneko.AdapterRates
