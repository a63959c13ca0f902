import Bakaneko.PtyDecoding
import Mathlib.Data.List.TakeWhile

/-!
# Reading a channel until it is empty

`Pty::read` calls the read function of the channel until it returns 0 and
appends its buffer as a C string each time. The buffer is one byte longer
than a read may fill, and all of it is zero again in front of every read.
The loop tests the raw return value, so a negative code does not end it.
-/

set_option autoImplicit false

namespace Bakaneko.PtyRead
open Bakaneko.Native Bakaneko.PtyDecoding

/-- What every read returns once the data is used up. -/
inductive Ending where
  | noData
  | error
  | again
  | eof
  deriving DecidableEq, Repr

def Ending.code : Ending → ℤ
  | .noData => 0
  | .error => -1
  | .again => -2
  | .eof => -127

/-- The channel during one call: the data of the reads to come, none of which
is empty or more than was asked for. -/
structure Channel (bytes : UInt8) where
  chunks : List Bytes
  ending : Ending
  fits : ∀ chunk ∈ chunks, 0 < chunk.length ∧ chunk.length ≤ bytes.toNat

/-- One read: the value returned, the buffer and the reads still to come. -/
def readFunction (ending : Ending) (buffer : Bytes) : List Bytes → ℤ × Bytes × List Bytes
  | [] => (ending.code, buffer, [])
  | chunk::chunks => (chunk.length, chunk++buffer.drop chunk.length, chunks)

def memset (buffer : Bytes) (count : ℕ) : Bytes := List.replicate count 0++buffer.drop count

/-- The loop, with the reads it may still make. -/
def readWithin (bytes : UInt8) (ending : Ending) : ℕ → Bytes → List Bytes → Bytes → Option Bytes
  | 0, _, _, _ => none
  | fuel+1, buffer, chunks, output =>
    let (bytesReceved, buffer, chunks) := readFunction ending buffer chunks
    if bytesReceved = 0 then some output
    else readWithin bytes ending fuel (memset buffer bytes.toNat) chunks (output++cString buffer)

def zeroed (bytes : UInt8) : Bytes := List.replicate (bytes.toNat+1) 0

def read (bytes : UInt8) (channel : Channel bytes) (fuel : ℕ) : Option Bytes :=
  readWithin bytes channel.ending fuel (zeroed bytes) channel.chunks []

/-- The call ends and returns the data of all its reads. -/
def Lossless {bytes : UInt8} (channel : Channel bytes) : Prop :=
  ∃ fuel, read bytes channel fuel = some channel.chunks.flatten

theorem cString_zeros (chunk : Bytes) (n : ℕ) :
    cString (chunk++List.replicate n 0) = cString chunk := by
  unfold cString
  induction chunk with
  | nil => cases n <;> rfl
  | cons c chunk ih => rw [List.cons_append, List.takeWhile_cons, List.takeWhile_cons, ih]

theorem memset_read (bytes : UInt8) (chunk : Bytes) (h : chunk.length ≤ bytes.toNat) :
    memset (chunk++(zeroed bytes).drop chunk.length) bytes.toNat = zeroed bytes := by
  have hone : bytes.toNat+1-chunk.length-(bytes.toNat-chunk.length) = 1 := by omega
  rw [memset, zeroed, List.drop_replicate, List.drop_append, List.drop_eq_nil_of_le h,
    List.nil_append, List.drop_replicate, hone, List.replicate_append_replicate]

theorem readWithin_chunk (bytes : UInt8) (ending : Ending) (fuel : ℕ) (chunk : Bytes)
    (chunks : List Bytes) (output : Bytes) (h0 : 0 < chunk.length)
    (h : chunk.length ≤ bytes.toNat) :
    readWithin bytes ending (fuel+1) (zeroed bytes) (chunk::chunks) output =
      readWithin bytes ending fuel (zeroed bytes) chunks (output++cString chunk) := by
  have hcode : (chunk.length:ℤ) ≠ 0 := by omega
  have hs : cString (chunk++(zeroed bytes).drop chunk.length) = cString chunk := by
    rw [zeroed, List.drop_replicate, cString_zeros]
  simp only [readWithin, readFunction, if_neg hcode, hs, memset_read bytes chunk h]

/-- A code that is not 0 is read again and again. -/
theorem readWithin_negative (bytes : UInt8) (ending : Ending) (h : ending ≠ .noData) (fuel : ℕ)
    (buffer output : Bytes) : readWithin bytes ending fuel buffer [] output = none := by
  have hcode : ending.code ≠ 0 := by cases ending <;> first | exact absurd rfl h | decide
  induction fuel generalizing buffer output with
  | zero => rfl
  | succ fuel ih =>
    rw [readWithin]
    exact (if_neg hcode).trans (ih _ _)

theorem readWithin_eq (bytes : UInt8) (ending : Ending) (fuel : ℕ) (chunks : List Bytes)
    (output : Bytes) (fits : ∀ chunk ∈ chunks, 0 < chunk.length ∧ chunk.length ≤ bytes.toNat) :
    readWithin bytes ending fuel (zeroed bytes) chunks output =
      if ending = .noData ∧ chunks.length < fuel then some (output++chunks.flatMap cString)
      else none := by
  induction chunks generalizing fuel output with
  | nil =>
    by_cases he : ending = .noData
    · subst he
      cases fuel with
      | zero => rfl
      | succ fuel => simp [readWithin, readFunction, Ending.code]
    · rw [readWithin_negative bytes ending he, if_neg fun h => he h.1]
  | cons chunk chunks ih =>
    cases fuel with
    | zero => simp [readWithin]
    | succ fuel =>
      obtain ⟨h0, hle⟩ := fits chunk (by simp)
      rw [readWithin_chunk bytes ending fuel chunk chunks output h0 hle,
        ih fuel _ fun other ho => fits other (by simp [ho])]
      simp

/-- The call ends after the read that returns 0, with the data of every read
up to its first NUL. -/
theorem read_eq (bytes : UInt8) (channel : Channel bytes) (fuel : ℕ) (output : Bytes) :
    read bytes channel fuel = some output ↔
      channel.ending = .noData ∧ channel.chunks.length < fuel ∧
        output = channel.chunks.flatMap cString := by
  rw [read, readWithin_eq bytes _ fuel _ [] channel.fits]
  split
  case isTrue h => simp [h, eq_comm]
  case isFalse h => simpa using fun he hf => absurd ⟨he, hf⟩ h

theorem cString_length (chunk : Bytes) : (cString chunk).length ≤ chunk.length :=
  (List.takeWhile_prefix _).length_le

theorem cString_eq_self (chunk : Bytes) : cString chunk = chunk ↔ 0 ∉ chunk := by
  rw [cString, List.takeWhile_eq_self_iff]
  constructor
  · exact fun h h0 => by simpa using h 0 h0
  · rintro h b hb
    rw [decide_eq_true_eq]
    rintro rfl
    exact h hb

theorem cStrings_length (chunks : List Bytes) :
    (chunks.flatMap cString).length ≤ chunks.flatten.length := by
  induction chunks with
  | nil => exact Nat.le_refl 0
  | cons chunk chunks ih =>
    rw [List.flatMap_cons, List.flatten_cons, List.length_append, List.length_append]
    exact Nat.add_le_add (cString_length chunk) ih

/-- Nothing makes up for what a read loses behind a NUL. -/
theorem cStrings_eq_flatten (chunks : List Bytes) :
    chunks.flatMap cString = chunks.flatten ↔ ∀ chunk ∈ chunks, 0 ∉ chunk := by
  induction chunks with
  | nil => simp
  | cons chunk chunks ih =>
    rw [List.flatMap_cons, List.flatten_cons, List.forall_mem_cons, ← ih, ← cString_eq_self]
    constructor
    · intro h
      have hlen := congrArg List.length h
      have hhead := cString_length chunk
      have htail := cStrings_length chunks
      rw [List.length_append, List.length_append] at hlen
      exact List.append_inj h (by omega)
    · rintro ⟨hhead, htail⟩
      rw [hhead, htail]

/-- A call is lossless exactly on a channel that runs out of data and
delivers no NUL. -/
theorem lossless_iff (bytes : UInt8) (channel : Channel bytes) :
    Lossless channel ↔ channel.ending = .noData ∧ ∀ chunk ∈ channel.chunks, 0 ∉ chunk := by
  simp only [Lossless, read_eq]
  constructor
  · rintro ⟨fuel, he, -, hs⟩
    exact ⟨he, (cStrings_eq_flatten _).mp hs.symm⟩
  · rintro ⟨he, h0⟩
    exact ⟨channel.chunks.length+1, he, Nat.lt_succ_self _, ((cStrings_eq_flatten _).mpr h0).symm⟩

def closed : Channel 255 := ⟨[], .eof, by simp⟩

def binary : Channel 255 := ⟨[[97, 0, 98]], .noData, by decide⟩

/-- At the end of the stream the loop never ends; of `a`, NUL and `b` it
keeps the first byte. -/
theorem not_lossless : (∀ fuel, read 255 closed fuel = none) ∧ ¬ Lossless closed ∧
    read 255 binary 2 = some [97] ∧ ¬ Lossless binary := by
  have hnone : ∀ fuel, read 255 closed fuel = none := fun fuel =>
    readWithin_negative 255 .eof (by decide) fuel _ _
  refine ⟨hnone, ?_, (read_eq 255 binary 2 _).mpr ⟨rfl, by decide, by decide⟩, ?_⟩
  · rintro ⟨fuel, h⟩
    rw [hnone] at h
    cases h
  · rintro ⟨fuel, h⟩
    exact absurd ((read_eq 255 binary fuel _).mp h).2.2 (by decide)

end Bakaneko.PtyRead
