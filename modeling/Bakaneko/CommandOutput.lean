import Bakaneko.PtyRead

/-!
# The output of a command

`exec` runs a command and takes what it writes with `fgets`: to the end of a
line, or as much as the buffer has room for. Each piece is appended as a C
string. The pieces are the output, wherever they are cut, so what is lost is
what stands behind a NUL, to the end of its piece.
-/

set_option autoImplicit false

namespace Bakaneko.CommandOutput
open Bakaneko.Native Bakaneko.PtyRead
open Bakaneko.PtyDecoding (cString)

/-- How much one call of `fgets` takes, with a buffer of 128 characters. -/
def fgetsLength (stream : Bytes) : ℕ :=
  match (stream.take 127).idxOf? 10 with
  | some i => i+1
  | none => 127

/-- A piece has a character, and leaves room for the null behind it. -/
theorem fgetsLength_bounds (stream : Bytes) :
    0 < fgetsLength stream ∧ fgetsLength stream ≤ 127 := by
  unfold fgetsLength
  split
  · case _ i hi =>
    obtain ⟨hlt, -⟩ := List.idxOf?_eq_some_iff.mp hi
    have hlength := hlt.trans_le (List.length_take_le 127 stream)
    exact ⟨Nat.succ_pos i, hlength⟩
  · decide

/-- The loop of `exec`, on what the command still writes. -/
def readPipe (stream result : Bytes) : Bytes :=
  if stream = [] then result
  else readPipe (stream.drop (fgetsLength stream))
    (result++cString (stream.take (fgetsLength stream)))
termination_by stream.length
decreasing_by
  rename_i hne
  have hpos := List.length_pos_iff.mpr hne
  have hlength := (fgetsLength_bounds stream).1
  rw [List.length_drop]
  omega

section
/- How a shell ends with a command line and what it writes, if it can be started. -/
variable (popen : Bytes → Option (ℤ × Bytes))

def exec (cmd : Bytes) : Except StdException (ℤ × Bytes) :=
  match popen (cmd++bytes " 2>/dev/null") with
  | none => .error (.runtimeError (bytes "popen() failed!"))
  | some (status, written) => .ok (status, readPipe written [])

/-- All that was written. -/
def whole (cmd : Bytes) : Except StdException (ℤ × Bytes) :=
  match popen (cmd++bytes " 2>/dev/null") with
  | none => .error (.runtimeError (bytes "popen() failed!"))
  | some (status, written) => .ok (status, written)

end

/-- The pieces that `fgets` cuts are all there is. -/
theorem readPipe_pieces (stream result : Bytes) : ∃ pieces : List Bytes,
    pieces.flatten = stream ∧ readPipe stream result = result++pieces.flatMap cString := by
  induction stream, result using readPipe.induct with
  | case1 result =>
    refine ⟨[], rfl, ?_⟩
    rw [readPipe, if_pos rfl]
    exact (List.append_nil result).symm
  | case2 stream result hne ih =>
    obtain ⟨pieces, hflat, hread⟩ := ih
    refine ⟨stream.take (fgetsLength stream)::pieces, ?_, ?_⟩
    · rw [List.flatten_cons, hflat, List.take_append_drop]
    · rw [readPipe, if_neg hne, hread, List.flatMap_cons, List.append_assoc]

/-- Nothing is added, and only a NUL takes something away. -/
theorem readPipe_eq_iff (stream : Bytes) : readPipe stream [] = stream ↔ 0 ∉ stream := by
  obtain ⟨pieces, rfl, hread⟩ := readPipe_pieces stream []
  rw [hread, List.nil_append, cStrings_eq_flatten]
  simp

/-- The callers of `exec` get all that any command writes exactly when no command
writes a NUL, however long its lines are. -/
theorem exec_whole_iff (popen : Bytes → Option (ℤ × Bytes)) : exec popen = whole popen ↔
    ∀ cmd status written, popen (cmd++bytes " 2>/dev/null") = some (status, written) →
      0 ∉ written := by
  constructor
  · intro h cmd status written hcmd
    have hsame := congrFun h cmd
    rw [exec, whole, hcmd] at hsame
    exact (readPipe_eq_iff written).mp (Prod.mk.inj (Except.ok.inj hsame)).2
  · intro h
    funext cmd
    rw [exec, whole]
    cases hcmd : popen (cmd++bytes " 2>/dev/null") with
    | none => rfl
    | some out =>
      obtain ⟨status, written⟩ := out
      dsimp only
      rw [(readPipe_eq_iff written).mpr (h cmd status written hcmd)]

end Bakaneko.CommandOutput
