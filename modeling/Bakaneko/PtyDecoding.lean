import Bakaneko.Native
import Bakaneko.Library.Utf8

/-!
# Text from the shell

`Pty::check_for_data` decodes what one call of `read_stdout` returned. The
call reads byte by byte until the channel has nothing more and appends the
buffer as a C string. The decoder of `QString` is taken as given: it keeps
whole characters and puts replacement characters for what is none.
-/

set_option autoImplicit false

namespace Bakaneko.PtyDecoding
open Bakaneko.Native Utf8

/-- What one call of the read function leaves in the zeroed buffer, as a C string. -/
def cString (buffer : Bytes) : Bytes := buffer.takeWhile (· ≠ 0)

/-- The loop of `Pty::read` over what the channel returns until it returns 0. -/
def readLoop : List Bytes → Bytes → Bytes
  | [], output => output
  | receved::rest, output => readLoop rest (output++cString receved)

/-- `read` with `bytes` 1, on what arrived since the last call. -/
def read (arrived : Bytes) : Bytes := readLoop (arrived.map fun c => [c]) []

/-- One run of the timer: whether the channel is open and not at its end, and
what arrived on its two streams. -/
structure Poll where
  isOpen : Bool
  stdout : Bytes
  stderr : Bytes

/-- The texts `check_for_data` emits. -/
def checkForData (fromStdString : Bytes → List Char) (poll : Poll) : List (List Char) :=
  if poll.isOpen then
    (if 0 < (read poll.stdout).length then [fromStdString (read poll.stdout)] else [])++
      if 0 < (read poll.stderr).length then [fromStdString (read poll.stderr)] else []
  else []

/-- The receivers' text, of pieces that each arrive for one call. -/
def recevedData (fromStdString : Bytes → List Char) (pieces : List Bytes) : List Char :=
  (pieces.flatMap fun piece => checkForData fromStdString ⟨true, piece, []⟩).flatten

theorem readLoop_eq (arrived output : Bytes) :
    readLoop (arrived.map fun c => [c]) output = output++arrived.filter (· ≠ 0) := by
  induction arrived generalizing output with
  | nil => simp [readLoop]
  | cons c arrived ih =>
    rw [List.map_cons, readLoop, ih, List.append_assoc]
    by_cases hc : c = 0 <;> simp [cString, hc]

theorem read_eq (arrived : Bytes) : read arrived = arrived.filter (· ≠ 0) := readLoop_eq arrived []

theorem recevedData_eq (fromStdString : Bytes → List Char) (hnil : fromStdString [] = [])
    (pieces : List Bytes) : recevedData fromStdString pieces =
      (pieces.map fun piece => piece.filter (· ≠ 0)).flatMap fromStdString := by
  induction pieces with
  | nil => rfl
  | cons piece pieces ih =>
    have hone : (checkForData fromStdString ⟨true, piece, []⟩).flatten =
        fromStdString (piece.filter (· ≠ 0)) := by
      rw [checkForData, if_pos rfl, read_eq, read_eq]
      generalize piece.filter (· ≠ 0) = kept
      cases kept with
      | nil => simp [hnil]
      | cons c kept => simp
    rw [recevedData, List.flatMap_cons, List.flatten_append, hone, List.map_cons, List.flatMap_cons,
      ← ih]
    rfl

theorem nul_encode (c : Char) : 0 ∈ String.utf8EncodeChar c ↔ c = '\x00' := by
  constructor
  · intro h
    obtain ⟨b, tail, hb, -, htail⟩ := encodeChar_shape c
    rw [hb, List.mem_cons] at h
    rcases h with rfl | h
    · have hnul : String.utf8EncodeChar c++[] = String.utf8EncodeChar '\x00'++tail := by
        rw [hb]
        simp
        rfl
      exact (encodeChar_unique c '\x00' _ _ hnul).1
    · exact absurd (.inl (by decide)) (htail 0 h)
  · rintro rfl
    decide

theorem encode_filter (text : List Char) :
    (encode text).filter (· ≠ 0) = encode (text.filter (· ≠ '\x00')) := by
  induction text with
  | nil => rfl
  | cons c text ih =>
    rw [encode_cons, List.filter_append, ih]
    by_cases hc : c = '\x00'
    · subst hc
      rfl
    · have hkeep : (String.utf8EncodeChar c).filter (· ≠ 0) = String.utf8EncodeChar c := by
        rw [List.filter_eq_self]
        intro b hb
        rw [decide_eq_true_eq]
        rintro rfl
        exact hc ((nul_encode c).mp hb)
      rw [hkeep, List.filter_cons_of_pos (by simpa using hc), encode_cons]

/-- The receivers get the text of the stream exactly when it has no NUL, no
piece ends inside a character and, where the decoder strips byte order marks,
no later piece begins with one. -/
theorem receved_iff (fromStdString : Bytes → List Char) (strips : Bool)
    (hreplaces : Replaces fromStdString strips) (text : List Char) (pieces : List Bytes)
    (hp : pieces.flatten = encode text) :
    recevedData fromStdString pieces = fromStdString (encode text) ↔
      '\x00' ∉ text ∧ ∃ texts : List (List Char), pieces = texts.map encode ∧
        (strips = true → ∀ t ∈ (texts.filter fun t => t ≠ []).tail, ¬ Marked t) := by
  have hnil : fromStdString [] = [] := by
    have h := decode_whole hreplaces []
    simpa [encode, withoutMark] using h
  have hfiltered : (pieces.map fun piece => piece.filter (· ≠ 0)).flatten =
      encode (text.filter (· ≠ '\x00')) := by
    rw [← encode_filter, ← hp, List.filter_flatten]
  rw [recevedData_eq fromStdString hnil]
  by_cases hnul : '\x00' ∈ text
  · refine iff_of_false (fun he => ?_) fun h => h.1 hnul
    have hcount := @withoutMark_other strips text '\x00' (by decide)
    rw [← decode_whole hreplaces, ← he] at hcount
    have hmem : '\x00' ∈ (pieces.map fun piece => piece.filter (· ≠ 0)).flatMap fromStdString := by
      rw [← List.count_pos_iff, hcount, List.count_pos_iff]
      exact hnul
    rcases mem_pieces hreplaces _ [] _ (by simp) hfiltered _ hmem with h | h
    · exact absurd h (by decide)
    · simp at h
  · have hkeep : pieces.map (fun piece => piece.filter (· ≠ 0)) = pieces := by
      refine (List.map_congr_left fun piece hpiece => ?_).trans (List.map_id pieces)
      refine List.filter_eq_self.mpr fun b hb => ?_
      rw [decide_eq_true_eq]
      rintro rfl
      have hin : (0:UInt8) ∈ encode text := by
        rw [← hp]
        exact List.mem_flatten.mpr ⟨piece, hpiece, hb⟩
      obtain ⟨c, hc, hc0⟩ := List.mem_flatMap.mp hin
      exact hnul ((nul_encode c).mp hc0 ▸ hc)
    rw [hkeep, pieces_iff hreplaces pieces text hp]
    exact ⟨fun h => ⟨hnul, h⟩, fun h => h.2⟩

/-- An e with an acute accent and an x, cut between the two. -/
theorem receved_accent : recevedData (replaceFrom 0) [[195, 169], [120]] = ['é', 'x'] := by
  have h := (receved_iff (replaceFrom 0) false replaceFrom_replaces ['é', 'x'] [[195, 169], [120]]
    (by decide)).mpr ⟨by decide, [['é'], ['x']], by decide, by simp⟩
  rw [h, decode_whole replaceFrom_replaces]
  rfl

/-- The same character cut in the middle. -/
theorem receved_cut : [[195], [169]].flatten = encode ['é'] ∧
    recevedData (replaceFrom 0) [[195], [169]] = [replacement, replacement] ∧
    recevedData (replaceFrom 0) [[195], [169]] ≠ replaceFrom 0 (encode ['é']) := by
  have hcut : recevedData (replaceFrom 0) [[195], [169]] = [replacement, replacement] := by
    rfl
  refine ⟨by decide, hcut, ?_⟩
  rw [hcut, decode_whole replaceFrom_replaces]
  decide

end Bakaneko.PtyDecoding
