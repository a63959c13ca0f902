import Bakaneko.IniText

/-!
# Reading a file whole

`read_file` copies the mapping of the file. When the mapping is refused it
reads as many characters as the file says it has; what the file does not
have stays a null. From the first null on everything is cut off, and the
character in front of it.
-/

set_option autoImplicit false

namespace Bakaneko.ReadFile
open Bakaneko.Native Bakaneko.IniText

/-- As many characters as the file says it has. -/
def buffer (content : Bytes) (size : ℕ) : Bytes :=
  content++List.replicate (size-content.length) 0

def trimmed (contents : Bytes) : Bytes :=
  match contents.idxOf? 0 with
  | some 0 => []
  | some nullTerm => contents.take (nullTerm-1)
  | none => contents

/-- With what the mapping shows, or its failure, and what the stream reads if
it opens. -/
def readFile (mapping : Except StdException Bytes) (stream : Option Bytes) :
    Except StdException Bytes :=
  match mapping with
  | .ok view => .ok view
  | .error e => match stream with
    | none => .error e
    | some contents => .ok (trimmed contents)

/-- The content, or the content without an end of line. -/
def Kept (content text : Bytes) : Prop := text = content ∨ text++[10] = content

/-- A file that says it has this size reads the same with a mapping and without. -/
def SameText (content : Bytes) (size : ℕ) : Prop :=
  ∃ text, Kept content text ∧
    (∀ stream, readFile (.ok (buffer content size)) stream = .ok text) ∧
    ∀ e, readFile (.error e) (some (buffer content size)) = .ok text

theorem buffer_exact (content : Bytes) : buffer content content.length = content := by
  simp [buffer]

theorem trimmed_exact (content : Bytes) (h : 0 ∉ content) : trimmed content = content := by
  have hnone : content.idxOf? 0 = none := List.idxOf?_eq_none_iff.mpr h
  rw [trimmed, hnone]

/-- Of an oversized file the last character is lost. -/
theorem trimmed_oversized (content : Bytes) (size : ℕ) (h : 0 ∉ content)
    (hsize : content.length < size) : trimmed (buffer content size) = content.dropLast := by
  obtain ⟨n, hn⟩ := Nat.exists_eq_succ_of_ne_zero (Nat.sub_ne_zero_of_lt hsize)
  have hbuffer : buffer content size = content++0::List.replicate n 0 := by
    rw [buffer, hn, List.replicate_succ]
  have hfound : (buffer content size).idxOf? 0 = some content.length := by
    rw [hbuffer, idxOf?_first content _ 0 h]
  rw [trimmed, hfound]
  cases hlen : content.length with
  | zero => rw [List.eq_nil_of_length_eq_zero hlen]; rfl
  | succ k =>
    have htake : (buffer content size).take k = content.take k := by
      rw [hbuffer, List.take_append_of_le_length (by omega)]
    simp only [Nat.add_sub_cancel, htake, List.dropLast_eq_take, hlen]

theorem dropLast_kept (content : Bytes) :
    Kept content content.dropLast ↔ content = [] ∨ content.getLast? = some 10 := by
  induction content using List.reverseRecOn with
  | nil => simp [Kept]
  | append_singleton content c _ =>
    rw [Kept, List.dropLast_concat, List.getLast?_concat]
    simp [@eq_comm _ 10 c]

/-- Without a mapping the content is kept when the size is right, when there is
no content, and when it ends with an end of line. -/
theorem trimmed_kept (content : Bytes) (size : ℕ) (h : 0 ∉ content)
    (hsize : content.length ≤ size) : Kept content (trimmed (buffer content size)) ↔
      size = content.length ∨ content = [] ∨ content.getLast? = some 10 := by
  rcases hsize.eq_or_lt with rfl | hlt
  · rw [buffer_exact, trimmed_exact content h]
    simp [Kept]
  · rw [trimmed_oversized content size h hlt, dropLast_kept, or_iff_right (Nat.ne_of_gt hlt)]

/-- Only the right size gives the same text. -/
theorem sameText_iff (content : Bytes) (size : ℕ) (h : 0 ∉ content)
    (hsize : content.length ≤ size) : SameText content size ↔ size = content.length := by
  constructor
  · rintro ⟨text, hkept, hmapped, -⟩
    have htext : buffer content size = text := Except.ok.inj (hmapped none)
    have hlen : text.length ≤ content.length := by
      rcases hkept with rfl | rfl <;> simp
    rw [← htext, buffer, List.length_append, List.length_replicate] at hlen
    omega
  · rintro rfl
    refine ⟨content, .inl rfl, fun stream => ?_, fun e => ?_⟩
    · rw [buffer_exact]
      rfl
    · rw [buffer_exact, readFile, trimmed_exact content h]

theorem sameText_text : SameText (bytes "up\n") 3 :=
  (sameText_iff (bytes "up\n") 3 (by decide) (by decide)).mpr (by decide)

/-- Of a page with one character the mapping shows a page, the stream nothing. -/
theorem sameText_page : (0 : UInt8) ∉ bytes "x" ∧ (bytes "x").length ≤ 4096 ∧
    (∀ e, readFile (.error e) (some (buffer (bytes "x") 4096)) = .ok []) ∧
    ¬ SameText (bytes "x") 4096 := by
  have htrimmed : trimmed (buffer (bytes "x") 4096) = [] :=
    trimmed_oversized (bytes "x") 4096 (by decide) (by decide)
  refine ⟨by decide, by decide, fun e => congrArg Except.ok htrimmed, ?_⟩
  rintro ⟨text, hkept, -, hstream⟩
  have htext : [] = text := htrimmed.symm.trans (Except.ok.inj (hstream (.ioError [])))
  subst htext
  rcases hkept with hkept | hkept <;> exact absurd hkept (by decide)

end Bakaneko.ReadFile
