import Bakaneko.Native
import Mathlib.Data.List.DropRight

/-!
# Cutting text

`ljh::split` cuts at a separator until it has one field less than it was
asked for, then keeps the rest as the last field. Asked for no number of
fields it cuts everywhere: the bound then wraps to the largest `size_t`.
-/

set_option autoImplicit false

namespace Bakaneko.Text
open Bakaneko.Native

/-- The fields behind `count` earlier ones, the first of them begun with `field`. -/
def splitLoop (seperator : UInt8) (limit : ℕ) : ℕ → Bytes → Bytes → List Bytes
  | _, field, [] => [field]
  | count, field, c::rest =>
    if c = seperator then
      if count+1 = limit then [field, rest]
      else field::splitLoop seperator limit (count+1) [] rest
    else splitLoop seperator limit count (field++[c]) rest

def split (s : Bytes) (seperator : UInt8) (maxElements : ℕ) : List Bytes :=
  splitLoop seperator (sizeT (maxElements-1)) 0 [] s

def rtrim (s : Bytes) : Bytes := s.rdropWhile isspace

theorem splitLoop_two (seperator : UInt8) (field s : Bytes) :
    splitLoop seperator 1 0 field s =
      if seperator ∈ s then
        [field++s.takeWhile (· ≠ seperator), (s.dropWhile (· ≠ seperator)).tail]
      else [field++s] := by
  induction s generalizing field with
  | nil => simp [splitLoop]
  | cons c rest ih =>
    rw [splitLoop]
    by_cases hc : c = seperator
    · simp [hc]
    · rw [if_neg hc, ih]
      have hm : seperator ∈ c::rest ↔ seperator ∈ rest := by
        simp [List.mem_cons, Ne.symm hc]
      simp [hm, hc]

/-- At most two fields: the text before the first separator and the text behind it. -/
theorem split_two (s : Bytes) (seperator : UInt8) :
    split s seperator 2 =
      if seperator ∈ s then [s.takeWhile (· ≠ seperator), (s.dropWhile (· ≠ seperator)).tail]
      else [s] := by
  have hl : sizeT (((2:ℕ):ℤ)-1) = 1 := by decide
  rw [split, hl, splitLoop_two]
  simp

theorem split_two_absent (s : Bytes) (seperator : UInt8) (h : seperator ∉ s) :
    split s seperator 2 = [s] := by
  rw [split_two, if_neg h]

theorem split_two_append (s rest : Bytes) (seperator : UInt8) (h : seperator ∉ s) :
    split (s++seperator::rest) seperator 2 = [s, rest] := by
  have hall : ∀ c ∈ s, decide (c ≠ seperator) = true := by
    intro c hc
    exact decide_eq_true fun he => h (he ▸ hc)
  rw [split_two, if_pos (by simp), List.takeWhile_append_of_pos hall,
    List.dropWhile_append_of_pos hall]
  simp

/-- Every text is a field without separators or starts with one. -/
theorem split_two_cases (s : Bytes) (seperator : UInt8) :
    seperator ∉ s ∨ ∃ first rest, seperator ∉ first ∧ s = first++seperator::rest := by
  by_cases h : seperator ∈ s
  · obtain ⟨first, rest, hs, hn⟩ := List.eq_append_cons_of_mem h
    exact .inr ⟨first, rest, hn, hs⟩
  · exact .inl h

/-- The first field is the word only of the word itself or with a separator behind it. -/
theorem split_two_head (s word : Bytes) (seperator : UInt8) (hs : s ≠ word)
    (hw : ∀ rest, s ≠ word++seperator::rest) : (split s seperator 2).headD [] ≠ word := by
  obtain hn | ⟨first, rest, hn, rfl⟩ := split_two_cases s seperator
  · rw [split_two_absent s seperator hn]
    exact hs
  · rw [split_two_append first rest seperator hn]
    rintro rfl
    exact hw rest rfl

theorem splitLoop_free (seperator : UInt8) (limit count : ℕ) (field s : Bytes)
    (h : seperator ∉ s) : splitLoop seperator limit count field s = [field++s] := by
  induction s generalizing field with
  | nil => simp [splitLoop]
  | cons c rest ih =>
    simp only [List.mem_cons, not_or] at h
    rw [splitLoop, if_neg (Ne.symm h.1), ih _ h.2, List.append_assoc]
    rfl

theorem splitLoop_field (seperator : UInt8) (limit count : ℕ) (field s rest : Bytes)
    (h : seperator ∉ s) : splitLoop seperator limit count field (s++seperator::rest) =
      if count+1 = limit then [field++s, rest]
      else (field++s)::splitLoop seperator limit (count+1) [] rest := by
  induction s generalizing field with
  | nil => simp [splitLoop]
  | cons c s ih =>
    simp only [List.mem_cons, not_or] at h
    rw [List.cons_append, splitLoop, if_neg (Ne.symm h.1), ih _ h.2, List.append_assoc]
    rfl

/-- Fields with separators between them are the fields again. -/
theorem splitLoop_intercalate (seperator : UInt8) (limit count : ℕ) (fields : List Bytes)
    (hne : fields ≠ []) (hfree : ∀ field ∈ fields, seperator ∉ field)
    (hlimit : count+fields.length ≤ limit+1) :
    splitLoop seperator limit count [] ([seperator].intercalate fields) = fields := by
  induction fields generalizing count with
  | nil => exact absurd rfl hne
  | cons field fields ih =>
    cases fields with
    | nil => simpa using splitLoop_free seperator limit count [] field (hfree field (by simp))
    | cons next fields =>
      simp only [List.length_cons] at hlimit
      rw [List.intercalate_cons_cons, List.append_assoc, List.singleton_append,
        splitLoop_field _ _ _ _ _ _ (hfree field (by simp)), List.nil_append]
      split
      · next hlast =>
        obtain rfl : fields = [] := List.eq_nil_of_length_eq_zero (by omega)
        simp
      · rw [ih (count+1) (by simp) (fun f hf => hfree f (List.mem_cons_of_mem _ hf))
          (by simp only [List.length_cons]; omega)]

theorem length_intercalate (seperator : UInt8) (fields : List Bytes) :
    fields.length ≤ ([seperator].intercalate fields).length+1 := by
  induction fields with
  | nil => simp
  | cons field fields ih =>
    cases fields with
    | nil => simp
    | cons next fields =>
      rw [List.intercalate_cons_cons, List.length_append, List.length_append,
        List.length_singleton, List.length_cons]
      omega

/-- Asked for no number of fields, `split` undoes the joining of any text there is. -/
theorem split_intercalate (seperator : UInt8) (fields : List Bytes) (hne : fields ≠ [])
    (hfree : ∀ field ∈ fields, seperator ∉ field)
    (hsize : ([seperator].intercalate fields).length < 18446744073709551616) :
    split ([seperator].intercalate fields) seperator 0 = fields := by
  have hlimit : sizeT (((0:ℕ):ℤ)-1) = 18446744073709551615 := by decide
  have hlen := length_intercalate seperator fields
  rw [split, hlimit]
  exact splitLoop_intercalate seperator _ 0 fields hne hfree (by omega)

/-- Lines, with the end of line behind each. -/
def unlines (lines : List Bytes) : Bytes := lines.flatMap (·++[10])

theorem unlines_intercalate (lines : List Bytes) :
    unlines lines = [10].intercalate (lines++[[]]) := by
  induction lines with
  | nil => rfl
  | cons line lines ih =>
    have hne : lines++[[]] ≠ [] := by simp
    obtain ⟨next, rest, hnext⟩ := List.exists_cons_of_ne_nil hne
    rw [List.cons_append, hnext, List.intercalate_cons_cons, ← hnext, ← ih]
    exact List.flatMap_cons

/-- Behind the last end of line there is one more field. -/
theorem split_unlines (lines : List Bytes) (hfree : ∀ line ∈ lines, 10 ∉ line)
    (hsize : (unlines lines).length < 18446744073709551616) :
    split (unlines lines) 10 0 = lines++[[]] := by
  rw [unlines_intercalate] at hsize ⊢
  refine split_intercalate 10 (lines++[[]]) (by simp) (fun field hf => ?_) hsize
  rcases List.mem_append.mp hf with hf | hf
  · exact hfree field hf
  · rw [List.mem_singleton.mp hf]
    exact List.not_mem_nil

theorem unlines_length (lines : List Bytes) (line : Bytes) (h : line ∈ lines) :
    line.length < (unlines lines).length := by
  have hline : line++[10] <:+: unlines lines := by
    rw [unlines, List.flatMap_def]
    exact List.infix_of_mem_flatten (List.mem_map_of_mem h)
  have hlen := hline.length_le
  rw [List.length_append] at hlen
  exact hlen

theorem splitLoop_joined (seperator : UInt8) (limit count : ℕ) (field s : Bytes) :
    splitLoop seperator limit count field s ≠ [] ∧
      [seperator].intercalate (splitLoop seperator limit count field s) = field++s := by
  induction s generalizing count field with
  | nil => simp [splitLoop]
  | cons c s ih =>
    rw [splitLoop]
    by_cases hc : c = seperator
    · subst hc
      rw [if_pos rfl]
      split
      · simp [List.intercalate_cons_cons]
      · obtain ⟨hne, hjoin⟩ := ih (count+1) []
        rw [List.intercalate_cons_of_ne_nil hne, hjoin]
        simp
    · rw [if_neg hc, List.append_cons field c s]
      exact ih count (field++[c])

/-- The fields with the separators between them are the text. -/
theorem split_joined (s : Bytes) (seperator : UInt8) (maxElements : ℕ) :
    [seperator].intercalate (split s seperator maxElements) = s :=
  (splitLoop_joined seperator _ 0 [] s).2

theorem splitLoop_length (seperator : UInt8) (limit count : ℕ) (field s : Bytes)
    (hlimit : count+s.count seperator < limit) :
    (splitLoop seperator limit count field s).length = s.count seperator+1 := by
  induction s generalizing count field with
  | nil => rfl
  | cons c s ih =>
    rw [splitLoop]
    by_cases hc : c = seperator
    · subst hc
      rw [List.count_cons_self] at hlimit ⊢
      rw [if_pos rfl, if_neg (by omega), List.length_cons, ih _ _ (by omega)]
    · rw [List.count_cons_of_ne hc] at hlimit ⊢
      rw [if_neg hc, ih _ _ hlimit]

/-- There is one field more than there are separators. -/
theorem split_length (s : Bytes) (seperator : UInt8) (hsize : s.length < 18446744073709551615) :
    (split s seperator 0).length = s.count seperator+1 := by
  have hlimit : sizeT (((0:ℕ):ℤ)-1) = 18446744073709551615 := by decide
  have hcount := List.count_le_length (a := seperator) (l := s)
  rw [split, hlimit]
  exact splitLoop_length seperator _ 0 [] s (by omega)

example : split (bytes "a=b=c") 61 0 = [bytes "a", bytes "b", bytes "c"] := by decide

end Bakaneko.Text
