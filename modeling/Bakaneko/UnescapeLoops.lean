import Bakaneko.DriveList

/-!
# The loops that take escapes out

`Info::Drives` puts a text together anew behind each escape, `Info::Services`
inserts the letter and erases the escape in place. Where two hexadecimal
digits follow every mark, both leave the text the escapes stand for; but the
bound of the second loop wraps on the empty string.
-/

set_option autoImplicit false

namespace Bakaneko.UnescapeLoops
open Bakaneko.Native Bakaneko.Messages Bakaneko.SystemdUnits EscapedText

section
variable (isprint : UInt8 → Bool)

/-- What `lsblk` writes as `\x` and two digits. -/
def Unsafe (c : UInt8) : Prop := c = 92 ∨ c = 32 ∨ c = 9 ∨ isprint c = false

instance (c : UInt8) : Decidable (Unsafe isprint c) := inferInstanceAs (Decidable (_ ∨ _))

/-- A text as `lsblk` writes it, with digits of either case. -/
inductive Escaped : Bytes → Bytes → Prop where
  | nil : Escaped [] []
  | plain (c : UInt8) (s text : Bytes) : ¬ Unsafe isprint c → Escaped s text →
      Escaped (c::s) (c::text)
  | escape (c high low : UInt8) (s text : Bytes) : Unsafe isprint c →
      hexDigit high = some (c.toNat/16) → hexDigit low = some (c.toNat%16) → Escaped s text →
      Escaped (c::s) (92::120::high::low::text)

def hexLetter (n : ℕ) : UInt8 := UInt8.ofNat (if n < 10 then 48+n else 87+n)

/-- The digits `printf` writes for `%02x`. -/
def lsblkEscape (s : Bytes) : Bytes :=
  s.flatMap fun c => if Unsafe isprint c then [92, 120, hexLetter (c.toNat/16), hexLetter (c.toNat%16)]
    else [c]

end

/-- The bound `size() - 1` of the loop. -/
def lastIndex (s : Bytes) : ℕ := if s = [] then 18446744073709551615 else s.length-1

/-- The loop of `Info::Services` from the character at `a`, which stops at an
access outside of the string. The bus carries no message of 2^31 bytes, so that
the `int` that counts comes to the end of every string but the empty one. -/
def unescapeFrom (s : Bytes) (a : ℕ) : Except Failure Bytes :=
  if a < lastIndex s then
    if a < s.length then
      if s[a]? = some 92 then
        if a+1 < s.length then
          if s[a+1]? = some 120 then
            match stoull ((s.drop (a+2)).take 2) with
            | .error e => .error (.exception e)
            | .ok letter =>
              let inserted := s.take a++UInt8.ofNat letter::s.drop a
              unescapeFrom (inserted.take (a+1)++inserted.drop (a+5)) (a+1)
          else unescapeFrom s (a+1)
        else .error (.undefined .pastEnd)
      else unescapeFrom s (a+1)
    else .error (.undefined .pastEnd)
  else .ok s
termination_by s.length-a
decreasing_by
  · simp only [List.length_append, List.length_take, List.length_drop, List.length_cons]
    omega
  · omega
  · omega

def WellEscaped (s : Bytes) : Prop := ∀ text, Escape++text <:+ s →
  ∃ high low rest, text = high::low::rest ∧ (hexDigit high).isSome ∧ (hexDigit low).isSome

/-- Both loops end with the same text, and the second one without leaving it. -/
def Agree (s : Bytes) : Prop := ∃ t, unescapeFrom s 0 = .ok t ∧ DriveList.unescape s = .ok t

theorem hexDigit_plain (c : UInt8) (n : ℕ) (h : hexDigit c = some n) :
    n < 16 ∧ isspace c = false ∧ c ≠ 45 ∧ c ≠ 43 := by
  unfold hexDigit isdigit at h
  refine ⟨?_, ?_⟩
  · simp only [UInt8.le_iff_toNat_le] at h
    grind
  · unfold isspace
    grind

theorem hexDigits_pair (high low : UInt8) (hh : (hexDigit high).isSome)
    (hl : (hexDigit low).isSome) : hexDigits [high, low] = [high, low] := by
  unfold hexDigits
  split
  · next heq => cases heq
  · simp [hh, hl]

section
variable (high low : UInt8) (h l : ℕ) (rest : Bytes)
  (hh : hexDigit high = some h) (hl : hexDigit low = some l)
include hh hl

theorem stoi16_pair : DriveList.stoi16 [high, low] = .ok (((16*h+l:ℕ):ℤ), 2) := by
  obtain ⟨hh16, hspace, hminus, hplus⟩ := hexDigit_plain high h hh
  obtain ⟨hl16, -⟩ := hexDigit_plain low l hl
  have hdigits := hexDigits_pair high low (by simp [hh]) (by simp [hl])
  have hrange : IsInt32 ((16*h+l:ℕ):ℤ) := by
    unfold IsInt32
    omega
  have hprefix : DriveList.hexPrefix [high, low] = 0 := by simp [DriveList.hexPrefix]
  have hdrop : [high, low].dropWhile isspace = [high, low] := by simp [hspace]
  unfold DriveList.stoi16
  simp only [hdrop, List.head?_cons, Option.some.injEq, hminus, hplus, or_self, if_false,
    List.drop_zero, hdigits, List.foldl_cons, List.foldl_nil, hh, hl, Option.getD_some]
  rw [if_neg (List.cons_ne_nil _ _), Nat.mul_zero, Nat.zero_add, if_pos hrange, hprefix]
  rfl

theorem stoull_pair : stoull [high, low] = .ok (16*h+l) := by
  obtain ⟨hh16, hspace, hminus, hplus⟩ := hexDigit_plain high h hh
  obtain ⟨hl16, -⟩ := hexDigit_plain low l hl
  have hdigits := hexDigits_pair high low (by simp [hh]) (by simp [hl])
  have hdrop : [high, low].dropWhile isspace = [high, low] := by simp [hspace]
  unfold stoull
  simp only [hdrop, List.head?_cons, Option.some.injEq, hminus, hplus, or_self, if_false,
    List.drop_zero, hdigits, List.foldl_cons, List.foldl_nil, hh, hl, Option.getD_some]
  rw [if_neg (List.cons_ne_nil _ _), Nat.mul_zero, Nat.zero_add, if_neg (by omega)]

theorem chararOf_pair : DriveList.chararOf (high::low::rest) = some (UInt8.ofNat (16*h+l), 2) := by
  have hh16 := (hexDigit_plain high h hh).1
  have hl16 := (hexDigit_plain low l hl).1
  have hvalue : ((((16*h+l:ℕ):ℤ))%256).toNat = 16*h+l := by omega
  rw [DriveList.chararOf, List.take_succ_cons, List.take_succ_cons, List.take_zero,
    stoi16_pair high low h l hh hl]
  dsimp only
  rw [hvalue]

theorem letterOf_pair : letterOf (high::low::rest) = some (UInt8.ofNat (16*h+l), 2) := by
  rw [letterOf, List.take_succ_cons, List.take_succ_cons, List.take_zero,
    stoull_pair high low h l hh hl]

end

section
variable (isprint : UInt8 → Bool)

theorem hexDigit_hexLetter (n : ℕ) (h : n < 16) : hexDigit (hexLetter n) = some n := by
  interval_cases n <;> rfl

theorem lsblkEscape_escaped (s : Bytes) : Escaped isprint s (lsblkEscape isprint s) := by
  induction s with
  | nil => exact .nil
  | cons c s ih =>
    have hcons : lsblkEscape isprint (c::s) = (if Unsafe isprint c then
        [92, 120, hexLetter (c.toNat/16), hexLetter (c.toNat%16)] else [c])++
          lsblkEscape isprint s := List.flatMap_cons
    have hc := c.toNat_lt
    rw [hcons]
    split
    · next hu =>
      exact .escape c _ _ s _ hu (hexDigit_hexLetter _ (by omega))
        (hexDigit_hexLetter _ (by omega)) ih
    · next hu => exact .plain c s _ hu ih

theorem escaped_standsFor (s text : Bytes) (h : Escaped isprint s text) :
    EscapedText.StandsFor Escape DriveList.chararOf text s := by
  induction h with
  | nil => exact .nil
  | plain c s text hc _ ih =>
    refine .plain c text s (fun hmark => hc (.inl ?_)) ih
    obtain ⟨-, hc, -⟩ := escape_cons c text hmark
    exact hc
  | escape c high low s text _ hh hl _ ih =>
    have hvalue : 16*(c.toNat/16)+c.toNat%16 = c.toNat := Nat.div_add_mod c.toNat 16
    refine .escape (high::low::text) c 2 s ?_ ih
    rw [chararOf_pair high low _ _ text hh hl, hvalue, UInt8.ofNat_toNat]

/-- The loop of `Info::Drives` undoes what `lsblk` has done to a text. -/
theorem unescape_escaped (s text : Bytes) (h : Escaped isprint s text) :
    DriveList.unescape text = .ok s :=
  (DriveList.unescape_iff text s).mpr (escaped_standsFor isprint s text h)

/-- A decoded backslash in front of `x41` stays one. -/
theorem unescape_escaped_twice :
    DriveList.unescape [92, 120, 53, 99, 120, 52, 49] = .ok [92, 120, 52, 49] :=
  unescape_escaped (fun c => 33 ≤ c && c ≤ 126) _ _
    (lsblkEscape_escaped (fun c => 33 ≤ c && c ≤ 126) [92, 120, 52, 49])

theorem newDrive_model (s name : Bytes) (info : List Bytes) (drive : Drive) (text : Bytes)
    (h : Escaped isprint s text) (hinfo : info[2]? = some text)
    (hdrive : DriveList.newDrive name info = .ok drive) : drive.model = s := by
  obtain ⟨-, -, -, -, field, hf, hm⟩ := DriveList.newDrive_ok name info drive hdrive
  cases hinfo.symm.trans hf
  have hs := (DriveList.unescape_iff text s).mpr (escaped_standsFor isprint s text h)
  exact Except.ok.inj (hm.symm.trans hs)

theorem newPartition_mountpoint (exec : DriveList.Exec) (s name : Bytes) (info : List Bytes)
    (partition : Partition) (text : Bytes) (h : Escaped isprint s text)
    (hinfo : info[1]? = some text)
    (hpart : DriveList.newPartition exec name info = .ok partition) : partition.mountpoint = s := by
  obtain ⟨-, ⟨field, hf, hm⟩, -⟩ := DriveList.newPartition_ok exec name info partition hpart
  cases hinfo.symm.trans hf
  have hs := (DriveList.unescape_iff text s).mpr (escaped_standsFor isprint s text h)
  exact Except.ok.inj (hm.symm.trans hs)

end

theorem unescapeLoop_escape (text : Bytes) : unescapeLoop 0 (92::120::text) = do
    let letter ← stoull (text.take 2)
    let tail ← unescapeLoop 0 (text.drop 2)
    return UInt8.ofNat letter::tail := by
  have hmark : Escape <+: 92::120::text := ⟨text, rfl⟩
  rw [unescapeLoop, if_pos hmark, unescapeLoop_skip]
  rfl

theorem unescapeLoop_plain (c : UInt8) (text : Bytes) (h : ¬ Escape <+: c::text) :
    unescapeLoop 0 (c::text) = (unescapeLoop 0 text).map (c::·) := by
  rw [unescapeLoop, if_neg h]
  cases unescapeLoop 0 text <;> rfl

theorem take_succ (s : Bytes) (a : ℕ) (h : a < s.length) : s.take (a+1) = s.take a++[s[a]] := by
  rw [List.take_add_one, List.getElem?_eq_getElem h, Option.toList_some]

/-- What stands in front of the loop stays as it is. -/
theorem unescapeLoop_step (s : Bytes) (a : ℕ) (h : a < s.length)
    (hmark : ¬ (s[a]? = some 92 ∧ s[a+1]? = some 120)) :
    (unescapeLoop 0 (s.drop (a+1))).map (s.take (a+1)++·) =
      (unescapeLoop 0 (s.drop a)).map (s.take a++·) := by
  have hplain : ¬ Escape <+: s[a]::s.drop (a+1) := by
    rw [← List.drop_eq_getElem_cons h, DriveList.escape_drop]
    exact hmark
  rw [List.drop_eq_getElem_cons h, unescapeLoop_plain _ _ hplain, take_succ s a h]
  cases unescapeLoop 0 (s.drop (a+1)) with
  | error e => rfl
  | ok tail => exact congrArg Except.ok (List.append_assoc _ _ _)

theorem unescapeLoop_end (s : Bytes) (a : ℕ) (ha : a ≤ s.length) (hlast : s.length ≤ a+1) :
    (unescapeLoop 0 (s.drop a)).map (s.take a++·) = .ok s := by
  have hend : (unescapeLoop 0 (s.drop s.length)).map (s.take s.length++·) = .ok s := by
    rw [List.drop_length, List.take_length]
    exact congrArg Except.ok (List.append_nil s)
  obtain rfl | ha := Nat.eq_or_lt_of_le ha
  · exact hend
  · obtain hnext : a+1 = s.length := Nat.le_antisymm ha hlast
    rw [← unescapeLoop_step s a ha (by simp [hnext]), hnext, hend]

/-- On a string that is not empty the loop in place stays inside of it. -/
theorem unescapeFrom_eq (s : Bytes) (a : ℕ) (hs : s ≠ []) (ha : a ≤ s.length) :
    unescapeFrom s a =
      ((unescapeLoop 0 (s.drop a)).map (s.take a++·)).mapError Failure.exception := by
  fun_induction unescapeFrom s a with
  | case1 s a hlast hin hmark hin' hx e he =>
    have hdrop : s.drop a = 92::120::s.drop (a+2) :=
      DriveList.drop_mark s a ((DriveList.escape_drop s a).mpr ⟨hmark, hx⟩)
    rw [hdrop, unescapeLoop_escape, he]
    rfl
  | case2 s a hlast hin hmark hin' hx letter hl inserted ih =>
    have hdrop : s.drop a = 92::120::s.drop (a+2) :=
      DriveList.drop_mark s a ((DriveList.escape_drop s a).mpr ⟨hmark, hx⟩)
    have htake : inserted.take (a+1) = s.take a++[UInt8.ofNat letter] := by
      simp [inserted, List.take_append, Nat.min_eq_left ha]
    have hrest : inserted.drop (a+5) = (s.drop (a+2)).drop 2 := by
      simp [inserted, List.drop_append, Nat.min_eq_left ha]
    have hlen : (inserted.take (a+1)).length = a+1 := by
      rw [htake, List.length_append, List.length_take, Nat.min_eq_left ha]
      rfl
    rw [ih (by simp [htake]) (by rw [List.length_append]; omega), List.drop_left' hlen,
      List.take_left' hlen, hdrop, unescapeLoop_escape, hl, htake, hrest]
    cases unescapeLoop 0 ((s.drop (a+2)).drop 2) <;>
      simp [Except.map, bind, Except.bind, pure, Except.pure, Except.mapError]
  | case3 s a hlast hin hmark hin' hx ih =>
    rw [ih hs hin, unescapeLoop_step s a hin fun h => hx h.2]
  | case4 s a hlast hin hmark hout =>
    rw [lastIndex, if_neg hs] at hlast
    omega
  | case5 s a hlast hin hmark ih =>
    rw [ih hs hin, unescapeLoop_step s a hin fun h => hmark h.1]
  | case6 s a hlast hout =>
    rw [lastIndex, if_neg hs] at hlast
    omega
  | case7 s a hlast =>
    rw [lastIndex, if_neg hs] at hlast
    rw [unescapeLoop_end s a ha (by omega)]
    rfl

/-- The loop over the characters, as the list of units has it. -/
theorem unescape_eq (s : Bytes) : SystemdUnits.unescape s = unescapeFrom s 0 := by
  rw [SystemdUnits.unescape]
  split
  · next hs =>
    subst hs
    unfold unescapeFrom
    rfl
  · next hs =>
    rw [unescapeFrom_eq s 0 hs (Nat.zero_le _)]
    cases h : unescapeLoop 0 s <;> simp [h, Except.map, Except.mapError]

theorem wellEscaped_nil : WellEscaped [] := fun text htext => by simp [Escape] at htext

theorem wellEscaped_pair (s text : Bytes) (h : WellEscaped s) (hs : Escape++text <:+ s) :
    ∃ c, letterOf text = some (c, 2) ∧ DriveList.chararOf text = some (c, 2) := by
  obtain ⟨high, low, rest, rfl, hh, hl⟩ := h text hs
  obtain ⟨m, hm⟩ := Option.isSome_iff_exists.mp hh
  obtain ⟨n, hn⟩ := Option.isSome_iff_exists.mp hl
  exact ⟨_, letterOf_pair high low m n rest hm hn, chararOf_pair high low m n rest hm hn⟩

theorem drive_unescape_ok (s : Bytes) (h : WellEscaped s) : ∃ t, DriveList.unescape s = .ok t := by
  obtain ⟨t, ht⟩ := standsFor_exists (List.cons_ne_nil 92 [120]) s fun text htext => by
    obtain ⟨c, -, hc⟩ := wellEscaped_pair s text h htext
    exact ⟨c, 2, hc⟩
  exact ⟨t, (DriveList.unescape_iff s t).mpr ht⟩

/-- The two loops come to the same text, but for the empty string. -/
theorem agree_iff (s : Bytes) (h : WellEscaped s) : Agree s ↔ s ≠ [] := by
  constructor
  · rintro ⟨t, ht, -⟩
    rw [← unescape_eq] at ht
    exact ((SystemdUnits.unescape_iff s t).mp ht).1
  · intro hs
    obtain ⟨t, ht⟩ := drive_unescape_ok s h
    refine ⟨t, ?_, ht⟩
    rw [← unescape_eq, SystemdUnits.unescape_iff]
    refine ⟨hs, ((DriveList.unescape_iff s t).mp ht).congr fun text htext => ?_⟩
    obtain ⟨c, hc, hc'⟩ := wellEscaped_pair s text h htext
    rw [hc, hc']

theorem agree_iff_letter : Agree [92, 120, 52, 49] ↔ ([92, 120, 52, 49] : Bytes) ≠ [] :=
  agree_iff _ fun text htext => by
    obtain rfl : text = [52, 49] := by simpa [Escape, List.suffix_cons_iff] using htext
    exact ⟨52, 49, [], rfl, rfl, rfl⟩

/-- The bound of the loop in place wraps on the empty string. -/
theorem agree_empty : WellEscaped [] ∧ ¬ Agree [] := by
  refine ⟨wellEscaped_nil, ?_⟩
  rintro ⟨t, ht, -⟩
  unfold unescapeFrom at ht
  cases ht

end Bakaneko.UnescapeLoops
