import Bakaneko.TerminalColumns

/-!
# Parameters of escape sequences

`parse_buffer` reads its parameters with `std::stoi` and takes the digits of
a colour code as an index. Both can fail only on the text of the parameters:
the one index kept between sequences never leaves the palette. `K` reads no
parameter that fails and returns whenever it may store its blanks.
-/

set_option autoImplicit false

namespace Bakaneko.TerminalSequences
open Bakaneko.Native Bakaneko.Terminal Bakaneko.TerminalFrame Bakaneko.TerminalColumns PartialRun Fallible

def parseReturns : Event → Linux → Prop
  | .letter env c, t => t.commandBuffer.head? = some 27 → isalpha c →
      ∃ u, parseBuffer env ((t.commandBuffer++[c]).drop 1) t = .ok u
  | .finish _, _ => True

/-- Every call of `parse_buffer` returns; no numeral and no index fails. -/
def ParseInvariant (calls : List Call) : Prop :=
  Meets step parseReturns (addTexts calls) init ∧ Never step Parsing (addTexts calls) init

/-- Each field the loop of `m` reads is a numeral outside the two pairs of
codes behind the palette; 38 and 48 end the loop. -/
def sgrText : ℕ → Bytes → Prop
  | _, [] => True
  | o+1, _::rest => sgrText o rest
  | 0, c::rest => ∃ value o, stoi (c::rest) = .ok (value, o) ∧
      value ∉ [98, 99, 108, 109] ∧ (value ∈ [38, 48] ∨ sgrText o rest)

def parameters (b : Bytes) : Final → Prop
  | .m => (b.drop 1).length ≤ 1 ∨ sgrText 0 (b.drop 1)
  | .D | .C | .A | .B => 2 < b.length → ∃ v, stoi (b.drop 1) = .ok v
  | _ => True

def erasable (env : Env) (b : Bytes) (t : Linux) : Prop :=
  (eraseBounds env b t).1.val < (eraseBounds env b t).2.val →
    t.data.length < sizeT t.currentLine.val ∨
    (RowPresent t ∧ 0 ≤ (eraseBounds env b t).1.val)

/-- What a byte needs of the state in front of it. -/
def ParseStep : Event → Linux → Prop
  | .letter env c, t => match action c t with
    | .sequence final b => parameters b final ∧ (final = .K → erasable env b t)
    | _ => True
  | .finish _, _ => True

def PaletteSafe (t : Linux) : Prop := 0 ≤ t.foregroundIndex ∧ t.foregroundIndex ≤ 7

theorem palate_ok (color : ℤ) (h0 : 0 ≤ color) (h7 : color ≤ 7) :
    ∃ c, palate color = .ok c := by
  have hs : sizeT color = color.toNat := sizeT_of_nonneg h0 (by omega)
  have hl : color.toNat < colorPalate.length := by
    have : colorPalate.length = 8 := rfl
    omega
  exact ⟨colorPalate[color.toNat], by rw [palate, hs, List.getElem?_eq_getElem hl]⟩

theorem reset_palette (type : ℕ) (t : Linux) (ht : PaletteSafe t) : PaletteSafe (reset type t) := by
  have h0 : (reset type t).foregroundIndex = 0 ∨
      (reset type t).foregroundIndex = t.foregroundIndex := by
    simp only [reset]
    repeat' split
    all_goals simp
  unfold PaletteSafe at *
  omega

theorem setForeground_goes (color : ℤ) (t : Linux) (h0 : 0 ≤ color) (h7 : color ≤ 7) :
    ∃ u, setForeground color t = .ok u ∧ PaletteSafe u := by
  obtain ⟨c, hc⟩ := palate_ok color h0 h7
  exact ⟨_, by rw [setForeground, hc], h0, h7⟩

theorem setColor_goes (color : ℤ) (t : Linux) (f : QColor × QColor → Linux)
    (hf : ∀ c, (f c).foregroundIndex = t.foregroundIndex) (ht : PaletteSafe t)
    (h0 : 0 ≤ color) (h7 : color ≤ 7) : ∃ u, setColor color f = .ok u ∧ PaletteSafe u := by
  obtain ⟨c, hc⟩ := palate_ok color h0 h7
  exact ⟨f c, by rw [setColor, hc], by rwa [PaletteSafe, hf c]⟩

/-- A colour code inside its palette, and not one that leaves the loop. -/
theorem sgrColor_goes (group color : ℤ) (t : Linux) (ht : PaletteSafe t)
    (hin : group ∈ [30, 40, 90, 100] → 0 ≤ color ∧ color ≤ 9)
    (h8 : group ∈ [30, 40] → color ≠ 8) (h9 : group ∈ [90, 100] → color ≤ 7) :
    ∃ u, sgrColor group color t = .ok (false, u) ∧ PaletteSafe u := by
  have wrap : ∀ x : Except Fault Linux, (∃ u, x = .ok u ∧ PaletteSafe u) →
      ∃ u, x.map (false, ·) = .ok (false, u) ∧ PaletteSafe u := by
    rintro x ⟨u, rfl, hu⟩
    exact ⟨u, rfl, hu⟩
  unfold sgrColor
  by_cases h20 : group = 20
  · rw [if_pos h20]
    refine ⟨_, rfl, ?_⟩
    split <;> exact ht
  rw [if_neg h20]
  by_cases h30 : group = 30
  · obtain ⟨hc0, hc9⟩ := hin (by simp [h30])
    have hc8 := h8 (by simp [h30])
    rw [if_pos h30]
    by_cases hr : color = 9
    · exact ⟨_, by rw [if_pos hr], reset_palette 1 t ht⟩
    · rw [if_neg hr, if_neg hc8]
      exact wrap _ (setForeground_goes color t hc0 (by omega))
  rw [if_neg h30]
  by_cases h40 : group = 40
  · obtain ⟨hc0, hc9⟩ := hin (by simp [h40])
    have hc8 := h8 (by simp [h40])
    rw [if_pos h40]
    by_cases hr : color = 9
    · exact ⟨_, by rw [if_pos hr], reset_palette 2 t ht⟩
    · rw [if_neg hr, if_neg hc8]
      exact wrap _ (setColor_goes color t _ (fun c => rfl) ht hc0 (by omega))
  rw [if_neg h40]
  by_cases h90 : group = 90
  · rw [if_pos h90]
    exact wrap _ (setColor_goes color t _ (fun c => rfl) ht (hin (by simp [h90])).1
      (h9 (by simp [h90])))
  rw [if_neg h90]
  by_cases h100 : group = 100
  · rw [if_pos h100]
    exact wrap _ (setColor_goes color t _ (fun c => rfl) ht (hin (by simp [h100])).1
      (h9 (by simp [h100])))
  rw [if_neg h100]
  exact ⟨t, rfl, ht⟩

theorem digit_bounds (value : ℤ) :
    (0 ≤ value → 0 ≤ value.tmod 10 ∧ value.tmod 10 ≤ 9) ∧
    (value < 0 → value.tmod 10 ≤ 0 ∧ value ≤ value.tmod 10) := by
  constructor
  · intro h
    rw [Int.tmod_eq_emod_of_nonneg h]
    omega
  · intro h
    have hn : value.tmod 10 = -((-value)%10) := by
      rw [← Int.tmod_eq_emod_of_nonneg (by omega), Int.neg_tmod, neg_neg]
    rw [hn]
    omega

theorem sgrCode_palette (value : ℤ) (t : Linux) (h : value ∈ [98, 99, 108, 109]) :
    sgrCode value t = .error .palette := by
  have hs : ∀ g : ℤ, g ≠ 30 → g ≠ 40 → swapGroup t g = g := by
    intro g h3 h4
    simp [swapGroup, h3, h4]
  simp only [List.mem_cons, List.not_mem_nil, or_false] at h
  obtain rfl | rfl | rfl | rfl := h
  all_goals
    simp only [sgrCode, Int.reduceTMod, Int.reduceSub, hs _ (by decide : (90:ℤ) ≠ 30) (by decide),
      hs _ (by decide : (100:ℤ) ≠ 30) (by decide)]
    rfl

theorem sgrCode_leaves (value : ℤ) (t : Linux) (h : value ∈ [38, 48]) :
    sgrCode value t = .ok (true, t) := by
  simp only [List.mem_cons, List.not_mem_nil, or_false] at h
  obtain rfl | rfl := h
  all_goals
    cases hs : t.swaped <;> simp [sgrCode, swapGroup, sgrAttribute, sgrColor, hs]

theorem swapGroup_cases (t : Linux) (group : ℤ) :
    (swapGroup t group ∈ [30, 40] ∧ group ∈ [30, 40]) ∨
    (swapGroup t group = group ∧ group ∉ [30, 40]) := by
  simp only [List.mem_cons, List.not_mem_nil, or_false]
  unfold swapGroup
  repeat' split
  all_goals omega

theorem sgrAttribute_zero (color : ℤ) (t : Linux) (ht : PaletteSafe t) :
    ∃ group c u, sgrAttribute 0 color t = (group, c, u) ∧ PaletteSafe u ∧
      (group = 0 ∨ (group = 30 ∧ 0 ≤ c ∧ c ≤ 7)) := by
  unfold sgrAttribute
  rw [if_pos rfl]
  split
  · exact ⟨_, _, _, rfl, ht, .inr ⟨rfl, ht⟩⟩
  split
  · exact ⟨_, _, _, rfl, ht, .inr ⟨rfl, ht⟩⟩
  split
  · exact ⟨_, _, _, rfl, ht, .inl rfl⟩
  split
  · exact ⟨_, _, _, rfl, reset_palette 3 t ht, .inl rfl⟩
  · exact ⟨_, _, _, rfl, ht, .inl rfl⟩

theorem sgrCode_goes (value : ℤ) (t : Linux) (ht : PaletteSafe t)
    (hp : value ∉ [98, 99, 108, 109]) (hl : value ∉ [38, 48]) :
    ∃ u, sgrCode value t = .ok (false, u) ∧ PaletteSafe u := by
  have hd := digit_bounds value
  simp only [List.mem_cons, List.not_mem_nil, or_false] at hp hl
  unfold sgrCode
  dsimp only
  generalize hcolor : value.tmod 10 = color at hd ⊢
  obtain ⟨hin, hout⟩ | ⟨heq, hout⟩ := swapGroup_cases t (value-color)
  · have hattr : sgrAttribute (swapGroup t (value-color)) color t =
        (swapGroup t (value-color), color, t) := by
      unfold sgrAttribute
      rw [if_neg]
      intro h
      simp [h] at hin
    simp only [List.mem_cons, List.not_mem_nil, or_false] at hin hout
    rw [hattr]
    change ∃ u, sgrColor (swapGroup t (value-color)) color t = .ok (false, u) ∧ PaletteSafe u
    refine sgrColor_goes _ _ t ht (fun _ => by omega) (fun _ => by omega) fun h => ?_
    simp only [List.mem_cons, List.not_mem_nil, or_false] at h
    omega
  · simp only [List.mem_cons, List.not_mem_nil, or_false] at hout
    rw [heq]
    by_cases h0 : value-color = 0
    · obtain ⟨group, c, u, hattr, hu, hg⟩ := sgrAttribute_zero color t ht
      rw [h0, hattr]
      refine sgrColor_goes group c u hu ?_ ?_ ?_ <;> intro h <;>
        simp only [List.mem_cons, List.not_mem_nil, or_false] at h <;> omega
    · have hattr : sgrAttribute (value-color) color t = (value-color, color, t) := if_neg h0
      rw [hattr]
      change ∃ u, sgrColor (value-color) color t = .ok (false, u) ∧ PaletteSafe u
      refine sgrColor_goes _ _ t ht ?_ ?_ ?_ <;> intro h <;>
        simp only [List.mem_cons, List.not_mem_nil, or_false] at h <;> omega

theorem sgrLoop_palette (many : Bool) (o : ℕ) (text : Bytes) (t u : Linux) (ht : PaletteSafe t)
    (h : sgrLoop many o text t = .ok u) : PaletteSafe u := by
  induction text generalizing o t with
  | nil =>
    obtain rfl : t = u := by cases o <;> simpa [sgrLoop] using h
    exact ht
  | cons c rest ih =>
    cases o with
    | succ o => exact ih o t ht h
    | zero =>
      rw [sgrLoop] at h
      split at h
      · cases h
      case _ value o _ =>
        by_cases hp : value ∈ [98, 99, 108, 109]
        · simp [sgrCode_palette value t hp] at h
        by_cases hl : value ∈ [38, 48]
        · rw [sgrCode_leaves value t hl] at h
          cases h
          exact ht
        · obtain ⟨v, hv, hsafe⟩ := sgrCode_goes value t ht hp hl
          rw [hv] at h
          exact ih o v hsafe h

/-- The loop over a text with parameters returns exactly on the texts whose
fields it can read. -/
theorem sgrLoop_returns (o : ℕ) (text : Bytes) (t : Linux) (ht : PaletteSafe t) :
    sgrText o text ↔ ∃ u, sgrLoop true o text t = .ok u := by
  induction text generalizing o t with
  | nil => exact iff_of_true (by cases o <;> trivial) ⟨t, by cases o <;> rfl⟩
  | cons c rest ih =>
    cases o with
    | succ o => exact ih o t ht
    | zero =>
      simp only [sgrText, sgrLoop, if_true, stoiFault]
      cases hs : stoi (c::rest) with
      | error x => simp [Except.mapError]
      | ok r =>
        obtain ⟨value, o⟩ := r
        simp only [Except.mapError, Except.ok.injEq, Prod.mk.injEq, exists_and_left,
          exists_eq_left', and_assoc]
        by_cases hp : value ∈ [98, 99, 108, 109]
        · simp [sgrCode_palette value t hp, hp]
        by_cases hl : value ∈ [38, 48]
        · simp [sgrCode_leaves value t hl, hp, hl]
        · obtain ⟨v, hv, hsafe⟩ := sgrCode_goes value t ht hp hl
          simp only [hv, hp, hl, not_false_eq_true, true_and, false_or]
          exact ih o v hsafe

theorem parseM_returns (b : Bytes) (t : Linux) (ht : PaletteSafe t) :
    parameters b .m ↔ ∃ u, parseM b t = .ok u := by
  unfold parameters parseM
  by_cases h1 : (b.drop 1).length ≤ 1
  · refine iff_of_true (.inl h1) ?_
    rw [decide_eq_false (by omega)]
    match hb : b.drop 1, h1 with
    | [], _ => exact ⟨t, rfl⟩
    | [c], _ =>
      obtain ⟨v, hv, -⟩ := sgrCode_goes 0 t ht (by decide) (by decide)
      exact ⟨v, by simp [sgrLoop, hv]⟩
  · rw [decide_eq_true (by omega)]
    simp only [h1, false_or]
    exact sgrLoop_returns 0 _ t ht

theorem countArgument_returns (b : Bytes) :
    (2 < b.length → ∃ v, stoi (b.drop 1) = .ok v) ↔ ∃ v, countArgument b = .ok v := by
  unfold countArgument stoiFault
  by_cases hl : 2 < b.length
  · simp only [hl, if_true, true_implies]
    cases stoi (b.drop 1) <;> simp [Except.map, Except.mapError]
  · simp [hl]

theorem eraseLoop_above (n : ℕ) (a : ℤ) (t : Linux)
    (h : t.data.length < sizeT t.currentLine.val) : ∃ u, eraseLoop n a t = .ok u := by
  induction n generalizing a t with
  | zero => exact ⟨t, rfl⟩
  | succ n ih =>
    have hk : addLetter 32 { t with currentChar := .wrap a } =
        .ok { t with currentChar := .wrap a } := if_pos h
    rw [eraseLoop, hk]
    exact ih _ _ h

theorem eraseLoop_inside (n : ℕ) (a : ℤ) (t : Linux) (hp : RowPresent t) (h0 : 0 ≤ a)
    (hn : a+n < 2147483648) : ∃ u, eraseLoop n a t = .ok u := by
  induction n generalizing a t with
  | zero => exact ⟨t, rfl⟩
  | succ n ih =>
    have hw : (CInt.wrap a).val = a := wrap_of_range (by unfold IsInt32; omega)
    obtain ⟨v, hv, hpv, -⟩ := addLetter_moves 32 { t with currentChar := .wrap a } hp
      (by rwa [ColumnSafe, hw])
    rw [eraseLoop, hv]
    exact ih (a+1) v hpv (by omega) (by push_cast at hn; omega)

/-- A loop that stores a blank in a row of the text has that row and starts at
a column from 0 on. -/
theorem eraseLoop_needs (n : ℕ) (a : ℤ) (t u : Linux) (ht : ShortLines t) (ha : IsInt32 a)
    (habove : ¬ t.data.length < sizeT t.currentLine.val) (hu : eraseLoop (n+1) a t = .ok u) :
    RowPresent t ∧ 0 ≤ a := by
  have hw : (CInt.wrap a).val = a := wrap_of_range ha
  rw [eraseLoop] at hu
  have hp : RowPresent t := by
    by_contra hp
    obtain ⟨hl, -⟩ | ⟨-, hk⟩ | ⟨line, hr, -⟩ := addLetter_cases 32
      { t with currentChar := .wrap a }
    · exact habove hl
    · rw [hk] at hu
      cases hu
    · exact hp (List.getElem?_eq_some_iff.mp hr).1
  refine ⟨hp, ?_⟩
  by_contra hneg
  rw [addLetter_negative 32 { t with currentChar := .wrap _ } ht hp
    (by rwa [ColumnSafe, hw])] at hu
  cases hu

theorem parseK_returns (env : Env) (b : Bytes) (t : Linux) (ht : ShortLines t) :
    erasable env b t ↔ ∃ u, parseK env b t = .ok u := by
  have hstart := (eraseBounds env b t).1.property
  have hstop := (eraseBounds env b t).2.property
  unfold IsInt32 at hstop
  have hreturns := map_returns (fun u : Linux => { u with currentChar := t.currentChar })
    (eraseLoop ((eraseBounds env b t).2.val-(eraseBounds env b t).1.val).toNat
      (eraseBounds env b t).1.val t)
  refine Iff.trans ?_ hreturns.symm
  rw [erasable]
  by_cases hlt : (eraseBounds env b t).1.val < (eraseBounds env b t).2.val
  case neg =>
    rw [Int.toNat_of_nonpos (by omega)]
    exact iff_of_true (fun h => absurd h hlt) ⟨t, rfl⟩
  constructor
  · intro h
    obtain habove | ⟨hp, h0⟩ := h hlt
    · exact eraseLoop_above _ _ t habove
    · exact eraseLoop_inside _ _ t hp h0 (by omega)
  · rintro ⟨u, hu⟩ -
    by_cases habove : t.data.length < sizeT t.currentLine.val
    · exact .inl habove
    obtain ⟨n, hn⟩ : ∃ n, ((eraseBounds env b t).2.val-(eraseBounds env b t).1.val).toNat = n+1 :=
      ⟨_, (Nat.succ_pred (by omega)).symm⟩
    rw [hn] at hu
    exact .inr (eraseLoop_needs n _ t u ht hstart habove hu)

/-- One completed sequence returns exactly when its condition holds. -/
theorem escape_returns (env : Env) (b : Bytes) (final : Final) (t : Linux) (ht : PaletteSafe t)
    (hs : ShortLines t) :
    parameters b final ∧ (final = .K → erasable env b t) ↔ ∃ u, escape env b final t = .ok u := by
  have count : ∀ f : ℤ → Linux, (∃ v, countArgument b = .ok v) ↔
      ∃ u, (countArgument b).map f = .ok u := by
    intro f
    simp only [map_ok]
    constructor
    · rintro ⟨v, hv⟩
      exact ⟨f v, v, hv, rfl⟩
    · rintro ⟨-, v, hv, -⟩
      exact ⟨v, hv⟩
  cases final with
  | H => simp [parameters, escape]
  | J => simp [parameters, escape]
  | m => simpa [escape] using parseM_returns b t ht
  | K => simpa [parameters, escape] using parseK_returns env b t hs
  | D => exact (and_iff_left fun h => by cases h).trans ((countArgument_returns b).trans (count _))
  | C => exact (and_iff_left fun h => by cases h).trans ((countArgument_returns b).trans (count _))
  | A => exact (and_iff_left fun h => by cases h).trans ((countArgument_returns b).trans (count _))
  | B => exact (and_iff_left fun h => by cases h).trans ((countArgument_returns b).trans (count _))
  | other => simp [parameters, escape]

theorem escape_palette (env : Env) (b : Bytes) (final : Final) (t u : Linux) (ht : PaletteSafe t)
    (h : escape env b final t = .ok u) : PaletteSafe u := by
  cases final with
  | m => exact sgrLoop_palette _ _ _ t u ht h
  | K => rwa [PaletteSafe, (parseK_stored env b t u h).index]
  | H => cases h; exact ht
  | J => cases h; exact ht
  | D => obtain ⟨value, -, rfl⟩ := (map_ok _ _ _).mp h; exact ht
  | C => obtain ⟨value, -, rfl⟩ := (map_ok _ _ _).mp h; exact ht
  | A => obtain ⟨value, -, rfl⟩ := (map_ok _ _ _).mp h; exact ht
  | B => obtain ⟨value, -, rfl⟩ := (map_ok _ _ _).mp h; exact ht
  | other => cases h; exact ht

theorem step_palette (i : Event) (t u : Linux) (ht : PaletteSafe t) (h : step i t = .ok u) :
    PaletteSafe u := by
  cases i with
  | finish env =>
    cases h
    by_cases hl : t.linesAdded <;> simpa [hl, lineRecount, PaletteSafe] using ht
  | letter env c =>
    rw [step, feed_action] at h
    cases ha : action c t with
    | collect => rw [ha] at h; cases h; exact ht
    | newline =>
      rw [ha] at h
      cases h
      unfold newline
      dsimp only
      split <;> exact ht
    | carriageReturn => rw [ha] at h; cases h; exact ht
    | backspace => rw [ha] at h; rwa [PaletteSafe, (backspace_stored env t u h).index]
    | beep => rw [ha] at h; cases h; exact ht
    | flush => rw [ha] at h; rwa [PaletteSafe, (flush_stored (append c t) u h).index]
    | sequence final b =>
      rw [ha] at h
      obtain ⟨v, hv, rfl⟩ := (map_ok _ _ _).mp h
      exact escape_palette env b final t v ht hv

theorem action_sequence (c : UInt8) (t : Linux) :
    (t.commandBuffer.head? = some 27 ∧ isalpha c ∧
      action c t = command ((t.commandBuffer++[c]).drop 1)) ∨
    (¬ (t.commandBuffer.head? = some 27 ∧ isalpha c) ∧ ∀ final b, action c t ≠ .sequence final b) := by
  unfold action
  by_cases h27 : t.commandBuffer.head? = some 27
  · by_cases ha : isalpha c
    · simp [h27, ha]
    · simp [h27, ha]
  · refine .inr ⟨fun h => h27 h.1, fun final b => ?_⟩
    rw [if_neg h27]
    repeat' split
    all_goals simp

theorem step_returns (i : Event) (t : Linux) (ht : PaletteSafe t) (hs : ShortLines t) :
    ParseStep i t ↔ parseReturns i t := by
  cases i with
  | finish env => exact Iff.rfl
  | letter env c =>
    unfold ParseStep parseReturns
    obtain ⟨h27, ha, hk⟩ | ⟨hno, hk⟩ := action_sequence c t
    · simp only [hk, h27, ha, true_implies, command, parseBuffer_escape]
      exact escape_returns env _ _ t ht hs
    · refine iff_of_true ?_ fun h27 ha => absurd ⟨h27, ha⟩ hno
      cases hact : action c t with
      | sequence final b => exact absurd hact (hk final b)
      | _ => simp only [hact]

theorem step_parsing (i : Event) (t : Linux) (h : parseReturns i t) (e : Fault)
    (he : step i t = .error e) : ¬ Parsing e := by
  cases i with
  | finish env => cases he
  | letter env c =>
    rw [step, feed_action] at he
    obtain ⟨h27, ha, hk⟩ | ⟨-, hk⟩ := action_sequence c t
    · obtain ⟨u, hu⟩ := h h27 ha
      rw [parseBuffer_escape] at hu
      rw [hk, command, perform, hu] at he
      cases he
    · cases hact : action c t with
      | sequence final b => exact absurd hact (hk final b)
      | backspace =>
        rw [hact, perform, backspace] at he
        split at he
        · cases he
          simp [Parsing]
        · split at he <;> cases he
      | flush =>
        rw [hact, perform, flush] at he
        split at he
        · cases he
          simp [Parsing]
        · rw [map_error] at he
          obtain rfl | rfl := addLetters_fault _ _ e he <;> simp [Parsing]
      | _ =>
        rw [hact] at he
        cases he

theorem init_palette : PaletteSafe init := by
  constructor <;> decide

/-- Every call of `parse_buffer` in a run returns exactly when every sequence
the run completes has parameters that can be read. -/
theorem parse_invariant_iff (calls : List Call) :
    ParseInvariant calls ↔ Meets step ParseStep (addTexts calls) init := by
  have hsafe : Always step (fun t => PaletteSafe t ∧ ShortLines t) (addTexts calls) init :=
    always_of_meets step _ (fun _ _ => True)
      (fun i t u ht _ hu => ⟨step_palette i t u ht.1 hu, step_short i t u ht.2 hu⟩)
      (addTexts calls) init ⟨init_palette, init_short⟩ (meets_true step _ init)
  have hiff := meets_iff_of_always step _ ParseStep parseReturns
    (fun i t ht => step_returns i t ht.1 ht.2) (addTexts calls) init hsafe
  constructor
  · exact fun h => hiff.mpr h.1
  · intro h
    have hr := hiff.mp h
    exact ⟨hr, meets_of_always step _ parseReturns _ (fun i t _ hk e he => step_parsing i t hk e he)
      (addTexts calls) init hsafe hr⟩

def keyModifiers : Call := ⟨['\x1b', '[', '>', '4', ';', '2', 'm'], fun _ => plainEnv⟩

/-- `std::stoi` throws on the parameters of `ESC[>4;2m`. -/
theorem numeral_fails_on_private_marker : ¬ ParseInvariant [keyModifiers] := by
  intro h
  refine not_never_of_run step Parsing (addTexts [keyModifiers]) init
    (.stoi .invalidArgument) ?_ (.inr ⟨_, rfl⟩) h.2
  decide

end Bakaneko.TerminalSequences
