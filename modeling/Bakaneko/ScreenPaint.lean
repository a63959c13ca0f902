import Bakaneko.DumbTerminal
import Mathlib.Data.Finset.Image
import Mathlib.Data.Finset.Card

/-!
# The rows the screen paints

`line_recount` starts another row in front of a symbol that no longer fits,
`Screen::paint` behind the symbol that fills a row, and the two have
different limits. A line is counted as it is painted exactly if both cut it
into equally many rows, as long as the count of all of them is an `int`. Places
are in widths of a character and in lines.
-/

set_option autoImplicit false

namespace Bakaneko.ScreenPaint
open Bakaneko.Native Bakaneko.Terminal

/-- `x_pos`, `y_pos` and `count`. -/
structure Pen where
  x : ℕ
  y : ℕ
  count : ℤ

/-- The symbols of one line with the places they are drawn at, and the pen
behind them. -/
def paintLine (columns : ℤ) : Pen → List Symbol → List (ℕ × ℕ × Symbol) × Pen
  | pen, [] => ([], pen)
  | pen, s::line =>
    let next : Pen := if columns ≤ pen.count+1 then ⟨0, pen.y+1, 0⟩
      else ⟨pen.x+1, pen.y, pen.count+1⟩
    ((pen.x, pen.y, s)::(paintLine columns next line).1, (paintLine columns next line).2)

/-- The loop of `paint` over the lines. -/
def paintLines (columns : ℤ) : ℕ → List (List Symbol) → List (List (ℕ × ℕ × Symbol))
  | _, [] => []
  | y, line::data =>
    (paintLine columns ⟨0, y, 0⟩ line).1::
      paintLines columns ((paintLine columns ⟨0, y, 0⟩ line).2.y+1) data

def paintColumns (env : Env) : ℤ := int32 (env.columns.val+5)

def paint (env : Env) (data : List (List Symbol)) : List (List (ℕ × ℕ × Symbol)) :=
  paintLines (paintColumns env) 0 data

/-- The rows in which a symbol of the line is drawn; an empty line takes one. -/
def rowsOf (drawn : List (ℕ × ℕ × Symbol)) : ℕ := max 1 (drawn.map fun d => d.2.1).dedup.length

def paintedRows (env : Env) (data : List (List Symbol)) : ℕ := ((paint env data).map rowsOf).sum

/-- Some number of full rows is the same for both limits. -/
def CutAlike (columns : ℤ) (length : ℕ) : Prop :=
  length ≤ 1 ∨ (columns+5 < 2147483648 ∧
    ∃ q : ℕ, q*(columns+5) < length ∧ length ≤ (q+1)*(columns+1))

/-- How often a line of that length goes on in another row. The greatest `int`
is never exceeded. -/
def furtherRows (columns : ℤ) (length : ℕ) : ℕ :=
  if columns = 2147483647 then 0 else (length-1)/(columns.toNat+1)

/-- The rows of all lines. -/
def total (columns : ℤ) (data : List (List Symbol)) : ℤ :=
  (data.map fun line => ((furtherRows columns line.length+1:ℕ):ℤ)).sum

theorem wraps_eq (columns count : CInt) (c k : ℕ) (hc : columns.val = c) (hcount : count.val = k)
    (hlt : c < 2147483647) (hk : k ≤ c+1) (line : List Symbol) :
    wraps columns count line = (line.length+k-1)/(c+1) := by
  induction line generalizing count k with
  | nil => rw [wraps, List.length_nil, Nat.zero_add, Nat.div_eq_of_lt (by omega)]
  | cons s line ih =>
    rw [wraps, List.length_cons, hc, hcount]
    by_cases hlast : k = c+1
    · subst hlast
      have h1 := ih (.wrap 1) 1 (by decide) (by omega)
      rw [if_pos (by push_cast; omega), h1, show line.length+1+(c+1)-1 = line.length+(c+1) by omega,
        Nat.add_div_right _ (Nat.succ_pos c), show line.length+1-1 = line.length by omega]
    · have hnext : (CInt.wrap ((k:ℤ)+1)).val = (k+1:ℕ) := by
        rw [wrap_of_range (by unfold IsInt32; omega)]
        push_cast
        rfl
      have h1 := ih (.wrap (k+1)) (k+1) hnext (by omega)
      rw [if_neg (by omega), h1, show line.length+(k+1)-1 = line.length+1+k-1 by omega]

theorem wraps_greatest (columns count : CInt) (hc : columns.val = 2147483647)
    (line : List Symbol) : wraps columns count line = 0 := by
  induction line generalizing count with
  | nil => rfl
  | cons s line ih =>
    have hcount := count.property
    unfold IsInt32 at hcount
    rw [wraps, hc, if_neg (by omega)]
    exact ih _

theorem wraps_furtherRows (env : Env) (line : List Symbol) :
    wraps env.columns (.wrap 0) line = furtherRows env.columns.val line.length := by
  have hpos := env.columns_pos
  have hr := env.columns.property
  unfold IsInt32 at hr
  rw [furtherRows]
  split
  · next hc => exact wraps_greatest _ _ hc line
  · have h := wraps_eq env.columns (.wrap 0) env.columns.val.toNat 0 (by omega) (by decide)
      (by omega) (Nat.zero_le _) line
    rwa [Nat.add_zero] at h

/-- The lines of the symbols, with `n` of them in a row. -/
theorem paintLine_rows (columns : ℤ) (n : ℕ) (hn : n = (max 1 columns).toNat) (x y k : ℕ)
    (hk : k < n) (line : List Symbol) :
    ((paintLine columns ⟨x, y, k⟩ line).1.map fun d => d.2.1) =
      (List.range line.length).map fun i => y+(k+i)/n := by
  induction line generalizing x y k with
  | nil => rfl
  | cons s line ih =>
    rw [List.length_cons, List.range_succ_eq_map, List.map_cons, List.map_map]
    rw [paintLine]
    simp only [List.map_cons]
    have hhead : y = y+(k+0)/n := by rw [Nat.add_zero, Nat.div_eq_of_lt hk, Nat.add_zero]
    refine congrArg₂ _ hhead ?_
    by_cases hfull : columns ≤ (k:ℤ)+1
    · have hkn : k+1 = n := by omega
      have hnext := ih 0 (y+1) 0 (by omega)
      rw [Nat.cast_zero] at hnext
      rw [if_pos hfull, hnext]
      refine List.map_congr_left fun i _ => ?_
      have hdiv : k+(i+1) = i+n := by omega
      dsimp only [Function.comp, Nat.succ_eq_add_one]
      rw [hdiv, Nat.add_div_right _ (by omega), Nat.zero_add]
      omega
    · have hnext := ih (x+1) y (k+1) (by omega)
      rw [Nat.cast_add, Nat.cast_one] at hnext
      rw [if_neg hfull, hnext]
      refine List.map_congr_left fun i _ => ?_
      dsimp only [Function.comp, Nat.succ_eq_add_one]
      rw [show k+1+i = k+(i+1) by omega]

theorem rows_distinct (y n length : ℕ) (hn : 0 < n) (hl : 0 < length) :
    ((List.range length).map fun i => y+i/n).dedup.length = (length-1)/n+1 := by
  have himage : ((List.range length).map fun i => y+i/n).toFinset =
      (Finset.range ((length-1)/n+1)).image (y+·) := by
    ext r
    simp only [List.mem_toFinset, List.mem_map, List.mem_range, Finset.mem_image,
      Finset.mem_range]
    constructor
    · rintro ⟨i, hi, rfl⟩
      exact ⟨i/n, Nat.lt_succ_of_le (Nat.div_le_div_right (by omega)), rfl⟩
    · rintro ⟨q, hq, rfl⟩
      have hle : q*n ≤ length-1 := (Nat.le_div_iff_mul_le hn).mp (Nat.le_of_lt_succ hq)
      exact ⟨q*n, by omega, by rw [Nat.mul_div_cancel q hn]⟩
  rw [← List.card_toFinset, himage, Finset.card_image_of_injective _ (add_right_injective y),
    Finset.card_range]

theorem rowsOf_paintLine (columns : ℤ) (n : ℕ) (hn : n = (max 1 columns).toNat) (y : ℕ)
    (line : List Symbol) :
    rowsOf (paintLine columns ⟨0, y, 0⟩ line).1 = (line.length-1)/n+1 := by
  have hpos : 0 < n := by omega
  have hrows := paintLine_rows columns n hn 0 y 0 hpos line
  rw [Nat.cast_zero] at hrows
  rw [rowsOf, hrows]
  simp only [Nat.zero_add]
  by_cases hl : 0 < line.length
  · rw [rows_distinct y n line.length hpos hl]
    exact max_eq_right (Nat.succ_le_succ (Nat.zero_le _))
  · have h0 : line.length = 0 := by omega
    simp [h0]

theorem paintedRows_eq (env : Env) (data : List (List Symbol)) :
    paintedRows env data =
      (data.map fun line => (line.length-1)/(max 1 (paintColumns env)).toNat+1).sum := by
  have hlines : ∀ y, ((paintLines (paintColumns env) y data).map rowsOf).sum =
      (data.map fun line => (line.length-1)/(max 1 (paintColumns env)).toNat+1).sum := by
    induction data with
    | nil => exact fun _ => rfl
    | cons line data ih =>
      intro y
      rw [paintLines, List.map_cons, List.sum_cons, List.map_cons, List.sum_cons, ih,
        rowsOf_paintLine _ _ rfl]
  exact hlines 0

theorem lineWraps_eq (env : Env) (data : List (List Symbol)) :
    lineWraps env data = .wrap (total env.columns.val data) := by
  rw [lineWraps, total]
  congr 1
  induction data with
  | nil => rfl
  | cons line data ih =>
    rw [List.map_cons, List.sum_cons, List.map_cons, List.sum_cons, ← ih, List.length_cons,
      wraps_furtherRows]
    push_cast
    ring

theorem sum_eq_iff {α : Type*} (f g : α → ℕ) (l : List α) (h : ∀ a ∈ l, f a ≤ g a) :
    (l.map f).sum = (l.map g).sum ↔ ∀ a ∈ l, f a = g a := by
  induction l with
  | nil => simp
  | cons a l ih =>
    obtain ⟨ha, hl⟩ := List.forall_mem_cons.mp h
    have hsum : (l.map f).sum ≤ (l.map g).sum := List.sum_le_sum hl
    rw [List.map_cons, List.map_cons, List.sum_cons, List.sum_cons, List.forall_mem_cons, ← ih hl]
    omega

theorem div_eq_div_iff (c m n : ℕ) (hm : 0 < m) (hmn : m ≤ n) :
    c/m = c/n ↔ ∃ q, q*n ≤ c ∧ c < (q+1)*m := by
  constructor
  · intro h
    refine ⟨c/n, Nat.div_mul_le_self c n, (Nat.div_lt_iff_lt_mul hm).mp ?_⟩
    rw [h]
    exact Nat.lt_succ_self _
  · rintro ⟨q, hle, hlt⟩
    have hle' : q*m ≤ c := (Nat.mul_le_mul_left q hmn).trans hle
    have hlt' : c < (q+1)*n := hlt.trans_le (Nat.mul_le_mul_left (q+1) hmn)
    rw [Nat.div_eq_of_lt_le hle' hlt, Nat.div_eq_of_lt_le hle hlt']

/-- The rows a line is painted in, but for the first. -/
def paintedFurther (env : Env) (length : ℕ) : ℕ := (length-1)/(max 1 (paintColumns env)).toNat

theorem paintColumns_cases (env : Env) : env.columns.val < 2147483643 ∧
      (max 1 (paintColumns env)).toNat = env.columns.val.toNat+5 ∨
    2147483643 ≤ env.columns.val ∧ (max 1 (paintColumns env)).toNat = 1 := by
  have hpos := env.columns_pos
  have hr := env.columns.property
  unfold IsInt32 at hr
  by_cases hfits : env.columns.val < 2147483643
  · refine .inl ⟨hfits, ?_⟩
    rw [paintColumns, int32_of_range (by unfold IsInt32; omega)]
    omega
  · refine .inr ⟨by omega, ?_⟩
    rw [paintColumns, int32]
    omega

theorem cutAlike_iff (env : Env) (length : ℕ) : CutAlike env.columns.val length ↔
    furtherRows env.columns.val length = paintedFurther env length := by
  have hpos := env.columns_pos
  by_cases hone : length ≤ 1
  · refine iff_of_true (.inl hone) ?_
    rw [furtherRows, paintedFurther, show length-1 = 0 by omega, Nat.zero_div, Nat.zero_div, ite_self]
  rcases paintColumns_cases env with ⟨hfits, hn⟩ | ⟨hlarge, hn⟩
  · obtain ⟨c, hc⟩ : ∃ c : ℕ, env.columns.val = c := ⟨_, (Int.toNat_of_nonneg (by omega)).symm⟩
    rw [furtherRows, if_neg (by omega), paintedFurther, hn, hc, Int.toNat_natCast,
      div_eq_div_iff _ _ _ (by omega) (by omega), CutAlike]
    rw [hc] at hfits
    have hfits' : (c:ℤ)+5 < 2147483648 := by omega
    simp only [hone, hfits', false_or, true_and]
    refine exists_congr fun q => and_congr ?_ ?_
    · rw [show ((q:ℤ)*(c+5) < length) = (((q*(c+5):ℕ):ℤ) < length) by push_cast; rfl,
        Nat.cast_lt]
      omega
    · rw [show ((length:ℤ) ≤ (q+1)*(c+1)) = ((length:ℤ) ≤ (((q+1)*(c+1):ℕ):ℤ)) by push_cast; rfl,
        Nat.cast_le]
      omega
  · refine iff_of_false ?_ ?_
    · rintro (h | ⟨h, -⟩)
      · exact hone h
      · omega
    · rw [paintedFurther, hn, Nat.div_one, furtherRows]
      split
      · omega
      · exact (Nat.div_lt_self (by omega) (by omega)).ne

/-- A line is cut more often by the count, but not into more than three times
as many rows, or more often by the painting. -/
theorem cut_bounds (env : Env) :
    (∀ length, paintedFurther env length ≤ furtherRows env.columns.val length ∧
      furtherRows env.columns.val length+1 ≤ 3*(paintedFurther env length+1)) ∨
    ∀ length, furtherRows env.columns.val length ≤ paintedFurther env length := by
  have hpos := env.columns_pos
  rcases paintColumns_cases env with ⟨hfits, hn⟩ | ⟨hlarge, hn⟩
  · refine .inl fun length => ?_
    rw [paintedFurther, hn, furtherRows, if_neg (by omega)]
    refine ⟨Nat.div_le_div_left (by omega) (Nat.succ_pos _), ?_⟩
    have hlt := Nat.lt_mul_div_succ (length-1) (show 0 < env.columns.val.toNat+5 by omega)
    have hthree : env.columns.val.toNat+5 ≤ 3*(env.columns.val.toNat+1) := by omega
    refine Nat.succ_le_of_lt ((Nat.div_lt_iff_lt_mul (Nat.succ_pos _)).mpr (hlt.trans_le ?_))
    calc (env.columns.val.toNat+5)*((length-1)/(env.columns.val.toNat+5)+1)
        ≤ 3*(env.columns.val.toNat+1)*((length-1)/(env.columns.val.toNat+5)+1) :=
          Nat.mul_le_mul_right _ hthree
      _ = 3*((length-1)/(env.columns.val.toNat+5)+1)*(env.columns.val.toNat+1) := by ring
  · refine .inr fun length => ?_
    rw [paintedFurther, hn, Nat.div_one, furtherRows]
    split
    · exact Nat.zero_le _
    · exact Nat.div_le_self _ _

/-- An `int` that counts to `r` shows another number as soon as it is too
small, however far `r` is above the number, up to three times as much. -/
theorem int32_eq_iff (r p : ℕ) (h : (p ≤ r ∧ r ≤ 3*p) ∨ r ≤ p) :
    int32 r = p ↔ (r:ℤ) < 2147483648 ∧ r = p := by
  unfold int32
  omega

theorem sum_le_mul {α : Type*} (f g : α → ℕ) (n : ℕ) (l : List α) (h : ∀ a ∈ l, f a ≤ n*g a) :
    (l.map f).sum ≤ n*(l.map g).sum := by
  rw [← List.sum_map_mul_left]
  exact List.sum_le_sum h

/-- The lines are counted as they are painted exactly if the rows are no more
than an `int` counts and every line is cut alike by both limits. -/
theorem recount_painted_iff (env : Env) (t : Linux) :
    (lineRecount env t).lineWrapCount.val = paintedRows env t.data ↔
      total env.columns.val t.data < 2147483648 ∧
        ∀ line ∈ t.data, CutAlike env.columns.val line.length := by
  have htotal : total env.columns.val t.data =
      ((t.data.map fun line => furtherRows env.columns.val line.length+1).sum:ℕ) := by
    rw [total, Nat.cast_list_sum, List.map_map]
    rfl
  have hpainted : paintedRows env t.data =
      (t.data.map fun line => paintedFurther env line.length+1).sum := paintedRows_eq env t.data
  have hsame : (t.data.map fun line => furtherRows env.columns.val line.length+1).sum =
      (t.data.map fun line => paintedFurther env line.length+1).sum ↔
        ∀ line ∈ t.data, CutAlike env.columns.val line.length := by
    simp only [cutAlike_iff]
    rcases cut_bounds env with h | h
    · rw [eq_comm, sum_eq_iff _ _ _ fun line _ => Nat.succ_le_succ (h line.length).1]
      exact forall_congr' fun line => imp_congr_right fun _ => Nat.succ_inj.trans eq_comm
    · rw [sum_eq_iff _ _ _ fun line _ => Nat.succ_le_succ (h line.length)]
      exact forall_congr' fun line => imp_congr_right fun _ => Nat.succ_inj
  rw [lineRecount, lineWraps_eq, wrap_val, htotal, hpainted, int32_eq_iff _ _ ?_, hsame]
  rcases cut_bounds env with h | h
  · exact .inl ⟨List.sum_le_sum fun line _ => Nat.succ_le_succ (h line.length).1,
      sum_le_mul _ _ 3 _ fun line _ => (h line.length).2⟩
  · exact .inr (List.sum_le_sum fun line _ => Nat.succ_le_succ (h line.length))

/-- A line of 82 letters on 80 columns is counted as two rows and painted in one. -/
theorem long_line_miscounted :
    (lineRecount plainEnv
        { init with data := [List.replicate 82 (symbol 97 init)] }).lineWrapCount.val = 2 ∧
      paintedRows plainEnv [List.replicate 82 (symbol 97 init)] = 1 := by
  rw [lineRecount, lineWraps_eq, paintedRows_eq]
  exact ⟨by decide +kernel, by decide +kernel⟩

end Bakaneko.ScreenPaint
