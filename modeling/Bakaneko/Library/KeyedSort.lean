import Bakaneko.Library.Fallible
import Mathlib.Data.List.Sort
import Mathlib.Order.Lattice
import Mathlib.Data.Prod.Lex

/-!
# Sorting by a comparison that may fail

A sort asks of its comparison that it does not fail on the elements and is a
strict weak order on them. The comparison of a key is one, and the keys of the
sorted list do not depend on the order the elements came in.
-/

set_option autoImplicit false

namespace KeyedSort
open Fallible

universe u v
variable {α κ : Type u} {ε : Type v} (less : α → α → Except ε Bool)

def Level (a b : α) : Prop := less a b ≠ .ok true ∧ less b a ≠ .ok true

/-- On these elements the comparison ends well and is a strict weak order. -/
structure StrictWeak (as : List α) : Prop where
  defined : ∀ a ∈ as, ∀ b ∈ as, ∃ r, less a b = .ok r
  irrefl : ∀ a ∈ as, less a a ≠ .ok true
  trans : ∀ a ∈ as, ∀ b ∈ as, ∀ c ∈ as, less a b = .ok true → less b c = .ok true →
    less a c = .ok true
  level : ∀ a ∈ as, ∀ b ∈ as, ∀ c ∈ as, Level less a b → Level less b c → Level less a c

/-- No element is less than one in front of it. -/
def Sorted (as : List α) : Prop := as.Pairwise fun a b => less b a = .ok false

section
variable {less} (r : α → α → Prop) [DecidableRel r]

theorem insertWith_eq (a : α) (bs : List α) (h : ∀ b ∈ bs, less b a = .ok !decide (r a b)) :
    insertWith less a bs = .ok (bs.orderedInsert r a) := by
  induction bs with
  | nil => rfl
  | cons b bs ih =>
    rw [insertWith, h b List.mem_cons_self, List.orderedInsert_cons]
    by_cases hr : r a b
    · rw [decide_eq_true hr, if_pos hr]
      rfl
    · rw [decide_eq_false hr, if_neg hr, ih fun c hc => h c (List.mem_cons_of_mem b hc)]
      rfl

/-- A comparison that does not fail sorts as the insertion sort does. -/
theorem sortWith_eq (as : List α) (h : ∀ a ∈ as, ∀ b ∈ as, less b a = .ok !decide (r a b)) :
    sortWith less as = .ok (as.insertionSort r) := by
  induction as with
  | nil => rfl
  | cons a as ih =>
    have htail := ih fun b hb c hc =>
      h b (List.mem_cons_of_mem a hb) c (List.mem_cons_of_mem a hc)
    rw [sortWith, htail, List.insertionSort_cons]
    refine insertWith_eq r a _ fun b hb => ?_
    exact h a List.mem_cons_self b (List.mem_cons_of_mem a ((List.mem_insertionSort r).mp hb))

end

variable [LinearOrder κ] (key : α → κ)

/-- On these elements the comparison is that of a key. -/
def ByKey (as : List α) : Prop := ∀ a ∈ as, ∀ b ∈ as, less a b = .ok (decide (key a < key b))

variable {less key} {as : List α}

theorem ByKey.perm (h : ByKey less key as) {bs : List α} (hperm : bs.Perm as) :
    ByKey less key bs :=
  fun a ha b hb => h a (hperm.mem_iff.mp ha) b (hperm.mem_iff.mp hb)

theorem ByKey.less_iff (h : ByKey less key as) {a b : α} (ha : a ∈ as) (hb : b ∈ as) :
    less a b = .ok true ↔ key a < key b := by
  simp [h a ha b hb]

theorem ByKey.level_iff (h : ByKey less key as) {a b : α} (ha : a ∈ as) (hb : b ∈ as) :
    Level less a b ↔ key a = key b := by
  rw [Level, ne_eq, ne_eq, h.less_iff ha hb, h.less_iff hb ha, not_lt, not_lt]
  exact ⟨fun h => le_antisymm h.2 h.1, fun h => ⟨h.ge, h.le⟩⟩

theorem ByKey.strictWeak (h : ByKey less key as) : StrictWeak less as where
  defined a ha b hb := ⟨_, h a ha b hb⟩
  irrefl _ ha hless := lt_irrefl _ ((h.less_iff ha ha).mp hless)
  trans _ ha _ hb _ hc hab hbc := (h.less_iff ha hc).mpr
    (((h.less_iff ha hb).mp hab).trans ((h.less_iff hb hc).mp hbc))
  level _ ha _ hb _ hc hab hbc := (h.level_iff ha hc).mpr
    (((h.level_iff ha hb).mp hab).trans ((h.level_iff hb hc).mp hbc))

theorem ByKey.sorted_iff (h : ByKey less key as) :
    Sorted less as ↔ as.Pairwise fun a b => key a ≤ key b := by
  refine List.Pairwise.iff_of_mem fun {a b} ha hb => ?_
  simp [h b hb a ha]

theorem insertWith_keys (a : α) (bs cs : List α)
    (hless : ∀ b ∈ bs, less b a = .ok (decide (key b < key a)))
    (hbs : bs.Pairwise fun a b => key a ≤ key b) (h : insertWith less a bs = .ok cs) :
    cs.Pairwise fun a b => key a ≤ key b := by
  induction bs generalizing cs with
  | nil =>
    cases h
    exact List.pairwise_singleton _ _
  | cons b bs ih =>
    obtain ⟨hfirst, hrest⟩ := List.pairwise_cons.mp hbs
    rw [insertWith, hless b List.mem_cons_self] at h
    by_cases hba : key b < key a
    · rw [decide_eq_true hba] at h
      obtain ⟨rest, hr, rfl⟩ := (map_ok _ _ _).mp h
      refine List.pairwise_cons.mpr ⟨fun c hc => ?_,
        ih rest (fun c hc => hless c (List.mem_cons_of_mem b hc)) hrest hr⟩
      rcases List.mem_cons.mp ((insertWith_perm less a bs rest hr).mem_iff.mp hc) with rfl | hc
      · exact hba.le
      · exact hfirst c hc
    · rw [decide_eq_false hba] at h
      cases h
      refine List.pairwise_cons.mpr ⟨fun c hc => ?_, hbs⟩
      rcases List.mem_cons.mp hc with rfl | hc
      · exact not_lt.mp hba
      · exact (not_lt.mp hba).trans (hfirst c hc)

/-- The comparison of a key sorts the elements. -/
theorem ByKey.sortWith_sorted (h : ByKey less key as) :
    ∃ bs, sortWith less as = .ok bs ∧ Sorted less bs := by
  obtain ⟨bs, hbs⟩ := sortWith_returns less as fun a ha b hb => ⟨_, h a ha b hb⟩
  have hkeys : bs.Pairwise fun a b => key a ≤ key b := by
    induction as generalizing bs with
    | nil =>
      cases hbs
      exact .nil
    | cons a as ih =>
      have htail : ByKey less key as := fun b hb c hc =>
        h b (List.mem_cons_of_mem a hb) c (List.mem_cons_of_mem a hc)
      rw [sortWith] at hbs
      split at hbs
      · cases hbs
      · next cs hcs =>
        have hless : ∀ b ∈ cs, less b a = .ok (decide (key b < key a)) := fun b hb =>
          h b (List.mem_cons_of_mem a ((sortWith_perm less as cs hcs).mem_iff.mp hb)) a
            List.mem_cons_self
        exact insertWith_keys a cs bs hless (ih htail cs hcs) hbs
  exact ⟨bs, hbs, (h.perm (sortWith_perm less as bs hbs)).sorted_iff.mpr hkeys⟩

/-- Two sorted lists of the elements have the same keys. -/
theorem ByKey.sorted_keys (h : ByKey less key as) (bs cs : List α) (hbs : bs.Perm as)
    (hcs : cs.Perm as) (hb : Sorted less bs) (hc : Sorted less cs) :
    bs.map key = cs.map key := by
  have hpair (l : List α) (hl : l.Perm as) (hs : Sorted less l) : (l.map key).Pairwise (· ≤ ·) :=
    List.pairwise_map.mpr ((h.perm hl).sorted_iff.mp hs)
  exact ((hbs.trans hcs.symm).map key).eq_of_pairwise (fun _ _ _ _ => le_antisymm)
    (hpair bs hbs hb) (hpair cs hcs hc)

/-- Elements with keys of their own have one sorted list. -/
theorem ByKey.sorted_unique (h : ByKey less key as) (bs cs : List α) (hbs : bs.Perm as)
    (hcs : cs.Perm as) (hb : Sorted less bs) (hc : Sorted less cs)
    (hinj : ∀ a ∈ as, ∀ b ∈ as, key a = key b → a = b) : bs = cs :=
  (hbs.trans hcs.symm).eq_of_pairwise
    (fun a b ha hb hab hba =>
      hinj a (hbs.mem_iff.mp ha) b (hcs.mem_iff.mp hb) (le_antisymm hab hba))
    ((h.perm hbs).sorted_iff.mp hb) ((h.perm hcs).sorted_iff.mp hc)

end KeyedSort
