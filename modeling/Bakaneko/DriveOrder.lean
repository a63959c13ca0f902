import Bakaneko.Library.KeyedSort
import Bakaneko.DiskPartitions
import Bakaneko.PackageUpdates
import Mathlib.Data.List.Lex
import Mathlib.Order.Basic

/-!
# The order of the drives

`Info::Drives` sorts the drives by their names. On Linux what stands behind
the first two characters comes first, on Windows the first four characters. One
of the two comparisons of names goes against their order.
-/

set_option autoImplicit false

namespace Bakaneko.DriveOrder
open Bakaneko.Native Bakaneko.Messages Bakaneko.DriveList Bakaneko.DiskPartitions
open Bakaneko.PackageUpdates Fallible KeyedSort

local instance byteOrder : LinearOrder UInt8 where
  le_refl _ := UInt8.le_refl _
  le_trans _ _ _ := UInt8.le_trans
  le_antisymm _ _ := UInt8.le_antisymm
  le_total := UInt8.le_total
  lt_iff_le_not_ge _ _ := by
    rw [UInt8.lt_iff_toNat_lt, UInt8.le_iff_toNat_le, UInt8.le_iff_toNat_le]
    omega
  toDecidableLE := inferInstance

/-- The order of the drives on Windows. -/
def windowsBefore (a b : Drive) : Except StdException Bool := do
  let a4 ← substr a.devNode 0 4
  let b4 ← substr b.devNode 0 4
  return if a4 = b4 then decide (a.devNode < b.devNode) else decide (b.devNode < a.devNode)

/-- What a sort of these drives needs, and what it gives. -/
structure Orders (before : Drive → Drive → Except StdException Bool) (drives : List Drive) :
    Prop where
  weak : StrictWeak before drives
  total : ∀ a ∈ drives, ∀ b ∈ drives, a.devNode ≠ b.devNode →
    before a b = .ok true ∨ before b a = .ok true
  sorts : ∀ listed : List Drive, listed.Perm drives →
    ∃ sorted, sortWith before listed = .ok sorted ∧ Sorted before sorted
  unique : ∀ bs cs : List Drive, bs.Perm drives → cs.Perm drives → Sorted before bs →
    Sorted before cs → bs.map Drive.devNode = cs.map Drive.devNode ∧
      ((drives.map Drive.devNode).Nodup → bs = cs)

theorem devNode_key {κ : Type} (key : Drive → κ) (name : κ → Bytes)
    (hname : ∀ d, name (key d) = d.devNode) {a b : Drive} (h : key a = key b) :
    a.devNode = b.devNode := by
  rw [← hname, h, hname]

/-- A key that gives the name away orders the drives. -/
theorem orders_key {κ : Type} [LinearOrder κ] (key : Drive → κ) (name : κ → Bytes)
    (hname : ∀ d, name (key d) = d.devNode)
    (before : Drive → Drive → Except StdException Bool) (drives : List Drive)
    (h : ByKey before key drives) : Orders before drives where
  weak := h.strictWeak
  total a ha b hb hne := by
    rw [h.less_iff ha hb, h.less_iff hb ha]
    exact lt_or_gt_of_ne fun hkey => hne (devNode_key key name hname hkey)
  sorts _ hperm := (h.perm hperm).sortWith_sorted
  unique bs cs hbs hcs hb hc := by
    have hmap (l : List Drive) : l.map Drive.devNode = (l.map key).map name := by
      rw [List.map_map]
      exact List.map_congr_left fun d _ => (hname d).symm
    refine ⟨?_, fun hnodup => h.sorted_unique bs cs hbs hcs hb hc fun a ha b hb hkey => ?_⟩
    · rw [hmap, hmap, h.sorted_keys bs cs hbs hcs hb hc]
    · exact List.inj_on_of_nodup_map hnodup ha hb (devNode_key key name hname hkey)

/-- Where two texts differ in their first characters, these decide. -/
theorem lt_take (n : ℕ) (a b : Bytes) (h : a.take n ≠ b.take n) :
    a < b ↔ a.take n < b.take n := by
  induction n generalizing a b with
  | zero => exact absurd rfl h
  | succ n ih =>
    match a, b with
    | [], [] => exact absurd rfl h
    | [], d::b => simp
    | c::a, [] => simp
    | c::a, d::b =>
      rw [List.take_succ_cons, List.take_succ_cons, List.cons_lt_cons_iff, List.cons_lt_cons_iff]
      rw [List.take_succ_cons, List.take_succ_cons, ne_eq, List.cons.injEq] at h
      by_cases hcd : c = d
      · rw [ih a b fun htake => h ⟨hcd, htake⟩]
      · simp [hcd]

/-- What is behind the first two characters, then the name the other way round. -/
def linuxKey (d : Drive) : Bytes ×ₗ Bytesᵒᵈ :=
  toLex (d.devNode.drop 2, OrderDual.toDual d.devNode)

/-- The first four characters the other way round, then the name. -/
def windowsKey (d : Drive) : Bytesᵒᵈ ×ₗ Bytes :=
  toLex (OrderDual.toDual (d.devNode.take 4), d.devNode)

theorem driveBefore_key (drives : List Drive) (h : ∀ d ∈ drives, 2 ≤ d.devNode.length) :
    ByKey driveBefore linuxKey drives := by
  intro a ha b hb
  rw [driveBefore, unitName_ok a (h a ha), unitName_ok b (h b hb)]
  refine congrArg Except.ok ?_
  by_cases hunit : a.devNode.drop 2 = b.devNode.drop 2
  · simp [linuxKey, Prod.Lex.toLex_lt_toLex, hunit]
  · simp [linuxKey, Prod.Lex.toLex_lt_toLex, hunit]

theorem windowsBefore_key (drives : List Drive) : ByKey windowsBefore windowsKey drives := by
  have hsubstr (s : Bytes) : substr s 0 4 = .ok (s.take 4) := rfl
  intro a _ b _
  rw [windowsBefore, hsubstr, hsubstr]
  refine congrArg Except.ok ?_
  by_cases hfirst : a.devNode.take 4 = b.devNode.take 4
  · simp [windowsKey, Prod.Lex.toLex_lt_toLex, hfirst]
  · simp [windowsKey, Prod.Lex.toLex_lt_toLex, hfirst, lt_take 4 _ _ (Ne.symm hfirst)]

/-- A unit name needs two characters. -/
theorem driveBefore_self (d : Drive) (r : Bool) (h : driveBefore d d = .ok r) :
    2 ≤ d.devNode.length := by
  obtain ⟨name, hname, -⟩ := (bind_ok _ _ _).mp h
  by_contra hshort
  rw [unitName, if_pos (by omega)] at hname
  cases hname

/-- The order of the drives on Linux needs names of two characters, the one on
Windows nothing. -/
theorem orders_iff (drives : List Drive) :
    (Orders driveBefore drives ↔ ∀ d ∈ drives, 2 ≤ d.devNode.length) ∧
      Orders windowsBefore drives := by
  refine ⟨⟨fun h d hd => ?_, fun h => ?_⟩, ?_⟩
  · obtain ⟨r, hr⟩ := h.weak.defined d hd d hd
    exact driveBefore_self d r hr
  · exact orders_key linuxKey (fun key => OrderDual.ofDual (ofLex key).2) (fun _ => rfl) driveBefore
      drives (driveBefore_key drives h)
  · exact orders_key windowsKey (fun key => (ofLex key).2) (fun _ => rfl) windowsBefore drives
      (windowsBefore_key drives)

def namedDrive (name : Bytes) : Drive :=
  { devNode := name, size := 0, model := [], manufacturer := [], interface := [],
    partitions := [] }

/-- A name of one character has no second one to cut behind. -/
theorem orders_short : ∃ drives : List Drive, (∀ d ∈ drives, d.devNode ≠ []) ∧
    ¬ (Orders driveBefore drives ∧ Orders windowsBefore drives) := by
  refine ⟨[namedDrive (bytes "x"), namedDrive (bytes "sda")], by decide, fun h => ?_⟩
  obtain ⟨r, hr⟩ := h.1.weak.defined (namedDrive (bytes "x")) (by decide)
    (namedDrive (bytes "sda")) (by decide)
  have hthrows : driveBefore (namedDrive (bytes "x")) (namedDrive (bytes "sda")) =
      .error (.outOfRange (bytes "basic_string::substr")) := rfl
  rw [hthrows] at hr
  cases hr

end Bakaneko.DriveOrder
