import Bakaneko.Interfaces
import Bakaneko.ServerObjects
import Bakaneko.SystemdUnits
import Bakaneko.WireFormat

/-!
# Waking a server up

The text of a hardware address is written by the server and read by the
client, which sends six bytes of ones and the address sixteen times. The
reader takes what `sscanf` takes: blanks, a sign, a `0x`, and as many digits as
there are.
-/

set_option autoImplicit false

namespace Bakaneko.WakeUp
open Bakaneko.Native Bakaneko.Messages Bakaneko.SystemdUnits Bakaneko.ServerObjects
open Bakaneko.Interfaces

def isHex (c : UInt8) : Bool := (hexDigit c).isSome

def dropSign (s : Bytes) : Bytes :=
  if s.head? = some 43 ∨ s.head? = some 45 then s.tail else s

/-- A `0x` is left out where a digit follows. -/
def drop0x : Bytes → Bytes
  | 48::x::d::rest => if (x = 120 ∨ x = 88) ∧ isHex d then d::rest else 48::x::d::rest
  | s => s

def hexValue (digits : Bytes) : ℕ := digits.foldl (fun n d => 16*n+(hexDigit d).getD 0) 0

/-- `%hhx`, with what is left of the text. -/
def scanHhx (s : Bytes) : Option (UInt8 × Bytes) :=
  let s := s.dropWhile isspace
  let rest := drop0x (dropSign s)
  let digits := rest.takeWhile isHex
  if digits = [] then none
  else
    let value := UInt8.ofNat (hexValue digits)
    some (if s.head? = some 45 then -value else value, rest.drop digits.length)

/-- `%hhx:%hhx:…`: the conversions that are left, and the next byte to be written. -/
def scanBytes : ℕ → ℕ → Bytes → Bytes → Bytes
  | 0, _, _, dest => dest
  | left+1, index, s, dest => match scanHhx s with
    | none => dest
    | some (b, rest) => match rest with
      | 58::rest => scanBytes left (index+1) rest (dest.set index b)
      | _ => dest.set index b

/-- `c_str()` ends at the first null. -/
def cStr (s : Bytes) : Bytes := s.takeWhile (· ≠ 0)

/-- The packet `Server::wake_up` sends. -/
def wakeUp (server : Server) : Bytes :=
  let dest := scanBytes 6 0 (cStr server.entry.mac) (List.replicate 6 0)
  (List.replicate 16 dest).foldl (·++·) (List.replicate 6 255)

def magicPacket (address : Hardware) : Bytes :=
  List.replicate 6 255++(List.replicate 16 address.bytes).flatten

theorem hexUpper_spec : ∀ n < 16, hexDigit (hexUpper n) = some n ∧ isspace (hexUpper n) = false ∧
    hexUpper n ≠ 43 ∧ hexUpper n ≠ 45 ∧ hexUpper n ≠ 0 ∧ hexUpper n ≠ 120 ∧ hexUpper n ≠ 88 := by
  decide

theorem drop0x_digits (c d : UInt8) (rest : Bytes) (h : d ≠ 120 ∧ d ≠ 88) :
    drop0x (c::d::rest) = c::d::rest := by
  unfold drop0x
  split
  · next x e rest' heq =>
    obtain ⟨-, rfl, rfl⟩ : c = 48 ∧ d = x ∧ rest = e::rest' := by simpa using heq
    rw [if_neg (by simp [h])]
    simpa using heq.symm
  · rfl

/-- The two digits of a byte are read as the byte, up to what is no digit. -/
theorem scanHhx_hex2 (b : UInt8) (rest : Bytes) (hrest : rest.head?.any isHex = false) :
    scanHhx (hex2 b++rest) = some (b, rest) := by
  have hb := b.toNat_lt
  obtain ⟨hhigh, hspace, hplus, hminus, -, -, -⟩ := hexUpper_spec (b.toNat/16) (by omega)
  obtain ⟨hlow, -, -, -, -, hx, hX⟩ := hexUpper_spec (b.toNat%16) (by omega)
  have htake : rest.takeWhile isHex = [] := by
    cases rest with
    | nil => rfl
    | cons c rest =>
      have hc : isHex c = false := by simpa using hrest
      simp [hc]
  have hne : hex2 b ≠ [] := List.cons_ne_nil _ _
  have hvalue : hexValue (hex2 b) = b.toNat := by
    simp only [hexValue, hex2, List.foldl_cons, List.foldl_nil, hhigh, hlow, Option.getD_some]
    omega
  have hskip : (hex2 b++rest).dropWhile isspace = hex2 b++rest := by
    simp [hex2, hspace]
  have hsign : dropSign (hex2 b++rest) = hex2 b++rest := by
    simp [dropSign, hex2, hplus, hminus]
  have hprefix : drop0x (hex2 b++rest) = hex2 b++rest := drop0x_digits _ _ _ ⟨hx, hX⟩
  have hdigits : (hex2 b++rest).takeWhile isHex = hex2 b := by
    simp [hex2, isHex, hhigh, hlow, htake]
  have hpositive : (hex2 b++rest).head? ≠ some 45 := by simp [hex2, hminus]
  rw [scanHhx]
  simp only [hskip, hsign, hprefix, hdigits, if_neg hpositive]
  rw [if_neg hne, hvalue, UInt8.ofNat_toNat, List.drop_left]

theorem set_last (dest : Bytes) (index : ℕ) (b : UInt8) (h : index < dest.length) :
    (dest.set index b).take (index+1) = dest.take index++[b] := by
  have htake : (dest.take index).length = index := List.length_take_of_le h.le
  rw [List.set_eq_take_append_cons_drop, if_pos h, List.take_append, htake, List.take_take]
  simp

/-- The bytes are written in their order. -/
theorem scanBytes_text (bs dest : Bytes) (b : UInt8) (index : ℕ)
    (hlen : dest.length = index+(b::bs).length) :
    scanBytes (b::bs).length index ([58].intercalate ((b::bs).map hex2)) dest =
      dest.take index++b::bs := by
  induction bs generalizing b index dest with
  | nil =>
    have hscan := scanHhx_hex2 b [] rfl
    rw [List.append_nil] at hscan
    rw [List.length_singleton] at hlen
    rw [List.map_singleton, List.intercalate_singleton, List.length_singleton, scanBytes, hscan,
      ← set_last dest index b (by omega), ← hlen]
    exact (List.take_of_length_le (List.length_set).le).symm
  | cons c bs ih =>
    have hscan := scanHhx_hex2 b (58::[58].intercalate ((c::bs).map hex2)) rfl
    simp only [List.length_cons] at hlen
    rw [List.map_cons, List.map_cons, List.intercalate_cons_cons, ← List.map_cons,
      List.append_assoc, List.singleton_append, List.length_cons, scanBytes, hscan]
    refine (ih (dest.set index b) c (index+1) ?_).trans ?_
    · rw [List.length_set, List.length_cons]
      omega
    · rw [set_last dest index b (by omega), List.append_assoc, List.singleton_append]

theorem hex2_nul (b : UInt8) : 0 ∉ hex2 b := by
  have hb := b.toNat_lt
  obtain ⟨-, -, -, -, hhigh, -, -⟩ := hexUpper_spec (b.toNat/16) (by omega)
  obtain ⟨-, -, -, -, hlow, -, -⟩ := hexUpper_spec (b.toNat%16) (by omega)
  simpa [hex2] using ⟨hhigh.symm, hlow.symm⟩

theorem macText_cStr (address : Hardware) : cStr (macText address) = macText address := by
  have hnul : ∀ bs : Bytes, 0 ∉ [58].intercalate (bs.map hex2) := by
    intro bs
    induction bs with
    | nil => simp
    | cons b bs ih =>
      cases bs with
      | nil => simpa using hex2_nul b
      | cons c bs =>
        rw [List.map_cons, List.map_cons, List.intercalate_cons_cons]
        simpa [hex2_nul b] using ih
  refine List.takeWhile_eq_self_iff.mpr fun c hc => decide_eq_true ?_
  rintro rfl
  exact hnul address.bytes hc

theorem scanBytes_mac (address : Hardware) :
    scanBytes 6 0 (macText address) (List.replicate 6 0) = address.bytes := by
  have hne : address.bytes ≠ [] := fun h => by cases h ▸ address.six
  obtain ⟨b, bs, hbytes⟩ := List.exists_cons_of_ne_nil hne
  have hsix : (b::bs).length = 6 := hbytes ▸ address.six
  have hscan := scanBytes_text bs (List.replicate 6 0) b 0 (by rw [List.length_replicate, hsix])
  rw [hsix, ← hbytes] at hscan
  exact hscan

theorem foldl_append (parts : List Bytes) (packet : Bytes) :
    parts.foldl (·++·) packet = packet++parts.flatten := by
  induction parts generalizing packet with
  | nil => simp
  | cons part parts ih => rw [List.foldl_cons, ih, List.flatten_cons, List.append_assoc]

/-- The packet for the text the server has written is that of the address. -/
theorem wakeUp_magic (address : Hardware) (system : System) (id : ℕ) (ip : Bytes)
    (rows : List ℕ) : ∃ received,
      System.fromJson (System.toJson { system with macAddress := macText address }) =
        .ok received ∧
      wakeUp ⟨id, ⟨received.hostname, received.macAddress, ip⟩, rows⟩ = magicPacket address ∧
      (magicPacket address).length = 102 := by
  refine ⟨{ system with macAddress := macText address }, WireFormat.system_codec.back _ trivial,
    ?_, ?_⟩
  · rw [wakeUp, macText_cStr, scanBytes_mac, foldl_append]
    rfl
  · simp [magicPacket, address.six]

end Bakaneko.WakeUp
