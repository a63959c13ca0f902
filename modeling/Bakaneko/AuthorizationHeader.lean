import Bakaneko.Authenticate
import Bakaneko.Library.Fallible

/-!
# Every Authorization header

The header comes from the network before anything is checked. Two kinds of
header make `Helpers::Authenticate` read behind the fields of its cuts: the
bare scheme, and a payload that decodes to the user without a colon. The
second kind is found letter by letter, since only `=` stands for zero bits.
-/

set_option autoImplicit false

namespace Bakaneko.AuthorizationHeader
open Bakaneko.Native Bakaneko.Ini Bakaneko.Base64 Bakaneko.Authenticate Fallible

theorem index_pad (c : UInt8) (h : index c = some 0) : c = 61 := by
  unfold index at h
  split at h
  · cases h
  case isFalse hc =>
    by_contra h61
    rw [if_neg h61] at h
    rw [not_and', not_not] at hc
    have := hc h61
    have := Option.some.inj h
    omega

theorem index_digit (c : UInt8) (n : ℕ) (h : index c = some n) (hn : n ≠ 0) : c = alphabet n := by
  rw [← alphabet_table n (index_lt c n h)]
  unfold index at h
  split at h
  · cases h
  case isFalse hc =>
    have hs := Option.some.inj h
    by_cases h61 : c = 61
    · exact absurd (by rw [← hs, if_pos h61]) hn
    · rw [if_neg h61] at hs
      rw [not_and', not_not] at hc
      have hlt := (hc h61).2
      rw [← hs, List.getD_eq_getElem?_getD, List.getElem?_eq_getElem hlt, List.getElem_idxOf hlt]
      rfl

theorem characters_value (value : BitVec 24) :
    ∃ x y z, characters value = [x, y, z] ∧ value.toNat = triple x y z := by
  have hlt := value.isLt
  have hx : (UInt8.ofNat (value.toNat/65536)).toNat = value.toNat/65536 := by
    rw [UInt8.toNat_ofNat']
    omega
  have hy : (UInt8.ofNat (value.toNat/256%256)).toNat = value.toNat/256%256 := by
    rw [UInt8.toNat_ofNat']
    omega
  have hz : (UInt8.ofNat (value.toNat%256)).toNat = value.toNat%256 := by
    rw [UInt8.toNat_ofNat']
    omega
  have hv : value.toNat = triple (UInt8.ofNat (value.toNat/65536))
      (UInt8.ofNat (value.toNat/256%256)) (UInt8.ofNat (value.toNat%256)) := by
    rw [triple, hx, hy, hz]
    omega
  exact ⟨_, _, _, characters_triple value _ _ _ hv, hv⟩

theorem decodeLoop_output (value : BitVec 24) (shifts : ℕ) (output message : Bytes) :
    decodeLoop value shifts output message = (decodeLoop value shifts [] message).map (output++·) := by
  induction message generalizing value shifts output with
  | nil => simp [decodeLoop, Except.map]
  | cons c message ih =>
    rw [decodeLoop, decodeLoop]
    cases index c with
    | none => rfl
    | some n =>
      dsimp only
      split
      · rw [ih, ih _ _ ([]++_)]
        cases decodeLoop 0 0 [] message <;> simp [Except.map]
      · exact ih _ _ _

theorem decodeLoop_known (value : BitVec 24) (shifts : ℕ) (output message result : Bytes)
    (h : decodeLoop value shifts output message = .ok result) :
    ∀ c ∈ message, ∃ n, index c = some n := by
  intro c hc
  cases hi : index c with
  | some n => exact ⟨n, rfl⟩
  | none =>
    rw [decodeLoop_unknown value shifts output message c hc hi] at h
    cases h

theorem decodeLoop_rest (value : BitVec 24) (shifts : ℕ) (output message : Bytes)
    (hlen : shifts+message.length < 4) (h : ∀ c ∈ message, ∃ n, index c = some n) :
    decodeLoop value shifts output message = .ok output := by
  induction message generalizing value shifts with
  | nil => rfl
  | cons c message ih =>
    obtain ⟨n, hn⟩ := h c List.mem_cons_self
    rw [List.length_cons] at hlen
    rw [decodeLoop, hn]
    dsimp only
    rw [if_neg (by omega)]
    exact ih _ _ (by omega) fun d hd => h d (List.mem_cons_of_mem c hd)

/-- Four letters decode to three bytes in front of what the rest decodes to. -/
theorem decodeLoop_group (l m n o : UInt8) (message result : Bytes)
    (h : decodeLoop 0 0 [] (l::m::n::o::message) = .ok result) :
    ∃ a b c d x y z rest, index l = some a ∧ index m = some b ∧ index n = some c ∧
      index o = some d ∧ a*262144+b*4096+c*64+d = triple x y z ∧
      decodeLoop 0 0 [] message = .ok rest ∧ result = x::y::z::rest := by
  have hk := decodeLoop_known _ _ _ _ _ h
  obtain ⟨a, ha⟩ := hk l (by simp)
  obtain ⟨b, hb⟩ := hk m (by simp)
  obtain ⟨c, hc⟩ := hk n (by simp)
  obtain ⟨d, hd⟩ := hk o (by simp)
  have hal := index_lt l a ha
  have hbl := index_lt m b hb
  have hcl := index_lt n c hc
  have hdl := index_lt o d hd
  obtain ⟨x, y, z, hxyz, hv⟩ := characters_value (quad a b c d)
  rw [quad, BitVec.toNat_ofNat, Nat.mod_eq_of_lt (by omega)] at hv
  rw [decodeLoop_four [] message l m n o a b c d ha hb hc hd, hxyz, decodeLoop_output] at h
  obtain ⟨rest, hrest, rfl⟩ := (map_ok _ _ _).mp h
  exact ⟨a, b, c, d, x, y, z, rest, ha, hb, hc, hd, hv, hrest, rfl⟩

/-- Padding followed by fewer than four letters that count. -/
def Filler (message : Bytes) : Prop :=
  ∃ k tail, message = List.replicate (4*k) 61++tail ∧ tail.length < 4 ∧
    ∀ c ∈ tail, ∃ n, index c = some n

theorem four_or_fewer (message : Bytes) :
    message.length < 4 ∨ ∃ l m n o rest, message = l::m::n::o::rest := by
  match message with
  | [] | [_] | [_, _] | [_, _, _] => simp
  | l::m::n::o::rest => exact .inr ⟨l, m, n, o, rest, rfl⟩

/-- Fewer than four letters give no characters. -/
theorem decodeLoop_short (message out : Bytes) (hlen : message.length < 4)
    (h : decodeLoop 0 0 [] message = .ok out) : out = [] := by
  rw [decodeLoop_rest 0 0 [] message (by omega) (decodeLoop_known _ _ _ _ _ h)] at h
  exact (Except.ok.inj h).symm

theorem decodeLoop_zeros (message : Bytes) (j : ℕ)
    (h : decodeLoop 0 0 [] message = .ok (List.replicate j 0)) : Filler message := by
  obtain hlen | ⟨l, m, n, o, rest, rfl⟩ := four_or_fewer message
  · exact ⟨0, message, rfl, hlen, decodeLoop_known _ _ _ _ _ h⟩
  obtain ⟨a, b, c, d, x, y, z, out, ha, hb, hc, hd, hv, hrest, hres⟩ :=
    decodeLoop_group l m n o rest _ h
  have hzero : ∀ e ∈ x::y::z::out, e = 0 := by
    rw [← hres]
    exact fun e he => List.eq_of_mem_replicate he
  have hx := hzero x (by simp)
  have hy := hzero y (by simp)
  have hz := hzero z (by simp)
  have hsum : a*262144+b*4096+c*64+d = 0 := by rw [hv, hx, hy, hz]; rfl
  obtain rfl := index_pad l (ha.trans (congrArg some (by omega)))
  obtain rfl := index_pad m (hb.trans (congrArg some (by omega)))
  obtain rfl := index_pad n (hc.trans (congrArg some (by omega)))
  obtain rfl := index_pad o (hd.trans (congrArg some (by omega)))
  have hout : out = List.replicate out.length 0 :=
    List.eq_replicate_of_mem fun e he => hzero e (by simp [he])
  rw [hout] at hrest
  obtain ⟨k, tail, rfl, hlen, hk⟩ := decodeLoop_zeros rest out.length hrest
  refine ⟨k+1, tail, ?_, hlen, hk⟩
  rw [show 4*(k+1) = 4*k+1+1+1+1 by omega]
  rfl
termination_by message.length

theorem decodeLoop_filler (output message : Bytes) (h : Filler message) :
    ∃ j, decodeLoop 0 0 output message = .ok (output++List.replicate j 0) := by
  obtain ⟨k, tail, rfl, hlen, hk⟩ := h
  induction k generalizing output with
  | zero => exact ⟨0, by simpa using decodeLoop_rest 0 0 output tail (by omega) hk⟩
  | succ k ih =>
    obtain ⟨j, hj⟩ := ih (output++[0, 0, 0])
    refine ⟨j+3, ?_⟩
    have hgroup := decodeLoop_four output (List.replicate (4*k) 61++tail) 61 61 61 61 0 0 0 0
      index_padding index_padding index_padding index_padding
    rw [characters_triple (quad 0 0 0 0) 0 0 0 rfl, hj] at hgroup
    rw [show 4*(k+1) = 4*k+1+1+1+1 by omega]
    refine hgroup.trans ?_
    rw [show j+3 = 3+j by omega, List.replicate_add]
    simp

/-- A header whose payload decodes to the user alone. -/
def AdminAlone (header : Bytes) : Prop :=
  ∃ rest, header = bytes "Basic YWRtaW4="++rest ∧ Filler rest

theorem group_indices (a b c d : ℕ) (x y z : UInt8) (hb : b < 64) (hc : c < 64)
    (hd : d < 64) (h : a*262144+b*4096+c*64+d = triple x y z) :
    a = x.toNat/4 ∧ b = x.toNat%4*16+y.toNat/16 ∧ c = y.toNat%16*4+z.toNat/64 ∧
      d = z.toNat%64 := by
  have hx := x.toNat_lt
  have hy := y.toNat_lt
  have hz := z.toNat_lt
  unfold triple at h
  omega

/-- The letters in front of known bytes are known where their bits are not zero. -/
theorem decodeLoop_known_group (message rest : Bytes) (x y z : UInt8)
    (h : decodeLoop 0 0 [] message = .ok (x::y::z::rest)) :
    ∃ l m n o message', message = l::m::n::o::message' ∧
      index l = some (x.toNat/4) ∧ index m = some (x.toNat%4*16+y.toNat/16) ∧
      index n = some (y.toNat%16*4+z.toNat/64) ∧ index o = some (z.toNat%64) ∧
      decodeLoop 0 0 [] message' = .ok rest := by
  obtain hlen | ⟨l, m, n, o, message', rfl⟩ := four_or_fewer message
  · cases decodeLoop_short message _ hlen h
  obtain ⟨a, b, c, d, x', y', z', rest', ha, hb, hc, hd, hv, hrest, hres⟩ :=
    decodeLoop_group l m n o message' _ h
  cases hres
  obtain ⟨rfl, rfl, rfl, rfl⟩ := group_indices a b c d x y z (index_lt m b hb) (index_lt n c hc)
    (index_lt o d hd) hv
  exact ⟨l, m, n, o, message', rfl, ha, hb, hc, hd, hrest⟩

theorem decode_admin (payload : Bytes) :
    decode payload = .ok (bytes "admin") ↔
      ∃ rest, payload = bytes "YWRtaW4="++rest ∧ Filler rest := by
  constructor
  · intro h
    obtain ⟨out, hout, hstrip⟩ := (map_ok _ _ _).mp h
    obtain ⟨k, rfl⟩ := stripNul_eq out _ hstrip
    obtain ⟨l, m, n, o, payload, rfl, hl, hm, hn, ho, hsecond⟩ := decodeLoop_known_group payload
      (105::110::List.replicate k 0) 97 100 109 hout
    obtain rfl := index_digit l 24 hl (by decide)
    obtain rfl := index_digit m 22 hm (by decide)
    obtain rfl := index_digit n 17 hn (by decide)
    obtain rfl := index_digit o 45 ho (by decide)
    cases k with
    | zero =>
      obtain hlen | ⟨l, m, n, o, rest, rfl⟩ := four_or_fewer payload
      · cases decodeLoop_short payload _ hlen hsecond
      · obtain ⟨_, _, _, _, _, _, _, _, _, _, _, _, _, _, hres⟩ :=
          decodeLoop_group l m n o rest _ hsecond
        cases hres
    | succ k =>
      obtain ⟨l, m, n, o, payload, rfl, hl, hm, hn, ho, hthird⟩ := decodeLoop_known_group payload
        (List.replicate k 0) 105 110 0 hsecond
      obtain rfl := index_digit l 26 hl (by decide)
      obtain rfl := index_digit m 22 hm (by decide)
      obtain rfl := index_digit n 56 hn (by decide)
      obtain rfl := index_pad o ho
      exact ⟨payload, rfl, decodeLoop_zeros payload k hthird⟩
  · rintro ⟨rest, rfl, hf⟩
    obtain ⟨j, hj⟩ := decodeLoop_filler (bytes "admin"++[0]) rest hf
    have hfirst := decodeLoop_four [] (bytes "aW4="++rest) 89 87 82 116 24 22 17 45
      (index_alphabet 24 (by decide) (by decide)) (index_alphabet 22 (by decide) (by decide))
      (index_alphabet 17 (by decide) (by decide)) (index_alphabet 45 (by decide) (by decide))
    have hsecond := decodeLoop_four (bytes "adm") rest 97 87 52 61 26 22 56 0
      (index_alphabet 26 (by decide) (by decide)) (index_alphabet 22 (by decide) (by decide))
      (index_alphabet 56 (by decide) (by decide)) index_padding
    rw [characters_triple (quad 24 22 17 45) 97 100 109 rfl] at hfirst
    rw [characters_triple (quad 26 22 56 0) 105 110 0 rfl] at hsecond
    have hloop : decodeLoop 0 0 [] (bytes "YWRtaW4="++rest) =
        .ok (bytes "admin"++[0]++List.replicate j 0) := hfirst.trans (hsecond.trans hj)
    rw [decode, hloop, Except.map, stripNul_zeros]
    rfl

/-- What the server promises for a header: an answer or a standard exception. -/
def Answers (config header : Bytes) : Prop :=
  (∃ b, authenticate config header = .ok b) ∨
    ∃ e, authenticate config header = .error (.exception e)

theorem basic_ne (payload : Bytes) : bytes "Basic"++32::payload ≠ bytes "Basic" := by
  intro he
  have := congrArg List.length he
  simp at this

theorem header_cases (header : Bytes) :
    header = bytes "Basic" ∨ (∃ payload, header = bytes "Basic"++32::payload) ∨
    (header ≠ bytes "Basic" ∧ ∀ payload, header ≠ bytes "Basic"++32::payload) := by
  by_cases hb : header = bytes "Basic"
  · exact .inl hb
  by_cases hp : ∃ payload, header = bytes "Basic"++32::payload
  · exact .inr (.inl hp)
  · exact .inr (.inr ⟨hb, fun payload h => hp ⟨payload, h⟩⟩)

theorem adminAlone_payload (payload : Bytes) :
    AdminAlone (bytes "Basic"++32::payload) ↔ decode payload = .ok (bytes "admin") := by
  rw [decode_admin]
  constructor
  · rintro ⟨rest, h, hf⟩
    refine ⟨rest, ?_, hf⟩
    have h' : bytes "Basic "++payload = bytes "Basic "++(bytes "YWRtaW4="++rest) := h
    exact List.append_cancel_left h'
  · rintro ⟨rest, rfl, hf⟩
    exact ⟨rest, rfl, hf⟩

theorem adminAlone_basic (header : Bytes) (h : AdminAlone header) :
    ∃ payload, header = bytes "Basic"++32::payload := by
  obtain ⟨rest, rfl, -⟩ := h
  exact ⟨bytes "YWRtaW4="++rest, rfl⟩

/-- What becomes of a payload: the user alone asks for a field that is not
there, everything else asks for a field that is, or throws. -/
theorem checkPayload_cases (config payload : Bytes) :
    (decode payload = .ok (bytes "admin") ∧
      checkPayload config (some payload) = checkPassword config none) ∨
    (decode payload ≠ .ok (bytes "admin") ∧
      ((∃ e, checkPayload config (some payload) = .error (.exception e)) ∨
      ∃ password, checkPayload config (some payload) = checkPassword config (some password))) := by
  unfold checkPayload
  cases hd : decode payload with
  | error e => exact .inr ⟨by simp, .inl ⟨e, by simp only [hd]⟩⟩
  | ok info =>
    simp only [hd]
    by_cases ha : info = bytes "admin"
    · subst ha
      exact .inl ⟨rfl, checkInfo_alone config⟩
    · refine .inr ⟨fun h => ha (Except.ok.inj h), ?_⟩
      by_cases hp : ∃ password, info = bytes "admin"++58::password
      · obtain ⟨password, rfl⟩ := hp
        exact .inr ⟨password, checkInfo_admin config password⟩
      · obtain ⟨user, hu⟩ := checkInfo_other config info ha fun password h => hp ⟨password, h⟩
        exact .inl ⟨_, hu⟩

theorem checkPassword_pastEnd (config : Bytes) (password : Option Bytes) :
    checkPassword config password = .error (.undefined .pastEnd) ↔
      password = none ∧ ∃ sections, loadFile config = .ok sections := by
  unfold checkPassword
  cases hl : loadFile config with
  | error e =>
    have hne := loadFile_pastEnd config
    rw [hl] at hne
    simpa using hne
  | ok sections =>
    cases password with
    | none => simp
    | some password =>
      dsimp only
      split <;> simp

/-- What becomes of a header. -/
theorem authenticate_cases (config header : Bytes) :
    (header = bytes "Basic" ∧ authenticate config header = .error (.undefined .pastEnd)) ∨
    (header ≠ bytes "Basic" ∧ AdminAlone header ∧
      authenticate config header = checkPassword config none) ∨
    (header ≠ bytes "Basic" ∧ ¬ AdminAlone header ∧
      ((∃ e, authenticate config header = .error (.exception e)) ∨
      ∃ password, authenticate config header = checkPassword config (some password))) := by
  obtain rfl | ⟨payload, rfl⟩ | ⟨hb, hp⟩ := header_cases header
  · exact .inl ⟨rfl, authenticate_scheme config⟩
  · rw [adminAlone_payload, authenticate_basic]
    exact .inr ((checkPayload_cases config payload).imp (And.intro (basic_ne payload))
      (And.intro (basic_ne payload)))
  · obtain ⟨type, ht⟩ := authenticate_other config header hb hp
    exact .inr (.inr ⟨hb, fun ha => (adminAlone_basic header ha).elim hp, .inl ⟨_, ht⟩⟩)

/-- With the configuration the server was started with, a header is answered
unless it is one of the two kinds. -/
theorem answers_iff (config value header : Bytes) (h : StartupCheck config value) :
    Answers config header ↔ header ≠ bytes "Basic" ∧ ¬ AdminAlone header := by
  unfold Answers
  obtain ⟨hb, ha⟩ | ⟨hb, hd, ha⟩ | ⟨hb, hd, ⟨e, ha⟩ | ⟨password, ha⟩⟩ :=
    authenticate_cases config header
  · rw [ha]
    simp [hb]
  · rw [ha, checkPassword_none config value h]
    simp [hd]
  · simp [ha, hb, hd]
  · rw [ha, checkPassword_started config password value h]
    simp [hb, hd]

/-- Whatever the configuration holds, reading behind the fields needs one of
the two kinds, the second only with a file that loads. -/
theorem indexed_iff (config header : Bytes) :
    authenticate config header ≠ .error (.undefined .pastEnd) ↔
      header ≠ bytes "Basic" ∧
      (AdminAlone header → ∀ sections, loadFile config ≠ .ok sections) := by
  obtain ⟨hb, ha⟩ | ⟨hb, hd, ha⟩ | ⟨hb, hd, ⟨e, ha⟩ | ⟨password, ha⟩⟩ :=
    authenticate_cases config header
  · rw [ha]
    simp [hb]
  · rw [ha, Ne, checkPassword_pastEnd]
    simp [hb, hd]
  · simp [ha, hb, hd]
  · rw [ha, Ne, checkPassword_pastEnd]
    simp [hb, hd]

/-- `Authenticate` answers or throws, and stays inside the fields it cut,
exactly for the headers of neither kind. -/
theorem header_safe_iff (config header : Bytes) :
    (∀ value, StartupCheck config value →
      (Answers config header ↔ header ≠ bytes "Basic" ∧ ¬ AdminAlone header)) ∧
    (authenticate config header ≠ .error (.undefined .pastEnd) ↔
      header ≠ bytes "Basic" ∧
      (AdminAlone header → ∀ sections, loadFile config ≠ .ok sections)) :=
  ⟨fun value h => answers_iff config value header h, indexed_iff config header⟩

theorem header_safe_digest :
    Answers plainConfig (bytes "Digest x") ↔
      bytes "Digest x" ≠ bytes "Basic" ∧ ¬ AdminAlone (bytes "Digest x") :=
  (header_safe_iff plainConfig (bytes "Digest x")).1 (bytes "d") plainConfig_started

/-- The bare scheme and the user without a colon, on a started server. -/
theorem field_behind_the_cut : StartupCheck plainConfig (bytes "d") ∧
    ¬ Answers plainConfig (bytes "Basic") ∧
    authenticate plainConfig (bytes "Basic") = .error (.undefined .pastEnd) ∧
    authenticate plainConfig (bytes "Basic YWRtaW4=") = .error (.undefined .pastEnd) := by
  refine ⟨plainConfig_started, ?_, authenticate_scheme _, ?_⟩
  · rintro (⟨b, hb⟩ | ⟨e, he⟩)
    · rw [authenticate_scheme] at hb
      cases hb
    · rw [authenticate_scheme] at he
      cases he
  · have halone : AdminAlone (bytes "Basic YWRtaW4=") :=
      ⟨[], (List.append_nil _).symm, 0, [], rfl, by decide, by simp⟩
    obtain ⟨-, ha⟩ | ⟨-, -, ha⟩ | ⟨-, hother, -⟩ :=
      authenticate_cases plainConfig (bytes "Basic YWRtaW4=")
    · exact ha
    · exact ha.trans (checkPassword_none plainConfig _ plainConfig_started)
    · exact absurd halone hother

end Bakaneko.AuthorizationHeader
