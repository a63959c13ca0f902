import Bakaneko.Authenticate

/-!
# Agreement on credentials

`Server::control_service` joins user and password with a colon and encodes
them; `Helpers::Authenticate` takes the header apart again. The two agree on
a password exactly when its bytes survive the way through `Base64`.
-/

set_option autoImplicit false

namespace Bakaneko.Credentials
open Bakaneko.Native Bakaneko.Base64 Bakaneko.Authenticate Bakaneko.Text

/-- The header of `Server::control_service`. -/
def controlHeader (user pass : Bytes) : Option Bytes :=
  (encode (user++58::pass)).map (bytes "Basic "++·)

/-- What client and server owe each other for one user and password. -/
def Agrees (config password user pass : Bytes) : Prop :=
  ∃ header, controlHeader user pass = some header ∧
    (authenticate config header = .ok true ↔ user = bytes "admin" ∧ pass = password) ∧
    (∀ f, authenticate config header = .error f → ∃ e, f = .exception e) ∧
    (user = bytes "admin" → ∃ b, authenticate config header = .ok b)

/-- The password `Authenticate` compares. -/
def received (pass : Bytes) : Bytes := stripNul (smear pass)

theorem header_eq (payload : Bytes) : bytes "Basic "++payload = bytes "Basic"++32::payload := rfl

theorem authenticate_header (config user pass : Bytes) :
    authenticate config (bytes "Basic "++encodeGroups (user++58::pass)) =
      checkPayload config (some (encodeGroups (user++58::pass))) := by
  rw [header_eq, authenticate_basic]

theorem smear_admin (pass : Bytes) :
    smear (bytes "admin"++58::pass) = bytes "admin"++58::smear pass := by
  change smear (97::100::109::105::110::58::pass) = 97::100::109::105::110::58::smear pass
  rw [smear, smear]
  rfl

theorem zeroDigit_admin (s : Bytes) : zeroDigit (bytes "admin"++58::s) ↔ zeroDigit s := by
  change zeroDigit (97::100::109::105::110::58::s) ↔ zeroDigit s
  rw [zeroDigit, zeroDigit]
  simp

theorem authenticate_admin (config password pass : Bytes) (h : StartupCheck config password) :
    (zeroDigit (smear pass) ∧
      authenticate config (bytes "Basic "++encodeGroups (bytes "admin"++58::pass)) =
        .error (.exception unknownCharacter)) ∨
    (¬ zeroDigit (smear pass) ∧
      authenticate config (bytes "Basic "++encodeGroups (bytes "admin"++58::pass)) =
        .ok (decide (received pass = password))) := by
  rw [authenticate_header, checkPayload]
  obtain ⟨hz, he⟩ | ⟨hz, he⟩ := decode_encodeGroups (bytes "admin"++58::pass)
  · rw [smear_admin, zeroDigit_admin] at hz
    exact .inl ⟨hz, by rw [he]⟩
  · rw [smear_admin, zeroDigit_admin] at hz
    rw [smear_admin, stripNul_append _ _ _ (by decide)] at he
    refine .inr ⟨hz, ?_⟩
    simp only [he, checkInfo_admin]
    exact checkPassword_started config _ password h

theorem user_unique (user pass rest : Bytes) (hu : 58 ∉ user)
    (h : user++58::pass = bytes "admin"++58::rest) : user = bytes "admin" := by
  have hsplit := split_two_append user pass 58 hu
  rw [h, split_two_append _ _ _ (by decide)] at hsplit
  exact (List.cons.inj hsplit).1.symm

/-- What arrives does not lose the colon at its end. -/
theorem stripNul_ne_admin (message : Bytes) (hcolon : 58 ∈ message) :
    stripNul (smear message) ≠ bytes "admin" := by
  intro h
  obtain ⟨k, hk⟩ := stripNul_eq (smear message) _ rfl
  rw [h] at hk
  have hkeep : ∀ c ∈ bytes "admin"++List.replicate k 0, c ≠ 255 ∧ c ≠ 58 := by
    intro c hc
    rcases List.mem_append.mp hc with hc | hc
    · exact (show ∀ c ∈ bytes "admin", c ≠ 255 ∧ c ≠ 58 by simp [admin_bytes]) c hc
    · rw [List.eq_of_mem_replicate hc]
      decide
  obtain ⟨rest, hrest⟩ := smear_prefix message _ [] (fun c hc => (hkeep c hc).1)
    (by rw [hk, List.append_nil])
  have hlen := (smear_bytes message).length_eq
  rw [hk, hrest, List.length_append] at hlen
  obtain rfl : rest = [] := List.eq_nil_of_length_eq_zero (by omega)
  rw [hrest, List.append_nil] at hcolon
  exact (hkeep 58 hcolon).2 rfl

theorem stripNul_admin (message s : Bytes)
    (h : stripNul (smear message) = bytes "admin"++58::s) :
    ∃ rest, message = bytes "admin"++58::rest := by
  obtain ⟨k, hk⟩ := stripNul_eq (smear message) _ rfl
  rw [h] at hk
  obtain ⟨rest, hrest⟩ := smear_prefix message (bytes "admin"++[58]) (s++List.replicate k 0)
    (by simp [admin_bytes]) (by rw [hk]; simp)
  exact ⟨rest, by rw [hrest]; simp⟩

/-- Another user is never let in and never leads behind the fields. -/
theorem authenticate_stranger (config user pass : Bytes) (hu : 58 ∉ user)
    (ha : user ≠ bytes "admin") :
    ∃ e, authenticate config (bytes "Basic "++encodeGroups (user++58::pass)) =
      .error (.exception e) := by
  rw [authenticate_header, checkPayload]
  obtain ⟨-, he⟩ | ⟨-, he⟩ := decode_encodeGroups (user++58::pass)
  · exact ⟨unknownCharacter, by rw [he]⟩
  simp only [he]
  have halone := stripNul_ne_admin (user++58::pass) (by simp)
  have hcolon : ∀ s, stripNul (smear (user++58::pass)) ≠ bytes "admin"++58::s := by
    intro s h
    obtain ⟨rest, hrest⟩ := stripNul_admin _ s h
    exact ha (user_unique user pass rest hu hrest)
  obtain ⟨name, hn⟩ := checkInfo_other config _ halone hcolon
  exact ⟨_, hn⟩

theorem controlHeader_eq (user pass : Bytes) :
    controlHeader user pass = if user.length+1+pass.length ≤ 2147483646 then
      some (bytes "Basic "++encodeGroups (user++58::pass)) else none := by
  have hlen : (user++58::pass).length = user.length+1+pass.length := by
    rw [List.length_append, List.length_cons]
    omega
  unfold controlHeader encode
  rw [hlen]
  split <;> rfl

theorem agrees_admin (config password pass header : Bytes)
    (hh : controlHeader (bytes "admin") pass = some header) (r : Bool)
    (hr : authenticate config header = .ok r) :
    Agrees config password (bytes "admin") pass ↔ (r = true ↔ pass = password) := by
  constructor
  · rintro ⟨header', hh', hiff, -, -⟩
    obtain rfl : header = header' := Option.some.inj (hh.symm.trans hh')
    simpa [hr] using hiff
  · intro hiff
    refine ⟨header, hh, by simpa [hr] using hiff, fun f hf => ?_, fun _ => ⟨r, hr⟩⟩
    rw [hr] at hf
    cases hf

/-- The admin is answered, and answered rightly, exactly when the bytes of the
password arrive unchanged or are wrong on both sides. -/
theorem agrees_admin_iff (config password pass : Bytes) (h : StartupCheck config password)
    (hc : controlHeader (bytes "admin") pass =
      some (bytes "Basic "++encodeGroups (bytes "admin"++58::pass))) :
    Agrees config password (bytes "admin") pass ↔ ¬ zeroDigit (smear pass) ∧
      (received pass = pass ∨ (pass ≠ password ∧ received pass ≠ password)) := by
  obtain ⟨hz, he⟩ | ⟨hz, he⟩ := authenticate_admin config password pass h
  · refine iff_of_false ?_ fun h => h.1 hz
    rintro ⟨header, hh, -, -, hok⟩
    obtain rfl := Option.some.inj (hc.symm.trans hh)
    obtain ⟨b, hb⟩ := hok rfl
    rw [he] at hb
    cases hb
  · rw [agrees_admin config password pass _ hc _ he, decide_eq_true_iff, and_iff_right hz]
    constructor
    · intro hiff
      by_cases hp : pass = password
      · exact .inl ((hiff.mpr hp).trans hp.symm)
      · exact .inr ⟨hp, fun hr => hp (hiff.mp hr)⟩
    · rintro (hr | ⟨hp, hr⟩)
      · rw [hr]
      · exact iff_of_false hr hp

theorem agrees_stranger (config password user pass : Bytes) (hu : 58 ∉ user)
    (ha : user ≠ bytes "admin") (hc : controlHeader user pass =
      some (bytes "Basic "++encodeGroups (user++58::pass))) :
    Agrees config password user pass := by
  obtain ⟨e, he⟩ := authenticate_stranger config user pass hu ha
  refine ⟨_, hc, ?_, ?_, fun hua => absurd hua ha⟩
  · rw [he]
    exact iff_of_false (by simp) fun h => ha h.1
  · intro f hf
    rw [he] at hf
    cases hf
    exact ⟨e, rfl⟩

/-- Client and server agree on a user and a password exactly when the message
is not too long and, for the admin, no six bits of the password are zero and
its bytes arrive unchanged (or are wrong on both sides). -/
theorem agrees_iff (config password user pass : Bytes) (h : StartupCheck config password)
    (hu : 58 ∉ user) :
    Agrees config password user pass ↔
      user.length+1+pass.length ≤ 2147483646 ∧
      (user = bytes "admin" → ¬ zeroDigit (smear pass) ∧
        (received pass = pass ∨ (pass ≠ password ∧ received pass ≠ password))) := by
  have hc := controlHeader_eq user pass
  by_cases hl : user.length+1+pass.length ≤ 2147483646
  case neg =>
    rw [if_neg hl] at hc
    refine iff_of_false ?_ fun h => hl h.1
    rintro ⟨header, hh, -⟩
    rw [hc] at hh
    cases hh
  rw [if_pos hl] at hc
  rw [and_iff_right hl]
  by_cases ha : user = bytes "admin"
  · subst ha
    rw [agrees_admin_iff config password pass h hc, forall_prop_of_true rfl]
  · exact iff_of_true (agrees_stranger config password user pass hu ha hc) fun hua => absurd hua ha

theorem agrees_iff_plain : Agrees plainConfig (bytes "d") (bytes "admin") (bytes "hello") ↔
    5+1+5 ≤ 2147483646 ∧ (bytes "admin" = bytes "admin" →
      ¬ zeroDigit (smear (bytes "hello")) ∧ (received (bytes "hello") = bytes "hello" ∨
        (bytes "hello" ≠ bytes "d" ∧ received (bytes "hello") ≠ bytes "d"))) :=
  agrees_iff plainConfig (bytes "d") (bytes "admin") (bytes "hello") plainConfig_started (by decide)

/-- The right password `d` is sent as `ZA==`, and `decode` knows no `A`. -/
theorem right_password_throws : StartupCheck plainConfig (bytes "d") ∧ 58 ∉ bytes "admin" ∧
    ¬ Agrees plainConfig (bytes "d") (bytes "admin") (bytes "d") := by
  refine ⟨plainConfig_started, by decide, ?_⟩
  rintro ⟨header, hh, -, -, hok⟩
  obtain ⟨b, hb⟩ := hok rfl
  rw [controlHeader_eq, if_pos (by decide)] at hh
  obtain rfl := Option.some.inj hh
  obtain ⟨-, he⟩ | ⟨hz, -⟩ := authenticate_admin plainConfig _ (bytes "d") plainConfig_started
  · rw [he] at hb
    cases hb
  · exact hz (.inr rfl)

end Bakaneko.Credentials
