import Bakaneko.Base64
import Bakaneko.Ini

/-!
# Checking the Authorization header

`Helpers::Authenticate` cuts the header at a space and the decoded text at a
colon, and reads the second field of both cuts without asking whether it is
there. The configuration file is loaded again for every header.
-/

set_option autoImplicit false

namespace Bakaneko.Authenticate
open Bakaneko.Native Bakaneko.Text Bakaneko.Ini

def unknownType (type : Bytes) : StdException :=
  .invalidArgument (bytes "(Authenticate) Unknown authentication type '"++type++bytes "'")

def unknownUser (user : Bytes) : StdException :=
  .invalidArgument (bytes "(Authenticate) Unknown authentication user '"++user++bytes "'")

/-- The comparison of the second field with the password of the file. -/
def checkPassword (config : Bytes) (password : Option Bytes) : Except Failure Bool :=
  match loadFile config with
  | .error e => .error e
  | .ok sections => match password with
    | none => .error (.undefined .pastEnd)
    | some password => match get (bytes "admin") (bytes "password") sections with
      | .error e => .error (.exception e)
      | .ok value => .ok (decide (password = value))

def checkInfo (config : Bytes) (info : List Bytes) : Except Failure Bool :=
  if info.headD [] ≠ bytes "admin" then .error (.exception (unknownUser (info.headD [])))
  else checkPassword config info[1]?

def checkPayload (config : Bytes) (payload : Option Bytes) : Except Failure Bool :=
  match payload with
  | none => .error (.undefined .pastEnd)
  | some payload => match Base64.decode payload with
    | .error e => .error (.exception e)
    | .ok info => checkInfo config (split info 58 2)

def authenticate (config authentication : Bytes) : Except Failure Bool :=
  let typeBase := split authentication 32 2
  if typeBase.headD [] ≠ bytes "Basic" then
    .error (.exception (unknownType (typeBase.headD [])))
  else checkPayload config typeBase[1]?

/-- The check `main` makes before the server starts. -/
def StartupCheck (config password : Bytes) : Prop :=
  ∃ sections, loadFile config = .ok sections ∧ has (bytes "admin") (bytes "password") sections ∧
    get (bytes "admin") (bytes "password") sections = .ok password

theorem authenticate_basic (config payload : Bytes) :
    authenticate config (bytes "Basic"++32::payload) = checkPayload config (some payload) := by
  have hs : (32:UInt8) ∉ bytes "Basic" := by decide
  rw [authenticate, split_two_append _ _ _ hs]
  rfl

theorem authenticate_other (config header : Bytes) (hb : header ≠ bytes "Basic")
    (hp : ∀ payload, header ≠ bytes "Basic"++32::payload) :
    ∃ type, authenticate config header = .error (.exception (unknownType type)) :=
  ⟨_, if_pos (split_two_head header (bytes "Basic") 32 hb hp)⟩

theorem authenticate_scheme (config : Bytes) :
    authenticate config (bytes "Basic") = .error (.undefined .pastEnd) := by
  have hs : (32:UInt8) ∉ bytes "Basic" := by decide
  rw [authenticate, split_two_absent _ _ hs]
  rfl

theorem checkInfo_admin (config password : Bytes) :
    checkInfo config (split (bytes "admin"++58::password) 58 2) =
      checkPassword config (some password) := by
  have hs : (58:UInt8) ∉ bytes "admin" := by decide
  rw [split_two_append _ _ _ hs]
  rfl

theorem checkInfo_alone (config : Bytes) :
    checkInfo config (split (bytes "admin") 58 2) = checkPassword config none := by
  have hs : (58:UInt8) ∉ bytes "admin" := by decide
  rw [split_two_absent _ _ hs]
  rfl

theorem checkInfo_other (config info : Bytes) (ha : info ≠ bytes "admin")
    (hp : ∀ password, info ≠ bytes "admin"++58::password) :
    ∃ user, checkInfo config (split info 58 2) = .error (.exception (unknownUser user)) :=
  ⟨_, if_pos (split_two_head info (bytes "admin") 58 ha hp)⟩

theorem checkPassword_started (config password value : Bytes) (h : StartupCheck config value) :
    checkPassword config (some password) = .ok (decide (password = value)) := by
  obtain ⟨sections, hl, -, hg⟩ := h
  simp only [checkPassword, hl, hg]

theorem checkPassword_none (config value : Bytes) (h : StartupCheck config value) :
    checkPassword config none = .error (.undefined .pastEnd) := by
  obtain ⟨sections, hl, -, -⟩ := h
  simp only [checkPassword, hl]

theorem admin_bytes : bytes "admin" = [97, 100, 109, 105, 110] :=
  bytes_ofList ['a', 'd', 'm', 'i', 'n']

def plainConfig : Bytes := bytes "[admin]\npassword=d\n"

theorem plainConfig_started : StartupCheck plainConfig (bytes "d") :=
  ⟨[⟨bytes "admin", [⟨bytes "password", some (bytes "d")⟩]⟩], rfl,
    rfl, rfl⟩

end Bakaneko.Authenticate
