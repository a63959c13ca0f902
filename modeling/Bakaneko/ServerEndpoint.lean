import Bakaneko.CommandLine
import Bakaneko.IniOperations

/-!
# The endpoint of the server

`main` takes the address and the port from the command line, else from the
configuration, else from the defaults. The configured value is read and
converted in every case: it is the argument of `value_or`.
-/

set_option autoImplicit false

namespace Bakaneko.ServerEndpoint
open Bakaneko.Native Bakaneko.Ini Bakaneko.IniOperations Bakaneko.CommandLine

def DEFAULT_ADDRESS : Bytes := bytes "0.0.0.0"

def DEFAULT_PORT : UInt16 := 29921

/-- Why the server has no endpoint. -/
inductive Halt where
  | exited (code : ℤ)
  | failure (f : Failure)
  | badLexicalCast
  | badAddress
  deriving DecidableEq, Repr

/-- The keys of `[networking]`. -/
inductive Key where
  | address
  | port
  deriving DecidableEq, Repr

def Key.text : Key → Bytes
  | .address => bytes "address"
  | .port => bytes "port"

def networking : Bytes := bytes "networking"

def configured (key : Key) (sections : Sections) : Option Bytes :=
  stored networking key.text sections

section
/- `boost::lexical_cast<uint16_t>` and `asio::ip::make_address`; they throw
where there is no value. -/
variable {α : Type} (lexicalCast : Bytes → Option UInt16) (makeAddress : Bytes → Option α)

/-- `get<std::uint16_t>` of an item with a default. -/
def getPort (defualt : UInt16) (sections : Sections) : Except Halt UInt16 :=
  match configured .port sections with
  | none => .ok defualt
  | some value => match lexicalCast value with
    | none => .error .badLexicalCast
    | some port => .ok port

def addressAndPort (args : ParsedArgs) (config : Bytes) : Except Halt (Bytes × UInt16) := do
  let sections ← (loadFile config).mapError .failure
  if has (bytes "admin") (bytes "password") sections then do
    let address ← (getDefault networking Key.address.text DEFAULT_ADDRESS sections).mapError
      fun e => .failure (.exception e)
    let port ← getPort lexicalCast DEFAULT_PORT sections
    return (args.address.getD address, args.port.getD port)
  else .error (.exited (-2))

def endpoint (args : ParsedArgs) (config : Bytes) : Except Halt (α × UInt16) := do
  let (address, port) ← addressAndPort lexicalCast args config
  match makeAddress address with
  | none => .error .badAddress
  | some ip => return (ip, port)

/-- The address in force. -/
def addressOf (args : ParsedArgs) (sections : Sections) : Bytes :=
  args.address.getD ((configured .address sections).getD DEFAULT_ADDRESS)

/-- The port of the configuration, if it is one, else the default. -/
def configuredPort (sections : Sections) : Option UInt16 :=
  match configured .port sections with
  | none => some DEFAULT_PORT
  | some value => lexicalCast value

/-- The port in force. -/
def portOf (args : ParsedArgs) (sections : Sections) : Option UInt16 :=
  args.port.or (configuredPort lexicalCast sections)

/-- An endpoint is that of the values in force; without a port on the command line
these values also make one. -/
structure Precedence (args : ParsedArgs) (sections : Sections)
    (out : Except Halt (α × UInt16)) : Prop where
  inForce : ∀ ip port, out = .ok (ip, port) →
    makeAddress (addressOf args sections) = some ip ∧ portOf lexicalCast args sections = some port
  used : args.port = none → ∀ ip port, makeAddress (addressOf args sections) = some ip →
    portOf lexicalCast args sections = some port → out = .ok (ip, port)

def Overridden (args : ParsedArgs) : Key → Bool
  | .address => args.address.isSome
  | .port => args.port.isSome

/-- A configuration that loads and has a password. -/
structure Loaded (config : Bytes) (sections : Sections) : Prop where
  loads : loadFile config = .ok sections
  password : has (bytes "admin") (bytes "password") sections

def DifferOnly (key : Key) (sections sections' : Sections) : Prop :=
  ∀ name text, ¬(name = networking ∧ text = key.text) →
    stored name text sections = stored name text sections'

/-- The same endpoint twice, or none twice. -/
def SameEndpoint (out out' : Except Halt (α × UInt16)) : Prop :=
  ∀ e, out = .ok e ↔ out' = .ok e

theorem getDefault_address (sections : Sections) :
    getDefault networking Key.address.text DEFAULT_ADDRESS sections =
      .ok ((configured .address sections).getD DEFAULT_ADDRESS) := by
  have hkey : Key.address.text ≠ [] := by decide
  rw [getDefault, if_neg hkey, configured, stored]
  cases item? networking Key.address.text sections <;> rfl

theorem getPort_eq (sections : Sections) : getPort lexicalCast DEFAULT_PORT sections =
    match configuredPort lexicalCast sections with
    | none => .error .badLexicalCast
    | some port => .ok port := by
  unfold getPort configuredPort
  cases configured .port sections <;> rfl

theorem endpoint_eq (args : ParsedArgs) (config : Bytes) (sections : Sections)
    (h : Loaded config sections) : endpoint lexicalCast makeAddress args config =
      match configuredPort lexicalCast sections with
      | none => .error .badLexicalCast
      | some port => match makeAddress (addressOf args sections) with
        | none => .error .badAddress
        | some ip => .ok (ip, args.port.getD port) := by
  rw [endpoint, addressAndPort, h.loads]
  simp only [Except.mapError, bind, Except.bind, if_pos h.password, getDefault_address, getPort_eq]
  cases configuredPort lexicalCast sections with
  | none => rfl
  | some port => rfl

theorem endpoint_ok (args : ParsedArgs) (config : Bytes) (sections : Sections)
    (h : Loaded config sections) (ip : α) (port : UInt16) :
    endpoint lexicalCast makeAddress args config = .ok (ip, port) ↔
      makeAddress (addressOf args sections) = some ip ∧
        ∃ p, configuredPort lexicalCast sections = some p ∧ args.port.getD p = port := by
  rw [endpoint_eq lexicalCast makeAddress args config sections h]
  cases configuredPort lexicalCast sections with
  | none => simp
  | some p =>
    cases makeAddress (addressOf args sections) with
    | none => simp
    | some i => simp

theorem endpoint_precedence (args : ParsedArgs) (config : Bytes) (sections : Sections)
    (h : Loaded config sections) : Precedence lexicalCast makeAddress args sections
      (endpoint lexicalCast makeAddress args config) where
  inForce ip port hout := by
    obtain ⟨hip, p, hp, rfl⟩ := (endpoint_ok lexicalCast makeAddress args config sections h
      ip port).mp hout
    refine ⟨hip, ?_⟩
    rw [portOf, hp]
    cases args.port <;> rfl
  used hnone ip port hip hport := by
    rw [portOf, hnone, Option.none_or] at hport
    exact (endpoint_ok lexicalCast makeAddress args config sections h ip port).mpr
      ⟨hip, port, hport, by rw [hnone]; rfl⟩

/-- An address the command line gives hides the configured one. -/
theorem address_hidden (args : ParsedArgs) (sections sections' : Sections)
    (hover : Overridden args .address) (hdiff : DifferOnly .address sections sections') :
    addressOf args sections = addressOf args sections' ∧
      configuredPort lexicalCast sections = configuredPort lexicalCast sections' := by
  obtain ⟨address, haddress⟩ := Option.isSome_iff_exists.mp hover
  have hport : configured .port sections = configured .port sections' :=
    hdiff networking Key.port.text (by decide)
  exact ⟨by rw [addressOf, addressOf, haddress]; rfl, by rw [configuredPort, configuredPort, hport]⟩

theorem address_same (args : ParsedArgs) (sections sections' : Sections)
    (hdiff : DifferOnly .port sections sections') :
    addressOf args sections = addressOf args sections' := by
  have haddress : configured .address sections = configured .address sections' :=
    hdiff networking Key.address.text (by decide)
  rw [addressOf, addressOf, haddress]

section
variable (args : ParsedArgs) (config config' : Bytes) (sections sections' : Sections) (key : Key)

/-- What is expected of two configurations that differ in a key. -/
structure Meets : Prop where
  same : SameEndpoint (endpoint lexicalCast makeAddress args config)
    (endpoint lexicalCast makeAddress args config')
  first : Precedence lexicalCast makeAddress args sections
    (endpoint lexicalCast makeAddress args config)
  second : Precedence lexicalCast makeAddress args sections'
    (endpoint lexicalCast makeAddress args config')

/-- Of an overridden port it still matters whether it is one, unless there is no
address anyway. -/
theorem endpoint_iff (h : Loaded config sections) (h' : Loaded config' sections')
    (hover : Overridden args key) (hdiff : DifferOnly key sections sections') :
    Meets lexicalCast makeAddress args config config' sections sections' ↔
      (key = .port → ((configuredPort lexicalCast sections).isSome ↔
          (configuredPort lexicalCast sections').isSome) ∨
        makeAddress (addressOf args sections) = none) := by
  have hmeets : Meets lexicalCast makeAddress args config config' sections sections' ↔
      SameEndpoint (endpoint lexicalCast makeAddress args config)
        (endpoint lexicalCast makeAddress args config') :=
    ⟨Meets.same, fun hsame => ⟨hsame, endpoint_precedence _ _ _ _ _ h,
      endpoint_precedence _ _ _ _ _ h'⟩⟩
  rw [hmeets, SameEndpoint, endpoint_eq lexicalCast makeAddress args config sections h,
    endpoint_eq lexicalCast makeAddress args config' sections' h']
  cases key with
  | address =>
    obtain ⟨haddress, hport⟩ := address_hidden lexicalCast args sections sections' hover hdiff
    rw [haddress, hport]
    simp
  | port =>
    obtain ⟨port, hport⟩ := Option.isSome_iff_exists.mp hover
    rw [← address_same args sections sections' hdiff, hport]
    cases makeAddress (addressOf args sections) with
    | none =>
      cases configuredPort lexicalCast sections <;> cases configuredPort lexicalCast sections' <;>
        simp
    | some ip =>
      cases configuredPort lexicalCast sections <;> cases configuredPort lexicalCast sections' <;>
        simp

end

end

def withPort (port : Bytes) : Bytes :=
  bytes "[admin]\npassword=d\n[networking]\nport="++port++[10]

def sectionsWith (port : Bytes) : Sections :=
  [⟨bytes "admin", [⟨bytes "password", some (bytes "d")⟩]⟩,
    ⟨networking, [⟨bytes "port", some port⟩]⟩]

theorem withPort_loaded : Loaded (withPort (bytes "1")) (sectionsWith (bytes "1")) ∧
    Loaded (withPort (bytes "2")) (sectionsWith (bytes "2")) ∧
    Loaded (withPort (bytes "x")) (sectionsWith (bytes "x")) :=
  ⟨⟨rfl, rfl⟩, ⟨rfl, rfl⟩, ⟨rfl, rfl⟩⟩

theorem sectionsWith_differ (port port' : Bytes) :
    DifferOnly .port (sectionsWith port) (sectionsWith port') := by
  intro name text h
  have hset := (atItem_set networking Key.port.text port' (sectionsWith port) (by decide)).2.2
    name text h
  exact hset.symm

/-- The address of all interfaces. -/
def anyAddress (s : Bytes) : Option ℕ := if s = DEFAULT_ADDRESS then some 0 else none

theorem endpoint_iff_ports : Meets toUint16 anyAddress { port := some 80 } (withPort (bytes "1"))
    (withPort (bytes "2")) (sectionsWith (bytes "1")) (sectionsWith (bytes "2")) ↔
      (Key.port = .port → ((configuredPort toUint16 (sectionsWith (bytes "1"))).isSome ↔
          (configuredPort toUint16 (sectionsWith (bytes "2"))).isSome) ∨
        anyAddress (addressOf { port := some 80 } (sectionsWith (bytes "1"))) = none) :=
  endpoint_iff toUint16 anyAddress { port := some 80 } _ _ _ _ .port withPort_loaded.1
    withPort_loaded.2.1 rfl (sectionsWith_differ _ _)

/-- The command line asks for port 80; a configured `x` still throws. -/
theorem endpoint_thrown :
    Loaded (withPort (bytes "1")) (sectionsWith (bytes "1")) ∧
    Loaded (withPort (bytes "x")) (sectionsWith (bytes "x")) ∧
    DifferOnly .port (sectionsWith (bytes "1")) (sectionsWith (bytes "x")) ∧
    endpoint toUint16 anyAddress { port := some 80 } (withPort (bytes "1")) = .ok (0, 80) ∧
    endpoint toUint16 anyAddress { port := some 80 } (withPort (bytes "x")) =
      .error .badLexicalCast ∧
    ¬ Meets toUint16 anyAddress { port := some 80 } (withPort (bytes "1")) (withPort (bytes "x"))
      (sectionsWith (bytes "1")) (sectionsWith (bytes "x")) := by
  have hone : endpoint toUint16 anyAddress { port := some 80 } (withPort (bytes "1")) =
      .ok (0, 80) := by
    rw [endpoint_eq toUint16 anyAddress _ _ _ withPort_loaded.1]
    decide
  have hx : endpoint toUint16 anyAddress { port := some 80 } (withPort (bytes "x")) =
      .error .badLexicalCast := by
    rw [endpoint_eq toUint16 anyAddress _ _ _ withPort_loaded.2.2]
    decide
  refine ⟨withPort_loaded.1, withPort_loaded.2.2, sectionsWith_differ _ _, hone, hx, fun h => ?_⟩
  cases hx.symm.trans ((h.same _).mp hone)

end Bakaneko.ServerEndpoint
