import Bakaneko.Native

/-!
# The command line of the server

`parse_args` walks the arguments with an iterator. An option with a value moves
the iterator on to the value and writes the value over the option. Nothing
looks whether the value is there.
-/

set_option autoImplicit false

namespace Bakaneko.CommandLine
open Bakaneko.Native

structure ParsedArgs where
  address : Option Bytes := none
  port : Option UInt16 := none
  configFile : Option Bytes := none
  deriving DecidableEq, Repr

/-- How `parse_args` ends; `pastEnd` is a read at or behind `args.end()`. -/
inductive Outcome where
  | exited (code : ℤ) (printed : Bytes)
  | badLexicalCast
  | pastEnd
  | returned (parsed : ParsedArgs)
  deriving DecidableEq, Repr

def usage (program : Bytes) : Bytes :=
  bytes "\nUsage: "++program++bytes " [OPTIONS]\n\n"++
  bytes "  Options:\n"++
  bytes "    -h --help                 Print this help\n"++
  bytes "       --address address      Address to listen on\n"++
  bytes "       --port    port         Port to listen on\n"++
  bytes "       --install              Installs the Windows Service (needs Admin)\n"++
  bytes "    -c --config  filename     Config file to use\n"++
  bytes "\n"

/-- `args[0]` is there when there are arguments at all. -/
def printHelp (args : List Bytes) (exitCode : ℤ) (printed : Bytes) : Outcome :=
  .exited exitCode (printed++usage (args.headD []))

def unknownArg (arg : Bytes) : Bytes := bytes "Unknown arg: "++arg++[10]

section
/- `boost::lexical_cast<uint16_t>`; it throws where there is no value. -/
variable (lexicalCast : Bytes → Option UInt16)

/-- The loop, with the iterator at an index. -/
def parseFrom (args : List Bytes) (it : ℕ) (parsed : ParsedArgs) : Outcome :=
  if it = args.length then .returned parsed
  else match harg : args[it]? with
    | none => .pastEnd
    | some arg =>
      have hit : it < args.length := (List.getElem?_eq_some_iff.mp harg).1
      if arg = bytes "--help" ∨ arg = bytes "-h" then printHelp args 0 []
      else if arg = bytes "--address" then
        match args[it+1]? with
        | none => .pastEnd
        | some value =>
          parseFrom (args.set it value) (it+2) { parsed with address := some value }
      else if arg = bytes "--port" then
        match args[it+1]? with
        | none => .pastEnd
        | some value => match lexicalCast value with
          | none => .badLexicalCast
          | some port =>
            parseFrom (args.set it value) (it+2) { parsed with port := some port }
      else if arg = bytes "--config" ∨ arg = bytes "-c" then
        match args[it+1]? with
        | none => .pastEnd
        | some value =>
          parseFrom (args.set it value) (it+2) { parsed with configFile := some value }
      else printHelp args (-1) (unknownArg arg)
termination_by args.length-it
decreasing_by all_goals (rw [List.length_set]; omega)

def parseArgs (args : List Bytes) : Outcome := parseFrom lexicalCast args 1 {}

end

/-- The options that take a value. -/
inductive Setting where
  | address
  | port
  | configFile
  deriving DecidableEq, Repr

def setting? (arg : Bytes) : Option Setting :=
  if arg = bytes "--address" then some .address
  else if arg = bytes "--port" then some .port
  else if arg = bytes "--config" ∨ arg = bytes "-c" then some .configFile
  else none

/-- What ends a command line: its end, an option without its value, a question
for help, an argument there is not. -/
inductive Ending where
  | complete
  | missing
  | help
  | unknown (arg : Bytes)
  deriving DecidableEq, Repr

def stop (arg : Bytes) : Ending :=
  if arg = bytes "--help" ∨ arg = bytes "-h" then .help else .unknown arg

/-- The options of a command line with their values, up to what ends it. -/
def occurrences : List Bytes → List (Setting × Bytes) × Ending
  | [] => ([], .complete)
  | [arg] => match setting? arg with
    | none => ([], stop arg)
    | some _ => ([], .missing)
  | arg::value::rest => match setting? arg with
    | none => ([], stop arg)
    | some setting =>
      ((setting, value)::(occurrences rest).1, (occurrences rest).2)

def lastOf (setting : Setting) (options : List (Setting × Bytes)) : Option Bytes :=
  (options.reverse.find? (·.1 = setting)).map (·.2)

section
variable (lexicalCast : Bytes → Option UInt16)

/-- The record holds the values behind the last occurrences of the options. -/
structure Holds (parsed : ParsedArgs) (options : List (Setting × Bytes)) : Prop where
  address : parsed.address = lastOf .address options
  port : parsed.port.map some = (lastOf .port options).map lexicalCast
  configFile : parsed.configFile = lastOf .configFile options

def apply (parsed : ParsedArgs) : Setting × Bytes → Option ParsedArgs
  | (.address, value) => some { parsed with address := some value }
  | (.port, value) => (lexicalCast value).map fun port => { parsed with port := some port }
  | (.configFile, value) => some { parsed with configFile := some value }

def ends (args : List Bytes) (parsed : ParsedArgs) : Ending → Outcome
  | .complete => .returned parsed
  | .missing => .pastEnd
  | .help => printHelp args 0 []
  | .unknown arg => printHelp args (-1) (unknownArg arg)

/-- What is left of the loop, from the options and what ends them. -/
def rest (args : List Bytes) (parsed : ParsedArgs) (options : List (Setting × Bytes))
    (ending : Ending) : Outcome :=
  match options.foldlM (apply lexicalCast) parsed with
  | none => .badLexicalCast
  | some parsed => ends args parsed ending

theorem drop_arg (args : List Bytes) (it : ℕ) (arg : Bytes) (h : args[it]? = some arg) :
    args.drop it = arg::args.drop (it+1) := by
  obtain ⟨hit, rfl⟩ := List.getElem?_eq_some_iff.mp h
  exact List.drop_eq_getElem_cons hit

theorem ends_set (args : List Bytes) (it : ℕ) (value : Bytes) (h : 1 ≤ it) (parsed : ParsedArgs)
    (ending : Ending) : ends (args.set it value) parsed ending = ends args parsed ending := by
  have hhead : (args.set it value).headD [] = args.headD [] := by
    cases args with
    | nil => rfl
    | cons arg args =>
      obtain ⟨n, rfl⟩ := Nat.exists_eq_add_of_le' h
      rfl
  cases ending <;> simp only [ends, printHelp, hhead]

theorem occurrences_stop (args : List Bytes) (it : ℕ) (arg : Bytes) (harg : args[it]? = some arg)
    (hs : setting? arg = none) : occurrences (args.drop it) = ([], stop arg) := by
  rw [drop_arg args it arg harg]
  cases args.drop (it+1) with
  | nil => rw [occurrences, hs]
  | cons value rest => rw [occurrences, hs]

theorem occurrences_missing (args : List Bytes) (it : ℕ) (arg : Bytes) (setting : Setting)
    (harg : args[it]? = some arg) (hs : setting? arg = some setting) (hnone : args[it+1]? = none) :
    occurrences (args.drop it) = ([], .missing) := by
  rw [drop_arg args it arg harg, List.drop_eq_nil_of_le (List.getElem?_eq_none_iff.mp hnone),
    occurrences, hs]

theorem occurrences_option (args : List Bytes) (it : ℕ) (arg value : Bytes) (setting : Setting)
    (harg : args[it]? = some arg) (hs : setting? arg = some setting)
    (hvalue : args[it+1]? = some value) : occurrences (args.drop it) =
      ((setting, value)::(occurrences (args.drop (it+2))).1,
        (occurrences (args.drop (it+2))).2) := by
  rw [drop_arg args it arg harg, drop_arg args (it+1) value hvalue, occurrences, hs]

/-- What an option with its value leaves; that it is written over changes nothing. -/
theorem rest_option (args : List Bytes) (it : ℕ) (arg value : Bytes) (setting : Setting)
    (parsed parsed' : ParsedArgs) (h : 1 ≤ it) (harg : args[it]? = some arg)
    (hs : setting? arg = some setting) (hvalue : args[it+1]? = some value)
    (happly : apply lexicalCast parsed (setting, value) = some parsed') :
    rest lexicalCast (args.set it value) parsed'
      (occurrences ((args.set it value).drop (it+2))).1
      (occurrences ((args.set it value).drop (it+2))).2 =
    rest lexicalCast args parsed (occurrences (args.drop it)).1 (occurrences (args.drop it)).2 := by
  have hfold : ((setting, value)::(occurrences (args.drop (it+2))).1).foldlM (apply lexicalCast)
      parsed = (occurrences (args.drop (it+2))).1.foldlM (apply lexicalCast) parsed' := by
    rw [List.foldlM_cons, happly]
    rfl
  rw [occurrences_option args it arg value setting harg hs hvalue,
    List.drop_set_of_lt (by omega), rest, rest, hfold]
  simp only [ends_set args it value h]

theorem value_bound (args : List Bytes) (it : ℕ) (value : Bytes) (h : args[it+1]? = some value) :
    it+2 ≤ (args.set it value).length := by
  rw [List.length_set]
  exact (List.getElem?_eq_some_iff.mp h).1

theorem parseFrom_rest (args : List Bytes) (it : ℕ) (parsed : ParsedArgs) (h : 1 ≤ it)
    (hle : it ≤ args.length) : parseFrom lexicalCast args it parsed =
      rest lexicalCast args parsed (occurrences (args.drop it)).1
        (occurrences (args.drop it)).2 := by
  have haddress : setting? (bytes "--address") = some .address := by decide
  have hport : setting? (bytes "--port") = some .port := by decide
  fun_induction parseFrom lexicalCast args it parsed with
  | case1 args parsed =>
    rw [List.drop_length]
    rfl
  | case2 args it parsed hne hnone =>
    have := List.getElem?_eq_none_iff.mp hnone
    omega
  | case3 args it parsed hne arg harg hit hhelp =>
    have hs : setting? arg = none := by rcases hhelp with rfl | rfl <;> decide
    rw [occurrences_stop args it arg harg hs, stop, if_pos hhelp]
    rfl
  | case4 args it parsed hne hnone harg hit =>
    rw [occurrences_missing args it _ _ harg haddress hnone]
    rfl
  | case5 args it parsed hne value hvalue harg hit _ ih =>
    rw [ih (by omega) (value_bound args it value hvalue)]
    exact rest_option lexicalCast args it _ value .address parsed _ h harg haddress hvalue rfl
  | case6 args it parsed hne hnone harg hit =>
    rw [occurrences_missing args it _ _ harg hport hnone]
    rfl
  | case7 args it parsed hne value hvalue hcast harg hit =>
    have hfails : apply lexicalCast parsed (.port, value) = none := by rw [apply, hcast]; rfl
    rw [occurrences_option args it _ value .port harg hport hvalue, rest, List.foldlM_cons, hfails]
    rfl
  | case8 args it parsed hne value hvalue port hcast harg hit _ _ ih =>
    have happly : apply lexicalCast parsed (.port, value) = some { parsed with port := some port } := by
      rw [apply, hcast]
      rfl
    rw [ih (by omega) (value_bound args it value hvalue)]
    exact rest_option lexicalCast args it _ value .port parsed _ h harg hport hvalue happly
  | case9 args it parsed hne arg harg hit _ _ _ hconfig hnone =>
    have hs : setting? arg = some .configFile := by rcases hconfig with rfl | rfl <;> decide
    rw [occurrences_missing args it arg _ harg hs hnone]
    rfl
  | case10 args it parsed hne arg harg hit _ _ _ hconfig value hvalue ih =>
    have hs : setting? arg = some .configFile := by rcases hconfig with rfl | rfl <;> decide
    rw [ih (by omega) (value_bound args it value hvalue)]
    exact rest_option lexicalCast args it arg value .configFile parsed _ h harg hs hvalue rfl
  | case11 args it parsed hne arg harg hit hhelp haddress hport hconfig =>
    have hs : setting? arg = none := by
      rw [setting?, if_neg haddress, if_neg hport, if_neg hconfig]
    rw [occurrences_stop args it arg harg hs, stop, if_neg hhelp]
    rfl

theorem lastOf_append (setting setting' : Setting) (options : List (Setting × Bytes))
    (value : Bytes) : lastOf setting (options++[(setting', value)]) =
      if setting' = setting then some value else lastOf setting options := by
  by_cases hs : setting' = setting <;> simp [lastOf, hs]

theorem apply_holds (parsed parsed' : ParsedArgs) (options : List (Setting × Bytes))
    (option : Setting × Bytes) (h : Holds lexicalCast parsed options)
    (happly : apply lexicalCast parsed option = some parsed') :
    Holds lexicalCast parsed' (options++[option]) := by
  obtain ⟨setting, value⟩ := option
  cases setting with
  | address =>
    cases happly
    exact ⟨by simp [lastOf_append], by simp [lastOf_append, h.port],
      by simp [lastOf_append, h.configFile]⟩
  | port =>
    obtain ⟨port, hport, rfl⟩ := Option.map_eq_some_iff.mp happly
    exact ⟨by simp [lastOf_append, h.address], by simp [lastOf_append, hport],
      by simp [lastOf_append, h.configFile]⟩
  | configFile =>
    cases happly
    exact ⟨by simp [lastOf_append, h.address], by simp [lastOf_append, h.port],
      by simp [lastOf_append]⟩

/-- The record holds the last values at every step. -/
theorem options_hold (options : List (Setting × Bytes)) (parsed : ParsedArgs)
    (h : options.foldlM (apply lexicalCast) {} = some parsed) :
    Holds lexicalCast parsed options := by
  induction options using List.reverseRecOn generalizing parsed with
  | nil =>
    cases h
    exact ⟨rfl, rfl, rfl⟩
  | append_singleton options option ih =>
    rw [List.foldlM_append] at h
    obtain ⟨before, hbefore, hlast⟩ := Option.bind_eq_some_iff.mp h
    refine apply_holds lexicalCast before parsed options option (ih before hbefore) ?_
    simpa using hlast

theorem options_convert (options : List (Setting × Bytes)) (parsed : ParsedArgs) :
    (options.foldlM (apply lexicalCast) parsed).isSome ↔
      ∀ value, (.port, value) ∈ options → (lexicalCast value).isSome := by
  induction options generalizing parsed with
  | nil => simp
  | cons option options ih =>
    obtain ⟨setting, value⟩ := option
    rw [List.foldlM_cons]
    cases setting with
    | address => simpa [apply] using ih _
    | configFile => simpa [apply] using ih _
    | port =>
      cases hport : lexicalCast value with
      | none => simp [apply, hport]
      | some port => simpa [apply, hport] using ih _

/-- What is expected of the way `parse_args` ends. -/
structure Meets (args : List Bytes) (out : Outcome) : Prop where
  inside : out ≠ .pastEnd
  ends : (∃ code printed, out = printHelp args code printed) ∨
    ∃ parsed, out = .returned parsed ∧ Holds lexicalCast parsed (occurrences args.tail).1
  missing : (occurrences args.tail).2 = .missing →
    ∃ code printed, code ≠ 0 ∧ out = .exited code printed

/-- Every option needs its value, and every port has to be a number. -/
theorem parseArgs_iff (args : List Bytes) (hargc : 1 ≤ args.length) :
    Meets lexicalCast args (parseArgs lexicalCast args) ↔
      (occurrences args.tail).2 ≠ .missing ∧
        ∀ value, (.port, value) ∈ (occurrences args.tail).1 → (lexicalCast value).isSome := by
  have hrest := parseFrom_rest lexicalCast args 1 {} le_rfl hargc
  rw [List.drop_one, rest] at hrest
  rw [← options_convert lexicalCast _ {}, parseArgs]
  cases hfold : (occurrences args.tail).1.foldlM (apply lexicalCast) {} with
  | none =>
    rw [hfold] at hrest
    refine iff_of_false (fun h => ?_) (by simp)
    rcases h.ends with ⟨code, printed, hout⟩ | ⟨parsed, hout, -⟩
    · cases hrest.symm.trans hout
    · cases hrest.symm.trans hout
  | some parsed =>
    rw [hfold] at hrest
    have hholds := options_hold lexicalCast _ parsed hfold
    rw [hrest]
    cases hend : (occurrences args.tail).2 with
    | complete =>
      refine iff_of_true ⟨by simp [ends], .inr ⟨parsed, rfl, hholds⟩, fun h => ?_⟩ (by simp)
      cases hend.symm.trans h
    | missing => exact iff_of_false (fun h => h.inside rfl) (by simp)
    | help =>
      refine iff_of_true ⟨by simp [ends, printHelp], .inl ⟨0, [], rfl⟩, fun h => ?_⟩ (by simp)
      cases hend.symm.trans h
    | unknown arg =>
      refine iff_of_true ⟨by simp [ends, printHelp], .inl ⟨-1, unknownArg arg, rfl⟩,
        fun h => ?_⟩ (by simp)
      cases hend.symm.trans h

end

/-- `boost::lexical_cast<uint16_t>`: a sign and digits; a negative number is
taken modulo 2^16. -/
def toUint16 (s : Bytes) : Option UInt16 :=
  let digits := if s.head? = some 43 ∨ s.head? = some 45 then s.tail else s
  if digits ≠ [] ∧ digits.all isdigit ∧ digitsValue digits < 65536 then
    let value := UInt16.ofNat (digitsValue digits)
    some (if s.head? = some 45 then -value else value)
  else none

def portLine : List Bytes :=
  [bytes "b", bytes "--address", bytes "--port", bytes "--port", bytes "80"]

/-- The first `--port` is the value of an option. -/
theorem parseArgs_iff_port : Meets toUint16 portLine (parseArgs toUint16 portLine) := by
  have hoptions : occurrences portLine.tail =
      ([(.address, bytes "--port"), (.port, bytes "80")], .complete) := by decide
  refine (parseArgs_iff toUint16 portLine (by decide)).mpr ?_
  rw [hoptions]
  refine ⟨by decide, fun value hvalue => ?_⟩
  obtain rfl : value = bytes "80" := by simpa using hvalue
  decide

/-- Behind the option there is no value. -/
theorem parseArgs_missing : ¬ ∃ lexicalCast : Bytes → Option UInt16,
    Meets lexicalCast [bytes "b", bytes "--address"]
      (parseArgs lexicalCast [bytes "b", bytes "--address"]) := by
  rintro ⟨lexicalCast, h⟩
  have hout : parseArgs lexicalCast [bytes "b", bytes "--address"] = .pastEnd :=
    parseFrom_rest lexicalCast _ 1 {} le_rfl (by decide)
  exact h.inside hout

end Bakaneko.CommandLine
