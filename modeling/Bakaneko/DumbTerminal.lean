import Bakaneko.Terminal

/-!
# The dumb terminal

`Dumb::add_text` stores the bytes of a text as they come. It knows the four
controls `\n`, `\r`, `\b` and `\a` and nothing else, draws in one colour, and
fails where the Linux terminal fails: at a row that does not exist and at a
line the vector has no room for.
-/

set_option autoImplicit false

namespace Bakaneko.DumbTerminal
open Bakaneko.Native
open Bakaneko.Terminal (Symbol Fault Env Call padTo maxSize lineWraps input)

structure Dumb where
  data : List (List Symbol)
  currentChar : CInt
  currentLine : CInt
  lineWrapCount : CInt
  linesAdded : Bool
  deriving DecidableEq

def init : Dumb := {
  data := [[]], currentChar := .wrap 0, currentLine := .wrap 0, lineWrapCount := .wrap 0,
  linesAdded := false }

def symbol (letter : ℕ) : Symbol := ⟨letter, ⟨85, 255, 85⟩, ⟨0, 0, 0⟩⟩

/-- `(char32_t)letter` of a signed `char`. -/
def char32 (c : UInt8) : ℕ := if 128 ≤ c then c.toNat+4294967040 else c.toNat

def lineRecount (env : Env) (t : Dumb) : Dumb :=
  { t with lineWrapCount := lineWraps env t.data }

def storeLetter (letter : ℕ) (t : Dumb) (line : List Symbol) : Option (List Symbol) :=
  let column := sizeT t.currentChar.val
  if column = line.length then some (line++[symbol letter])
  else if column < line.length then some (line.set column (symbol letter))
  else (padTo (symbol 32) column (maxSize-line.length) line).map (·++[symbol letter])

def addLetter (letter : ℕ) (t : Dumb) : Except Fault Dumb :=
  match t.data[sizeT t.currentLine.val]? with
  | none => .error .row
  | some line => match storeLetter letter t line with
    | none => .error .length
    | some line => .ok { t with
        data := t.data.set (sizeT t.currentLine.val) line
        currentChar := .wrap (t.currentChar.val+1) }

def newline (t : Dumb) : Dumb :=
  { t with
    data := t.data++[[]]
    linesAdded := true
    currentLine := .wrap (t.currentLine.val+1) }

def backspace (env : Env) (t : Dumb) : Dumb :=
  if 0 < t.currentChar.val then
    let char := int32 (t.currentChar.val-1)
    { t with
      currentChar := .wrap char
      linesAdded := t.linesAdded || decide (char.tmod env.columns.val = 0) }
  else t

def feed (env : Env) (c : UInt8) (t : Dumb) : Except Fault Dumb :=
  if c = 10 then .ok (newline t)
  else if c = 13 then .ok { t with currentChar := .wrap 0 }
  else if c = 8 then .ok (backspace env t)
  else if c = 7 then .ok t
  else addLetter (char32 c) t

def step : Terminal.Event → Dumb → Except Fault Dumb
  | .letter env c, t => feed env c t
  | .finish env, t =>
    .ok { (if t.linesAdded then lineRecount env t else t) with linesAdded := false }

end Bakaneko.DumbTerminal
