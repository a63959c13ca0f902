import Bakaneko.Native
import Bakaneko.Library.Fallible
import Bakaneko.Library.PartialRun

/-!
# The Linux terminal

`Linux::add_text` walks the UTF-8 bytes of a text. A byte is stored, moves
the cursor, or is collected until an escape sequence is complete, and every
byte may stop with a fault: a row or palette entry that does not exist, a
line grown past the vector's limit, or an exception of the standard library.
Values the source reads without having set them come with the byte: the
columns and rows of the screen, the byte in front of the parameter text and
the two uninitialised bounds of `K`.
-/

set_option autoImplicit false

namespace Bakaneko.Terminal
open Bakaneko.Native

structure QColor where
  red : ℕ
  green : ℕ
  blue : ℕ
  deriving DecidableEq, Repr

structure Symbol where
  letter : ℕ
  foreground : QColor
  background : QColor
  deriving DecidableEq, Repr

def colorPalate : List (QColor × QColor) := [
  (⟨0, 0, 0⟩, ⟨128, 128, 128⟩),
  (⟨128, 0, 0⟩, ⟨255, 0, 0⟩),
  (⟨0, 128, 0⟩, ⟨0, 255, 0⟩),
  (⟨128, 128, 0⟩, ⟨255, 255, 0⟩),
  (⟨0, 0, 128⟩, ⟨0, 0, 255⟩),
  (⟨128, 0, 128⟩, ⟨255, 0, 255⟩),
  (⟨0, 128, 128⟩, ⟨0, 255, 255⟩),
  (⟨192, 192, 192⟩, ⟨255, 255, 255⟩)]

inductive Fault where
  | row
  | length
  | palette
  | stoi (e : StoiError)
  | utf8
  deriving DecidableEq, Repr

/-- What surrounds the handling of one byte. -/
structure Env where
  columns : CInt
  rows : CInt
  before : UInt8
  start : CInt
  stop : CInt
  columns_pos : 1 ≤ columns.val
  rows_pos : 1 ≤ rows.val

/-- `Term` and `Linux` in one record, with the local `lines_added` of the
`add_text` call in progress. -/
structure Linux where
  data : List (List Symbol)
  currentChar : CInt
  currentLine : CInt
  lineWrapCount : CInt
  commandBuffer : Bytes
  foreground : QColor
  background : QColor
  light : Bool
  swaped : Bool
  foregroundIndex : ℤ
  linesAdded : Bool
  deriving DecidableEq

def reset (type : ℕ) (t : Linux) : Linux :=
  let t := if type = 1 ∨ type = 3 then
    { t with foreground := ⟨255, 255, 255⟩, foregroundIndex := 0, light := true } else t
  let t := if type = 2 ∨ type = 3 then { t with background := ⟨0, 0, 0⟩ } else t
  if type = 3 then { t with swaped := false } else t

def init : Linux := reset 3 {
  data := [[]], currentChar := .wrap 0, currentLine := .wrap 0, lineWrapCount := .wrap 0,
  commandBuffer := [], foreground := ⟨0, 0, 0⟩, background := ⟨0, 0, 0⟩, light := true,
  swaped := false, foregroundIndex := 0, linesAdded := false }

/-- How often `line_recount` starts another row inside one line. -/
def wraps (columns : CInt) : CInt → List Symbol → ℕ
  | _, [] => 0
  | count, _::line =>
    if columns.val < count.val then wraps columns (.wrap 1) line+1
    else wraps columns (.wrap (count.val+1)) line

/-- What `line_recount` counts. -/
def lineWraps (env : Env) (data : List (List Symbol)) : CInt :=
  .wrap (data.length+(data.map fun line => (wraps env.columns (.wrap 0) line:ℤ)).sum)

def lineRecount (env : Env) (t : Linux) : Linux :=
  { t with lineWrapCount := lineWraps env t.data }

/-- Decoding of `codecvt_utf8`: the bytes still owed, the value so far and
the least value the length allows. -/
def utf32From : ℕ → ℕ → ℕ → Bytes → Option (List ℕ)
  | 0, _, _, [] => some []
  | _+1, _, _, [] => none
  | 0, _, _, b::bs =>
    if b.toNat < 0x80 then (utf32From 0 0 0 bs).map (b.toNat::·)
    else if b.toNat < 0xC0 then none
    else if b.toNat < 0xE0 then utf32From 1 (b.toNat-0xC0) 0x80 bs
    else if b.toNat < 0xF0 then utf32From 2 (b.toNat-0xE0) 0x800 bs
    else if b.toNat < 0xF8 then utf32From 3 (b.toNat-0xF0) 0x10000 bs
    else none
  | owed+1, value, least, b::bs =>
    if 0x80 ≤ b.toNat ∧ b.toNat < 0xC0 then
      let value := 64*value+(b.toNat-0x80)
      if owed = 0 then
        if least ≤ value ∧ value ≤ 0x10FFFF then (utf32From 0 0 0 bs).map (value::·) else none
      else utf32From owed value least bs
    else none

def toUtf32 (s : Bytes) : Option (List ℕ) := utf32From 0 0 0 s

/-- The size at which `std::vector<Symbol>::push_back` gives up. -/
def maxSize : ℕ := (2^63-1)/40

/-- The padding loop, with the pushes the vector still has room for. -/
def padTo (blank : Symbol) (target : ℕ) : ℕ → List Symbol → Option (List Symbol)
  | 0, line => if line.length = target then some line else none
  | room+1, line =>
    if line.length = target then some line else padTo blank target room (line++[blank])

def symbol (letter : ℕ) (t : Linux) : Symbol := ⟨letter, t.foreground, t.background⟩

def storeLetter (letter : ℕ) (t : Linux) (line : List Symbol) : Option (List Symbol) :=
  let column := sizeT t.currentChar.val
  if column = line.length then some (line++[symbol letter t])
  else if column < line.length then some (line.set column (symbol letter t))
  else (padTo (symbol 32 t) column (maxSize-line.length) line).map (·++[symbol letter t])

def addLetter (letter : ℕ) (t : Linux) : Except Fault Linux :=
  if t.data.length < sizeT t.currentLine.val then .ok t
  else match t.data[sizeT t.currentLine.val]? with
    | none => .error .row
    | some line => match storeLetter letter t line with
      | none => .error .length
      | some line => .ok { t with
          data := t.data.set (sizeT t.currentLine.val) line
          currentChar := .wrap (t.currentChar.val+1) }

def addLetters : List ℕ → Linux → Except Fault Linux
  | [], t => .ok t
  | letter::letters, t => match addLetter letter t with
    | .error e => .error e
    | .ok t => addLetters letters t

def columnText (env : Env) (b : Bytes) : Bytes :=
  match b.idxOf? 59 with
  | some offset => (b.drop 1).drop offset
  | none => env.before::b.drop 1

def rowAsked (b : Bytes) : ℤ := int32 (atoi (b.drop 1)-1)

def columnAsked (env : Env) (b : Bytes) : ℤ := int32 (atoi (columnText env b)-1)

def parseH (env : Env) (b : Bytes) (t : Linux) : Linux :=
  { t with
    currentLine := .wrap (if rowAsked b = -1 then 0 else rowAsked b)
    currentChar := .wrap (if columnAsked env b = -1 ∨ b.idxOf? 59 = some 0 then 0
      else columnAsked env b) }

def parseJ (env : Env) (t : Linux) : Linux := lineRecount env { t with data := [[]] }

def swapGroup (t : Linux) (group : ℤ) : ℤ :=
  if t.swaped then if group = 30 then 40 else if group = 40 then 30 else group else group

/-- The codes 0, 1, 2 and 7: the new group, colour and state. -/
def sgrAttribute (group color : ℤ) (t : Linux) : ℤ × ℤ × Linux :=
  if group = 0 then
    if color = 1 then (30, t.foregroundIndex, { t with light := true })
    else if color = 2 then (30, t.foregroundIndex, { t with light := false })
    else if color = 7 then
      (group, color, { t with
        foreground := t.background, background := t.foreground, swaped := true })
    else if color = 0 then (group, color, reset 3 t)
    else (group, color, t)
  else (group, color, t)

def palate (color : ℤ) : Except Fault (QColor × QColor) :=
  match colorPalate[sizeT color]? with
  | some c => .ok c
  | none => .error .palette

def setForeground (color : ℤ) (t : Linux) : Except Fault Linux :=
  match palate color with
  | .error e => .error e
  | .ok c => .ok { t with
      foreground := if t.light then c.2 else c.1
      foregroundIndex := color }

def setColor (color : ℤ) (f : QColor × QColor → Linux) : Except Fault Linux :=
  match palate color with
  | .error e => .error e
  | .ok c => .ok (f c)

/-- The colour groups; the result is `true` where the source leaves the loop. -/
def sgrColor (group color : ℤ) (t : Linux) : Except Fault (Bool × Linux) :=
  if group = 20 then
    .ok (false, if color = 7 then { t with
      foreground := t.background, background := t.foreground, swaped := false } else t)
  else if group = 30 then
    if color = 9 then .ok (false, reset 1 t)
    else if color = 8 then .ok (true, t)
    else (setForeground color t).map (false, ·)
  else if group = 40 then
    if color = 9 then .ok (false, reset 2 t)
    else if color = 8 then .ok (true, t)
    else (setColor color fun c => { t with background := c.1 }).map (false, ·)
  else if group = 90 then (setColor color fun c => { t with foreground := c.2 }).map (false, ·)
  else if group = 100 then (setColor color fun c => { t with background := c.2 }).map (false, ·)
  else .ok (false, t)

def sgrCode (value : ℤ) (t : Linux) : Except Fault (Bool × Linux) :=
  let color := value.tmod 10
  let (group, color, t) := sgrAttribute (swapGroup t (value-color)) color t
  sgrColor group color t

def stoiFault (s : Bytes) : Except Fault (ℤ × ℕ) := (stoi s).mapError .stoi

/-- The loop of `m` over the text behind `[`; the counter is the number of
bytes the last field still covers. -/
def sgrLoop (many : Bool) : ℕ → Bytes → Linux → Except Fault Linux
  | _, [], t => .ok t
  | o+1, _::rest, t => sgrLoop many o rest t
  | 0, c::rest, t =>
    match if many then stoiFault (c::rest) else .ok (0, 0) with
    | .error e => .error e
    | .ok (value, o) => match sgrCode value t with
      | .error e => .error e
      | .ok (true, t) => .ok t
      | .ok (false, t) => sgrLoop many o rest t

def parseM (b : Bytes) (t : Linux) : Except Fault Linux :=
  sgrLoop (decide (1 < (b.drop 1).length)) 0 (b.drop 1) t

def eraseBounds (env : Env) (b : Bytes) (t : Linux) : CInt × CInt :=
  if atoi (b.drop 1) = 0 then (t.currentChar, env.columns)
  else if atoi (b.drop 1) = 1 then (.wrap 0, t.currentChar)
  else if atoi (b.drop 1) = 2 then (.wrap 0, env.columns)
  else (env.start, env.stop)

def eraseLoop : ℕ → ℤ → Linux → Except Fault Linux
  | 0, _, t => .ok t
  | n+1, a, t => match addLetter 32 { t with currentChar := .wrap a } with
    | .error e => .error e
    | .ok t => eraseLoop n (a+1) t

def parseK (env : Env) (b : Bytes) (t : Linux) : Except Fault Linux :=
  let (start, stop) := eraseBounds env b t
  (eraseLoop (stop.val-start.val).toNat start.val t).map
    fun u => { u with currentChar := t.currentChar }

def countArgument (b : Bytes) : Except Fault ℤ :=
  if 2 < b.length then (stoiFault (b.drop 1)).map Prod.fst else .ok 1

def parseD (b : Bytes) (t : Linux) : Except Fault Linux :=
  (countArgument b).map fun value =>
    let char := int32 (t.currentChar.val-value)
    { t with currentChar := .wrap (if char < 0 then 0 else char) }

def parseC (env : Env) (b : Bytes) (t : Linux) : Except Fault Linux :=
  (countArgument b).map fun value =>
    let char := int32 (t.currentChar.val+value)
    { t with currentChar := .wrap (if env.columns.val < char then env.columns.val else char) }

def upCap (env : Env) (t : Linux) : ℤ :=
  int32 (if env.rows.val < t.data.length then t.data.length-env.rows.val else 0)

def parseA (env : Env) (b : Bytes) (t : Linux) : Except Fault Linux :=
  (countArgument b).map fun value =>
    let line := int32 (t.currentLine.val-value)
    { t with currentLine := .wrap (if line < upCap env t then upCap env t else line) }

def downCap (env : Env) (t : Linux) : ℤ :=
  int32 (if env.rows.val < t.data.length then t.data.length else env.rows.val)

def parseB (env : Env) (b : Bytes) (t : Linux) : Except Fault Linux :=
  (countArgument b).map fun value =>
    let line := int32 (t.currentLine.val+value)
    { t with currentLine := .wrap (if downCap env t < line then downCap env t else line) }

/-- The last byte of a sequence, as `parse_buffer` tells them apart. -/
inductive Final where
  | H | J | m | K | D | C | A | B | other
  deriving DecidableEq, Repr

def back (b : Bytes) : Final :=
  if b = bytes "[?2004h" ∨ b = bytes "[?2004l" then .other
  else if b.getLast? = some 72 then .H
  else if b.getLast? = some 74 then .J
  else if b.getLast? = some 109 then .m
  else if b.getLast? = some 75 then .K
  else if b.getLast? = some 68 then .D
  else if b.getLast? = some 67 then .C
  else if b.getLast? = some 65 then .A
  else if b.getLast? = some 66 then .B
  else .other

/-- `parse_buffer` on the buffer without its ESC. -/
def parseBuffer (env : Env) (b : Bytes) (t : Linux) : Except Fault Linux :=
  if b.head? = some 91 then
    match back b with
    | .H => .ok (parseH env b t)
    | .J => .ok (parseJ env t)
    | .m => parseM b t
    | .K => parseK env b t
    | .D => parseD b t
    | .C => parseC env b t
    | .A => parseA env b t
    | .B => parseB env b t
    | .other => .ok t
  else .ok t

def newline (t : Linux) : Linux :=
  let line := int32 (t.currentLine.val+1)
  if sizeT line = t.data.length then
    { t with currentLine := .wrap line, data := t.data++[[]], linesAdded := true }
  else { t with currentLine := .wrap line }

def backspaceLine (t : Linux) (line : List Symbol) : List Symbol :=
  let column := sizeT t.currentChar.val
  if column = line.length then line.dropLast
  else line.modify column fun s => { s with letter := 32 }

def backspace (env : Env) (t : Linux) : Except Fault Linux :=
  match t.data[sizeT t.currentLine.val]? with
  | none => .error .row
  | some line =>
    if 0 < t.currentChar.val then
      let char := int32 (t.currentChar.val-1)
      .ok { t with
        data := t.data.set (sizeT t.currentLine.val) (backspaceLine t line)
        currentChar := .wrap char
        linesAdded := t.linesAdded || decide (char.tmod env.columns.val = 0) }
    else .ok t

def flush (t : Linux) : Except Fault Linux :=
  match toUtf32 t.commandBuffer with
  | none => .error .utf8
  | some letters => (addLetters letters t).map fun t => { t with commandBuffer := [] }

def append (c : UInt8) (t : Linux) : Linux := { t with commandBuffer := t.commandBuffer++[c] }

/-- One byte of `add_text`: 27 is ESC, 10 `\n`, 13 `\r`, 8 `\b` and 7 `\a`. -/
def feed (env : Env) (c : UInt8) (t : Linux) : Except Fault Linux :=
  if t.commandBuffer.head? = some 27 then
    if isalpha c then
      (parseBuffer env ((t.commandBuffer++[c]).drop 1) t).map
        fun t => { t with commandBuffer := [] }
    else .ok (append c t)
  else if 128 ≤ c then .ok (append c t)
  else if c = 27 then .ok (append c t)
  else if c = 10 then .ok (newline t)
  else if c = 13 then .ok { t with currentChar := .wrap 0 }
  else if c = 8 then backspace env t
  else if c = 7 then .ok t
  else flush (append c t)

/-- What `add_text` goes through: a byte of the text, or the end of the call. -/
inductive Event where
  | letter (env : Env) (c : UInt8)
  | finish (env : Env)

def step : Event → Linux → Except Fault Linux
  | .letter env c, t => feed env c t
  | .finish env, t =>
    .ok { (if t.linesAdded then lineRecount env t else t) with linesAdded := false }

/-- The bytes of `text.toUtf8().data()` taken as a C string. -/
def input (text : List Char) : Bytes := (text.flatMap String.utf8EncodeChar).takeWhile (· ≠ 0)

/-- A call of `add_text`, with what surrounds each of its bytes. -/
structure Call where
  text : List Char
  env : ℕ → Env

def plainEnv : Env := ⟨.wrap 80, .wrap 24, 0, .wrap 0, .wrap 0, by decide, by decide⟩

def addText (call : Call) : List Event :=
  (input call.text).mapIdx (fun i c => .letter (call.env i) c) ++
    [.finish (call.env (input call.text).length)]

def addTexts (calls : List Call) : List Event := calls.flatMap addText

abbrev run : List Event → Linux → Except Fault Linux := PartialRun.run step

end Bakaneko.Terminal
