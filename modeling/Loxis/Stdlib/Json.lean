import Loxis.Stdlib.Str
import Loxis.Stdlib.StringMap
import Loxis.Stdlib.Utf8

/-! # JSON

The parser and the writer of the library. The parser keeps its first error and goes on, with
placeholders for the values that it could not read.
-/

namespace Loxis.Stdlib

inductive JsonValue
  | null
  | boolean (value : Bool)
  | number (lexeme : Str)
  | string (value : Str)
  | array (items : List JsonValue)
  | object (members : HashMap Str JsonValue)

abbrev Members := HashMap Str JsonValue

def jsonDigit (code : ℤ) : Bool := code ≥ 48 ∧ code ≤ 57

def jsonHex (code : ℤ) : ℤ :=
  if code ≥ 48 ∧ code ≤ 57 then code - 48
  else if code ≥ 65 ∧ code ≤ 70 then code - 55
  else if code ≥ 97 ∧ code ≤ 102 then code - 87
  else -1

def jsonWhitespace (code : ℤ) : Bool := code = 32 ∨ code = 9 ∨ code = 10 ∨ code = 13

def nullText : Str := [110, 117, 108, 108]
def trueText : Str := [116, 114, 117, 101]
def falseText : Str := [102, 97, 108, 115, 101]

/-- A result that the caller asserts to be there. -/
def orRaise {σ α : Type} : Eval α → EStateM Stop σ α
  | .ok a => pure a
  | .error message => throw (.raised message)

/-- A call of a method of a map, with the map that it leaves. -/
def onMembers {σ α : Type} (t : Members) (x : Call Str JsonValue α) :
    EStateM Stop σ (α × Members) := fun s =>
  match x ⟨t, 0⟩ with
  | .ok a w => .ok (a, w.map) s
  | .error e _ => .error e s

/-! ## The parser -/

structure JsonParser where
  position : ℕ
  failure : String

abbrev Parse := EStateM Stop JsonParser

namespace JsonParser

variable (source : Str)

def fail (message : String) : Parse Unit := fun p => .ok () <|
  if p.failure = "" then
    { p with failure := message ++ " at byte " ++ toString p.position }
  else p

def failed : Parse Bool := fun p => .ok (decide (p.failure ≠ "")) p

def here : Parse ℕ := fun p => .ok p.position p

def peek : Parse ℤ := fun p => .ok (strchar source p.position) p

def advance (n : ℕ) : Parse Unit := fun p => .ok () { p with position := p.position + n }

def sees (kind : ℤ → Bool) : Parse Bool := fun p => .ok (kind (strchar source p.position)) p

/-- The loops past the bytes of a kind. -/
def skipWhile (kind : ℤ → Bool) : Parse Unit :=
  whileLoop .diverges (fun _ => sees source kind) (fun _ => advance 1) (source.length + 1) ()

def whitespace : Parse Unit := skipWhile source jsonWhitespace

/-- The turns that are left of the loop over four digits. -/
def hexLoop : ℕ → ℤ → Parse ℤ
  | 0, value => return value
  | turns + 1, value => do
    let digit := jsonHex (← peek source)
    if digit < 0 then
      fail "invalid Unicode escape"
      return 0
    else
      advance 1
      hexLoop turns (value * 16 + digit)

def hex4 : Parse ℤ := hexLoop source 4 0

/-- The text that is added for a code point: none after an error. -/
def codeText (code : ℤ) : Parse Str := do
  if ← failed then return []
  else orRaise (encodeCodePoint code)

/-- The second half of a surrogate pair. Without a text the string is given up. -/
def lowSurrogate (code : ℤ) : Parse (Option Str) := do
  if (← peek source) ≠ 92 ∨ strchar source ((← here) + 1 : ℕ) ≠ 117 then
    fail "missing low surrogate"
    return none
  else
    advance 2
    let low ← hex4 source
    if low < 56320 ∨ low > 57343 then
      fail "invalid low surrogate"
      return none
    else return some (← codeText (65536 + (code - 55296) * 1024 + low - 56320))

/-- What follows `\u`. -/
def unicodeEscape : Parse (Option Str) := do
  let code ← hex4 source
  if code ≥ 55296 ∧ code ≤ 56319 then lowSurrogate source code
  else if code ≥ 56320 ∧ code ≤ 57343 then
    fail "unpaired low surrogate"
    return none
  else return some (← codeText code)

/-- What an escaped character stands for. -/
def escapeOf (escape : ℤ) : Parse (Option Str) :=
  if escape = 34 ∨ escape = 92 ∨ escape = 47 then return some (chr escape)
  else if escape = 98 then return some (chr 8)
  else if escape = 102 then return some (chr 12)
  else if escape = 110 then return some (chr 10)
  else if escape = 114 then return some (chr 13)
  else if escape = 116 then return some (chr 9)
  else if escape = 117 then unicodeEscape source
  else do
    fail "invalid escape"
    return none

/-- What follows a backslash. -/
def escape : Parse (Option Str) := do
  let escape ← peek source
  advance 1
  escapeOf source escape

/-- The loop over the characters of a string. -/
def stringLoop : ℕ → Str → Parse Str
  | 0, _ => throw .diverges
  | turns + 1, out => do
    if ¬ (← here) < source.length ∨ (← failed) then
      fail "unterminated string"
      return []
    else
      let c ← peek source
      advance 1
      if c = 34 then return out
      else if c < 32 then
        fail "unescaped control character"
        return []
      else if c ≠ 92 then stringLoop turns (out ++ chr c)
      else
        match ← escape source with
        | some text => stringLoop turns (out ++ text)
        | none => return []

def stringValue : Parse Str := do
  if (← peek source) ≠ 34 then
    fail "expected string"
    return []
  else
    advance 1
    stringLoop source (source.length + 1) []

/-- Without the digits, a false result. -/
def digits (missing : String) : Parse Bool := do
  if ¬ jsonDigit (← peek source) then
    fail missing
    return false
  else
    skipWhile source jsonDigit
    return true

def sign (signs : List UInt8) : Parse Unit := do
  let c ← peek source
  if ∃ b ∈ signs, c = b.toNat then advance 1 else return ()

/-- Digits that do not start with 0, or 0 alone. -/
def integerPart : Parse Bool := do
  if (← peek source) = 48 then
    advance 1
    return true
  else digits source "expected digit"

def fractionPart : Parse Bool := do
  if (← peek source) = 46 then
    advance 1
    digits source "expected fractional digit"
  else return true

def exponentPart : Parse Bool := do
  let c ← peek source
  if c = 101 ∨ c = 69 then
    advance 1
    sign source [43, 45]
    digits source "expected exponent digit"
  else return true

def numberParts : Parse Bool := do
  sign source [45]
  if ← integerPart source then
    if ← fractionPart source then exponentPart source else return false
  else return false

def numberValue : Parse JsonValue := do
  let start ← here
  if ← numberParts source then
    return .number (strslice source start ((← here) - start : ℕ))
  else return .null

/-- What follows an item or a member: the end of the value, or a comma and the next turn. -/
def next (close : UInt8) (message : String) (done : JsonValue) (again : Parse JsonValue) :
    Parse JsonValue := do
  whitespace source
  let c ← peek source
  if c = close.toNat then
    advance 1
    return done
  else if c ≠ 44 then
    fail message
    return .null
  else
    advance 1
    again

/-- The loop over the items. It is left only after an error, and then no other kind of value
is tried. -/
def arrayLoop (element : Parse JsonValue) : ℕ → List JsonValue → Parse JsonValue
  | 0, _ => throw .diverges
  | turns + 1, items => do
    if ← failed then
      fail "expected JSON value"
      return .null
    else
      let items := items ++ [← element]
      next source 93 "expected comma or closing bracket" (.array items)
        (arrayLoop element turns items)

def arrayValue (element : Parse JsonValue) : Parse JsonValue := do
  advance 1
  whitespace source
  if (← peek source) = 93 then
    advance 1
    return .array []
  else arrayLoop source element (source.length + 1) []

/-- The key of a member and its value. Without the colon, nothing. -/
def member (element : Parse JsonValue) : Parse (Option (Str × JsonValue)) := do
  whitespace source
  let key ← stringValue source
  whitespace source
  if (← peek source) ≠ 58 then
    fail "expected colon"
    return none
  else
    advance 1
    return some (key, ← element)

def objectLoop (element : Parse JsonValue) : ℕ → Members → Parse JsonValue
  | 0, _ => throw .diverges
  | turns + 1, members => do
    if ← failed then
      fail "expected JSON value"
      return .null
    else
      match ← member source element with
      | none => return .null
      | some (key, value) =>
        let (present, members) ← onMembers members (HashMap.containsKey strings key)
        if present then
          fail "duplicate object key"
          return .null
        else
          let (_, members) ← onMembers members (HashMap.putFreely strings 2 key value)
          next source 125 "expected comma or closing brace" (.object members)
            (objectLoop element turns members)

def objectValue (element : Parse JsonValue) : Parse JsonValue := do
  advance 1
  whitespace source
  if (← peek source) = 125 then
    advance 1
    return .object StringMap.empty
  else objectLoop source element (source.length + 1) StringMap.empty

/-- A value after the whitespace, over the parser of its elements. -/
def valueWith (element : Parse JsonValue) : Parse JsonValue := do
  let c ← peek source
  if c = 34 then return .string (← stringValue source)
  else if c = 45 ∨ jsonDigit c then numberValue source
  else if strslice source (← here) 4 = nullText then
    advance 4
    return .null
  else if strslice source (← here) 4 = trueText then
    advance 4
    return .boolean true
  else if strslice source (← here) 5 = falseText then
    advance 5
    return .boolean false
  else if c = 91 then arrayValue source element
  else if c = 123 then objectValue source element
  else
    fail "expected JSON value"
    return .null

/-- A value, with the levels that its nesting may still take: 129 less the depth. -/
def value : ℕ → Parse JsonValue
  | 0 => do
    whitespace source
    fail "JSON nesting limit exceeded"
    return .null
  | levels + 1 => do
    whitespace source
    valueWith source (value levels)

end JsonParser

/-! ## The writer -/

structure JsonWriter where
  chunks : List Str
  failure : String

abbrev Write := EStateM Stop JsonWriter

namespace JsonWriter

def push (chunk : Str) : Write Unit := fun w => .ok () { w with chunks := w.chunks ++ [chunk] }

def setFailure (failure : String) : Write Unit := fun w => .ok () { w with failure }

def failed : Write Bool := fun w => .ok (decide (w.failure ≠ "")) w

/-- The digits 0 to 9 and a to f. -/
def hex : Str := [48, 49, 50, 51, 52, 53, 54, 55, 56, 57, 97, 98, 99, 100, 101, 102]

/-- What is written for one byte of a string. -/
def escaped (c : ℤ) : Str :=
  if c = 34 ∨ c = 92 then chr 92 ++ chr c
  else if c < 32 then
    chr 92 ++ [117, 48, 48] ++ strslice hex (c.tdiv 16) 1 ++ strslice hex (c.tmod 16) 1
  else chr c

/-- The loop over the bytes. -/
def stringLoop : Str → Write Unit
  | [] => return ()
  | b :: rest => do
    push (escaped b.toNat)
    stringLoop rest

def stringValue (value : Str) : Write Unit := do
  match decodeCodePoints value with
  | .failure _ => setFailure "invalid UTF-8 string"
  | .success _ =>
    push (chr 34)
    stringLoop value
    push (chr 34)

/-- The parser that has read the number from its start. -/
def scanned (number : Str) : Write JsonParser := fun w =>
  match JsonParser.numberValue number ⟨0, ""⟩ with
  | .ok _ parser => .ok parser w
  | .error e _ => .error e w

def numberValue (number : Str) : Write Unit := do
  let parser ← scanned number
  if parser.failure ≠ "" ∨ parser.position ≠ number.length then setFailure "invalid JSON number"
  else push number

def comma (i : ℕ) : Write Unit := if i > 0 then push [44] else pure ()

def arrayLoop (element : JsonValue → Write Unit) : List JsonValue → ℕ → Write Unit
  | [], _ => return ()
  | item :: items, i => do
    comma i
    element item
    arrayLoop element items (i + 1)

/-- The value of a key, which is asserted to be there. -/
def memberValue (element : JsonValue → Write Unit) (members : Members) (key : Str) :
    Write Unit := do
  match (← onMembers members (HashMap.get strings key)).1 with
  | some value => element value
  | none => throw (.raised "missing optional value")

def member (element : JsonValue → Write Unit) (members : Members) (key : Str) : Write Unit := do
  stringValue key
  push [58]
  memberValue element members key

def objectLoop (element : JsonValue → Write Unit) (members : Members) : List Str → ℕ → Write Unit
  | [], _ => return ()
  | key :: keys, i => do
    comma i
    member element members key
    objectLoop element members keys (i + 1)

def objectMembers (element : JsonValue → Write Unit) (members : Members) : Write Unit := do
  objectLoop element members (← onMembers members HashMap.keys).1 0

def valueWith (element : JsonValue → Write Unit) : JsonValue → Write Unit
  | .null => push nullText
  | .boolean flag => push (if flag then trueText else falseText)
  | .number number => numberValue number
  | .string text => stringValue text
  | .array items => do
    push [91]
    arrayLoop element items 0
    push [93]
  | .object members => do
    push [123]
    objectMembers element members
    push [125]

/-- A value, with the levels that its nesting may still take: 129 less the depth. -/
def value : ℕ → JsonValue → Write Unit
  | 0, _ => setFailure "JSON nesting limit exceeded"
  | levels + 1, v => do
    if ← failed then return ()
    else valueWith (value levels) v

end JsonWriter

/-! ## The interface -/

namespace Json

/-- The values at depth 0 to 128. -/
def maxLevels : ℕ := 129

def atEnd (source : Str) : Parse Unit := do
  if (← JsonParser.here) ≠ source.length then JsonParser.fail "trailing input" else return ()

def parsed (value : JsonValue) : Parse (Result JsonValue String) := fun p =>
  .ok (if p.failure ≠ "" then .failure p.failure else .success value) p

def finish (source : Str) : Parse (Result JsonValue String) := do
  let value ← JsonParser.value source maxLevels
  JsonParser.whitespace source
  atEnd source
  parsed value

def parse (source : Str) : Except Stop (Result JsonValue String) :=
  match decodeCodePoints source with
  | .failure _ => .ok (.failure "invalid UTF-8")
  | .success _ => (outcome (finish source) ⟨0, ""⟩).1

def written : Write (Result Str String) := fun w =>
  .ok (if w.failure ≠ "" then .failure w.failure else .success (join w.chunks [])) w

def stringify (value : JsonValue) : Except Stop (Result Str String) :=
  (outcome (JsonWriter.value maxLevels value >>= fun _ => written) ⟨[], ""⟩).1

end Json

end Loxis.Stdlib
