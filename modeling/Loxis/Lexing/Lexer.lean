import Loxis.Frontend.StringLit

/-! # The lexer

The scanner keeps the rest of the source and counts lines and columns in 32 bits. A newline is
a token of its own, and the end of the source is one too.
-/

namespace Loxis.Lexing

open Frontend

/-! ## Tokens -/

inductive Tk
  | eof | ident | intLit | floatLit | stringLit | charLit
  | kwPackage | kwImport | kwFrom | kwFun | kwLet | kwVar | kwVal | kwClass | kwInterface | kwObject
  | kwEnum | kwOpen | kwAbstract | kwData | kwOverride | kwInit | kwCompanion | kwFor | kwWhile
  | kwIf | kwElse | kwWhen | kwReturn | kwBreak | kwContinue | kwLoop | kwThrow | kwTry | kwCatch
  | kwFinally | kwTrue | kwFalse | kwNull | kwIs | kwIn | kwAs | kwWhere | kwType | kwConst
  | kwPublic | kwInternal | kwPrivate
  | lParen | rParen | lBrace | rBrace | lBracket | rBracket | comma | dot | dotDot | dotDotEq
  | colon | dColon | semi | arrow | fatArrow | pound | dollar | at | plus | minus | star | slash
  | percent | amp | pipe | caret | tilde | bang | question | lt | gt | le | ge | eq | eqEq | ne
  | andAnd | orOr | shl | shr | plusEq | minusEq | starEq | slashEq | percentEq | ampEq | pipeEq
  | caretEq | shlEq | shrEq | newline | underscore
deriving DecidableEq

/-- The bytes of a text in ASCII. -/
def ascii (s : String) : List Byte := s.toList.map fun c => UInt8.ofNat c.toNat

def keywords : List (String × Tk) :=
  [("package", .kwPackage), ("import", .kwImport), ("from", .kwFrom), ("fun", .kwFun),
    ("let", .kwLet), ("var", .kwVar), ("val", .kwVal), ("class", .kwClass),
    ("interface", .kwInterface), ("object", .kwObject), ("enum", .kwEnum), ("open", .kwOpen),
    ("abstract", .kwAbstract), ("data", .kwData), ("override", .kwOverride), ("init", .kwInit),
    ("companion", .kwCompanion), ("for", .kwFor), ("while", .kwWhile), ("if", .kwIf),
    ("else", .kwElse), ("when", .kwWhen), ("return", .kwReturn), ("break", .kwBreak),
    ("continue", .kwContinue), ("loop", .kwLoop), ("throw", .kwThrow), ("try", .kwTry),
    ("catch", .kwCatch), ("finally", .kwFinally), ("true", .kwTrue), ("false", .kwFalse),
    ("null", .kwNull), ("is", .kwIs), ("in", .kwIn), ("as", .kwAs), ("where", .kwWhere),
    ("type", .kwType), ("const", .kwConst), ("public", .kwPublic), ("internal", .kwInternal),
    ("private", .kwPrivate)]

def keyword (s : List Byte) : Tk := ((keywords.find? fun k => ascii k.1 = s).map Prod.snd).getD .ident

/-- For the first character of an operator, what may follow it, in the order of the tests. -/
def operators : List (Char × List (String × Tk)) :=
  [('+', [("=", .plusEq), ("", .plus)]),
    ('-', [(">", .arrow), ("=", .minusEq), ("", .minus)]),
    ('*', [("=", .starEq), ("", .star)]),
    ('/', [("=", .slashEq), ("", .slash)]),
    ('%', [("=", .percentEq), ("", .percent)]),
    ('&', [("&", .andAnd), ("=", .ampEq), ("", .amp)]),
    ('|', [("|", .orOr), ("=", .pipeEq), ("", .pipe)]),
    ('^', [("=", .caretEq), ("", .caret)]),
    ('~', [("", .tilde)]),
    ('!', [("=", .ne), ("", .bang)]),
    ('<', [("<=", .shlEq), ("<", .shl), ("=", .le), ("", .lt)]),
    ('>', [(">=", .shrEq), (">", .shr), ("=", .ge), ("", .gt)]),
    ('=', [("=", .eqEq), (">", .fatArrow), ("", .eq)]),
    ('.', [(".=", .dotDotEq), (".", .dotDot), ("", .dot)]),
    (':', [(":", .dColon), ("", .colon)]),
    (';', [("", .semi)]), (',', [("", .comma)]), ('(', [("", .lParen)]), (')', [("", .rParen)]),
    ('\x7b', [("", .lBrace)]), ('\x7d', [("", .rBrace)]), ('[', [("", .lBracket)]),
    (']', [("", .rBracket)]), ('#', [("", .pound)]), ('$', [("", .dollar)]), ('@', [("", .at)]),
    ('?', [("", .question)])]

structure SourceLocation where
  file : String
  line : UInt32
  col : UInt32
deriving DecidableEq

structure Token where
  kind : Tk
  lex : List Byte
  loc : SourceLocation
deriving DecidableEq

structure Diagnostic where
  message : String
  start : SourceLocation
  stop : SourceLocation
  label : String
deriving DecidableEq

/-! ## The cursor -/

def lf : Byte := 0x0A

def cr : Byte := 0x0D

/-- A byte ends its line; a carriage return before a line feed does not. -/
def endsLine (b : Byte) (rest : List Byte) : Bool := b == lf || (b == cr && rest.head? != some lf)

structure Cursor where
  file : String
  rest : List Byte
  line : UInt32
  col : UInt32

namespace Cursor

variable (c : Cursor)

def loc : SourceLocation := ⟨c.file, c.line, c.col⟩

def advance : Cursor :=
  match c.rest with
  | [] => c
  | b :: l =>
    if endsLine b l then { c with rest := l, line := c.line + 1, col := 1 }
    else { c with rest := l, col := c.col + 1 }

def advances : ℕ → Cursor → Cursor
  | 0, c => c
  | n + 1, c => advances n c.advance

/-- Advance while the next byte has a property. -/
def skipWhile (p : Byte → Bool) : Cursor := advances (c.rest.takeWhile p).length c

/-- The next byte but `n`, or none at the end. -/
def peek (n : ℕ) : Option Byte := c.rest[n]?

def peekIs (n : ℕ) (p : Byte → Bool) : Bool := (c.peek n).any p

/-- What lies between a cursor and a later one. -/
def lexeme (c' : Cursor) : List Byte := c.rest.take (c.rest.length - c'.rest.length)

end Cursor

/-! ## Scanning -/

/-- The scan of an item: an error, something that is skipped, or a token. -/
inductive Scanned
  | error (d : Diagnostic)
  | skip (c : Cursor)
  | token (t : Token) (c : Cursor)

namespace Scanned

/-- A token from the bytes between two cursors. -/
def emit (kind : Tk) (c c' : Cursor) : Scanned := .token ⟨kind, c.lexeme c', c.loc⟩ c'

end Scanned

def isBlank (b : Byte) : Bool := b == 0x20 || b == 0x09

def isNewline (b : Byte) : Bool := b == lf || b == cr

def isXDigit (b : Byte) : Bool := (hexDigit b).isSome

def isDigit_ (b : Byte) : Bool := isDigit b || b == 0x5F

def isXDigit_ (b : Byte) : Bool := isXDigit b || b == 0x5F

/-- The letters of the bases 16, 2 and 8. -/
def isBase (b : Byte) : Bool := b == 0x78 || b == 0x62 || b == 0x6F

def isExponent (b : Byte) : Bool := b == 0x65 || b == 0x45

def isSign (b : Byte) : Bool := b == 0x2B || b == 0x2D

def isFloatSuffix (b : Byte) : Bool := b == 0x66 || b == 0x46

def slash : Byte := 0x2F

def star : Byte := 0x2A

def point : Byte := 0x2E

def apostrophe : Byte := 0x27

namespace Cursor

variable (c : Cursor)

def error (message : String) (stop : Cursor) (label : String) : Scanned :=
  .error ⟨message, c.loc, stop.loc, label⟩

/-- A line end of two bytes is one newline. -/
def newline : Scanned :=
  let c₁ := c.advance
  let c₂ := if c.peekIs 0 (· == cr) && c₁.peekIs 0 (· == lf) then c₁.advance else c₁
  .token ⟨.newline, [lf], c.loc⟩ c₂

def lineComment : Scanned := .skip ((advances 2 c).skipWhile fun b => !isNewline b)

/-- The bytes up to the end of a block comment. -/
def commentLength : List Byte → Option ℕ
  | [] => none
  | b :: l => if b = star ∧ l.head? = some slash then some 0 else (commentLength l).map (· + 1)

def blockComment : Scanned :=
  let c₁ := advances 2 c
  match commentLength c₁.rest with
  | none => c.error "unterminated block comment" (advances c₁.rest.length c₁) "comment starts here"
  | some n => .skip (advances (n + 2) c₁)

def word : Scanned :=
  let c' := c.skipWhile isIdCont
  .emit (if c.lexeme c' = ascii "_" then .underscore else keyword (c.lexeme c')) c c'

/-- An exponent without digits is given back, but the number counts as a float from there on. -/
def exponent (start : Cursor) : Bool × Cursor :=
  if c.peekIs 0 isExponent then
    let c₁ := c.advance
    let c₂ := if c₁.peekIs 0 isSign then c₁.advance else c₁
    if c₂.peekIs 0 isDigit then (true, c₂.skipWhile isDigit_)
    else (true, { c₂ with
      rest := c.rest, col := start.col + UInt32.ofNat (start.rest.length - c.rest.length) })
  else (false, c)

def number : Scanned :=
  if c.peekIs 0 (· == 0x30) && c.peekIs 1 isBase then
    .emit .intLit c ((advances 2 c).skipWhile isXDigit_)
  else
    let c₁ := c.skipWhile isDigit_
    let fraction := c₁.peekIs 0 (· == point) && c₁.peekIs 1 isDigit
    let c₂ := if fraction then c₁.advance.skipWhile isDigit_ else c₁
    let (marked, c₃) := c₂.exponent c
    let suffix := c₃.peekIs 0 isFloatSuffix
    let c₄ := if suffix then c₃.advance else c₃
    .emit (if fraction || marked || suffix then .floatLit else .intLit) c c₄

def string : Scanned :=
  match literalStr c.rest with
  | none =>
    c.error "unterminated string literal" (advances c.rest.length c) "string starts here"
  | some (lexeme, _) => .emit .stringLit c (advances lexeme.length c)

def char : Scanned :=
  let c₁ := c.advance
  let c₂ := if c₁.peekIs 0 (· == backslash) then advances 2 c₁
    else if c₁.peekIs 0 fun b => b != apostrophe && !isNewline b then c₁.advance else c₁
  if c₂.peekIs 0 (· == apostrophe) then .emit .charLit c c₂.advance
  else c.error "unterminated character literal" c₂ "character literal starts here"

def operator (b : Byte) : Scanned :=
  match (operators.find? fun o => ascii (String.singleton o.1) = [b]).bind fun o =>
      o.2.find? fun s => ascii s.1 <+: c.rest.tail with
  | some s => .emit s.2 c (advances (s.1.length + 1) c)
  | none =>
    .error ⟨"unexpected character `" ++ String.singleton (Char.ofNat b.toNat) ++ "`", c.loc,
      { c.loc with col := c.col + 1 }, "unexpected token"⟩

/-- One turn of the loop. -/
def scan : Scanned :=
  match c.rest with
  | [] => .skip c
  | b :: _ =>
    if isNewline b then c.newline
    else if b = slash ∧ c.peekIs 1 (· == slash) then c.lineComment
    else if b = slash ∧ c.peekIs 1 (· == star) then c.blockComment
    else if isIdStart b then c.word
    else if isDigit b ∨ b = point ∧ c.peekIs 1 isDigit then c.number
    else if b = quote then c.string
    else if b = apostrophe then c.char
    else c.operator b

/-- The loop, under a bound on its turns. -/
def tokens : ℕ → Cursor → Except Diagnostic (List Token)
  | 0, c => .error ⟨"", c.loc, c.loc, ""⟩
  | n + 1, c =>
    let c := c.skipWhile isBlank
    if c.rest = [] then .ok [⟨.eof, [], c.loc⟩]
    else
      match c.scan with
      | .error d => .error d
      | .skip c' => tokens n c'
      | .token t c' => (tokens n c').map (t :: ·)

end Cursor

def bom : List Byte := [0xEF, 0xBB, 0xBF]

/-- A start with line 0 means that none is given. -/
def tokenize (file : String) (start : UInt32 × UInt32) (src : List Byte) :
    Except Diagnostic (List Token) :=
  let c : Cursor := ⟨file, src, if start.1 ≠ 0 then start.1 else 1,
    if start.1 ≠ 0 then start.2 else 1⟩
  let c := if bom <+: src then Cursor.advances 3 c else c
  Cursor.tokens (src.length + 1) c

end Loxis.Lexing
