import Mathlib.Algebra.GroupWithZero.Nat
import Loxis.Lexing.Lexer

/-! # The lexical grammar

A source text is a byte order mark, perhaps, and pieces of several classes. At each place the
next bytes tell the class, and the piece is the longest text that the class allows there.
-/

namespace Loxis.Lexing

open Frontend

/-! ## Positions -/

/-- A line ends at a line feed, and at a carriage return that none follows. -/
def EndsLineAt (src : List Byte) (i : ℕ) : Prop :=
  src[i]? = some lf ∨ src[i]? = some cr ∧ src[i + 1]? ≠ some lf

instance (src : List Byte) (i : ℕ) : Decidable (EndsLineAt src i) :=
  inferInstanceAs (Decidable (_ ∨ _))

/-- Where the lines before a byte end. -/
def lineEnds (src : List Byte) (n : ℕ) : List ℕ := (List.range n).filter (EndsLineAt src ·)

/-- The line of a byte when the source starts at line `line`. -/
def lineOf (line : ℕ) (src : List Byte) (n : ℕ) : ℕ := line + (lineEnds src n).length

/-- The column of a byte when the source starts at column `col`. Columns of later lines start
at 1. -/
def columnOf (col : ℕ) (src : List Byte) (n : ℕ) : ℕ :=
  match (lineEnds src n).getLast? with
  | none => col + n
  | some i => n - i

/-! ## Classes -/

inductive Class
  | blank | comment | newline | word | number | string | char | operator
deriving DecidableEq

/-- The pieces that are not passed on as tokens. -/
def Class.skipped : Class → Bool
  | blank | comment => true
  | _ => false

/-- The class of the piece at a place. -/
def classAt : List Byte → Option Class
  | [] => none
  | b :: l =>
    if isBlank b then some .blank
    else if isNewline b then some .newline
    else if b = slash ∧ (l.head? = some slash ∨ l.head? = some star) then some .comment
    else if isIdStart b then some .word
    else if isDigit b ∨ b = point ∧ l.head?.any isDigit then some .number
    else if b = quote then some .string
    else if b = apostrophe then some .char
    else some .operator

/-- A digit and more digits or underscores. -/
def IsDigits (s : List Byte) : Prop := s.head?.any isDigit = true ∧ ∀ b ∈ s, isDigit_ b = true

/-- The parts of a decimal number. -/
structure Decimal where
  whole : List Byte
  fraction : List Byte
  exponent : List Byte
  suffix : List Byte

namespace Decimal

variable (d : Decimal)

def text : List Byte := d.whole ++ (d.fraction ++ (d.exponent ++ d.suffix))

structure Wf : Prop where
  whole : IsDigits d.whole ∨ d.whole = [] ∧ d.fraction ≠ []
  fraction : d.fraction = [] ∨ ∃ s, d.fraction = point :: s ∧ IsDigits s
  exponent : d.exponent = [] ∨ ∃ e sign s, d.exponent = e :: (sign ++ s) ∧
    isExponent e = true ∧ (sign = [] ∨ ∃ b, sign = [b] ∧ isSign b = true) ∧ IsDigits s
  suffix : d.suffix = [] ∨ ∃ b, d.suffix = [b] ∧ isFloatSuffix b = true

end Decimal

/-- A number with the letter of its base. -/
def IsBased (t : List Byte) : Prop :=
  ∃ b s, t = 0x30 :: b :: s ∧ isBase b = true ∧ ∀ c ∈ s, isXDigit_ c = true

/-- A decimal number with a fraction, an exponent or a suffix. -/
def IsFloat (t : List Byte) : Prop :=
  ∃ d : Decimal, d.Wf ∧ d.text = t ∧ (d.fraction ≠ [] ∨ d.exponent ≠ [] ∨ d.suffix ≠ [])

def IsLineComment (t : List Byte) : Prop :=
  ∃ s, t = slash :: slash :: s ∧ ∀ b ∈ s, isNewline b = false

/-- Nothing but the end of the comment closes it. -/
def IsBlockComment (t : List Byte) : Prop :=
  ∃ s, t = slash :: star :: (s ++ [star, slash]) ∧ ¬ [star, slash] <:+: s ++ [star]

def IsCharLiteral (t : List Byte) : Prop :=
  t = [apostrophe, apostrophe] ∨
  (∃ b, t = [apostrophe, b, apostrophe] ∧ b ≠ apostrophe ∧ b ≠ backslash ∧ isNewline b = false) ∨
  ∃ b, t = [apostrophe, backslash, b, apostrophe]

/-- The text of an operator and its kind. -/
def IsOperator (t : List Byte) (k : Tk) : Prop :=
  ∃ o ∈ operators, ∃ s ∈ o.2, t = ascii (String.singleton o.1) ++ ascii s.1 ∧ k = s.2

/-- The texts of a class. The body of a string ends at the quote that closes it. -/
def Class.Allows (t : List Byte) : Class → Prop
  | blank => t ≠ [] ∧ ∀ b ∈ t, isBlank b = true
  | comment => IsLineComment t ∨ IsBlockComment t
  | newline => t = [lf] ∨ t = [cr] ∨ t = [cr, lf]
  | word => t.head?.any isIdStart = true ∧ ∀ b ∈ t, isIdCont b = true
  | number => IsBased t ∨ ∃ d : Decimal, d.Wf ∧ d.text = t
  | string => ∃ body, t = quote :: body ∧ literalEnd false 0 body = some []
  | char => IsCharLiteral t
  | operator => ∃ k, IsOperator t k

/-- The longest text of a class at the beginning of `l`. -/
structure Longest (k : Class) (l t : List Byte) : Prop where
  allowed : k.Allows t
  isPrefix : t <+: l
  longest : ∀ u, k.Allows u → u <+: l → u.length ≤ t.length

/-! ## Readings -/

structure Piece where
  pos : ℕ
  cls : Class
  text : List Byte

/-- The pieces of a source from a position on. -/
inductive Reading (src : List Byte) : ℕ → List Piece → Prop
  | done : Reading src src.length []
  | piece {n k t ps} : classAt (src.drop n) = some k → Longest k (src.drop n) t →
      Reading src (n + t.length) ps → Reading src n (⟨n, k, t⟩ :: ps)

section Tokens

variable (file : String) (start : ℕ × ℕ) (src : List Byte)

/-- A location is the line and the column of a byte. -/
structure IsAt (loc : SourceLocation) (n : ℕ) : Prop where
  file : loc.file = file
  line : loc.line.toNat = lineOf start.1 src n
  col : loc.col.toNat = columnOf start.2 src n

/-- The token of a piece. A newline has the same text however it is written. -/
structure Denotes (p : Piece) (t : Token) : Prop where
  loc : IsAt file start src t.loc p.pos
  lex : t.lex = if p.cls = .newline then [lf] else p.text
  kind : match p.cls with
    | .blank | .comment => False
    | .newline => t.kind = .newline
    | .word => t.kind = if p.text = ascii "_" then .underscore else keyword p.text
    | .number => t.kind = .floatLit ∧ IsFloat p.text ∨ t.kind = .intLit ∧ ¬ IsFloat p.text
    | .string => t.kind = .stringLit
    | .char => t.kind = .charLit
    | .operator => IsOperator p.text t.kind

/-- The tokens of the pieces, and one for the end. -/
def TokensOf : List Piece → List Token → Prop
  | [], toks => ∃ e, toks = [e] ∧ e.kind = .eof ∧ e.lex = [] ∧ IsAt file start src e.loc src.length
  | p :: ps, toks =>
    if p.cls.skipped then TokensOf ps toks
    else ∃ t ts, toks = t :: ts ∧ Denotes file start src p t ∧ TokensOf ps ts

/-- The byte order mark of a source that has one. -/
def markOf : List Byte := if bom <+: src then bom else []

/-- The source is its pieces, one after the other, and the tokens are theirs. -/
def Exact (toks : List Token) : Prop :=
  ∃ ps, src = markOf src ++ ps.flatMap Piece.text ∧ Reading src (markOf src).length ps ∧
    TokensOf file start src ps toks

/-- The byte is at a line and a column of 32 bits. -/
def FitsAt (n : ℕ) : Prop := lineOf start.1 src n < 2 ^ 32 ∧ columnOf start.2 src n < 2 ^ 32

/-- No number that is not a float is followed by the letter of an exponent, and the tokens are at
lines and columns of 32 bits. -/
structure Fine (p : Piece) : Prop where
  fits : p.cls.skipped = false → FitsAt start src p.pos
  exponent : p.cls = .number → IsFloat p.text ∨
    src[p.pos + p.text.length]?.any isExponent = false

/-- All pieces are fine, and the end of the source fits. -/
def Clear : Prop :=
  ∃ ps, Reading src (markOf src).length ps ∧ (∀ p ∈ ps, Fine start src p) ∧
    FitsAt start src src.length

end Tokens

end Loxis.Lexing
