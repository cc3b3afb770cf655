import Mathlib.Data.List.TakeWhile
import Mathlib.Data.Nat.Notation
import Mathlib.Tactic.Common

/-! # String literals

The lexer finds the end of a string literal, and the parser decodes its text and cuts out the
interpolated fragments. Each keeps track of the braces and quotes in a fragment on its own.
-/

namespace Loxis.Frontend

abbrev Byte := UInt8

def quote : Byte := 0x22

def dollar : Byte := 0x24

def backslash : Byte := 0x5C

def lbrace : Byte := 0x7B

def rbrace : Byte := 0x7D

def isAlpha (c : Byte) : Bool := (0x41 ≤ c && c ≤ 0x5A) || (0x61 ≤ c && c ≤ 0x7A)

def isDigit (c : Byte) : Bool := 0x30 ≤ c && c ≤ 0x39

def isSpace (c : Byte) : Bool := c == 0x20 || (0x09 ≤ c && c ≤ 0x0D)

def isIdStart (c : Byte) : Bool := c == 0x5F || isAlpha c

def isIdCont (c : Byte) : Bool := c == 0x5F || isAlpha c || isDigit c

def hexDigit (c : Byte) : Option Byte :=
  if isDigit c then some (c - 0x30)
  else if 0x41 ≤ c && c ≤ 0x46 then some (c - 0x37)
  else if 0x61 ≤ c && c ≤ 0x66 then some (c - 0x57)
  else none

/-- The number that two characters spell in base 16, as a byte. One digit may stand alone, before
any other character or after a blank or a sign; without a digit the conversion throws. -/
def stoi16 (a b : Byte) : Option Byte :=
  match hexDigit a, hexDigit b with
  | some h, some l => some (16 * h + l)
  | some h, none => some h
  | none, some l =>
    if isSpace a || a == 0x2B then some l else if a == 0x2D then some (-l) else none
  | none, none => none

/-- The byte of an escape other than `\x`; most characters stand for themselves. -/
def escaped (c : Byte) : Byte :=
  if c = 0x6E then 0x0A
  else if c = 0x74 then 0x09
  else if c = 0x72 then 0x0D
  else if c = 0x30 then 0x00
  else c

/-- Resolve the escapes of a literal body. A malformed `\x` throws. -/
def unescapeString : List Byte → Option (List Byte)
  | [] => some []
  | c :: l =>
    if c = backslash then
      match l with
      | [] => some [c]
      | d :: m =>
        if d = 0x78 then
          -- without two characters after it, the escape stands for nothing
          match m with
          | [] => some []
          | [a] => some [a]
          | a :: b :: r => (stoi16 a b).bind fun x => (unescapeString r).map (x :: ·)
        else (unescapeString m).map (escaped d :: ·)
    else (unescapeString l).map (c :: ·)

/-- What follows a string literal, from a place inside it at some depth of braces, and possibly
inside a nested literal. Nested literals are skipped whole. -/
def literalEnd : Bool → ℕ → List Byte → Option (List Byte)
  | _, _, [] => none
  | str, d, c :: l =>
    if d = 0 then
      if c = backslash then
        match l with
        | [] => none
        | _ :: m => literalEnd false 0 m
      else if c = quote then some l
      else if c = dollar ∧ l.head? = some lbrace then
        match l with
        | [] => none
        | _ :: m => literalEnd false 1 m
      else literalEnd false 0 l
    else if str then
      if c = quote then literalEnd false d l
      else if c = backslash then
        match l with
        | [] => none
        | _ :: m => literalEnd true d m
      else literalEnd true d l
    else
      if c = lbrace then literalEnd false (d + 1) l
      else if c = rbrace then literalEnd false (d - 1) l
      else if c = quote then literalEnd true d l
      else if c = backslash then
        match l with
        | [] => none
        | _ :: m => literalEnd false d m
      else literalEnd false d l

/-- Scan a string lexeme from its opening quote on: the lexeme and what follows it. -/
def literalStr (src : List Byte) : Option (List Byte × List Byte) :=
  (literalEnd false 0 src.tail).map fun rest => (src.take (src.length - rest.length), rest)

/-- Scan to the brace that closes a fragment: the fragment and what follows the brace. -/
def takeFragment : Bool → ℕ → List Byte → Option (List Byte × List Byte)
  | _, _, [] => none
  | str, d, c :: l =>
    if str then
      if c = quote then (takeFragment false d l).map (Prod.map (c :: ·) id)
      else if c = backslash then
        match l with
        | [] => none
        | e :: m => (takeFragment true d m).map (Prod.map (c :: e :: ·) id)
      else (takeFragment true d l).map (Prod.map (c :: ·) id)
    else
      if c = backslash then
        match l with
        | [] => none
        | e :: m => (takeFragment false d m).map (Prod.map (c :: e :: ·) id)
      else if c = quote then (takeFragment true d l).map (Prod.map (c :: ·) id)
      else if c = lbrace then (takeFragment false (d + 1) l).map (Prod.map (c :: ·) id)
      else if c = rbrace then
        if d = 1 then some ([], l) else (takeFragment false (d - 1) l).map (Prod.map (c :: ·) id)
      else (takeFragment false d l).map (Prod.map (c :: ·) id)

/-- A part of a template: text, the source of a fragment that a parser of its own reads, or a path
of one name. -/
inductive Part
  | text (s : List Byte)
  | code (src : List Byte)
  | path (name : List Byte)
  deriving DecidableEq

/-- The text collected so far becomes a part, unless there is none. -/
def flushLit (lit : List Byte) : Option (List Part) :=
  if lit = [] then some [] else (unescapeString lit).map fun s => [.text s]

/-- The loop over the raw text of a template, under a bound on its turns. An unterminated fragment
is an error. -/
def scanParts : ℕ → List Byte → List Byte → Option (List Part)
  | 0, _, _ => none
  | _ + 1, lit, [] => flushLit lit
  | n + 1, lit, c :: l =>
    if c = dollar then
      match l with
      | [] => scanParts n (lit ++ [c]) l
      | d :: m =>
        if d = dollar then scanParts n (lit ++ [dollar]) m
        else if d = lbrace then
          (takeFragment false 1 m).bind fun r => (flushLit lit).bind fun ps =>
            (scanParts n [] r.2).map fun qs => ps ++ .code r.1 :: qs
        else if isIdStart d then
          (flushLit lit).bind fun ps =>
            (scanParts n [] (l.dropWhile isIdCont)).map fun qs =>
              ps ++ .path (l.takeWhile isIdCont) :: qs
        else scanParts n (lit ++ [c]) l
    else scanParts n (lit ++ [c]) l

def templateParts (lit raw : List Byte) : Option (List Part) :=
  scanParts (raw.length + 1) lit raw

/-- The expression of a string literal. -/
inductive StringExpr
  | lit (s : List Byte)
  | template (parts : List Part)
  deriving DecidableEq

/-- A template of no parts, or of one text, is a plain literal. -/
def StringExpr.ofParts : List Part → StringExpr
  | [] => .lit []
  | [.text s] => .lit s
  | ps => .template ps

/-- What stands between the quotes of a lexeme. -/
def rawOf (lexeme : List Byte) : List Byte := lexeme.tail.dropLast

def parseStringTemplate (lexeme : List Byte) : Option StringExpr :=
  (templateParts [] (rawOf lexeme)).map .ofParts

/-- Any string that contains a dollar may interpolate. -/
def parseStringLit (lexeme : List Byte) : Option StringExpr :=
  if dollar ∈ lexeme then parseStringTemplate lexeme
  else (unescapeString (rawOf lexeme)).map .lit

end Loxis.Frontend

/-! ## Spelled templates

A template is written byte by byte: text bytes as they are or by an escape, fragments between
braces, names after a dollar. What it means is read off its pieces, and three properties of the
spelling decide whether the lexer and the parser read it so.
-/

namespace Loxis.Frontend

/-- A byte that stands for itself in a literal. -/
def Plain (c : Byte) : Prop := c ≠ backslash ∧ c ≠ quote ∧ c ≠ dollar

instance (c : Byte) : Decidable (Plain c) := inferInstanceAs (Decidable (_ ∧ _))

/-- The characters after a backslash that the decoder knows, other than `x`. -/
def knownEscapes : List Byte := [0x6E, 0x74, 0x72, 0x30, backslash, quote, 0x27, dollar]

/-- How one byte of text is written: as it is, by an escape, by its hexadecimal digits, or, for a
dollar, twice. -/
inductive Spelling
  | plain (c : Byte) (h : Plain c)
  | escape (c : Byte) (h : c ∈ knownEscapes)
  | hex (a b : Byte) (ha : (hexDigit a).isSome) (hb : (hexDigit b).isSome)
  | dollars

namespace Spelling

/-- The byte that is meant. -/
def byte : Spelling → Byte
  | .plain c _ => c
  | .escape c _ => escaped c
  | .hex a b ha hb => 16 * (hexDigit a).get ha + (hexDigit b).get hb
  | .dollars => dollar

def write : Spelling → List Byte
  | .plain c _ => [c]
  | .escape c _ => [backslash, c]
  | .hex a b _ _ => [backslash, 0x78, a, b]
  | .dollars => [dollar, dollar]

end Spelling

/-- A name: an identifier in full. -/
def IsName (id : List Byte) : Prop := id.head?.any isIdStart = true ∧ id.all isIdCont = true

instance (id : List Byte) : Decidable (IsName id) := inferInstanceAs (Decidable (_ ∧ _))

/-- A piece of a template as its author sees it. -/
inductive Piece
  | text (s : List Spelling)
  | code (src : List Byte)
  | name (id : List Byte) (h : IsName id)

/-- A piece of a template as it is scanned: one byte of text, a fragment or a name. -/
inductive Item
  | byte (s : Spelling)
  | code (src : List Byte)
  | name (id : List Byte) (h : IsName id)

namespace Item

def write : Item → List Byte
  | .byte s => s.write
  | .code src => dollar :: lbrace :: src ++ [rbrace]
  | .name id _ => dollar :: id

def isDollars : Item → Bool
  | .byte .dollars => true
  | _ => false

end Item

def Piece.items : Piece → List Item
  | .text s => s.map .byte
  | .code src => [.code src]
  | .name id h => [.name id h]

/-- What a piece means. -/
def Piece.part : Piece → Part
  | .text s => .text (s.map Spelling.byte)
  | .code src => .code src
  | .name id _ => .path id

/-- Adjacent texts joined, empty ones dropped. -/
def joinParts : List Part → List Part
  | [] => []
  | .text s :: ps =>
    match s, joinParts ps with
    | [], qs => qs
    | s, .text u :: qs => .text (s ++ u) :: qs
    | s, qs => .text s :: qs
  | p :: ps => p :: joinParts ps

def writeItems (its : List Item) : List Byte := its.flatMap Item.write

/-- No name is followed by a character that would continue it. -/
def Spaced : List Item → Prop
  | [] => True
  | .name _ _ :: its => (writeItems its).head?.all (!isIdCont ·) = true ∧ Spaced its
  | _ :: its => Spaced its

/-- A template whose names end where they should. -/
structure Template where
  pieces : List Piece
  spaced : Spaced (pieces.flatMap Piece.items)

namespace Template

variable (T : Template)

def items : List Item := T.pieces.flatMap Piece.items

/-- The literal, between quotes. -/
def source : List Byte := quote :: writeItems T.items ++ [quote]

def parts : List Part := joinParts (T.pieces.map Piece.part)

end Template

/-- Whether braces, double quotes and backslashes alone see a fragment as one piece: every brace
is matched and every quoted stretch ends inside it, where a backslash takes the next character
with it and nothing else has a structure of its own. -/
def closed : Bool → ℕ → List Byte → Bool
  | str, d, [] => !str && d == 0
  | str, d, c :: l =>
    if c = backslash then
      match l with
      | [] => false
      | _ :: m => closed str d m
    else if str then (if c = quote then closed false d l else closed true d l)
    else if c = quote then closed true d l
    else if c = lbrace then closed false (d + 1) l
    else if c = rbrace then (if d = 0 then false else closed false (d - 1) l)
    else closed false d l

/-- The raw text goes on as if a dollar before it began an interpolation, or with another dollar. -/
def opens (raw : List Byte) : Bool :=
  raw.head?.any fun c => c == dollar || c == lbrace || isIdStart c

/-- No escaped dollar stands, with the doubled ones right after it, before a brace, a letter, an
underscore or an interpolation. -/
def quiet : List Item → Bool
  | [] => true
  | .byte (.escape c _) :: its =>
    (c != dollar || !opens (writeItems (its.dropWhile Item.isDollars))) && quiet its
  | _ :: its => quiet its

/-- The depth of braces after an item. An opening brace counts inside other braces and right after a
doubled dollar. -/
def depthAfter (prev : Bool) (d : ℕ) : Item → ℕ
  | .byte (.plain c _) =>
    if c = lbrace then (if d = 0 ∧ prev = false then 0 else d + 1)
    else if c = rbrace then d - 1
    else d
  | _ => d

/-- The braces that are open at the end. The flag says that a doubled dollar comes before. -/
def openBraces : Bool → ℕ → List Item → ℕ
  | _, d, [] => d
  | prev, d, it :: its => openBraces it.isDollars (depthAfter prev d it) its

/-- The spelling is clear: both scans see every fragment as one piece, no escaped dollar is taken
for an interpolation, and braces after a doubled dollar are matched before the literal ends. -/
structure Template.Clear (T : Template) : Prop where
  closed : ∀ src, Item.code src ∈ T.items → closed false 0 src = true
  quiet : quiet T.items = true
  matched : openBraces false 0 T.items = 0

end Loxis.Frontend
