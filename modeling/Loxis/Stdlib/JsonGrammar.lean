import Loxis.Stdlib.Json

/-! # The grammar of JSON

Each relation takes a text, what its first part denotes, and the rest after that part. In
well-formed UTF-8 the bytes that a string may hold unescaped are the bytes of the characters
that it may hold.
-/

namespace Loxis.Stdlib.Json

open Loxis.Utf8 (encode)

def spaces : List UInt8 := [32, 9, 10, 13]

inductive Ws : Str → Str → Prop
  | nil (t : Str) : Ws t t
  | cons {b : UInt8} {t t' : Str} : b ∈ spaces → Ws t t' → Ws (b :: t) t'

/-! ## Numbers -/

def IsDigit (b : UInt8) : Prop := 48 ≤ b.toNat ∧ b.toNat ≤ 57

inductive Digits : Str → Str → Prop
  | one {b : UInt8} {t : Str} : IsDigit b → Digits (b :: t) t
  | cons {b : UInt8} {t t' : Str} : IsDigit b → Digits t t' → Digits (b :: t) t'

/-- One of these signs, or none. -/
inductive Sign (signs : List UInt8) : Str → Str → Prop
  | none (t : Str) : Sign signs t t
  | some {b : UInt8} {t : Str} : b ∈ signs → Sign signs (b :: t) t

inductive Integer : Str → Str → Prop
  | zero (t : Str) : Integer (48 :: t) t
  | digits {b : UInt8} {t t' : Str} : b ≠ 48 → Digits (b :: t) t' → Integer (b :: t) t'

inductive Fraction : Str → Str → Prop
  | none (t : Str) : Fraction t t
  | digits {t t' : Str} : Digits t t' → Fraction (46 :: t) t'

inductive Exponent : Str → Str → Prop
  | none (t : Str) : Exponent t t
  | digits {b : UInt8} {t a t' : Str} : b ∈ ([101, 69] : List UInt8) → Sign [43, 45] t a →
      Digits a t' → Exponent (b :: t) t'

inductive Number : Str → Str → Prop
  | mk {t a b c t' : Str} : Sign [45] t a → Integer a b → Fraction b c → Exponent c t' →
      Number t t'

/-! ## Strings -/

def hexDigit (b : UInt8) : Option ℕ :=
  if 48 ≤ b.toNat ∧ b.toNat ≤ 57 then some (b.toNat - 48)
  else if 65 ≤ b.toNat ∧ b.toNat ≤ 70 then some (b.toNat - 55)
  else if 97 ≤ b.toNat ∧ b.toNat ≤ 102 then some (b.toNat - 87)
  else none

/-- So many digits that follow the digits of a number. -/
inductive Hex : ℕ → ℕ → Str → ℕ → Str → Prop
  | nil (n : ℕ) (t : Str) : Hex 0 n t n t
  | cons {k n d m : ℕ} {b : UInt8} {t t' : Str} : hexDigit b = some d →
      Hex k (n * 16 + d) t m t' → Hex (k + 1) n (b :: t) m t'

def IsHigh (n : ℕ) : Prop := 55296 ≤ n ∧ n ≤ 56319

def IsLow (n : ℕ) : Prop := 56320 ≤ n ∧ n ≤ 57343

/-- The code point of a surrogate pair. -/
def pairCode (high low : ℕ) : ℕ := 65536 + (high - 55296) * 1024 + (low - 56320)

/-- The escaped characters and what they stand for. -/
def escapes : List (UInt8 × UInt8) :=
  [(34, 34), (92, 92), (47, 47), (98, 8), (102, 12), (110, 10), (114, 13), (116, 9)]

/-- What follows a backslash. -/
inductive Escape : Str → Str → Str → Prop
  | char {e b : UInt8} {t : Str} : (e, b) ∈ escapes → Escape (e :: t) [b] t
  | scalar {n : ℕ} {t t' : Str} : Hex 4 0 t n t' → ¬ IsHigh n → ¬ IsLow n →
      Escape (117 :: t) (encode n) t'
  | pair {high low : ℕ} {t a t' : Str} : Hex 4 0 t high (92 :: 117 :: a) → IsHigh high →
      Hex 4 0 a low t' → IsLow low →
      Escape (117 :: t) (encode (pairCode high low)) t'

/-- The characters of a string and the quote after them. -/
inductive Chars : Str → Str → Str → Prop
  | quote (t : Str) : Chars (34 :: t) [] t
  | plain {b : UInt8} {t s t' : Str} : 32 ≤ b.toNat → b ≠ 34 → b ≠ 92 → Chars t s t' →
      Chars (b :: t) (b :: s) t'
  | escape {t c a s t' : Str} : Escape t c a → Chars a s t' → Chars (92 :: t) (c ++ s) t'

inductive Quoted : Str → Str → Str → Prop
  | mk {t s t' : Str} : Chars t s t' → Quoted (34 :: t) s t'

/-! ## Values -/

/-- The maps that an object with these members denotes. -/
def Denotes (m : Members) (pairs : List (Str × JsonValue)) : Prop :=
  StringMap.Valid m ∧ ∀ k v, (k, v) ∈ m.entries ↔ (k, v) ∈ pairs

section Nested

variable (R : Str → JsonValue → Str → Prop)

/-- The items and the bracket after them. -/
inductive Items : Str → List JsonValue → Str → Prop
  | last {t a b t' : Str} {v : JsonValue} : Ws t a → R a v b → Ws b (93 :: t') → Items t [v] t'
  | more {t a b c t' : Str} {v : JsonValue} {vs : List JsonValue} : Ws t a → R a v b →
      Ws b (44 :: c) → Items c vs t' → Items t (v :: vs) t'

inductive Member : Str → Str → JsonValue → Str → Prop
  | mk {t a b c d t' k : Str} {v : JsonValue} : Ws t a → Quoted a k b → Ws b (58 :: c) →
      Ws c d → R d v t' → Member t k v t'

/-- The members and the brace after them. -/
inductive Pairs : Str → List (Str × JsonValue) → Str → Prop
  | last {t a t' k : Str} {v : JsonValue} : Member R t k v a → Ws a (125 :: t') →
      Pairs t [(k, v)] t'
  | more {t a b t' k : Str} {v : JsonValue} {pairs : List (Str × JsonValue)} :
      Member R t k v a → Ws a (44 :: b) → Pairs b pairs t' → Pairs t ((k, v) :: pairs) t'

/-- A value, over the values that it may hold. -/
inductive ValueOf : Str → JsonValue → Str → Prop
  | null (t : Str) : ValueOf (nullText ++ t) .null t
  | isTrue (t : Str) : ValueOf (trueText ++ t) (.boolean true) t
  | isFalse (t : Str) : ValueOf (falseText ++ t) (.boolean false) t
  | number {s t' : Str} : Number (s ++ t') t' → ValueOf (s ++ t') (.number s) t'
  | string {t s t' : Str} : Quoted t s t' → ValueOf t (.string s) t'
  | noItems {t t' : Str} : Ws t (93 :: t') → ValueOf (91 :: t) (.array []) t'
  | array {t t' : Str} {vs : List JsonValue} : Items R t vs t' → ValueOf (91 :: t) (.array vs) t'
  | noMembers {t t' : Str} {m : Members} : Ws t (125 :: t') → Denotes m [] →
      ValueOf (123 :: t) (.object m) t'
  | object {t t' : Str} {pairs : List (Str × JsonValue)} {m : Members} : Pairs R t pairs t' →
      (pairs.map Prod.fst).Nodup → Denotes m pairs → ValueOf (123 :: t) (.object m) t'

end Nested

/-- A value that takes at most so many levels: one more than there are arrays and objects
around its innermost value. -/
def Value : ℕ → Str → JsonValue → Str → Prop
  | 0 => fun _ _ _ => False
  | levels + 1 => ValueOf (Value levels)

/-- A text that denotes a value. No value of it is in more than 128 arrays and objects. -/
def Text (s : Str) (v : JsonValue) : Prop := ∃ t t', Ws s t ∧ Value 129 t v t' ∧ Ws t' []

/-- The same value: objects are compared as maps. -/
inductive Same : JsonValue → JsonValue → Prop
  | null : Same .null .null
  | boolean (b : Bool) : Same (.boolean b) (.boolean b)
  | number (s : Str) : Same (.number s) (.number s)
  | string (s : Str) : Same (.string s) (.string s)
  | array {vs vs' : List JsonValue} : List.Forall₂ Same vs vs' → Same (.array vs) (.array vs')
  | object {m m' : Members} :
      (∀ k, k ∈ m.entries.map Prod.fst ↔ k ∈ m'.entries.map Prod.fst) →
      (∀ k v v', (k, v) ∈ m.entries → (k, v') ∈ m'.entries → Same v v') →
      Same (.object m) (.object m')

end Loxis.Stdlib.Json
