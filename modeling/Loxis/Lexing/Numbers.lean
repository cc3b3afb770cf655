import Loxis.Lexing.Scans

/-! # Numbers

A decimal number is read part by part, each as long as it can be. A part that is cut short leaves
a byte that starts none of the later parts.
-/

namespace Loxis.Lexing

open Frontend

variable {l r t u x y : List Byte} {b : Byte}

/-! ## The parts that are read -/

def wholeOf (l : List Byte) : List Byte := l.takeWhile isDigit_

def fractionOf : List Byte → List Byte
  | [] => []
  | b :: l => if b = point ∧ l.head?.any isDigit then b :: l.takeWhile isDigit_ else []

/-- The sign before the digits of an exponent. -/
def signOf : List Byte → List Byte
  | [] => []
  | b :: _ => if isSign b then [b] else []

def exponentOf : List Byte → List Byte
  | [] => []
  | b :: l =>
    if isExponent b ∧ (l.drop (signOf l).length).head?.any isDigit then
      b :: (signOf l ++ (l.drop (signOf l).length).takeWhile isDigit_)
    else []

def suffixOf : List Byte → List Byte
  | [] => []
  | b :: _ => if isFloatSuffix b then [b] else []

/-- The decimal number at the beginning of a text. -/
def decimalOf (l : List Byte) : Decimal :=
  let whole := wholeOf l
  let fraction := fractionOf (l.drop whole.length)
  let exponent := exponentOf (l.drop (whole.length + fraction.length))
  let suffix := suffixOf (l.drop (whole.length + fraction.length + exponent.length))
  ⟨whole, fraction, exponent, suffix⟩

/-! ## What is read -/

theorem wholeOf_prefix : wholeOf l <+: l := List.takeWhile_prefix _

theorem fractionOf_prefix : fractionOf l <+: l := by
  cases l with
  | nil => exact List.nil_prefix
  | cons b l =>
    rw [fractionOf]
    split
    · exact List.cons_prefix_cons.mpr ⟨rfl, List.takeWhile_prefix _⟩
    · exact List.nil_prefix

theorem signOf_prefix : signOf l <+: l := by
  cases l with
  | nil => exact List.nil_prefix
  | cons b l =>
    rw [signOf]
    split
    · exact ⟨l, rfl⟩
    · exact List.nil_prefix

theorem prefix_of_drop (h : x <+: l) (h' : y <+: l.drop x.length) : x ++ y <+: l := by
  obtain ⟨r, rfl⟩ := h
  rw [List.drop_left] at h'
  exact (List.prefix_append_right_inj x).mpr h'

theorem exponentOf_prefix : exponentOf l <+: l := by
  cases l with
  | nil => exact List.nil_prefix
  | cons b l =>
    rw [exponentOf]
    split
    · exact List.cons_prefix_cons.mpr
        ⟨rfl, prefix_of_drop signOf_prefix (List.takeWhile_prefix _)⟩
    · exact List.nil_prefix

theorem suffixOf_prefix : suffixOf l <+: l := by
  cases l with
  | nil => exact List.nil_prefix
  | cons b l =>
    rw [suffixOf]
    split
    · exact ⟨l, rfl⟩
    · exact List.nil_prefix

theorem decimalOf_prefix : (decimalOf l).text <+: l := by
  have h₁ := prefix_of_drop ( wholeOf_prefix (l := l)) fractionOf_prefix
  have h₂ := prefix_of_drop h₁ exponentOf_prefix
  have h₃ := prefix_of_drop h₂ suffixOf_prefix
  rw [Decimal.text, decimalOf]
  simpa only [List.append_assoc, List.length_append, Nat.add_assoc] using h₃

theorem isDigits_takeWhile (h : l.head?.any isDigit = true) : IsDigits (l.takeWhile isDigit_) := by
  cases l with
  | nil => cases h
  | cons b l =>
    have hb : isDigit b = true := by simpa using h
    refine ⟨?_, all_takeWhile⟩
    rw [List.takeWhile_cons, if_pos (by simp [isDigit_, hb])]
    simpa using hb

theorem fractionOf_cases (l : List Byte) :
    fractionOf l = [] ∨ ∃ s, fractionOf l = point :: s ∧ IsDigits s := by
  cases l with
  | nil => exact .inl rfl
  | cons b l =>
    rw [fractionOf]
    split
    · next h =>
      obtain ⟨rfl, hl⟩ := h
      exact .inr ⟨_, rfl, isDigits_takeWhile hl⟩
    · exact .inl rfl

theorem signOf_cases (l : List Byte) :
    signOf l = [] ∨ ∃ b, signOf l = [b] ∧ isSign b = true := by
  cases l with
  | nil => exact .inl rfl
  | cons b l =>
    rw [signOf]
    split
    · next h => exact .inr ⟨b, rfl, h⟩
    · exact .inl rfl

theorem exponentOf_cases (l : List Byte) : exponentOf l = [] ∨ ∃ e sign s,
    exponentOf l = e :: (sign ++ s) ∧ isExponent e = true ∧
      (sign = [] ∨ ∃ b, sign = [b] ∧ isSign b = true) ∧ IsDigits s := by
  cases l with
  | nil => exact .inl rfl
  | cons b l =>
    rw [exponentOf]
    split
    · next h => exact .inr ⟨b, _, _, rfl, h.1, signOf_cases l, isDigits_takeWhile h.2⟩
    · exact .inl rfl

theorem suffixOf_cases (l : List Byte) :
    suffixOf l = [] ∨ ∃ b, suffixOf l = [b] ∧ isFloatSuffix b = true := by
  cases l with
  | nil => exact .inl rfl
  | cons b l =>
    rw [suffixOf]
    split
    · next h => exact .inr ⟨b, rfl, h⟩
    · exact .inl rfl

/-- What is read is a decimal number, if the text begins with one. -/
theorem decimalOf_wf (h : l.head?.any isDigit = true ∨ fractionOf l ≠ []) : (decimalOf l).Wf where
  whole := by
    by_cases hd : l.head?.any isDigit = true
    · exact .inl (isDigits_takeWhile hd)
    · have hf := h.resolve_left hd
      cases l with
      | nil => exact absurd rfl hf
      | cons b l =>
        have hb : b = point := by
          by_contra hb
          rw [fractionOf, if_neg fun hp => hb hp.1] at hf
          exact hf rfl
        subst hb
        exact .inr ⟨rfl, hf⟩
  fraction := fractionOf_cases _
  exponent := exponentOf_cases _
  suffix := suffixOf_cases _

/-! ## Parts that are cut short -/

/-- A text that is empty, or starts with a byte of a kind. -/
def Begins (q : Byte → Bool) (z : List Byte) : Prop := ∀ b ∈ z.head?, q b = true

theorem Begins.of_cons {q : Byte → Bool} (h : q b = true) : Begins q (b :: l) := by
  simpa [Begins] using h

theorem cut_run {p : Byte → Bool} (hx : ∀ b ∈ x, p b = true) (hy : Begins (fun b => !p b) y) :
    x.length ≤ ((x ++ (y ++ r)).takeWhile p).length ∧
      (y ≠ [] → (x ++ (y ++ r)).takeWhile p = x) := by
  rw [List.takeWhile_append_of_pos hx]
  refine ⟨by simp, fun hne => ?_⟩
  cases y with
  | nil => exact absurd rfl hne
  | cons b y =>
    have hb : p b = false := by simpa [Begins] using hy
    simp [hb]

/-- The bytes that start an exponent or a suffix. -/
def startsLater (b : Byte) : Bool := isExponent b || isFloatSuffix b

/-- The bytes that start a part behind the whole number. -/
def startsPart (b : Byte) : Bool := b == point || startsLater b

theorem startsPart_cases (h : startsPart b = true) :
    b = point ∨ b = 0x65 ∨ b = 0x45 ∨ b = 0x66 ∨ b = 0x46 := by
  simpa [startsPart, startsLater, isExponent, isFloatSuffix, or_assoc] using h

theorem not_digit_of_startsPart (h : startsPart b = true) : (!isDigit_ b) = true := by
  obtain rfl | rfl | rfl | rfl | rfl := startsPart_cases h <;> decide

theorem startsPart_of_later (h : startsLater b = true) : startsPart b = true := by
  rw [startsPart, h, Bool.or_true]

theorem later_ne_point (h : startsLater b = true) : b ≠ point := by
  rintro rfl
  revert h
  decide

theorem suffix_not_exponent (h : isFloatSuffix b = true) : isExponent b = false := by
  simp only [isFloatSuffix, Bool.or_eq_true, beq_iff_eq] at h
  obtain rfl | rfl := h <;> decide

theorem sign_not_digit (h : isDigit b = true) : isSign b = false := by
  by_contra hs
  simp only [isSign, Bool.not_eq_false, Bool.or_eq_true, beq_iff_eq] at hs
  obtain rfl | rfl := hs <;> revert h <;> decide

theorem cut_fraction (hx : x = [] ∨ ∃ s, x = point :: s ∧ IsDigits s) (hy : Begins startsLater y) :
    x.length ≤ (fractionOf (x ++ (y ++ r))).length ∧ (y ≠ [] → fractionOf (x ++ (y ++ r)) = x) := by
  obtain rfl | ⟨s, rfl, hs⟩ := hx
  · refine ⟨Nat.zero_le _, fun hne => ?_⟩
    cases y with
    | nil => exact absurd rfl hne
    | cons b y =>
      have hb : startsLater b = true := by simpa [Begins] using hy
      rw [List.nil_append, List.cons_append, fractionOf, if_neg fun h => later_ne_point hb h.1]
  · have hd : (s ++ (y ++ r)).head?.any isDigit = true := by
      cases s with
      | nil => exact absurd hs.1 (by decide)
      | cons b s => exact hs.1
    have hy' : Begins (fun b => !isDigit_ b) y := fun b hb =>
      not_digit_of_startsPart (startsPart_of_later (hy b hb))
    obtain ⟨hle, heq⟩ := cut_run (r := r) hs.2 hy'
    rw [List.cons_append, fractionOf, if_pos ⟨rfl, hd⟩]
    exact ⟨Nat.succ_le_succ hle, fun hne => by rw [heq hne]⟩

theorem signOf_append {sign : List Byte} (hsign : sign = [] ∨ ∃ b, sign = [b] ∧ isSign b = true)
    (hd : l.head?.any isDigit = true) : signOf (sign ++ l) = sign := by
  obtain rfl | ⟨b, rfl, hb⟩ := hsign
  · cases l with
    | nil => rfl
    | cons b l =>
      have hb : isDigit b = true := by simpa using hd
      rw [List.nil_append, signOf, if_neg (by simp [sign_not_digit hb])]
  · rw [List.cons_append, signOf, if_pos hb]

theorem cut_exponent (hx : x = [] ∨ ∃ e sign s, x = e :: (sign ++ s) ∧ isExponent e = true ∧
      (sign = [] ∨ ∃ b, sign = [b] ∧ isSign b = true) ∧ IsDigits s)
    (hy : Begins isFloatSuffix y) :
    x.length ≤ (exponentOf (x ++ (y ++ r))).length ∧ (y ≠ [] → exponentOf (x ++ (y ++ r)) = x) := by
  obtain rfl | ⟨e, sign, s, rfl, he, hsign, hs⟩ := hx
  · refine ⟨Nat.zero_le _, fun hne => ?_⟩
    cases y with
    | nil => exact absurd rfl hne
    | cons b y =>
      have hb : isFloatSuffix b = true := by simpa [Begins] using hy
      rw [List.nil_append, List.cons_append, exponentOf,
        if_neg fun h => by rw [suffix_not_exponent hb] at h; exact Bool.false_ne_true h.1]
  · have hd : (s ++ (y ++ r)).head?.any isDigit = true := by
      cases s with
      | nil => exact absurd hs.1 (by decide)
      | cons b s => exact hs.1
    have hy' : Begins (fun b => !isDigit_ b) y := fun b hb =>
      not_digit_of_startsPart (startsPart_of_later (by rw [startsLater, hy b hb, Bool.or_true]))
    obtain ⟨hle, heq⟩ := cut_run (r := r) hs.2 hy'
    rw [List.cons_append, List.append_assoc, exponentOf, signOf_append hsign hd, List.drop_left,
      if_pos ⟨he, hd⟩]
    simp only [List.length_cons, List.length_append]
    exact ⟨by omega, fun hne => by rw [heq hne]⟩

theorem begins_append {q : Byte → Bool} (hx : Begins q x) (hy : Begins q y) :
    Begins q (x ++ y) := by
  cases x with
  | nil => exact hy
  | cons b x => simpa [Begins] using hx

theorem cut_suffix (hx : x = [] ∨ ∃ b, x = [b] ∧ isFloatSuffix b = true) :
    x.length ≤ (suffixOf (x ++ r)).length := by
  obtain rfl | ⟨b, rfl, hb⟩ := hx
  · exact Nat.zero_le _
  · rw [List.singleton_append, suffixOf, if_pos hb]

/-! ## The longest number -/

namespace Decimal.Wf

variable {d : Decimal}

theorem begins_suffix (h : d.Wf) : Begins isFloatSuffix d.suffix := by
  obtain hs | ⟨b, hs, hb⟩ := h.suffix
  · simp [Begins, hs]
  · rw [hs]
    exact .of_cons hb

theorem begins_later (h : d.Wf) : Begins startsLater (d.exponent ++ d.suffix) := by
  refine begins_append ?_ fun b hb => ?_
  · obtain he | ⟨e, sign, s, he, hb, -⟩ := h.exponent
    · simp [Begins, he]
    · rw [he]
      exact .of_cons (by rw [startsLater, hb, Bool.true_or])
  · rw [startsLater, h.begins_suffix b hb, Bool.or_true]

theorem begins_part (h : d.Wf) :
    Begins (fun b => !isDigit_ b) (d.fraction ++ (d.exponent ++ d.suffix)) := by
  refine begins_append ?_ fun b hb => not_digit_of_startsPart
    (startsPart_of_later (h.begins_later b hb))
  obtain hf | ⟨s, hf, -⟩ := h.fraction
  · simp [Begins, hf]
  · rw [hf]
    exact .of_cons (by decide)

theorem digits_whole (h : d.Wf) : ∀ b ∈ d.whole, isDigit_ b = true := by
  obtain hw | ⟨hw, -⟩ := h.whole
  · exact hw.2
  · simp [hw]

/-- No decimal number at the beginning of a text is longer than the one that is read. -/
theorem length_le (h : d.Wf) (r : List Byte) :
    d.text.length ≤ (decimalOf (d.text ++ r)).text.length := by
  obtain ⟨hw, hw'⟩ := cut_run (r := r) h.digits_whole h.begins_part
  obtain ⟨hf, hf'⟩ := cut_fraction (r := r) h.fraction h.begins_later
  obtain ⟨he, he'⟩ := cut_exponent (r := r) h.exponent h.begins_suffix
  have hs := cut_suffix (r := r) h.suffix
  have htext : d.text ++ r = d.whole ++ ((d.fraction ++ (d.exponent ++ d.suffix)) ++ r) := by
    rw [Decimal.text, List.append_assoc]
  rw [htext, Decimal.text, Decimal.text]
  simp only [decimalOf, wholeOf, List.length_append]
  by_cases h₁ : d.fraction ++ (d.exponent ++ d.suffix) = []
  · have hlen := congrArg List.length h₁
    simp only [List.length_append, List.length_nil] at hlen
    omega
  rw [hw' h₁, List.drop_left, List.append_assoc]
  by_cases h₂ : d.exponent ++ d.suffix = []
  · have hlen := congrArg List.length h₂
    simp only [List.length_append, List.length_nil] at hlen
    omega
  rw [hf' h₂, ← List.drop_drop, List.drop_left, List.drop_left, List.append_assoc]
  by_cases h₃ : d.suffix = []
  · have hlen := congrArg List.length h₃
    rw [List.length_nil] at hlen
    omega
  rw [he' h₃, ← List.drop_drop, ← List.drop_drop, List.drop_left, List.drop_left, List.drop_left]
  omega

end Decimal.Wf

theorem isBase_cases (h : isBase b = true) : isDigit_ b = false ∧ b ≠ point ∧
    isExponent b = false ∧ isSign b = false ∧ isFloatSuffix b = false := by
  simp only [isBase, Bool.or_eq_true, beq_iff_eq, or_assoc] at h
  obtain rfl | rfl | rfl := h <;> decide

/-- No decimal number contains the letter of a base. -/
theorem Decimal.Wf.not_isBase {d : Decimal} (h : d.Wf) (hb : b ∈ d.text) : isBase b = false := by
  by_contra hbase
  obtain ⟨hdigit, hpoint, hexp, hsign, hsuffix⟩ := isBase_cases (eq_true_of_ne_false hbase)
  have hno : ∀ {s : List Byte}, IsDigits s → b ∉ s := fun hs hb => by
    rw [hs.2 b hb] at hdigit
    cases hdigit
  rw [Decimal.text, List.mem_append, List.mem_append, List.mem_append] at hb
  obtain hb | hb | hb | hb := hb
  · rw [h.digits_whole b hb] at hdigit
    cases hdigit
  · obtain hf | ⟨s, hf, hs⟩ := h.fraction <;> rw [hf] at hb
    · cases hb
    · exact (List.mem_cons.mp hb).elim hpoint (hno hs)
  · obtain he | ⟨e, sign, s, he, he', hsign', hs⟩ := h.exponent <;> rw [he] at hb
    · cases hb
    · obtain rfl | hb := List.mem_cons.mp hb
      · rw [he'] at hexp
        cases hexp
      · obtain rfl | ⟨c, rfl, hc⟩ := hsign'
        · exact hno hs hb
        · obtain rfl | hb := List.mem_cons.mp hb
          · rw [hc] at hsign
            cases hsign
          · exact hno hs hb
  · obtain hs | ⟨c, hs, hc⟩ := h.suffix <;> rw [hs] at hb
    · cases hb
    · rw [List.mem_singleton.mp hb, hc] at hsuffix
      cases hsuffix

theorem longest_based (hb : isBase b = true) :
    Longest .number (0x30 :: b :: l) (0x30 :: b :: l.takeWhile isXDigit_) := by
  refine ⟨.inl ⟨b, _, rfl, hb, all_takeWhile⟩, ?_, ?_⟩
  · exact List.cons_prefix_cons.mpr ⟨rfl, List.cons_prefix_cons.mpr ⟨rfl, List.takeWhile_prefix _⟩⟩
  · rintro u (⟨b', s, rfl, -, hs⟩ | ⟨d, hd, rfl⟩) hu
    · have hu := (List.cons_prefix_cons.mp (List.cons_prefix_cons.mp hu).2).2
      have := length_le_takeWhile hs hu
      simp only [List.length_cons]
      omega
    · by_contra hlt
      obtain ⟨r, hr⟩ := hu
      have hmem : b ∈ d.text := by
        generalize d.text = t at hlt hr
        match t with
        | [] => exact absurd (Nat.zero_le _) hlt
        | [c] => exact absurd (by simp) hlt
        | c :: e :: t =>
          simp only [List.cons_append, List.cons.injEq] at hr
          simp [hr.2.1]
      rw [hd.not_isBase hmem] at hb
      cases hb

theorem longest_decimal (h : l.head?.any isDigit = true ∨ fractionOf l ≠ [])
    (hbase : ∀ b s, l = 0x30 :: b :: s → isBase b = false) :
    Longest .number l (decimalOf l).text := by
  refine ⟨.inr ⟨_, decimalOf_wf h, rfl⟩, decimalOf_prefix, ?_⟩
  rintro u (⟨b, s, rfl, hb, -⟩ | ⟨d, hd, rfl⟩) ⟨r, rfl⟩
  · rw [hbase b (s ++ r) rfl] at hb
    cases hb
  · exact hd.length_le r

/-- A number is a float when one of the parts behind the whole number is read. -/
theorem isFloat_iff (h : l.head?.any isDigit = true ∨ fractionOf l ≠ []) :
    IsFloat (decimalOf l).text ↔ (decimalOf l).fraction ≠ [] ∨ (decimalOf l).exponent ≠ [] ∨
      (decimalOf l).suffix ≠ [] := by
  constructor
  · rintro ⟨d, hd, htext, hparts⟩
    by_contra hno
    rw [not_or, not_or, not_not, not_not, not_not] at hno
    obtain ⟨hf, he, hs⟩ := hno
    have hwhole : d.text = wholeOf l := by
      rw [htext, Decimal.text, hf, he, hs, List.append_nil, List.append_nil, List.append_nil]
      rfl
    cases hlater : d.fraction ++ (d.exponent ++ d.suffix) with
    | nil => simp_all
    | cons b z =>
      have hbad := hd.begins_part b (by rw [hlater]; rfl)
      have hgood : isDigit_ b = true := by
        refine all_takeWhile (l := l) b ?_
        rw [← wholeOf, ← hwhole, Decimal.text, hlater]
        simp
      simp [hgood] at hbad
  · exact fun hparts => ⟨_, decimalOf_wf h, rfl, hparts⟩

end Loxis.Lexing
