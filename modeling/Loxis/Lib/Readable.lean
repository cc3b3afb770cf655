import Mathlib.Data.List.Basic
import Mathlib.Data.Nat.Notation
import Mathlib.Tactic.Common

/-! # Uniquely readable encodings

An encoding is uniquely readable when, from a text that starts with the code of a value, both
the value and the rest of the text are determined. Numbers in decimal are readable before
anything that is not a digit; what follows a code is therefore restricted by a guard.
-/

namespace Loxis.Readable

variable {α β : Type*}

/-- What may follow a number. -/
def NonDigit (r : List Char) : Prop := ∀ c ∈ r.head?, c.isDigit = false

@[simp] theorem nonDigit_nil : NonDigit [] := fun _ h => nomatch h

@[simp] theorem nonDigit_cons {c : Char} {r : List Char} :
    NonDigit (c :: r) ↔ c.isDigit = false := by
  simp [NonDigit]

/-- Two texts split where a property of their characters ends first. -/
theorem span_inj {γ : Type*} {p : γ → Prop} {d e r s : List γ} (hd : ∀ c ∈ d, p c)
    (he : ∀ c ∈ e, p c) (hr : ∀ c ∈ r.head?, ¬ p c) (hs : ∀ c ∈ s.head?, ¬ p c)
    (h : d ++ r = e ++ s) : d = e ∧ r = s := by
  induction d generalizing e with
  | nil =>
    cases e with
    | nil => exact ⟨rfl, h⟩
    | cons c e =>
      subst h
      exact absurd (he c (by simp)) (hr c (by simp))
  | cons c d ih =>
    cases e with
    | nil =>
      subst h
      exact absurd (hd c (by simp)) (hs c (by simp))
    | cons c' e =>
      obtain ⟨rfl, h'⟩ := List.cons.inj h
      obtain ⟨rfl, rfl⟩ := ih (fun x hx => hd x (List.mem_cons_of_mem _ hx))
        (fun x hx => he x (List.mem_cons_of_mem _ hx)) h'
      exact ⟨rfl, rfl⟩

theorem toDigits_append_inj {m n : ℕ} {r s : List Char} (hr : NonDigit r) (hs : NonDigit s)
    (h : Nat.toDigits 10 m ++ r = Nat.toDigits 10 n ++ s) : m = n ∧ r = s := by
  have hdigit : ∀ k, ∀ c ∈ Nat.toDigits 10 k, c.isDigit = true := fun _ _ hc =>
    Nat.isDigit_of_mem_toDigits (by decide) (by decide) hc
  obtain ⟨hd, rfl⟩ := span_inj (hdigit m) (hdigit n) (fun c hc => by simp [hr c hc])
    (fun c hc => by simp [hs c hc]) h
  have := congrArg (Nat.ofDigitChars 10 · 0) hd
  simp only [Nat.ofDigitChars_ten_toDigits] at this
  exact ⟨this, rfl⟩

theorem not_nonDigit_toDigits_append {m : ℕ} {r : List Char} :
    ¬ NonDigit (Nat.toDigits 10 m ++ r) := by
  intro h
  cases hd : Nat.toDigits 10 m with
  | nil => exact Nat.toDigits_ne_nil hd
  | cons c l =>
    have hc : c.isDigit = true :=
      Nat.isDigit_of_mem_toDigits (by decide) (by decide) (hd ▸ List.mem_cons_self)
    simp [hd, hc] at h

/-- A text with its length in front, which is followed by `c`. -/
theorem lengthPrefixed_inj {c : Char} (hc : c.isDigit = false) {x y r s : List Char}
    (h : Nat.toDigits 10 x.length ++ c :: (x ++ r) = Nat.toDigits 10 y.length ++ c :: (y ++ s)) :
    x = y ∧ r = s := by
  obtain ⟨hl, h⟩ := toDigits_append_inj (by simpa using hc) (by simpa using hc) h
  exact List.append_inj (List.cons.inj h).2 hl

/-- As many codes as given, each after the separator `c`. -/
def separated (c : Char) (enc : α → List Char) (as : List α) : List Char :=
  as.flatMap fun a => c :: enc a

@[simp] theorem separated_nil {c : Char} {enc : α → List Char} : separated c enc [] = [] := rfl

@[simp] theorem separated_cons {c : Char} {enc : α → List Char} {a : α} {as : List α} :
    separated c enc (a :: as) = c :: (enc a ++ separated c enc as) := rfl

theorem nonDigit_separated {c : Char} (hc : c.isDigit = false) {enc : α → List Char}
    {as : List α} {r : List Char} (hr : NonDigit r) : NonDigit (separated c enc as ++ r) := by
  cases as with
  | nil => exact hr
  | cons a as => simpa using hc

/-- Lists of one length are readable when their members are, up to what the members' codes
tell apart. -/
theorem separated_append_inj {c : Char} (hc : c.isDigit = false) {enc : α → List Char}
    {key : α → β} {as bs : List α} {r s : List Char}
    (henc : ∀ a ∈ as, ∀ b r s, NonDigit r → NonDigit s → enc a ++ r = enc b ++ s →
      key a = key b ∧ r = s)
    (hl : as.length = bs.length) (hr : NonDigit r) (hs : NonDigit s)
    (h : separated c enc as ++ r = separated c enc bs ++ s) :
    as.map key = bs.map key ∧ r = s := by
  induction as generalizing bs with
  | nil =>
    obtain rfl := List.length_eq_zero_iff.mp hl.symm
    exact ⟨rfl, h⟩
  | cons a as ih =>
    cases bs with
    | nil => simp at hl
    | cons b bs =>
      simp only [separated_cons, List.cons_append, List.append_assoc, List.cons.injEq,
        true_and] at h
      obtain ⟨hab, h⟩ := henc a (by simp) b _ _ (nonDigit_separated hc hr)
        (nonDigit_separated hc hs) h
      obtain ⟨hl', hrs⟩ := ih (fun a ha => henc a (List.mem_cons_of_mem _ ha))
        (by simpa using hl) h
      exact ⟨by simp [hab, hl'], hrs⟩

/-- At the end of a text lists are readable without their lengths. -/
theorem separated_inj {c : Char} (hc : c.isDigit = false) {enc : α → List Char} {key : α → β}
    {as bs : List α}
    (henc : ∀ a ∈ as, ∀ b r s, NonDigit r → NonDigit s → enc a ++ r = enc b ++ s →
      key a = key b ∧ r = s)
    (h : separated c enc as = separated c enc bs) : as.map key = bs.map key := by
  induction as generalizing bs with
  | nil =>
    cases bs with
    | nil => rfl
    | cons b bs => simp at h
  | cons a as ih =>
    cases bs with
    | nil => simp at h
    | cons b bs =>
      simp only [separated_cons, List.cons.injEq, true_and] at h
      have hnd : ∀ l : List α, NonDigit (separated c enc l) := by
        intro l
        cases l <;> simp [hc]
      obtain ⟨hab, h⟩ := henc a (by simp) b _ _ (hnd as) (hnd bs) h
      simp [hab, ih (fun a ha => henc a (List.mem_cons_of_mem _ ha)) h]

/-- A list with its length in front. -/
def counted (c : Char) (enc : α → List Char) (as : List α) : List Char :=
  Nat.toDigits 10 as.length ++ separated c enc as

theorem counted_append_inj {c : Char} (hc : c.isDigit = false) {enc : α → List Char}
    {key : α → β} {as bs : List α} {r s : List Char}
    (henc : ∀ a ∈ as, ∀ b r s, NonDigit r → NonDigit s → enc a ++ r = enc b ++ s →
      key a = key b ∧ r = s)
    (hr : NonDigit r) (hs : NonDigit s) (h : counted c enc as ++ r = counted c enc bs ++ s) :
    as.map key = bs.map key ∧ r = s := by
  rw [counted, counted, List.append_assoc, List.append_assoc] at h
  obtain ⟨hl, h⟩ := toDigits_append_inj (nonDigit_separated hc hr) (nonDigit_separated hc hs) h
  exact separated_append_inj hc henc hl hr hs h

end Loxis.Readable
