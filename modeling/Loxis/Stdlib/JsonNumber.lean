import Loxis.Stdlib.JsonScan

/-! # The numbers of the JSON parser

Each part of a number is read as far as it goes. What may follow a number does not go on with
it.
-/

namespace Loxis.Stdlib.JsonParser

open Json

variable {source s t t' : Str} {p : JsonParser} {signs : List UInt8}

/-! ## What is read is a number -/

theorem sign_parses : Parses source (sign source signs) (fun t _ t' => Json.Sign signs t t') p := by
  refine Ends.bind (.of_eq rfl ?_)
  split
  · next h =>
    obtain ⟨b, hb, hc⟩ := h
    refine Parses.advance hc fun t => ?_
    rw [UInt8.ofNat_toNat]
    exact .some hb
  · exact Parses.pure fun t => .none t

theorem integerPart_parses :
    Parses source (integerPart source) (fun t b t' => b = true ∧ Integer t t') p := by
  refine Ends.bind (.of_eq rfl ?_)
  split
  · next h => exact Parses.next h (Parses.pure fun t => ⟨rfl, .zero t⟩)
  · next h =>
    refine Parses.seen (digits_parses.mono (fun _ _ hd => hd.mono ?_) fun _ _ hE => hE)
    rintro t t' ⟨hb, hd⟩ ht
    obtain ⟨b, r, rfl, -⟩ := exists_cons_of_digits hd
    refine ⟨hb, .digits (fun h48 => h ?_) hd⟩
    rw [ht.peek, h48]
    rfl

theorem fractionPart_parses :
    Parses source (fractionPart source) (fun t b t' => b = true ∧ Fraction t t') p := by
  refine Ends.bind (.of_eq rfl ?_)
  split
  · next h =>
    refine Parses.next h (digits_parses.mono (fun _ _ hd => hd.mono ?_) fun _ _ hE => hE)
    exact fun t t' hd => ⟨hd.1, .digits hd.2⟩
  · exact Parses.pure fun t => ⟨rfl, .none t⟩

theorem exponentPart_parses :
    Parses source (exponentPart source) (fun t b t' => b = true ∧ Exponent t t') p := by
  have hpart : ∀ n : ℕ, .ofNat n ∈ ([101, 69] : List UInt8) → strchar source p.position = n →
      Parses source (advance 1 >>= fun _ => sign source [43, 45] >>= fun _ =>
        digits source "expected exponent digit") (fun t b t' => b = true ∧ Exponent t t') p := by
    refine fun n hn h => Parses.next h (Parses.bind sign_parses fun _ p' _ => ?_)
    refine digits_parses.mono (fun _ _ hd => hd.mono ?_) fun _ _ hE => hE
    exact fun t t' hd a ha => ⟨hd.1, .digits hn ha hd.2⟩
  refine Ends.bind (.of_eq rfl ?_)
  split
  · next h =>
    rcases h with h | h
    · exact hpart 101 (by decide) h
    · exact hpart 69 (by decide) h
  · exact Parses.pure fun t => ⟨rfl, .none t⟩

theorem numberParts_parses :
    Parses source (numberParts source) (fun t b t' => b = true ∧ Number t t') p := by
  refine Parses.bind sign_parses fun _ p₁ _ => Parses.bind integerPart_parses fun b p₂ _ => ?_
  cases b with
  | false => exact Parses.pure fun t m hm => absurd hm.1 (by decide)
  | true =>
    refine Parses.bind fractionPart_parses fun b p₃ _ => ?_
    cases b with
    | false => exact Parses.pure fun t m hm => absurd hm.1 (by decide)
    | true =>
      refine exponentPart_parses.mono (fun _ _ he => he.mono ?_) fun _ _ hE => hE
      exact fun c t' he b hf a hi t hs => ⟨he.1, .mk hs hi.2 hf.2 he.2⟩

theorem numberValue_parses : Parses source (numberValue source)
    (fun t v t' => ∃ s, v = .number s ∧ t = s ++ t' ∧ Number t t') p := by
  refine Ends.bind (.of_eq rfl (.seq numberParts_parses (fun b p' hb => ?_) fun _ _ hE => hE))
  cases b with
  | false => exact Ends.pure ⟨hb.toKept, fun t ht hf => by
      obtain ⟨t', -, hfalse, -⟩ := hb.reads t ht hf
      exact absurd hfalse (by decide)⟩
  | true =>
    refine Ends.bind (.of_eq rfl (.pure ⟨hb.toKept, fun t ht hf => ?_⟩))
    obtain ⟨t', ht', -, hnum⟩ := hb.reads t ht hf
    refine ⟨t', ht', _, rfl, ?_, hnum⟩
    have hdrop : t' = t.drop (p'.position - p.position) := by
      rw [← ht.drop, List.drop_drop, Nat.add_sub_cancel' hb.position, ht'.drop]
    rw [strslice_natCast, ht.drop, hdrop, List.take_append_drop]

/-! ## Every number is read -/

/-- A byte that goes on with a number. -/
def Continues (b : UInt8) : Prop := IsDigit b ∨ b ∈ ([46, 101, 69] : List UInt8)

theorem sign_takes (h : At source p t) (hs : Json.Sign signs t t') (hstop : Stops (· ∈ signs) t') :
    Takes source (sign source signs) p (fun _ => True) t' := by
  refine Ends.bind (.of_eq rfl ?_)
  cases hs with
  | none =>
    rw [if_neg]
    · exact Takes.pure trivial h
    · rintro ⟨b, hb, hc⟩
      obtain ⟨r, rfl⟩ := h.exists_cons hc
      exact hstop _ r rfl (by rwa [UInt8.ofNat_toNat])
  | some hb =>
    rw [if_pos ⟨_, hb, h.peek⟩]
    exact .of_eq rfl ⟨trivial, h.next⟩

theorem integerPart_takes (h : At source p t) (hi : Integer t t') (hstop : Stops IsDigit t') :
    Takes source (integerPart source) p (· = true) t' := by
  refine Ends.bind (.of_eq rfl ?_)
  cases hi with
  | zero =>
    rw [if_pos (show strchar source p.position = 48 from h.peek)]
    exact Takes.next h fun h' => Takes.pure rfl h'
  | digits hb hd =>
    rw [if_neg]
    · exact digits_takes h hd hstop
    · rw [h.peek]
      exact fun h48 => hb (UInt8.toNat_inj.mp (Int.ofNat_inj.mp h48))

theorem fractionPart_takes (h : At source p t) (hf : Fraction t t')
    (hstop : Stops (fun b => IsDigit b ∨ b = 46) t') :
    Takes source (fractionPart source) p (· = true) t' := by
  refine Ends.bind (.of_eq rfl ?_)
  cases hf with
  | none =>
    rw [if_neg]
    · exact Takes.pure rfl h
    · intro h46
      obtain ⟨r, rfl⟩ := h.exists_cons (n := 46) h46
      exact hstop _ r rfl (.inr rfl)
  | digits hd =>
    rw [if_pos (show strchar source p.position = 46 from h.peek)]
    exact Takes.next h fun h' => digits_takes h' hd fun b r hb hdigit => hstop b r hb (.inl hdigit)

theorem exponentPart_takes (h : At source p t) (he : Exponent t t') (hstop : Stops Continues t') :
    Takes source (exponentPart source) p (· = true) t' := by
  refine Ends.bind (.of_eq rfl ?_)
  cases he with
  | none =>
    rw [if_neg]
    · exact Takes.pure rfl h
    · rintro (hc | hc)
      · obtain ⟨r, rfl⟩ := h.exists_cons (n := 101) hc
        exact hstop _ r rfl (.inr (by decide))
      · obtain ⟨r, rfl⟩ := h.exists_cons (n := 69) hc
        exact hstop _ r rfl (.inr (by decide))
  | @digits b t a _ hb hs hd =>
    have hc : strchar source p.position = 101 ∨ strchar source p.position = 69 := by
      rw [h.peek]
      rcases List.mem_pair.mp hb with rfl | rfl
      · exact .inl rfl
      · exact .inr rfl
    have hsign : Stops (· ∈ ([43, 45] : List UInt8)) a := by
      obtain ⟨c, r, rfl, hdigit⟩ := exists_cons_of_digits hd
      rintro b r' ⟨⟩ hmem
      rcases List.mem_pair.mp hmem with rfl | rfl
      · exact absurd hdigit.1 (by decide)
      · exact absurd hdigit.1 (by decide)
    rw [if_pos hc]
    refine Takes.next h fun h₁ => Takes.bind (sign_takes h₁ hs hsign) fun _ p₂ _ h₂ => ?_
    exact digits_takes h₂ hd fun b r hb hdigit => hstop b r hb (.inl hdigit)

theorem stops_of_exponent (h : Exponent t t') (hstop : Stops Continues t') :
    Stops (fun b => IsDigit b ∨ b = 46) t := by
  cases h with
  | none => exact fun b r hb hc => hstop b r hb (hc.imp_right fun h46 => by rw [h46]; decide)
  | digits hb hs hd =>
    rintro b r ⟨⟩ hc
    rcases List.mem_pair.mp hb with rfl | rfl <;> exact absurd hc (by unfold IsDigit; decide)

theorem stops_of_fraction {c : Str} (h : Fraction t c) (hc : Stops (fun b => IsDigit b ∨ b = 46) c) :
    Stops IsDigit t := by
  cases h with
  | none => exact fun b r hb hdigit => hc b r hb (.inl hdigit)
  | digits hd =>
    rintro b r ⟨⟩ hdigit
    exact absurd hdigit.1 (by decide)

theorem stops_of_integer (h : Integer t t') : Stops (· ∈ ([45] : List UInt8)) t := by
  have hdigit : ∃ b r, t = b :: r ∧ IsDigit b := by
    cases h with
    | zero => exact ⟨_, _, rfl, by unfold IsDigit; decide⟩
    | digits hb hd => exact exists_cons_of_digits hd
  obtain ⟨c, r, rfl, hdigit⟩ := hdigit
  rintro b r' ⟨⟩ hmem
  rw [List.mem_singleton.mp hmem] at hdigit
  exact absurd hdigit.1 (by decide)

theorem numberParts_takes (h : At source p t) (hn : Number t t') (hstop : Stops Continues t') :
    Takes source (numberParts source) p (· = true) t' := by
  obtain ⟨hs, hi, hf, he⟩ := hn
  have hc := stops_of_exponent he hstop
  refine Takes.bind (sign_takes h hs (stops_of_integer hi)) fun _ p₁ _ h₁ => ?_
  refine Takes.bind (integerPart_takes h₁ hi (stops_of_fraction hf hc)) fun b p₂ hb h₂ => ?_
  rw [if_pos hb]
  refine Takes.bind (fractionPart_takes h₂ hf hc) fun b p₃ hb h₃ => ?_
  rw [if_pos hb]
  exact exponentPart_takes h₃ he hstop

theorem numberValue_takes (h : At source p (s ++ t')) (hn : Number (s ++ t') t')
    (hstop : Stops Continues t') :
    Takes source (numberValue source) p (· = .number s) t' := by
  have htakes : Takes source (numberValue source) p (fun _ => True) t' := by
    refine Ends.bind (.of_eq rfl (.seq (numberParts_takes h hn hstop) ?_ fun _ _ hE => hE))
    rintro b p' ⟨hb, h'⟩
    rw [if_pos hb]
    exact Ends.bind (.of_eq rfl (.pure ⟨trivial, h'⟩))
  refine (htakes.parsed numberValue_parses h).mono ?_ fun _ _ hE => hE
  rintro v p' ⟨⟨-, s', rfl, hs, -⟩, h'⟩
  exact ⟨by rw [List.append_cancel_right hs], h'⟩

end Loxis.Stdlib.JsonParser
