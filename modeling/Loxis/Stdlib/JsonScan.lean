import Loxis.Stdlib.JsonGrammar

/-! # The scanner of the JSON parser

The text that is left at a position is compared with the grammar. A call keeps an error and
never goes back; without an error it has read a text of its grammar.
-/

namespace Loxis.Stdlib.JsonParser

open Json

variable {source t t' : Str} {p p' p'' : JsonParser}

/-- Nothing has failed and this text is left. -/
structure At (source : Str) (p : JsonParser) (t : Str) : Prop where
  failure : p.failure = ""
  le : p.position ≤ source.length
  drop : source.drop p.position = t

structure Kept (p p' : JsonParser) : Prop where
  position : p.position ≤ p'.position
  failure : p'.failure = "" → p.failure = ""

/-- A call that ends here has kept the error or has read a text of the grammar. -/
structure Parsed {α : Type} (source : Str) (G : Str → α → Str → Prop) (p : JsonParser) (a : α)
    (p' : JsonParser) : Prop extends Kept p p' where
  reads : ∀ t, At source p t → p'.failure = "" → ∃ t', At source p' t' ∧ G t a t'

/-- The call ends without an exception, and so does the loop in it. -/
abbrev Parses {α : Type} (source : Str) (x : Parse α) (G : Str → α → Str → Prop)
    (p : JsonParser) : Prop := Ends x p (Parsed source G p) fun _ _ => False

/-- The call reads a text up to its rest. -/
abbrev Takes {α : Type} (source : Str) (x : Parse α) (p : JsonParser) (P : α → Prop) (t : Str) :
    Prop := Ends x p (fun a p' => P a ∧ At source p' t) fun _ _ => False

/-! ## Positions -/

abbrev forward (p : JsonParser) (n : ℕ) : JsonParser := { p with position := p.position + n }

theorem Kept.refl (p : JsonParser) : Kept p p := ⟨le_rfl, id⟩

theorem Kept.trans (h : Kept p p') (h' : Kept p' p'') : Kept p p'' :=
  ⟨h.position.trans h'.position, fun hf => h.failure (h'.failure hf)⟩

theorem Kept.advance (p : JsonParser) (n : ℕ) : Kept p (p.forward n) :=
  ⟨Nat.le_add_right _ _, id⟩

theorem At.of_drop {n : ℕ} {s : Str} (h : At source p (s ++ t)) (hn : s.length = n) :
    At source (p.forward n) t := by
  have hdrop : source.drop (p.position + n) = t := by
    rw [← List.drop_drop, h.drop, ← hn, List.drop_left]
  refine ⟨h.failure, ?_, hdrop⟩
  have hlen := congrArg List.length h.drop
  rw [List.length_drop, List.length_append] at hlen
  have := h.le
  show p.position + n ≤ source.length
  omega

theorem At.length_le (h : At source p t) : t.length ≤ source.length := by
  rw [← h.drop, List.length_drop]
  exact Nat.sub_le _ _

theorem At.next {b : UInt8} (h : At source p (b :: t)) :
    At source (p.forward 1) t :=
  At.of_drop (s := [b]) h rfl

theorem At.peek {b : UInt8} (h : At source p (b :: t)) : strchar source p.position = b.toNat :=
  strchar_of_drop h.drop

theorem At.lt {b : UInt8} (h : At source p (b :: t)) : p.position < source.length := by
  by_contra hle
  have hdrop := h.drop
  rw [List.drop_eq_nil_iff.mpr (not_lt.mp hle)] at hdrop
  cases hdrop

theorem At.peek_nil (h : At source p []) : strchar source p.position = -1 :=
  strchar_of_le (List.drop_eq_nil_iff.mp h.drop)

/-- A byte that has been seen is the first one that is left. -/
theorem At.exists_cons {n : ℕ} (h : At source p t) (hn : strchar source p.position = n) :
    ∃ t', t = .ofNat n :: t' := by
  cases t with
  | nil => rw [h.peek_nil] at hn; omega
  | cons b t' =>
    rw [h.peek] at hn
    exact ⟨t', by rw [← Int.ofNat_inj.mp hn, UInt8.ofNat_toNat]⟩

theorem peek_cases (source : Str) (i : ℕ) :
    strchar source i = -1 ∨ ∃ n : ℕ, n < 256 ∧ strchar source i = n := by
  rw [strchar_natCast]
  cases source[i]? with
  | none => exact .inl rfl
  | some b => exact .inr ⟨b.toNat, toNat_lt b, rfl⟩

theorem lt_of_peek (h : 0 ≤ strchar source p.position) : p.position < source.length := by
  by_contra hlt
  rw [strchar_of_le (not_lt.mp hlt)] at h
  omega

/-! ## Rules for calls -/

section Rules

variable {α β : Type} {x : Parse α} {f : α → Parse β} {a : α} {b : β}
  {G : Str → α → Str → Prop} {H : Str → β → Str → Prop} {K : Str → β → Str → Prop}

theorem Parsed.of_failed (h : Kept p p') (hf : p'.failure ≠ "") : Parsed source G p a p' :=
  ⟨h, fun _ _ hf' => absurd hf' hf⟩

theorem Parsed.trans (h : Parsed source G p a p') (h' : Parsed source H p' b p'')
    (hK : ∀ t m t', G t a m → H m b t' → K t b t') : Parsed source K p b p'' := by
  refine ⟨h.toKept.trans h'.toKept, fun t ht hf => ?_⟩
  obtain ⟨m, hm, hG⟩ := h.reads t ht (h'.failure hf)
  obtain ⟨t', ht', hH⟩ := h'.reads m hm hf
  exact ⟨t', ht', hK t m t' hG hH⟩

theorem Parsed.mono {G' : Str → α → Str → Prop} (h : Parsed source G p a p')
    (hG : ∀ t t', G t a t' → G' t a t') : Parsed source G' p a p' :=
  ⟨h.toKept, fun t ht hf => by
    obtain ⟨t', ht', hG'⟩ := h.reads t ht hf
    exact ⟨t', ht', hG t t' hG'⟩⟩

/-- The rule for sequences of calls. -/
theorem Parses.bind (h : Parses source x G p) (hf : ∀ a p', Kept p p' →
    Parses source (f a) (fun m b t' => ∀ t, G t a m → K t b t') p') :
    Parses source (x >>= f) K p := by
  refine .seq h (fun a p' ha => ?_) fun _ _ hE => hE
  refine (hf a p' ha.toKept).mono (fun _ _ hb => ?_) fun _ _ hE => hE
  exact ha.trans hb fun t _ _ hG hH => hH t hG

/-- The rule with what is known of the result in any case. -/
theorem Parses.bind_of {P : α → Prop} (h : Parses source x G p)
    (hP : Ends x p (fun a _ => P a) fun _ _ => False) (hf : ∀ a p', P a → Kept p p' →
      Parses source (f a) (fun m b t' => ∀ t, G t a m → K t b t') p') :
    Parses source (x >>= f) K p := by
  refine .seq (h.and hP) (fun a p' ha => ?_) fun _ _ hE => hE.1
  refine (hf a p' ha.2 ha.1.toKept).mono (fun _ _ hb => ?_) fun _ _ hE => hE
  exact ha.1.trans hb fun t _ _ hG hH => hH t hG

theorem Parses.pure (h : ∀ t, G t a t) : Parses source (Pure.pure a) G p :=
  Ends.pure ⟨.refl p, fun t ht _ => ⟨t, ht, h t⟩⟩

/-- A text that has been seen is read. -/
theorem Parses.forward {s : Str} {n : ℕ} {f : Unit → Parse β} (hs : s.length = n)
    (hseen : ∀ t, At source p t → ∃ r, t = s ++ r)
    (hf : Parses source (f ()) (fun m b t' => K (s ++ m) b t') (p.forward n)) :
    Parses source (advance n >>= f) K p := by
  refine Ends.bind (.of_eq rfl ?_)
  refine hf.mono (fun b p' h => ?_) fun _ _ hE => hE
  refine ⟨(Kept.advance p n).trans h.toKept, fun t ht hf => ?_⟩
  obtain ⟨r, rfl⟩ := hseen t ht
  exact h.reads r (ht.of_drop hs) hf

theorem Parses.next {n : ℕ} {f : Unit → Parse β} (hn : strchar source p.position = n)
    (hf : Parses source (f ()) (fun m b t' => K (.ofNat n :: m) b t') (p.forward 1)) :
    Parses source (advance 1 >>= f) K p :=
  .forward (s := [.ofNat n]) rfl (fun _ ht => ht.exists_cons hn) hf

/-- The text is the one that is left at the start. -/
theorem Parses.seen (h : Parses source x (fun t a t' => At source p t → G t a t') p) :
    Parses source x G p := by
  refine h.mono (fun a p' ha => ⟨ha.toKept, fun t ht hf => ?_⟩) fun _ _ hE => hE
  obtain ⟨t', ht', hG⟩ := ha.reads t ht hf
  exact ⟨t', ht', hG ht⟩

theorem Parses.advance {n : ℕ} {G : Str → Unit → Str → Prop} (hn : strchar source p.position = n)
    (hG : ∀ t, G (.ofNat n :: t) () t) : Parses source (advance 1) G p := by
  refine .of_eq rfl ⟨.advance p 1, fun t ht _ => ?_⟩
  obtain ⟨t', rfl⟩ := ht.exists_cons hn
  exact ⟨t', ht.next, hG t'⟩

theorem Parses.ite {c : Prop} [Decidable c] {y : Parse α} (h : c → Parses source x G p)
    (h' : ¬ c → Parses source y G p) : Parses source (if c then x else y) G p := by
  split
  · exact h ‹_›
  · exact h' ‹_›

theorem message_ne (message : String) (n : ℕ) : message ++ " at byte " ++ toString n ≠ "" := by
  intro h
  have := congrArg String.length h
  simp at this

theorem fail_ends (message : String) :
    Ends (fail message) p (fun _ p' => Kept p p' ∧ p'.failure ≠ "") fun _ _ => False := by
  by_cases hp : p.failure = ""
  · have hfail : fail message p =
        .ok () ⟨p.position, message ++ " at byte " ++ toString p.position⟩ := by
      rw [fail, if_pos hp]
    exact .of_eq hfail ⟨⟨le_rfl, fun _ => hp⟩, message_ne message _⟩
  · have hfail : fail message p = .ok () p := by rw [fail, if_neg hp]
    exact .of_eq hfail ⟨.refl p, hp⟩

/-- An error is reported and the call gives up. -/
theorem Parses.fail {message : String} :
    Parses source (JsonParser.fail message >>= fun _ => Pure.pure a) G p :=
  .seq (fail_ends message) (fun _ _ hf => Ends.pure (.of_failed hf.1 hf.2)) fun _ _ hE => hE

theorem Parses.advance_fail {message : String} {n : ℕ} :
    Parses source (JsonParser.advance n >>= fun _ => JsonParser.fail message >>= fun _ =>
      Pure.pure a) G p := by
  refine Ends.bind (.of_eq rfl (.seq (fail_ends message) (fun _ p' hf => ?_) fun _ _ hE => hE))
  exact Ends.pure (.of_failed ((Kept.advance p n).trans hf.1) hf.2)

/-! ## Bytes of a kind -/

theorem skipWhile_eq {kind : ℤ → Bool} (hkind : kind (-1) = false) :
    skipWhile source kind p =
      .ok () (p.forward ((source.drop p.position).takeWhile fun b => kind b.toNat).length) := by
  obtain ⟨t, ht⟩ : ∃ t, source.drop p.position = t := ⟨_, rfl⟩
  have hfuel : t.length < source.length + 1 := by
    rw [← ht, List.length_drop]
    omega
  rw [ht, skipWhile]
  generalize source.length + 1 = fuel at hfuel
  induction fuel generalizing p t with
  | zero => omega
  | succ fuel ih =>
    rw [whileLoop]
    cases t with
    | nil =>
      have hpeek : strchar source p.position = -1 := strchar_of_le (List.drop_eq_nil_iff.mp ht)
      rw [bind_ok (x := sees source kind) rfl, hpeek, hkind]
      rfl
    | cons b t =>
      rw [bind_ok (x := sees source kind) rfl, strchar_of_drop ht, List.takeWhile_cons]
      split
      · have hdrop : source.drop (p.forward 1).position = t := by
          rw [forward, ← List.tail_drop, ht, List.tail_cons]
        rw [List.length_cons] at hfuel
        rw [bind_ok (x := advance 1) rfl, ih t hdrop (by omega), forward, forward,
          List.length_cons]
        congr 2
        rw [Nat.add_assoc, Nat.add_comm 1]
      · rfl

/-- The rule for sequences of calls that read a text. -/
theorem Takes.bind {P : α → Prop} {Q : β → Prop} {m : Str} (h : Takes source x p P m)
    (hf : ∀ a p', P a → At source p' m → Takes source (f a) p' Q t') :
    Takes source (x >>= f) p Q t' :=
  .seq h (fun a p' ha => hf a p' ha.1 ha.2) fun _ _ hE => hE

theorem Takes.pure {P : α → Prop} (ha : P a) (h : At source p t) :
    Takes source (Pure.pure a) p P t := Ends.pure ⟨ha, h⟩

theorem Takes.next {Q : β → Prop} {f : Unit → Parse β} {c : UInt8} (h : At source p (c :: t))
    (hf : At source (p.forward 1) t → Takes source (f ()) (p.forward 1) Q t') :
    Takes source (advance 1 >>= f) p Q t' :=
  Ends.bind (.of_eq rfl (hf h.next))

theorem Takes.kept {P : α → Prop} (h : Takes source x p P t') (hx : Parses source x G p) :
    Ends x p (fun a p' => (P a ∧ Kept p p') ∧ At source p' t') fun _ _ => False :=
  (h.and hx).mono (fun _ _ ha => ⟨⟨ha.1.1, ha.2.toKept⟩, ha.1.2⟩) fun _ _ hE => hE.1

/-- What a call has read is in its grammar. -/
theorem Takes.parsed {P : α → Prop} (h : Takes source x p P t') (hx : Parses source x G p)
    (ht : At source p t) : Takes source x p (fun a => P a ∧ G t a t') t' := by
  refine (h.and hx).mono (fun a p' ha => ?_) fun _ _ hE => hE.1
  obtain ⟨r, hr, hG⟩ := ha.2.reads t ht ha.1.2.failure
  rw [← ha.1.2.drop, hr.drop]
  exact ⟨⟨ha.1.1, hG⟩, hr⟩

theorem skipWhile_parses {kind : ℤ → Bool} (hkind : kind (-1) = false) :
    Parses source (skipWhile source kind) (fun t _ t' => t' = t.dropWhile fun b => kind b.toNat)
      p := by
  refine .of_eq (skipWhile_eq hkind) ⟨.advance p _, fun t ht _ => ⟨_, ?_, rfl⟩⟩
  rw [ht.drop]
  refine At.of_drop (s := t.takeWhile fun b => kind b.toNat) ?_ rfl
  rwa [List.takeWhile_append_dropWhile]

end Rules

/-! ## Whitespace and digits -/

/-- The text does not start with a byte of a kind. -/
def Stops (K : UInt8 → Prop) (t : Str) : Prop := ∀ b r, t = b :: r → ¬ K b

theorem jsonWhitespace_iff {b : UInt8} : jsonWhitespace b.toNat = true ↔ b ∈ spaces := by
  simp only [jsonWhitespace, spaces, decide_eq_true_eq, List.mem_cons, List.not_mem_nil, or_false,
    ← UInt8.toNat_inj]
  norm_cast

theorem jsonDigit_iff {b : UInt8} : jsonDigit b.toNat = true ↔ IsDigit b := by
  simp only [jsonDigit, IsDigit, decide_eq_true_eq]
  norm_cast

theorem of_jsonDigit {c : ℤ} (h : jsonDigit c = true) : ∃ n : ℕ, c = n ∧ IsDigit (.ofNat n) := by
  simp only [jsonDigit, decide_eq_true_eq] at h
  refine ⟨c.toNat, by omega, ?_⟩
  rw [IsDigit, Utf8.toNat_ofNat (by omega)]
  omega

theorem dropWhile_of_stops {k : UInt8 → Bool} (h : Stops (fun b => k b = true) t) :
    t.dropWhile k = t := by
  cases t with
  | nil => rfl
  | cons b t => rw [List.dropWhile_cons, if_neg (h b t rfl)]

theorem ws_dropWhile : ∀ t, Ws t (t.dropWhile fun b => jsonWhitespace b.toNat)
  | [] => .nil []
  | b :: t => by
    rw [List.dropWhile_cons]
    split
    · next h => exact .cons (jsonWhitespace_iff.mp h) (ws_dropWhile t)
    · exact .nil _

theorem dropWhile_of_ws (h : Ws t t') (hstop : Stops (· ∈ spaces) t') :
    t.dropWhile (fun b => jsonWhitespace b.toNat) = t' := by
  induction h with
  | nil t => exact dropWhile_of_stops fun b r hb h => hstop b r hb (jsonWhitespace_iff.mp h)
  | cons hb _ ih => rw [List.dropWhile_cons, if_pos (jsonWhitespace_iff.mpr hb), ih hstop]

theorem whitespace_parses : Parses source (whitespace source) (fun t _ t' => Ws t t') p := by
  refine (skipWhile_parses rfl).mono (fun _ _ h => h.mono fun t t' ht => ?_) fun _ _ hE => hE
  rw [ht]
  exact ws_dropWhile t

theorem skipWhile_takes {kind : ℤ → Bool} (hkind : kind (-1) = false) (h : At source p t)
    (ht : t.dropWhile (fun b => kind b.toNat) = t') :
    Takes source (skipWhile source kind) p (fun _ => True) t' := by
  refine .of_eq (skipWhile_eq hkind) ⟨trivial, ?_⟩
  rw [h.drop, ← ht]
  refine At.of_drop (s := t.takeWhile fun b => kind b.toNat) ?_ rfl
  rwa [List.takeWhile_append_dropWhile]

theorem whitespace_takes (h : At source p t) (hws : Ws t t') (hstop : Stops (· ∈ spaces) t') :
    Takes source (whitespace source) p (fun _ => True) t' :=
  skipWhile_takes rfl h (dropWhile_of_ws hws hstop)

theorem digits_dropWhile {b : UInt8} (hb : IsDigit b) :
    ∀ t, Digits (b :: t) (t.dropWhile fun b => jsonDigit b.toNat)
  | [] => .one hb
  | c :: t => by
    rw [List.dropWhile_cons]
    split
    · next h => exact .cons hb (digits_dropWhile (jsonDigit_iff.mp h) t)
    · exact .one hb

theorem dropWhile_of_digits (h : Digits t t') (hstop : Stops IsDigit t') :
    t.dropWhile (fun b => jsonDigit b.toNat) = t' := by
  induction h with
  | one hb =>
    rw [List.dropWhile_cons, if_pos (jsonDigit_iff.mpr hb)]
    exact dropWhile_of_stops fun b r hb h => hstop b r hb (jsonDigit_iff.mp h)
  | cons hb _ ih => rw [List.dropWhile_cons, if_pos (jsonDigit_iff.mpr hb), ih hstop]

theorem exists_cons_of_digits (h : Digits t t') : ∃ b r, t = b :: r ∧ IsDigit b := by
  cases h with
  | one hb => exact ⟨_, _, rfl, hb⟩
  | cons hb _ => exact ⟨_, _, rfl, hb⟩

theorem digits_parses {missing : String} :
    Parses source (digits source missing) (fun t b t' => b = true ∧ Digits t t') p := by
  refine Ends.bind (.of_eq rfl ?_)
  split
  · exact Parses.fail
  · next hdigit =>
    obtain ⟨n, hn, hb⟩ := of_jsonDigit (not_not.mp hdigit)
    refine Parses.seen (Parses.bind (skipWhile_parses rfl) fun _ p' _ => Parses.pure ?_)
    rintro _ t rfl ht
    obtain ⟨r, rfl⟩ := ht.exists_cons hn
    rw [List.dropWhile_cons, if_pos (jsonDigit_iff.mpr hb)]
    exact ⟨rfl, digits_dropWhile hb r⟩

theorem digits_takes {missing : String} (h : At source p t) (hd : Digits t t')
    (hstop : Stops IsDigit t') : Takes source (digits source missing) p (· = true) t' := by
  obtain ⟨b, r, rfl, hb⟩ := exists_cons_of_digits hd
  refine Ends.bind (.of_eq rfl ?_)
  rw [h.peek, if_neg (fun hn => hn (jsonDigit_iff.mpr hb))]
  have hskip := dropWhile_of_digits hd hstop
  exact Takes.bind (skipWhile_takes rfl h hskip) fun _ _ _ h' => .pure rfl h'

end Loxis.Stdlib.JsonParser
