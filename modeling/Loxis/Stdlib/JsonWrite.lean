import Loxis.Stdlib.JsonAccept

/-! # The JSON writer

What the writer has written for a value that meets its conditions is in the grammar with that
value. Without the conditions it has set its failure.
-/

namespace Loxis.Stdlib.Json

open Loxis.Utf8 (WellFormed Character)
open JsonParser (At)

variable {s t t' a b : Str} {v : JsonValue} {levels : ℕ}

/-! ## The conditions of the writer -/

/-- The maps of all objects have been built by their operations. -/
inductive Built : JsonValue → Prop
  | null : Built .null
  | boolean (b : Bool) : Built (.boolean b)
  | number (s : Str) : Built (.number s)
  | string (s : Str) : Built (.string s)
  | array {items : List JsonValue} : (∀ v ∈ items, Built v) → Built (.array items)
  | object {m : Members} : StringMap.Valid m → (∀ k v, (k, v) ∈ m.entries → Built v) →
      Built (.object m)

/-- The numbers are numbers, the strings and keys are UTF-8 and so many levels suffice. -/
def Writable : ℕ → JsonValue → Prop
  | 0, _ => False
  | _ + 1, .null => True
  | _ + 1, .boolean _ => True
  | _ + 1, .number s => Number s []
  | _ + 1, .string s => WellFormed s
  | levels + 1, .array items => ∀ v ∈ items, Writable levels v
  | levels + 1, .object m => ∀ k v, (k, v) ∈ m.entries → WellFormed k ∧ Writable levels v

/-! ## Numbers before any text -/

/-- The first text is an ASCII text and the second one. -/
def Ascii (t t' : Str) : Prop := ∃ s, t = s ++ t' ∧ ∀ b ∈ s, b.toNat ≤ 0x7F

theorem Ascii.refl (t : Str) : Ascii t t := ⟨[], rfl, by simp⟩

theorem Ascii.cons {b : UInt8} (hb : b.toNat ≤ 0x7F) (h : Ascii t t') : Ascii (b :: t) t' := by
  obtain ⟨s, rfl, hs⟩ := h
  refine ⟨b :: s, rfl, fun c hc => ?_⟩
  rcases List.mem_cons.mp hc with rfl | hc
  · exact hb
  · exact hs c hc

theorem Ascii.trans (h : Ascii t a) (h' : Ascii a t') : Ascii t t' := by
  obtain ⟨s, rfl, hs⟩ := h
  obtain ⟨s', rfl, hs'⟩ := h'
  refine ⟨s ++ s', (List.append_assoc ..).symm, fun c hc => ?_⟩
  rcases List.mem_append.mp hc with hc | hc
  · exact hs c hc
  · exact hs' c hc

theorem digits_ascii (h : Digits t t') : Ascii t t' := by
  induction h with
  | one hb => exact .cons (hb.2.trans (by decide)) (.refl _)
  | cons hb _ ih => exact .cons (hb.2.trans (by decide)) ih

theorem sign_ascii {signs : List UInt8} (hsigns : ∀ b ∈ signs, b.toNat ≤ 0x7F)
    (h : Sign signs t t') : Ascii t t' := by
  cases h with
  | none => exact .refl t
  | some hb => exact .cons (hsigns _ hb) (.refl t')

theorem integer_ascii (h : Integer t t') : Ascii t t' := by
  cases h with
  | zero => exact .cons (by decide) (.refl _)
  | digits _ hd => exact digits_ascii hd

theorem fraction_ascii (h : Fraction t t') : Ascii t t' := by
  cases h with
  | none => exact .refl _
  | digits hd => exact .cons (by decide) (digits_ascii hd)

theorem exponent_ascii (h : Exponent t t') : Ascii t t' := by
  cases h with
  | none => exact .refl _
  | digits hb hs hd =>
    refine .cons ?_ ((sign_ascii (by simp) hs).trans (digits_ascii hd))
    rcases List.mem_pair.mp hb with rfl | rfl <;> decide

theorem number_ascii (h : Number t t') : Ascii t t' := by
  obtain ⟨hs, hi, hf, he⟩ := h
  exact (sign_ascii (by simp) hs).trans
    ((integer_ascii hi).trans ((fraction_ascii hf).trans (exponent_ascii he)))

theorem digits_append (h : Digits t t') (r : Str) : Digits (t ++ r) (t' ++ r) := by
  induction h with
  | one hb => exact .one hb
  | cons hb _ ih => exact .cons hb ih

theorem sign_append {signs : List UInt8} (h : Sign signs t t') (r : Str) :
    Sign signs (t ++ r) (t' ++ r) := by
  cases h with
  | none => exact .none _
  | some hb => exact .some hb

theorem integer_append (h : Integer t t') (r : Str) : Integer (t ++ r) (t' ++ r) := by
  cases h with
  | zero => exact .zero _
  | digits hb hd => exact .digits hb (digits_append hd r)

theorem fraction_append (h : Fraction t t') (r : Str) : Fraction (t ++ r) (t' ++ r) := by
  cases h with
  | none => exact .none _
  | digits hd => exact .digits (digits_append hd r)

theorem exponent_append (h : Exponent t t') (r : Str) : Exponent (t ++ r) (t' ++ r) := by
  cases h with
  | none => exact .none _
  | digits hb hs hd => exact .digits hb (sign_append hs r) (digits_append hd r)

theorem number_append (h : Number t t') (r : Str) : Number (t ++ r) (t' ++ r) := by
  obtain ⟨hs, hi, hf, he⟩ := h
  exact .mk (sign_append hs r) (integer_append hi r) (fraction_append hf r) (exponent_append he r)

/-! ## What is written for a string -/

theorem hex_digit {i : ℕ} (h : i < 16) : ∃ x, (JsonWriter.hex.drop i).take 1 = [x] ∧
    hexDigit x = some i ∧ x.toNat ≤ 0x7F := by
  have hall : ∀ j : Fin 16, hexDigit (JsonWriter.hex.get j) = some j.val ∧
      (JsonWriter.hex.get j).toNat ≤ 0x7F := by decide
  exact ⟨_, List.take_one_drop_eq_of_lt_length h, hall ⟨i, h⟩⟩

theorem escaped_control {n : ℕ} (h : n < 32) : ∃ x y,
    JsonWriter.escaped n = [92, 117, 48, 48, x, y] ∧ hexDigit x = some (n / 16) ∧
      hexDigit y = some (n % 16) ∧ x.toNat ≤ 0x7F ∧ y.toNat ≤ 0x7F := by
  obtain ⟨x, hx, hdx, hax⟩ := hex_digit (i := n / 16) (by omega)
  obtain ⟨y, hy, hdy, hay⟩ := hex_digit (i := n % 16) (by omega)
  refine ⟨x, y, ?_, hdx, hdy, hax, hay⟩
  rw [JsonWriter.escaped, if_neg (by omega), if_pos (by omega),
    show (n : ℤ).tdiv 16 = (n / 16 : ℕ) from rfl, show (n : ℤ).tmod 16 = (n % 16 : ℕ) from rfl,
    show (1 : ℤ) = (1 : ℕ) from rfl, strslice_natCast, strslice_natCast, hx, hy]
  rfl

/-- The three forms of a byte: escaped with a backslash, by its number, and plain. -/
theorem escaped_cases (b : UInt8) :
    ((b = 34 ∨ b = 92) ∧ JsonWriter.escaped b.toNat = [92, b]) ∨
    (b.toNat < 32 ∧ ∃ x y, JsonWriter.escaped b.toNat = [92, 117, 48, 48, x, y] ∧
      hexDigit x = some (b.toNat / 16) ∧ hexDigit y = some (b.toNat % 16) ∧
        x.toNat ≤ 0x7F ∧ y.toNat ≤ 0x7F) ∨
    (32 ≤ b.toNat ∧ b ≠ 34 ∧ b ≠ 92 ∧ JsonWriter.escaped b.toNat = [b]) := by
  by_cases hb : b = 34 ∨ b = 92
  · refine .inl ⟨hb, ?_⟩
    rcases hb with rfl | rfl <;> rfl
  obtain ⟨h34, h92⟩ := not_or.mp hb
  by_cases hlt : b.toNat < 32
  · exact .inr (.inl ⟨hlt, escaped_control hlt⟩)
  have h34' : (b.toNat : ℤ) ≠ 34 := JsonParser.toNat_ne h34
  have h92' : (b.toNat : ℤ) ≠ 92 := JsonParser.toNat_ne h92
  refine .inr (.inr ⟨not_lt.mp hlt, h34, h92, ?_⟩)
  rw [JsonWriter.escaped, if_neg (not_or.mpr ⟨h34', h92'⟩), if_neg (by omega), chr_toNat]

theorem chars_escaped (b : UInt8) {s t : Str} (h : Chars t s t') :
    Chars (JsonWriter.escaped b.toNat ++ t) (b :: s) t' := by
  rcases escaped_cases b with ⟨hb, he⟩ | ⟨hlt, x, y, he, hx, hy, -, -⟩ | ⟨h32, h34, h92, he⟩
  · rw [he]
    refine .escape (c := [b]) (.char ?_) h
    rcases hb with rfl | rfl <;> decide
  · rw [he]
    have hhex : Hex 4 0 (48 :: 48 :: x :: y :: t) b.toNat t := by
      refine .cons (d := 0) rfl (.cons (d := 0) rfl (.cons hx (.cons hy ?_)))
      rw [show ((0 * 16 + 0) * 16 + 0) * 16 + b.toNat / 16 = b.toNat / 16 by omega,
        show b.toNat / 16 * 16 + b.toNat % 16 = b.toNat by omega]
      exact .nil _ _
    have hscalar := Chars.escape (.scalar hhex (by unfold IsHigh; omega) (by unfold IsLow; omega)) h
    rwa [Utf8.encode, if_pos (by omega), UInt8.ofNat_toNat] at hscalar
  · rw [he]
    exact .plain h32 h34 h92 h

theorem escaped_ascii {b c : UInt8} (hb : b.toNat ≤ 0x7F)
    (hc : c ∈ JsonWriter.escaped b.toNat) : c.toNat ≤ 0x7F := by
  rcases escaped_cases b with ⟨-, he⟩ | ⟨-, x, y, he, -, -, hx, hy⟩ | ⟨-, -, -, he⟩
  · rw [he] at hc
    rcases List.mem_pair.mp hc with rfl | rfl
    · decide
    · exact hb
  · rw [he] at hc
    simp only [List.mem_cons, List.not_mem_nil, or_false] at hc
    rcases hc with rfl | rfl | rfl | rfl | rfl | rfl
    · decide
    · decide
    · decide
    · decide
    · exact hx
    · exact hy
  · rw [he] at hc
    rwa [List.mem_singleton.mp hc]

theorem escaped_tail {b : UInt8} (hb : 0x80 ≤ b.toNat) : JsonWriter.escaped b.toNat = [b] := by
  rcases escaped_cases b with ⟨rfl | rfl, -⟩ | ⟨hlt, -⟩ | ⟨-, -, -, he⟩
  · exact absurd hb (by decide)
  · exact absurd hb (by decide)
  · omega
  · exact he

theorem wellFormed_escaped (h : WellFormed s) :
    WellFormed (s.flatMap fun b => JsonWriter.escaped b.toNat) := by
  induction h with
  | nil => exact .nil
  | @cons c s hc _ ih =>
    rw [List.flatMap_append]
    refine WellFormed.append ?_ ih
    have hchar := hc.wellFormed
    cases hc with
    | one ha =>
      rw [List.flatMap_singleton]
      exact Utf8.wellFormed_of_ascii fun b hb => escaped_ascii ha hb
    | two ha _ hb =>
      simp only [List.flatMap_cons, List.flatMap_nil, escaped_tail hb.1]
      rwa [escaped_tail (by omega)]
    | three ha _ hb hc _ _ =>
      simp only [List.flatMap_cons, List.flatMap_nil, escaped_tail hb.1, escaped_tail hc.1]
      rwa [escaped_tail (by omega)]
    | four ha _ hb hc hd _ _ =>
      simp only [List.flatMap_cons, List.flatMap_nil, escaped_tail hb.1, escaped_tail hc.1,
        escaped_tail hd.1]
      rwa [escaped_tail (by omega)]

end Loxis.Stdlib.Json

/-! ## Runs of the writer -/

namespace Loxis.Stdlib.JsonWriter

open Json
open Loxis.Utf8 (WellFormed)

variable {w w' w'' : JsonWriter} {ok ok' : Prop} {L L' K : Str → Prop} {x y : Write Unit}

/-- The failure is kept. Without one before, there is none after just under the condition, and
then a text of this kind has been written. -/
structure Written (ok : Prop) (L : Str → Prop) (w w' : JsonWriter) : Prop where
  failed : w.failure ≠ "" → w'.failure ≠ ""
  ends : w.failure = "" → (w'.failure = "" ↔ ok)
  text : w.failure = "" → ok → ∃ t, w'.chunks.flatten = w.chunks.flatten ++ t ∧ L t

abbrev Writes (x : Write Unit) (ok : Prop) (L : Str → Prop) : Prop :=
  ∀ w, Ends x w (fun _ w' => Written ok L w w') fun _ _ => False

theorem Written.trans (h : Written ok L w w') (h' : Written ok' L' w' w'')
    (hK : ∀ a b, L a → L' b → K (a ++ b)) : Written (ok ∧ ok') K w w'' where
  failed hw := h'.failed (h.failed hw)
  ends hw := by
    by_cases hok : ok
    · rw [h'.ends ((h.ends hw).mpr hok)]
      exact ⟨fun h => ⟨hok, h⟩, And.right⟩
    · exact ⟨fun hw'' => absurd hw'' (h'.failed fun hw' => hok ((h.ends hw).mp hw')),
        fun h => absurd h.1 hok⟩
  text hw hok := by
    obtain ⟨a, ha, hL⟩ := h.text hw hok.1
    obtain ⟨b, hb, hL'⟩ := h'.text ((h.ends hw).mpr hok.1) hok.2
    exact ⟨a ++ b, by rw [hb, ha, List.append_assoc], hK a b hL hL'⟩

theorem Written.mono (h : Written ok L w w') (hok : ok ↔ ok') (hL : ok' → ∀ t, L t → L' t) :
    Written ok' L' w w' where
  failed := h.failed
  ends hw := (h.ends hw).trans hok
  text hw hok' := by
    obtain ⟨t, ht, hLt⟩ := h.text hw (hok.mpr hok')
    exact ⟨t, ht, hL hok' t hLt⟩

theorem Writes.mono (h : Writes x ok L) (hok : ok ↔ ok') (hL : ok' → ∀ t, L t → L' t) :
    Writes x ok' L' := fun w =>
  (h w).mono (fun _ _ h => h.mono hok hL) fun _ _ hE => hE

/-- The rule for a sequence: both conditions are needed, and both texts are written. -/
theorem Writes.seq {both : Prop} (h : Writes x ok L) (h' : Writes y ok' L')
    (hboth : ok ∧ ok' ↔ both) (hK : ∀ a b, L a → L' b → K (a ++ b)) :
    Writes (x >>= fun _ => y) both K := fun w =>
  .seq (h w) (fun _ w' hw => (h' w').mono
    (fun _ _ hw' => (hw.trans hw' hK).mono hboth fun _ _ ht => ht) fun _ _ hE => hE)
    fun _ _ hE => hE

theorem push_writes {chunk : Str} : Writes (push chunk) True (· = chunk) := fun _ =>
  .of_eq rfl ⟨id, fun hw => iff_of_true hw trivial,
    fun _ _ => ⟨chunk, by rw [List.flatten_append, List.flatten_singleton], rfl⟩⟩

theorem pure_writes : Writes (pure ()) True (· = []) := fun _ =>
  .pure ⟨id, fun hw => iff_of_true hw trivial, fun _ _ => ⟨[], (List.append_nil _).symm, rfl⟩⟩

theorem setFailure_writes {failure : String} (h : failure ≠ "") (hok : ¬ ok) :
    Writes (setFailure failure) ok L := fun _ =>
  .of_eq rfl ⟨fun _ => h, fun _ => iff_of_false h hok, fun _ hok' => absurd hok' hok⟩

/-! ## Strings and numbers -/

theorem stringLoop_writes (s : Str) :
    Writes (stringLoop s) True (· = s.flatMap fun b => escaped b.toNat) := by
  induction s with
  | nil => exact pure_writes
  | cons b s ih =>
    refine push_writes.seq ih and_self_iff ?_
    rintro _ _ rfl rfl
    rw [List.flatMap_cons]

theorem chars_flatMap (s r : Str) :
    Chars ((s.flatMap fun b => escaped b.toNat) ++ 34 :: r) s r := by
  induction s with
  | nil => exact .quote r
  | cons b s ih =>
    rw [List.flatMap_cons, List.append_assoc]
    exact chars_escaped b ih

theorem stringValue_writes (s : Str) : Writes (stringValue s) (WellFormed s)
    fun t => WellFormed t ∧ ∀ r, Quoted (t ++ r) s r := by
  unfold stringValue
  cases hdecode : decodeCodePoints s with
  | failure reason =>
    refine setFailure_writes (by decide) fun hs => ?_
    obtain ⟨r, hr⟩ := decodeCodePoints_isSuccess.mpr hs
    rw [hr] at hdecode
    cases hdecode
  | success codes =>
    have hs : WellFormed s := decodeCodePoints_isSuccess.mp ⟨codes, hdecode⟩
    have hquote : WellFormed (chr 34) := Utf8.wellFormed_of_ascii (by simp [chr])
    have htail : Writes (stringLoop s >>= fun _ => push (chr 34)) True
        (· = (s.flatMap fun b => escaped b.toNat) ++ chr 34) := by
      refine (stringLoop_writes s).seq push_writes and_self_iff ?_
      rintro _ _ rfl rfl
      rfl
    refine push_writes.seq htail (iff_of_true ⟨trivial, trivial⟩ hs) ?_
    rintro _ _ rfl rfl
    refine ⟨hquote.append ((wellFormed_escaped hs).append hquote), fun r => ?_⟩
    rw [List.append_assoc, List.append_assoc]
    exact .mk (chars_flatMap s r)

/-- The check of a number: the parser of numbers reads it whole. -/
theorem scanned_ends (s : Str) : Ends (scanned s) w (fun p w' => w' = w ∧
    (p.failure = "" ∧ p.position = s.length ↔ Number s [])) fun _ _ => False := by
  have hsound : Ends (JsonParser.numberValue s) ⟨0, ""⟩ _ _ := JsonParser.numberValue_parses
  unfold Ends scanned
  cases hx : JsonParser.numberValue s ⟨0, ""⟩ with
  | error e p => exact hsound.of_error hx
  | ok v p =>
    refine ⟨rfl, fun ⟨hf, hend⟩ => ?_, fun hn => ?_⟩
    · obtain ⟨t', ht', -, -, -, hn⟩ := (hsound.of_ok hx).reads s (at_start s) hf
      rwa [← ht'.drop, hend, List.drop_length] at hn
    · have hstart : JsonParser.At s ⟨0, ""⟩ (s ++ []) := by
        rw [List.append_nil]
        exact at_start s
      have hnil : JsonParser.Stops JsonParser.Continues [] := fun b r hb => by cases hb
      have hread := JsonParser.numberValue_takes hstart (by rwa [List.append_nil]) hnil
      have hend := (hread.of_ok hx).2
      exact ⟨hend.failure, hend.le.antisymm (List.drop_eq_nil_iff.mp hend.drop)⟩

theorem numberValue_writes (s : Str) : Writes (numberValue s) (Number s [])
    fun t => WellFormed t ∧ ∀ r, Number (t ++ r) r ∧ t = s := by
  intro w
  refine .seq (scanned_ends s) ?_ fun _ _ hE => hE
  rintro p _ ⟨rfl, hp⟩
  split
  · next hbad =>
    refine setFailure_writes (by decide) (fun hn => ?_) _
    obtain ⟨hf, hend⟩ := hp.mpr hn
    exact hbad.elim (absurd hf) (absurd hend)
  · next hgood =>
    obtain ⟨hf, hend⟩ := not_or.mp hgood
    have hn : Number s [] := hp.mp ⟨not_not.mp hf, not_not.mp hend⟩
    refine push_writes.mono (iff_of_true trivial hn) ?_ _
    rintro - _ rfl
    obtain ⟨t, ht, hascii⟩ := number_ascii hn
    rw [List.append_nil] at ht
    refine ⟨Utf8.wellFormed_of_ascii (ht ▸ hascii), fun r => ⟨number_append hn r, rfl⟩⟩

theorem comma_wellFormed : WellFormed [44] := Utf8.wellFormed_of_ascii (by simp)

theorem comma_writes (i : ℕ) : Writes (comma i) True (· = if i > 0 then [44] else []) := by
  unfold comma
  split
  · exact push_writes
  · exact pure_writes

/-! ## Values -/

/-- The text of a value, whatever follows it. -/
def TextOf (R : Str → JsonValue → Str → Prop) (v : JsonValue) (t : Str) : Prop :=
  WellFormed t ∧ ∀ r, R (t ++ r) v r

section Nested

variable {R : Str → JsonValue → Str → Prop} {element : JsonValue → Write Unit}
  {C : JsonValue → Prop}

/-- What the items after the first one add to a text: each follows a comma. -/
def MoreItems (R : Str → JsonValue → Str → Prop) (items : List JsonValue) (t : Str) : Prop :=
  WellFormed t ∧ ∀ v a r, TextOf R v a → Items R (a ++ (t ++ 93 :: r)) (v :: items) r

theorem items_writes {item : JsonValue} {items : List JsonValue} {i : ℕ}
    (hitem : Writes (element item) (C item) (TextOf R item))
    (hrest : Writes (arrayLoop element items i) (∀ v ∈ items, C v) (MoreItems R items)) :
    Writes (element item >>= fun _ => arrayLoop element items i) (∀ v ∈ item :: items, C v)
      fun t => WellFormed t ∧ ∀ r, Items R (t ++ 93 :: r) (item :: items) r := by
  refine hitem.seq hrest List.forall_mem_cons.symm ?_
  rintro a b ha ⟨hb, hall⟩
  refine ⟨ha.1.append hb, fun r => ?_⟩
  rw [List.append_assoc]
  exact hall item a r ha

theorem arrayLoop_writes {items : List JsonValue} {i : ℕ} (hi : 0 < i)
    (hE : ∀ v ∈ items, Writes (element v) (C v) (TextOf R v)) :
    Writes (arrayLoop element items i) (∀ v ∈ items, C v) (MoreItems R items) := by
  induction items generalizing i with
  | nil =>
    refine pure_writes.mono (by simp) ?_
    rintro - _ rfl
    exact ⟨.nil, fun v a r ha => .last (.nil _) (ha.2 _) (.nil _)⟩
  | cons item items ih =>
    have hrest := ih (i := i + 1) (Nat.succ_pos i) fun v hv => hE v (List.mem_cons_of_mem _ hv)
    refine (comma_writes i).seq (items_writes (hE item List.mem_cons_self) hrest)
      (iff_of_eq (true_and _)) ?_
    rintro _ t rfl ⟨ht, hall⟩
    rw [if_pos hi]
    exact ⟨comma_wellFormed.append ht, fun v a r ha => .more (.nil _) (ha.2 _) (.nil _) (hall r)⟩

theorem array_writes {items : List JsonValue}
    (hE : ∀ v ∈ items, Writes (element v) (C v) (TextOf R v)) :
    Writes (arrayLoop element items 0) (∀ v ∈ items, C v) fun t => WellFormed t ∧
      ∀ r, ValueOf R (91 :: (t ++ 93 :: r)) (.array items) r := by
  cases items with
  | nil =>
    refine pure_writes.mono (by simp) ?_
    rintro - _ rfl
    exact ⟨.nil, fun r => .noItems (.nil _)⟩
  | cons item items =>
    have hrest := arrayLoop_writes (R := R) (i := 1) Nat.one_pos fun v hv =>
      hE v (List.mem_cons_of_mem _ hv)
    refine (comma_writes 0).seq (items_writes (hE item List.mem_cons_self) hrest)
      (iff_of_eq (true_and _)) ?_
    rintro _ t rfl ⟨ht, hall⟩
    exact ⟨ht, fun r => .array (hall r)⟩

theorem memberValue_writes {m : Members} {k : Str} {v : JsonValue} {c : Prop}
    (hm : StringMap.Valid m) (hv : (k, v) ∈ m.entries) (hE : Writes (element v) c L) :
    Writes (memberValue element m k) c L := by
  intro w
  refine .seq (JsonParser.get_ends hm hv) ?_ fun _ _ hE => hE
  rintro ⟨r, m'⟩ _ ⟨rfl, hr⟩
  dsimp only at hr ⊢
  rw [hr]
  exact hE _

/-- The key, the colon and the value. -/
theorem member_writes {m : Members} {k : Str} {v : JsonValue} (hm : StringMap.Valid m)
    (hv : (k, v) ∈ m.entries) (hE : Writes (element v) (C v) (TextOf R v)) :
    Writes (member element m k)
      (WellFormed k ∧ C v) fun t => WellFormed t ∧ ∀ r, Member R (t ++ r) k v r := by
  have htail : Writes (push [58] >>= fun _ => memberValue element m k) (C v)
      fun t => ∃ a, t = 58 :: a ∧ TextOf R v a := by
    refine push_writes.seq (memberValue_writes hm hv hE) (iff_of_eq (true_and _)) ?_
    rintro _ a rfl ha
    exact ⟨a, rfl, ha⟩
  refine (stringValue_writes k).seq htail Iff.rfl ?_
  rintro a _ ha ⟨b, rfl, hb⟩
  have hcolon : WellFormed [58] := Utf8.wellFormed_of_ascii (by simp)
  refine ⟨ha.1.append (hcolon.append hb.1), fun r => ?_⟩
  rw [List.append_assoc]
  exact .mk (.nil _) (ha.2 _) (.nil _) (.nil _) (hb.2 r)

/-- What the members after the first one add to a text: each follows a comma. -/
def MorePairs (R : Str → JsonValue → Str → Prop) (es : List (Str × JsonValue)) (t : Str) : Prop :=
  WellFormed t ∧ ∀ k v a r, (∀ r, Member R (a ++ r) k v r) →
    Pairs R (a ++ (t ++ 125 :: r)) ((k, v) :: es) r

theorem pairs_writes {m : Members} {e : Str × JsonValue} {es : List (Str × JsonValue)} {i : ℕ}
    (hm : StringMap.Valid m) (he : e ∈ m.entries)
    (hE : Writes (element e.2) (C e.2) (TextOf R e.2))
    (hrest : Writes (objectLoop element m (es.map Prod.fst) i)
      (∀ e ∈ es, WellFormed e.1 ∧ C e.2) (MorePairs R es)) :
    Writes (member element m e.1 >>= fun _ => objectLoop element m (es.map Prod.fst) i)
      (∀ e' ∈ e :: es, WellFormed e'.1 ∧ C e'.2)
      fun t => WellFormed t ∧ ∀ r, Pairs R (t ++ 125 :: r) (e :: es) r := by
  refine (member_writes hm he hE).seq hrest
    (List.forall_mem_cons (p := fun e : Str × JsonValue => WellFormed e.1 ∧ C e.2)).symm ?_
  rintro a b ⟨ha, hmember⟩ ⟨hb, hall⟩
  refine ⟨ha.append hb, fun r => ?_⟩
  rw [List.append_assoc]
  exact hall e.1 e.2 a r hmember

theorem objectLoop_writes {m : Members} {es : List (Str × JsonValue)} {i : ℕ} (hi : 0 < i)
    (hm : StringMap.Valid m) (hes : ∀ e ∈ es, e ∈ m.entries)
    (hE : ∀ e ∈ m.entries, Writes (element e.2) (C e.2) (TextOf R e.2)) :
    Writes (objectLoop element m (es.map Prod.fst) i) (∀ e ∈ es, WellFormed e.1 ∧ C e.2)
      (MorePairs R es) := by
  induction es generalizing i with
  | nil =>
    refine pure_writes.mono (by simp) ?_
    rintro - _ rfl
    exact ⟨.nil, fun k v a r ha => .last (ha _) (.nil _)⟩
  | cons e es ih =>
    have he := hes e List.mem_cons_self
    have hrest := ih (i := i + 1) (Nat.succ_pos i) fun e he => hes e (List.mem_cons_of_mem _ he)
    refine (comma_writes i).seq (pairs_writes hm he (hE e he) hrest) (iff_of_eq (true_and _)) ?_
    rintro _ t rfl ⟨ht, hall⟩
    rw [if_pos hi]
    exact ⟨comma_wellFormed.append ht, fun k v a r ha => .more (ha _) (.nil _) (hall r)⟩

theorem object_writes {m : Members} (hm : StringMap.Valid m)
    (hE : ∀ e ∈ m.entries, Writes (element e.2) (C e.2) (TextOf R e.2)) :
    Writes (objectLoop element m (m.entries.map Prod.fst) 0)
      (∀ e ∈ m.entries, WellFormed e.1 ∧ C e.2) fun t => WellFormed t ∧
        ∀ r, ValueOf R (123 :: (t ++ 125 :: r)) (.object m) r := by
  have hdenotes : Denotes m m.entries := ⟨hm, fun _ _ => Iff.rfl⟩
  have hnodup := StringMap.keys_nodup hm
  generalize hes : m.entries = es at hdenotes hnodup ⊢
  cases es with
  | nil =>
    refine pure_writes.mono (by simp) ?_
    rintro - _ rfl
    exact ⟨.nil, fun r => .noMembers (.nil _) hdenotes⟩
  | cons e es =>
    have he : e ∈ m.entries := by rw [hes]; exact List.mem_cons_self
    have hrest := objectLoop_writes (R := R) (i := 1) Nat.one_pos hm
      (fun e' (he' : e' ∈ es) => by rw [hes]; exact List.mem_cons_of_mem _ he') hE
    refine (comma_writes 0).seq (pairs_writes hm he (hE e he) hrest) (iff_of_eq (true_and _)) ?_
    rintro _ t rfl ⟨ht, hall⟩
    exact ⟨ht, fun r => .object (hall r) hnodup hdenotes⟩

/-- Brackets or braces around a text. -/
theorem bracketed_writes {left right : UInt8} {v : JsonValue} (ho : left.toNat ≤ 0x7F)
    (hc : right.toNat ≤ 0x7F)
    (hx : Writes x ok fun t => WellFormed t ∧ ∀ r, ValueOf R (left :: (t ++ right :: r)) v r) :
    Writes (push [left] >>= fun _ => x >>= fun _ => push [right]) ok (TextOf (ValueOf R) v) := by
  have hascii : ∀ {b : UInt8}, b.toNat ≤ 0x7F → WellFormed [b] := fun hb =>
    Utf8.wellFormed_of_ascii fun c hc => by rwa [List.mem_singleton.mp hc]
  have htail : Writes (x >>= fun _ => push [right]) ok fun t =>
      WellFormed t ∧ ∀ r, ValueOf R (left :: (t ++ r)) v r := by
    refine hx.seq push_writes (iff_of_eq (and_true _)) ?_
    rintro t _ ⟨ht, hall⟩ rfl
    refine ⟨ht.append (hascii hc), fun r => ?_⟩
    rw [List.append_assoc]
    exact hall r
  refine push_writes.seq htail (iff_of_eq (true_and _)) ?_
  rintro _ t rfl ⟨ht, hall⟩
  exact ⟨(hascii ho).append ht, hall⟩

theorem valueWith_writes {v : JsonValue} {levels : ℕ} (hv : Built v)
    (hE : ∀ v, Built v → Writes (element v) (Writable levels v) (TextOf R v)) :
    Writes (valueWith element v) (Writable (levels + 1) v) (TextOf (ValueOf R) v) := by
  cases hv with
  | null =>
    refine push_writes.mono (iff_of_true trivial trivial) ?_
    rintro - _ rfl
    exact ⟨Utf8.wellFormed_of_ascii (by simp [nullText]), .null⟩
  | boolean b =>
    refine push_writes.mono (iff_of_true trivial trivial) ?_
    rintro - _ rfl
    cases b with
    | true => exact ⟨Utf8.wellFormed_of_ascii (by simp [trueText]), .isTrue⟩
    | false => exact ⟨Utf8.wellFormed_of_ascii (by simp [falseText]), .isFalse⟩
  | number s =>
    refine (numberValue_writes s).mono Iff.rfl ?_
    rintro - t ⟨ht, hall⟩
    refine ⟨ht, fun r => ?_⟩
    obtain ⟨hn, rfl⟩ := hall r
    exact .number hn
  | string s =>
    refine (stringValue_writes s).mono Iff.rfl ?_
    exact fun _ t ht => ⟨ht.1, fun r => .string (ht.2 r)⟩
  | @array items hitems =>
    have hloop := array_writes (R := R) fun v hv => hE v (hitems v hv)
    exact bracketed_writes (by decide) (by decide) hloop
  | @object m hm hvalues =>
    have hloop := object_writes (R := R) (C := Writable levels) hm fun e he =>
      hE e.2 (hvalues e.1 e.2 he)
    have hmembers : Writes (objectMembers element m) (∀ e ∈ m.entries, WellFormed e.1 ∧
        Writable levels e.2) fun t => WellFormed t ∧
          ∀ r, ValueOf R (123 :: (t ++ 125 :: r)) (.object m) r := by
      intro w
      refine .seq (JsonParser.keys_ends hm) ?_ fun _ _ hE => hE
      rintro ⟨keys, m'⟩ _ ⟨rfl, hkeys⟩
      dsimp only at hkeys ⊢
      rw [hkeys]
      exact hloop _
    refine (bracketed_writes (by decide) (by decide) hmembers).mono ?_ fun _ _ ht => ht
    exact ⟨fun h k v hk => h (k, v) hk, fun h e he => h e.1 e.2 he⟩

theorem value_writes (levels : ℕ) : ∀ v, Built v →
    Writes (value levels v) (Writable levels v) (TextOf (Value levels) v) := by
  induction levels with
  | zero => exact fun v _ => setFailure_writes (by decide) (fun h => by cases v <;> exact h)
  | succ levels ih =>
    intro v hv w
    by_cases hw : w.failure = ""
    · have hfailed : failed w = .ok false w := by rw [failed, decide_eq_false (not_not.mpr hw)]
      refine Ends.bind (.of_eq hfailed ?_)
      rw [if_neg Bool.false_ne_true]
      exact valueWith_writes hv ih w
    · have hfailed : failed w = .ok true w := by rw [failed, decide_eq_true hw]
      refine Ends.bind (.of_eq hfailed ?_)
      rw [if_pos rfl]
      exact .pure ⟨fun _ => hw, fun hw' => absurd hw' hw, fun hw' => absurd hw' hw⟩

end Nested

end Loxis.Stdlib.JsonWriter

/-! ## The round trip -/

namespace Loxis.Stdlib.Json

open Loxis.Utf8 (WellFormed)

theorem join_nil (chunks : List Str) : join chunks [] = chunks.flatten := by
  rw [join_eq]
  induction chunks with
  | nil => rfl
  | cons x xs ih =>
    cases xs with
    | nil => rw [List.flatten_singleton, List.intercalate_singleton]
    | cons y ys => rw [intercalate_cons_cons, List.append_nil, ih, List.flatten_cons (l := x)]

theorem stringify_ends {v : JsonValue} (hv : Built v) :
    (Writable 129 v → ∃ s, stringify v = .ok (.success s) ∧ WellFormed s ∧ Text s v) ∧
      (¬ Writable 129 v → ∃ reason, stringify v = .ok (.failure reason)) := by
  have hwrites := JsonWriter.value_writes 129 v hv ⟨[], ""⟩
  have hends : Ends (JsonWriter.value maxLevels v >>= fun _ => written) ⟨[], ""⟩
      (fun r _ => (Writable 129 v → ∃ s, r = .success s ∧ WellFormed s ∧ Text s v) ∧
        (¬ Writable 129 v → ∃ reason, r = .failure reason)) fun _ _ => False := by
    refine .seq hwrites (fun _ w hw => .of_eq rfl ⟨fun hok => ?_, fun hok => ?_⟩) fun _ _ hE => hE
    · obtain ⟨t, ht, hform, htext⟩ := hw.text rfl hok
      rw [if_neg (not_not.mpr ((hw.ends rfl).mpr hok))]
      rw [List.flatten_nil, List.nil_append] at ht
      refine ⟨_, rfl, ?_⟩
      rw [join_nil, ht]
      have hvalue := htext []
      rw [List.append_nil] at hvalue
      exact ⟨hform, t, [], .nil t, hvalue, .nil []⟩
    · rw [if_pos fun hf => hok ((hw.ends rfl).mp hf)]
      exact ⟨_, rfl⟩
  unfold stringify
  obtain ⟨r, w, hr, h⟩ | ⟨e, w, -, hE⟩ := hends.outcome
  · rw [hr]
    refine ⟨fun hok => ?_, fun hok => ?_⟩
    · obtain ⟨s, rfl, hs⟩ := h.1 hok
      exact ⟨s, rfl, hs⟩
    · obtain ⟨reason, rfl⟩ := h.2 hok
      exact ⟨reason, rfl⟩
  · exact hE.elim

/-- What the writer writes for a value is parsed to the same value, and it writes for all values
that meet its conditions. -/
theorem round_trip {v : JsonValue} (hv : Built v) :
    (Writable 129 v → ∃ s, stringify v = .ok (.success s) ∧
      ∃ v', parse s = .ok (.success v') ∧ Same v v') ∧
    (¬ Writable 129 v → ∃ reason, stringify v = .ok (.failure reason)) := by
  refine ⟨fun hok => ?_, (stringify_ends hv).2⟩
  obtain ⟨s, hs, hform, htext⟩ := (stringify_ends hv).1 hok
  obtain ⟨v', hv', hsame⟩ := parse_complete hform htext
  exact ⟨s, hs, v', hv', hsame⟩

theorem round_trip_nested :
    Writable 129 (.array [.object StringMap.empty, .string [34, 10]]) ∧
      ∃ s, stringify (.array [.object StringMap.empty, .string [34, 10]]) = .ok (.success s) ∧
        ∃ v', parse s = .ok (.success v') ∧
          Same (.array [.object StringMap.empty, .string [34, 10]]) v' := by
  have hbuilt : Built (.array [.object StringMap.empty, .string [34, 10]]) := by
    refine .array fun v hv => ?_
    rcases List.mem_pair.mp hv with rfl | rfl
    · refine .object StringMap.empty_valid fun k v hk => ?_
      rw [StringMap.entries_empty] at hk
      cases hk
    · exact .string _
  have hok : Writable 129 (.array [.object StringMap.empty, .string [34, 10]]) := by
    intro v hv
    rcases List.mem_pair.mp hv with rfl | rfl
    · intro k v hk
      rw [StringMap.entries_empty] at hk
      cases hk
    · exact Utf8.wellFormed_of_ascii (by simp)
  exact ⟨hok, (round_trip hbuilt).1 hok⟩

end Loxis.Stdlib.Json
