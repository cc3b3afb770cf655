import Loxis.Stdlib.JsonParse

/-! # What the JSON parser accepts

Every text of the grammar is read, and the value is the one that the grammar denotes. What
follows a value never goes on with a number.
-/

namespace Loxis.Stdlib.JsonParser

open Json

variable {source s t t' a b : Str} {p : JsonParser} {R : Str → JsonValue → Str → Prop}
  {element : Parse JsonValue} {items vs : List JsonValue} {members : Members} {turns : ℕ}
  {v : JsonValue} {k : Str} {pairs : List (Str × JsonValue)}

theorem stops_of_ws (h : Ws t t') (hstop : Stops Continues t') : Stops Continues t := by
  cases h with
  | nil => exact hstop
  | @cons b _ _ hb _ =>
    rintro _ r ⟨⟩ hc
    have hspace : b ∈ spaces → ¬ Continues b := by
      simp only [spaces, List.mem_cons, List.not_mem_nil, or_false]
      rintro (rfl | rfl | rfl | rfl) <;> (unfold Continues IsDigit; decide)
    exact hspace hb hc

theorem stops_cons {K : UInt8 → Prop} {b : UInt8} (h : ¬ K b) : Stops K (b :: t) := by
  rintro c r ⟨⟩
  exact h

theorem not_continues {b : UInt8} (h : b = 44 ∨ b = 93 ∨ b = 125) : ¬ Continues b := by
  rcases h with rfl | rfl | rfl <;> (unfold Continues IsDigit; decide)

/-- A byte that a value does not start with. -/
def NotStart (b : UInt8) : Prop := b ∈ spaces ∨ b = 93

theorem not_notStart {b : UInt8} (h : 33 < b.toNat) (h93 : b.toNat ≠ 93) : ¬ NotStart b := by
  simp only [NotStart, spaces, List.mem_cons, List.not_mem_nil, or_false]
  rintro ((rfl | rfl | rfl | rfl) | rfl)
  · exact absurd h (by decide)
  · exact absurd h (by decide)
  · exact absurd h (by decide)
  · exact absurd h (by decide)
  · exact h93 rfl

theorem stops_spaces (h : Stops NotStart t) : Stops (· ∈ spaces) t :=
  fun b r hb hs => h b r hb (.inl hs)

theorem number_head (h : Number t t') : ∃ b r, t = b :: r ∧ (b = 45 ∨ IsDigit b) := by
  obtain ⟨hs, hi, -, -⟩ := h
  cases hs with
  | some hb => exact ⟨_, _, rfl, .inl (List.mem_singleton.mp hb)⟩
  | none =>
    cases hi with
    | zero => exact ⟨_, _, rfl, .inr (by unfold IsDigit; decide)⟩
    | digits _ hd =>
      obtain ⟨b, r, hb, hdigit⟩ := exists_cons_of_digits hd
      exact ⟨b, r, hb, .inr hdigit⟩

theorem stops_of_valueOf (h : ValueOf R t v t') : Stops NotStart t := by
  cases h with
  | number hn =>
    obtain ⟨b, r, hb, hc⟩ := number_head hn
    rw [hb]
    rcases hc with rfl | hc
    · exact stops_cons (not_notStart (by decide) (by decide))
    · have h48 := hc.1
      have h57 := hc.2
      exact stops_cons (not_notStart (by omega) (by omega))
  | string hs =>
    cases hs
    exact stops_cons (not_notStart (by decide) (by decide))
  | _ => exact stops_cons (not_notStart (by decide) (by decide))

section Next

variable {close : UInt8} {message : String} {done : JsonValue} {again : Parse JsonValue}
  {P : JsonValue → Prop}

theorem next_takes_close (h : At source p t) (hclose : close = 93 ∨ close = 125)
    (ht : Ws t (close :: t')) (hdone : P done) :
    Takes source (next source close message done again) p P t' := by
  have hspace : close ∉ spaces := by rcases hclose with rfl | rfl <;> decide
  refine Takes.bind (whitespace_takes h ht (stops_cons hspace)) fun _ p₁ _ h₁ => ?_
  refine Ends.bind (.of_eq rfl ?_)
  rw [h₁.peek, if_pos rfl]
  exact Takes.next h₁ fun h₂ => Takes.pure hdone h₂

theorem next_takes_comma (h : At source p t) (hclose : close = 93 ∨ close = 125)
    (ht : Ws t (44 :: a)) (hagain : ∀ p', Kept p p' → p'.position < source.length →
      At source (p'.forward 1) a → Takes source again (p'.forward 1) P t') :
    Takes source (next source close message done again) p P t' := by
  have hne : (44 : UInt8) ≠ close := by rcases hclose with rfl | rfl <;> decide
  refine .seq (Takes.kept (whitespace_takes h ht (stops_cons (by decide))) whitespace_parses) ?_
    fun _ _ hE => hE
  rintro _ p₁ ⟨⟨-, hk₁⟩, h₁⟩
  refine Ends.bind (.of_eq rfl ?_)
  rw [h₁.peek, if_neg (toNat_ne hne), if_neg (by decide)]
  exact Takes.next h₁ fun h₂ => hagain p₁ hk₁ h₁.lt h₂

end Next

/-- The members that have been added to a map, up to equal values. -/
structure Covers (done : Members) (pairs : List (Str × JsonValue)) (m : Members) : Prop where
  keys : ∀ k, k ∈ m.entries.map Prod.fst ↔
    k ∈ done.entries.map Prod.fst ∨ k ∈ pairs.map Prod.fst
  entries : ∀ k v', (k, v') ∈ m.entries →
    (k, v') ∈ done.entries ∨ ∃ v, (k, v) ∈ pairs ∧ Same v v'

/-- The keys of a map after one more member. -/
theorem mem_keys {m : Members} {v' : JsonValue} (he : ∀ key value, (key, value) ∈ m.entries ↔
    key = k ∧ value = v' ∨ key ≠ k ∧ (key, value) ∈ members.entries) {key : Str} :
    key ∈ m.entries.map Prod.fst ↔ key = k ∨ key ∈ members.entries.map Prod.fst := by
  simp only [List.mem_map, Prod.exists, he, exists_and_right, exists_eq_right]
  constructor
  · rintro ⟨value, h | h⟩
    · exact .inl h.1
    · exact .inr ⟨value, h.2⟩
  · rintro (rfl | ⟨value, h⟩)
    · exact ⟨v', .inl ⟨rfl, rfl⟩⟩
    · by_cases hk : key = k
      · exact ⟨v', .inl ⟨hk, rfl⟩⟩
      · exact ⟨value, .inr ⟨hk, h⟩⟩

theorem Covers.one {m : Members} {v' : JsonValue} (hsame : Same v v')
    (he : ∀ key value, (key, value) ∈ m.entries ↔
      key = k ∧ value = v' ∨ key ≠ k ∧ (key, value) ∈ members.entries) :
    Covers members [(k, v)] m where
  keys key := by
    rw [mem_keys he, List.map_singleton, List.mem_singleton, or_comm]
  entries key value h := by
    rcases (he key value).mp h with ⟨rfl, rfl⟩ | ⟨-, h⟩
    · exact .inr ⟨v, List.mem_singleton_self _, hsame⟩
    · exact .inl h

theorem Covers.cons {m m' : Members} {v' : JsonValue} (h : Covers m pairs m') (hsame : Same v v')
    (he : ∀ key value, (key, value) ∈ m.entries ↔
      key = k ∧ value = v' ∨ key ≠ k ∧ (key, value) ∈ members.entries) :
    Covers members ((k, v) :: pairs) m' where
  keys key := by
    rw [h.keys, mem_keys he, List.map_cons, List.mem_cons]
    tauto
  entries key value hmem := by
    rcases h.entries key value hmem with hm | ⟨w, hw, hsame'⟩
    · rcases (he key value).mp hm with ⟨rfl, rfl⟩ | ⟨-, hdone⟩
      · exact .inr ⟨v, List.mem_cons_self, hsame⟩
      · exact .inl hdone
    · exact .inr ⟨w, List.mem_cons_of_mem _ hw, hsame'⟩

theorem strslice_at (h : At source p t) (n : ℕ) : strslice source p.position n = t.take n := by
  rw [strslice_natCast, h.drop]

theorem strslice_ne {b c : UInt8} {r : Str} (h : At source p (b :: t)) (hb : b ≠ c) (n : ℕ) :
    strslice source p.position n ≠ c :: r := by
  rw [strslice_at h]
  cases n with
  | zero => exact fun hc => by cases hc
  | succ n =>
    rw [List.take_succ_cons]
    exact fun hc => hb (List.cons.inj hc).1

/-- The first letters of the literals differ from the other bytes that values start with. -/
theorem literals_ne {b : UInt8} (h : At source p (b :: t)) (hn : b ≠ 110) (ht : b ≠ 116)
    (hf : b ≠ 102) : strslice source p.position 4 ≠ nullText ∧
      strslice source p.position 4 ≠ trueText ∧ strslice source p.position 5 ≠ falseText :=
  ⟨strslice_ne h hn 4, strslice_ne h ht 4, strslice_ne h hf 5⟩

theorem literal_takes {n : ℕ} (hs : s.length = n) (h : At source p (s ++ t)) :
    Takes source (advance n >>= fun _ => pure v) p (· = v) t :=
  Ends.bind (.of_eq rfl (Takes.pure rfl (h.of_drop hs)))

theorem same_object {m m' : Members} (hm : Denotes m pairs) (hnodup : (pairs.map Prod.fst).Nodup)
    (h : Covers StringMap.empty pairs m') : Same (.object m) (.object m') := by
  have hkeys : ∀ k, k ∈ m.entries.map Prod.fst ↔ k ∈ pairs.map Prod.fst := by
    intro k
    simp only [List.mem_map, Prod.exists, hm.2]
  refine .object (fun k => ?_) fun k v v' hv hv' => ?_
  · rw [hkeys, h.keys, StringMap.entries_empty, List.map_nil, List.mem_nil_iff, false_or]
  · rcases h.entries k v' hv' with hdone | ⟨w, hw, hsame⟩
    · rw [StringMap.entries_empty] at hdone
      cases hdone
    · have hvw : v = w := by
        have := List.inj_on_of_nodup_map hnodup ((hm.2 k v).mp hv) hw rfl
        exact (Prod.mk.inj this).2
      rwa [hvw]

theorem noItems_takes (h : At source p (91 :: t)) (ht : Ws t (93 :: t')) :
    Takes source (arrayValue source element) p (Same (.array [])) t' := by
  refine Takes.next h fun h₁ => ?_
  refine Takes.bind (whitespace_takes h₁ ht (stops_cons (by decide))) fun _ p₂ _ h₂ => ?_
  refine Ends.bind (.of_eq rfl ?_)
  rw [h₂.peek, if_pos (by decide)]
  exact Takes.next h₂ fun h₃ => Takes.pure (.array .nil) h₃

theorem noMembers_takes {m : Members} (h : At source p (123 :: t)) (ht : Ws t (125 :: t'))
    (hm : Denotes m []) : Takes source (objectValue source element) p (Same (.object m)) t' := by
  refine Takes.next h fun h₁ => ?_
  refine Takes.bind (whitespace_takes h₁ ht (stops_cons (by decide))) fun _ p₂ _ h₂ => ?_
  refine Ends.bind (.of_eq rfl ?_)
  rw [h₂.peek, if_pos (by decide)]
  refine Takes.next h₂ fun h₃ => Takes.pure (same_object hm List.nodup_nil ⟨fun k => ?_, ?_⟩) h₃
  · rw [List.map_nil, List.mem_nil_iff, or_false]
  · exact fun k v' hv => .inl hv

/-! ## The kind of a value decides the branch that reads it -/

theorem valueWith_null (h : At source p (nullText ++ t)) :
    Takes source (valueWith source element) p (· = .null) t := by
  have hb : At source p (110 :: ([117, 108, 108] ++ t)) := h
  refine Ends.bind (.of_eq rfl ?_)
  rw [hb.peek, if_neg (by decide), if_neg (by decide)]
  refine Ends.bind (.of_eq rfl ?_)
  have hs : strslice source p.position 4 = nullText := strslice_at h 4
  rw [if_pos hs]
  exact literal_takes rfl h

theorem valueWith_true (h : At source p (trueText ++ t)) :
    Takes source (valueWith source element) p (· = .boolean true) t := by
  have hb : At source p (116 :: ([114, 117, 101] ++ t)) := h
  refine Ends.bind (.of_eq rfl ?_)
  rw [hb.peek, if_neg (by decide), if_neg (by decide)]
  refine Ends.bind (.of_eq rfl ?_)
  have hn : strslice source p.position 4 ≠ nullText := strslice_ne hb (by decide) 4
  have hs : strslice source p.position 4 = trueText := strslice_at h 4
  rw [if_neg hn]
  refine Ends.bind (.of_eq rfl ?_)
  rw [if_pos hs]
  exact literal_takes rfl h

theorem valueWith_false (h : At source p (falseText ++ t)) :
    Takes source (valueWith source element) p (· = .boolean false) t := by
  have hb : At source p (102 :: ([97, 108, 115, 101] ++ t)) := h
  refine Ends.bind (.of_eq rfl ?_)
  rw [hb.peek, if_neg (by decide), if_neg (by decide)]
  have hn : strslice source p.position 4 ≠ nullText := strslice_ne hb (by decide) 4
  have ht : strslice source p.position 4 ≠ trueText := strslice_ne hb (by decide) 4
  have hs : strslice source p.position 5 = falseText := strslice_at h 5
  refine Ends.bind (.of_eq rfl ?_)
  rw [if_neg hn]
  refine Ends.bind (.of_eq rfl ?_)
  rw [if_neg ht]
  refine Ends.bind (.of_eq rfl ?_)
  rw [if_pos hs]
  exact literal_takes rfl h

theorem valueWith_number (h : At source p (s ++ t)) (hn : Number (s ++ t) t)
    (hstop : Stops Continues t) :
    Takes source (valueWith source element) p (· = .number s) t := by
  have hx := numberValue_takes h hn hstop
  obtain ⟨b, r, hbr, hb⟩ := number_head hn
  rw [hbr] at h
  have hkind : (b.toNat : ℤ) = 45 ∨ jsonDigit b.toNat = true :=
    hb.imp (fun h45 => by rw [h45]; rfl) jsonDigit_iff.mpr
  have h34 : (b.toNat : ℤ) ≠ 34 := by
    rcases hb with rfl | hdigit
    · decide
    · have := hdigit.1
      omega
  refine Ends.bind (.of_eq rfl ?_)
  rw [h.peek, if_neg h34, if_pos hkind]
  exact hx

theorem valueWith_string (h : At source p t) (hs : Quoted t s t') :
    Takes source (valueWith source element) p (· = .string s) t' := by
  have hx := stringValue_takes h hs
  cases hs
  refine Ends.bind (.of_eq rfl ?_)
  rw [h.peek, if_pos (by decide)]
  exact Takes.bind hx fun _ _ hr h' => Takes.pure (congrArg _ hr) h'

theorem valueWith_array {P : JsonValue → Prop} (h : At source p (91 :: t))
    (hx : Takes source (arrayValue source element) p P t') :
    Takes source (valueWith source element) p P t' := by
  refine Ends.bind (.of_eq rfl ?_)
  rw [h.peek, if_neg (by decide), if_neg (by decide)]
  obtain ⟨hn, ht, hf⟩ := literals_ne h (by decide) (by decide) (by decide)
  refine Ends.bind (.of_eq rfl ?_)
  rw [if_neg hn]
  refine Ends.bind (.of_eq rfl ?_)
  rw [if_neg ht]
  refine Ends.bind (.of_eq rfl ?_)
  rw [if_neg hf, if_pos (by decide)]
  exact hx

theorem valueWith_object {P : JsonValue → Prop} (h : At source p (123 :: t))
    (hx : Takes source (objectValue source element) p P t') :
    Takes source (valueWith source element) p P t' := by
  refine Ends.bind (.of_eq rfl ?_)
  rw [h.peek, if_neg (by decide), if_neg (by decide)]
  obtain ⟨hn, ht, hf⟩ := literals_ne h (by decide) (by decide) (by decide)
  refine Ends.bind (.of_eq rfl ?_)
  rw [if_neg hn]
  refine Ends.bind (.of_eq rfl ?_)
  rw [if_neg ht]
  refine Ends.bind (.of_eq rfl ?_)
  rw [if_neg hf, if_neg (by decide), if_pos (by decide)]
  exact hx

section Complete

variable (hR : ∀ p, Parses source element (Spaced R) p)
  (hstart : ∀ t v t', R t v t' → Stops NotStart t)
  (hE : ∀ p t a v b, At source p t → Ws t a → R a v b → Stops Continues b →
    Takes source element p (Same v) b)
include hR hE

theorem arrayLoop_takes (h : At source p t) (hvs : Items R t vs t')
    (hturns : source.length - p.position < turns) :
    Takes source (arrayLoop source element turns items) p
      (fun v => ∃ vs', v = .array (items ++ vs') ∧ List.Forall₂ Same vs vs') t' := by
  induction hvs generalizing p items turns with
  | @last t a b t' v ha hv hb =>
    obtain ⟨turns, rfl⟩ := Nat.exists_eq_succ_of_ne_zero (Nat.ne_zero_of_lt hturns)
    refine Ends.bind (.of_eq (failed_eq h.failure) ?_)
    rw [if_neg Bool.false_ne_true]
    have hstop : Stops Continues b := stops_of_ws hb (stops_cons (not_continues (by decide)))
    refine Takes.bind (hE p _ _ _ _ h ha hv hstop) fun v' p₁ hsame h₁ => ?_
    exact next_takes_close h₁ (.inl rfl) hb ⟨[v'], rfl, .cons hsame .nil⟩
  | @more t a b c t' v vs ha hv hb _ ih =>
    obtain ⟨turns, rfl⟩ := Nat.exists_eq_succ_of_ne_zero (Nat.ne_zero_of_lt hturns)
    refine Ends.bind (.of_eq (failed_eq h.failure) ?_)
    rw [if_neg Bool.false_ne_true]
    have hstop : Stops Continues b := stops_of_ws hb (stops_cons (not_continues (by decide)))
    refine .seq (Takes.kept (hE p _ _ _ _ h ha hv hstop) (hR p)) ?_ fun _ _ hE => hE
    rintro v' p₁ ⟨⟨hsame, hk₁⟩, h₁⟩
    refine next_takes_comma h₁ (.inl rfl) hb fun p₂ hk₂ hlt h₂ => ?_
    have hturns' : source.length - (p₂.forward 1).position < turns := by
      have := hk₁.position
      have := hk₂.position
      show source.length - (p₂.position + 1) < turns
      omega
    refine (ih h₂ hturns').mono ?_ fun _ _ hE => hE
    rintro r p' ⟨⟨vs', rfl, hvs'⟩, hp'⟩
    exact ⟨⟨v' :: vs', by rw [List.append_assoc, List.singleton_append], .cons hsame hvs'⟩, hp'⟩

include hstart in
theorem arrayValue_takes (h : At source p (91 :: t)) (hvs : Items R t vs t') :
    Takes source (arrayValue source element) p
      (fun v => ∃ vs', v = .array vs' ∧ List.Forall₂ Same vs vs') t' := by
  have hitems : ∃ a, Ws t a ∧ Items R a vs t' ∧ Stops NotStart a := by
    cases hvs with
    | last ha hv hb => exact ⟨_, ha, .last (.nil _) hv hb, hstart _ _ _ hv⟩
    | more ha hv hb hvs => exact ⟨_, ha, .more (.nil _) hv hb hvs, hstart _ _ _ hv⟩
  obtain ⟨a, ha, hvs, hstop⟩ := hitems
  refine Takes.next h fun h₁ => ?_
  refine Takes.bind (whitespace_takes h₁ ha (stops_spaces hstop)) fun _ p₂ _ h₂ => ?_
  refine Ends.bind (.of_eq rfl ?_)
  rw [if_neg]
  · exact arrayLoop_takes hR hE h₂ hvs (by omega)
  · intro h93
    obtain ⟨r, rfl⟩ := h₂.exists_cons (n := 93) h93
    exact hstop _ r rfl (.inr rfl)

omit hR in
theorem member_takes (h : At source p t) (hm : Member R t k v t') (hstop : Stops Continues t') :
    Takes source (member source element) p (fun r => ∃ v', r = some (k, v') ∧ Same v v') t' := by
  obtain ⟨ha, hk, hb, hd, hv⟩ := hm
  have hquote := hk
  obtain ⟨-⟩ := hquote
  refine Takes.bind (whitespace_takes h ha (stops_cons (by decide))) fun _ p₁ _ h₁ => ?_
  refine Takes.bind (stringValue_takes h₁ hk) fun key p₂ hkey h₂ => ?_
  refine Takes.bind (whitespace_takes h₂ hb (stops_cons (by decide))) fun _ p₃ _ h₃ => ?_
  refine Ends.bind (.of_eq rfl ?_)
  rw [h₃.peek, if_neg (by decide)]
  refine Takes.next h₃ fun h₄ => Takes.bind (hE _ _ _ _ _ h₄ hd hv hstop) fun v' p₅ hsame h₅ => ?_
  exact Takes.pure ⟨v', by rw [hkey], hsame⟩ h₅

/-- A turn of the loop over the members. -/
theorem objectLoop_turn {P : JsonValue → Prop} (hvalid : StringMap.Valid members)
    (h : At source p t) (hm : Member R t k v a) (hstop : Stops Continues a)
    (habsent : k ∉ members.entries.map Prod.fst)
    (hnext : ∀ v' m p', Same v v' → StringMap.Valid m → (∀ key value, (key, value) ∈ m.entries ↔
        key = k ∧ value = v' ∨ key ≠ k ∧ (key, value) ∈ members.entries) →
      Kept p p' → At source p' a →
      Takes source (next source 125 "expected comma or closing brace" (.object m)
        (objectLoop source element turns m)) p' P t') :
    Takes source (objectLoop source element (turns + 1) members) p P t' := by
  refine Ends.bind (.of_eq (failed_eq h.failure) ?_)
  rw [if_neg Bool.false_ne_true]
  refine .seq (Takes.kept (member_takes hE h hm hstop) (member_parses hR)) ?_ fun _ _ hE => hE
  rintro _ p₁ ⟨⟨⟨v', rfl, hsame⟩, hk₁⟩, h₁⟩
  refine .seq (contains_ends hvalid) ?_ fun _ _ hE => hE
  rintro ⟨present, m₁⟩ _ ⟨rfl, hpresent, hm₁, he₁⟩
  dsimp only at hpresent ⊢
  rw [if_neg (fun hp => habsent (hpresent.mp hp))]
  refine .seq (put_ends hm₁) ?_ fun _ _ hE => hE
  rintro ⟨_, m₂⟩ _ ⟨rfl, hm₂, he₂⟩
  simp only [he₁] at hm₂ he₂
  exact hnext v' m₂ _ hsame hm₂ he₂ hk₁ h₁

theorem objectLoop_takes (hvalid : StringMap.Valid members) (h : At source p t)
    (hpairs : Pairs R t pairs t') (hnodup : (pairs.map Prod.fst).Nodup)
    (hfresh : ∀ k ∈ pairs.map Prod.fst, k ∉ members.entries.map Prod.fst)
    (hturns : source.length - p.position < turns) :
    Takes source (objectLoop source element turns members) p
      (fun v => ∃ m, v = .object m ∧ Covers members pairs m) t' := by
  induction hpairs generalizing p members turns with
  | @last t a t' k v hm hb =>
    obtain ⟨turns, rfl⟩ := Nat.exists_eq_succ_of_ne_zero (Nat.ne_zero_of_lt hturns)
    have hstop : Stops Continues a := stops_of_ws hb (stops_cons (not_continues (by decide)))
    refine objectLoop_turn hR hE hvalid h hm hstop (hfresh k List.mem_cons_self) ?_
    intro v' m p₁ hsame hm' he _ h₁
    exact next_takes_close h₁ (.inr rfl) hb ⟨m, rfl, .one hsame he⟩
  | @more t a b t' k v pairs hm hb _ ih =>
    obtain ⟨turns, rfl⟩ := Nat.exists_eq_succ_of_ne_zero (Nat.ne_zero_of_lt hturns)
    have hstop : Stops Continues a := stops_of_ws hb (stops_cons (not_continues (by decide)))
    refine objectLoop_turn hR hE hvalid h hm hstop (hfresh k List.mem_cons_self) ?_
    intro v' m p₁ hsame hm' he hk₁ h₁
    refine next_takes_comma h₁ (.inr rfl) hb fun p₂ hk₂ hlt h₂ => ?_
    have hturns' : source.length - (p₂.forward 1).position < turns := by
      have := hk₁.position
      have := hk₂.position
      show source.length - (p₂.position + 1) < turns
      omega
    rw [List.map_cons, List.nodup_cons] at hnodup
    have hfresh' : ∀ key ∈ pairs.map Prod.fst, key ∉ m.entries.map Prod.fst := by
      intro key hkey hmem
      rcases (mem_keys he).mp hmem with rfl | hmem
      · exact hnodup.1 hkey
      · exact hfresh key (List.mem_cons_of_mem _ hkey) hmem
    refine (ih hm' h₂ hnodup.2 hfresh' hturns').mono ?_ fun _ _ hE => hE
    rintro r p' ⟨⟨m', rfl, hcovers⟩, hp'⟩
    exact ⟨⟨m', rfl, hcovers.cons hsame he⟩, hp'⟩

theorem objectValue_takes (h : At source p (123 :: t)) (hpairs : Pairs R t pairs t')
    (hnodup : (pairs.map Prod.fst).Nodup) :
    Takes source (objectValue source element) p
      (fun v => ∃ m, v = .object m ∧ Covers StringMap.empty pairs m) t' := by
  have hmembers : ∃ a, Ws t (34 :: a) ∧ Pairs R (34 :: a) pairs t' := by
    cases hpairs with
    | last hm hb =>
      obtain ⟨ha, ⟨hk⟩, hc, hd, hv⟩ := hm
      exact ⟨_, ha, .last (.mk (.nil _) ⟨hk⟩ hc hd hv) hb⟩
    | more hm hb hpairs =>
      obtain ⟨ha, ⟨hk⟩, hc, hd, hv⟩ := hm
      exact ⟨_, ha, .more (.mk (.nil _) ⟨hk⟩ hc hd hv) hb hpairs⟩
  obtain ⟨a, ha, hpairs⟩ := hmembers
  refine Takes.next h fun h₁ => ?_
  refine Takes.bind (whitespace_takes h₁ ha (stops_cons (by decide))) fun _ p₂ _ h₂ => ?_
  refine Ends.bind (.of_eq rfl ?_)
  rw [h₂.peek, if_neg (by decide)]
  refine objectLoop_takes hR hE StringMap.empty_valid h₂ hpairs hnodup (fun k _ hk => ?_) (by omega)
  rw [StringMap.entries_empty] at hk
  cases hk

include hstart in
theorem valueWith_takes (h : At source p t) (hv : ValueOf R t v t') (hstop : Stops Continues t') :
    Takes source (valueWith source element) p (Same v) t' := by
  cases hv with
  | null => exact (valueWith_null h).mono (fun _ _ ha => ⟨ha.1 ▸ .null, ha.2⟩) fun _ _ hE => hE
  | isTrue =>
    exact (valueWith_true h).mono (fun _ _ ha => ⟨ha.1 ▸ .boolean true, ha.2⟩) fun _ _ hE => hE
  | isFalse =>
    exact (valueWith_false h).mono (fun _ _ ha => ⟨ha.1 ▸ .boolean false, ha.2⟩) fun _ _ hE => hE
  | number hn =>
    refine (valueWith_number h hn hstop).mono (fun _ _ ha => ⟨?_, ha.2⟩) fun _ _ hE => hE
    exact ha.1 ▸ .number _
  | string hs =>
    refine (valueWith_string h hs).mono (fun _ _ ha => ⟨?_, ha.2⟩) fun _ _ hE => hE
    exact ha.1 ▸ .string _
  | noItems ht => exact valueWith_array h (noItems_takes h ht)
  | array hvs =>
    refine valueWith_array h ((arrayValue_takes hR hstart hE h hvs).mono ?_ fun _ _ hE => hE)
    rintro _ p' ⟨⟨vs', rfl, hsame⟩, hp'⟩
    exact ⟨.array hsame, hp'⟩
  | noMembers ht hm => exact valueWith_object h (noMembers_takes h ht hm)
  | object hpairs hnodup hm =>
    refine valueWith_object h ((objectValue_takes hR hE h hpairs hnodup).mono ?_ fun _ _ hE => hE)
    rintro _ p' ⟨⟨m', rfl, hcovers⟩, hp'⟩
    exact ⟨same_object hm hnodup hcovers, hp'⟩

end Complete

theorem value_takes (levels : ℕ) : ∀ p t a v b, At source p t → Ws t a → Value levels a v b →
    Stops Continues b → Takes source (value source levels) p (Same v) b := by
  induction levels with
  | zero => exact fun _ _ _ _ _ _ _ hv _ => hv.elim
  | succ levels ih =>
    intro p t a v b h ha hv hstop
    have hstart : ∀ t v t', Value levels t v t' → Stops NotStart t := by
      cases levels with
      | zero => exact fun _ _ _ hv => hv.elim
      | succ levels => exact fun _ _ _ hv => stops_of_valueOf hv
    have hspace := stops_spaces (stops_of_valueOf hv)
    refine Takes.bind (whitespace_takes h ha hspace) fun _ p₁ _ h₁ => ?_
    exact valueWith_takes (value_parses levels) hstart ih h₁ hv hstop

end Loxis.Stdlib.JsonParser

/-! ## Whole texts -/

namespace Loxis.Stdlib.Json

open JsonParser
open Loxis.Utf8 (WellFormed)

variable {s : Str} {v : JsonValue}

theorem at_start (s : Str) : At s ⟨0, ""⟩ s := ⟨rfl, Nat.zero_le _, rfl⟩

theorem atEnd_ends (p : JsonParser) : Ends (atEnd s) p (fun _ p' => p'.failure = "" →
    p' = p ∧ p.position = s.length) fun _ _ => False := by
  refine Ends.bind (.of_eq rfl ?_)
  split
  · exact (fail_ends _).mono (fun _ _ h hf => absurd hf h.2) fun _ _ hE => hE
  · next hend => exact .pure fun _ => ⟨rfl, not_not.mp hend⟩

theorem finish_sound : Ends (finish s) ⟨0, ""⟩ (fun r _ => ∀ v, r = .success v → Text s v)
    fun _ _ => False := by
  refine .seq (value_parses maxLevels ⟨0, ""⟩) (fun v p₁ h₁ => ?_) fun _ _ hE => hE
  refine .seq whitespace_parses (fun _ p₂ h₂ => ?_) fun _ _ hE => hE
  have hread := h₁.trans (K := fun t _ t' => ∃ a b, Ws t a ∧ Value 129 a v b ∧ Ws b t') h₂
    fun t m t' ⟨a, ha, hv⟩ hb => ⟨a, m, ha, hv, hb⟩
  refine .seq (atEnd_ends p₂) (fun _ p₃ h₃ => .of_eq rfl ?_) fun _ _ hE => hE
  intro w hw
  split at hw
  · cases hw
  · next hf =>
    cases hw
    obtain ⟨rfl, hend⟩ := h₃ (not_not.mp hf)
    obtain ⟨t', ht', a, b, ha, hv, hb⟩ := hread.reads s (at_start s) (not_not.mp hf)
    have hnil : t' = [] := by rw [← ht'.drop, hend, List.drop_length]
    rw [hnil] at hb
    exact ⟨a, b, ha, hv, hb⟩

theorem finish_complete (h : Text s v) :
    Ends (finish s) ⟨0, ""⟩ (fun r _ => ∃ v', r = .success v' ∧ Same v v') fun _ _ => False := by
  obtain ⟨t, t', ht, hv, ht'⟩ := h
  have hnil : ∀ K, Stops K [] := fun K b r hb => by cases hb
  have hstop : Stops Continues t' := stops_of_ws ht' (hnil _)
  refine .seq (value_takes maxLevels _ s t v t' (at_start s) ht hv hstop) ?_ fun _ _ hE => hE
  rintro v' p₁ ⟨hsame, h₁⟩
  refine .seq (whitespace_takes h₁ ht' (hnil _)) (fun _ p₂ h₂ => ?_) fun _ _ hE => hE
  have hend : p₂.position = s.length :=
    h₂.2.le.antisymm (List.drop_eq_nil_iff.mp h₂.2.drop)
  have hdone : atEnd s p₂ = .ok () p₂ := by
    rw [atEnd, bind_ok (x := here) rfl, if_neg (not_not.mpr hend)]
    rfl
  refine Ends.bind (.of_eq hdone (.of_eq rfl ?_))
  rw [if_neg (not_not.mpr h₂.2.failure)]
  exact ⟨v', rfl, hsame⟩

theorem parse_eq (h : WellFormed s) : parse s = (outcome (finish s) ⟨0, ""⟩).1 := by
  obtain ⟨codes, hcodes⟩ := decodeCodePoints_isSuccess.mpr h
  rw [parse, hcodes]

theorem parse_complete (hs : WellFormed s) (h : Text s v) :
    ∃ v', parse s = .ok (.success v') ∧ Same v v' := by
  rw [parse_eq hs]
  obtain ⟨r, p, hr, v', rfl, hsame⟩ | ⟨e, p, -, hE⟩ := (finish_complete h).outcome
  · exact ⟨v', by rw [hr], hsame⟩
  · exact hE.elim

/-- The parser ends, it accepts just the texts of the grammar that are UTF-8, and its value is the
one that the grammar denotes. -/
theorem parse_exact (s : Str) : ∃ r, parse s = .ok r ∧
    ((∃ v, r = .success v) ↔ WellFormed s ∧ ∃ v, Text s v) ∧
      ∀ v, r = .success v → Text s v ∧ ∀ v', Text s v' → Same v' v := by
  by_cases hs : WellFormed s
  · obtain ⟨r, p, hr, hsound⟩ | ⟨e, p, -, hE⟩ := finish_sound.outcome
    · have hparse : parse s = .ok r := by rw [parse_eq hs, hr]
      refine ⟨r, hparse, ⟨fun ⟨v, hv⟩ => ⟨hs, v, hsound v hv⟩, fun ⟨_, v', hv'⟩ => ?_⟩,
        fun v hv => ⟨hsound v hv, fun v' hv' => ?_⟩⟩
      · obtain ⟨v, hv, -⟩ := parse_complete hs hv'
        rw [hparse] at hv
        cases hv
        exact ⟨v, rfl⟩
      · obtain ⟨w, hw, hsame⟩ := parse_complete hs hv'
        rw [hparse, hv] at hw
        cases hw
        exact hsame
    · exact hE.elim
  · have hfail : parse s = .ok (.failure "invalid UTF-8") := by
      cases hdecode : decodeCodePoints s with
      | failure reason => rw [parse, hdecode]
      | success codes => exact absurd (decodeCodePoints_isSuccess.mp ⟨codes, hdecode⟩) hs
    exact ⟨_, hfail, ⟨fun ⟨_, hv⟩ => (by cases hv), fun h => absurd h.1 hs⟩,
      fun _ hv => by cases hv⟩

end Loxis.Stdlib.Json
