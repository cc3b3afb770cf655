import Loxis.Stdlib.JsonNumber
import Loxis.Stdlib.JsonString

/-! # The JSON parser

The parser of the elements is any parser of its grammar. The loops over the items and the
members end because each turn goes past a comma.
-/

namespace Loxis.Stdlib.JsonParser

open Json

variable {source s t t' : Str} {p : JsonParser} {R : Str → JsonValue → Str → Prop}
  {element : Parse JsonValue} {items : List JsonValue} {members : Members} {turns : ℕ}

/-- A value after whitespace. -/
def Spaced (R : Str → JsonValue → Str → Prop) (t : Str) (v : JsonValue) (t' : Str) : Prop :=
  ∃ a, Ws t a ∧ R a v t'

theorem onMembers_ends {σ α : Type} {x : Call Str JsonValue α} {w : σ} {Q : α → Members → Prop}
    (h : Ends x ⟨members, 0⟩ (fun a w' => Q a w'.map) fun _ _ => False) :
    Ends (onMembers members x) w (fun r w' => w' = w ∧ Q r.1 r.2) fun _ _ => False := by
  unfold Ends at h
  unfold Ends onMembers
  split at h
  · next hx => rw [hx]; exact ⟨rfl, h⟩
  · next hx => exact h.elim

theorem contains_ends {σ : Type} {w : σ} {key : Str} (h : StringMap.Valid members) :
    Ends (onMembers members (HashMap.containsKey strings key)) w (fun r w' => w' = w ∧
      (r.1 = true ↔ key ∈ members.entries.map Prod.fst) ∧ StringMap.Valid r.2 ∧
        r.2.entries = members.entries) fun _ _ => False :=
  onMembers_ends (Q := fun b m => (b = true ↔ key ∈ members.entries.map Prod.fst) ∧
    StringMap.Valid m ∧ m.entries = members.entries) (StringMap.containsKey_ends h)

theorem put_ends {σ : Type} {w : σ} {key : Str} {value : JsonValue} (h : StringMap.Valid members) :
    Ends (onMembers members (HashMap.putFreely strings 2 key value)) w (fun r w' => w' = w ∧
      StringMap.Valid r.2 ∧ ∀ k v, (k, v) ∈ r.2.entries ↔
        k = key ∧ v = value ∨ k ≠ key ∧ (k, v) ∈ members.entries) fun _ _ => False :=
  onMembers_ends (Q := fun _ m => StringMap.Valid m ∧ ∀ k v, (k, v) ∈ m.entries ↔
    k = key ∧ v = value ∨ k ≠ key ∧ (k, v) ∈ members.entries) (StringMap.put_ends h)

theorem get_ends {σ : Type} {w : σ} {key : Str} {value : JsonValue} (h : StringMap.Valid members)
    (hv : (key, value) ∈ members.entries) :
    Ends (onMembers members (HashMap.get strings key)) w
      (fun r w' => w' = w ∧ r.1 = some value) fun _ _ => False :=
  onMembers_ends (Q := fun r _ => r = some value)
    ((StringMap.get_ends h hv).mono (fun _ _ hr => hr.1) fun _ _ hE => hE)

theorem keys_ends {σ : Type} {w : σ} (h : StringMap.Valid members) :
    Ends (onMembers members HashMap.keys) w
      (fun r w' => w' = w ∧ r.1 = members.entries.map Prod.fst) fun _ _ => False :=
  onMembers_ends (Q := fun r _ => r = members.entries.map Prod.fst)
    (.of_eq (HashMap.keys_eq (F := strings) (w := ⟨members, 0⟩) h) rfl)

theorem ws_trans {a : Str} (h : Ws t a) (h' : Ws a t') : Ws t t' := by
  induction h with
  | nil => exact h'
  | cons hb _ ih => exact .cons hb (ih h')

theorem items_of_ws {a : Str} {vs : List JsonValue} (h : Ws t a) (hvs : Items R a vs t') :
    Items R t vs t' := by
  cases hvs with
  | last ha hv hb => exact .last (ws_trans h ha) hv hb
  | more ha hv hb hvs => exact .more (ws_trans h ha) hv hb hvs

theorem member_of_ws {a k : Str} {v : JsonValue} (h : Ws t a) (hm : Member R a k v t') :
    Member R t k v t' := by
  obtain ⟨ha, hk, hb, hd, hv⟩ := hm
  exact .mk (ws_trans h ha) hk hb hd hv

theorem pairs_of_ws {a : Str} {pairs : List (Str × JsonValue)} (h : Ws t a)
    (hpairs : Pairs R a pairs t') : Pairs R t pairs t' := by
  cases hpairs with
  | last hm hb => exact .last (member_of_ws h hm) hb
  | more hm hb hpairs => exact .more (member_of_ws h hm) hb hpairs

/-! ## What is read is a value -/

/-- The members that have been added to a map. -/
structure Adds (done : Members) (pairs : List (Str × JsonValue)) (m : Members) : Prop where
  nodup : (pairs.map Prod.fst).Nodup
  fresh : ∀ k ∈ pairs.map Prod.fst, k ∉ done.entries.map Prod.fst
  valid : StringMap.Valid m
  entries : ∀ k v, (k, v) ∈ m.entries ↔ (k, v) ∈ done.entries ∨ (k, v) ∈ pairs

theorem Adds.one {key : Str} {value : JsonValue} {m : Members}
    (habsent : key ∉ members.entries.map Prod.fst) (hm : StringMap.Valid m)
    (he : ∀ k v, (k, v) ∈ m.entries ↔ k = key ∧ v = value ∨ k ≠ key ∧ (k, v) ∈ members.entries) :
    Adds members [(key, value)] m where
  nodup := List.nodup_singleton _
  fresh k hk := by rwa [List.mem_singleton.mp hk]
  valid := hm
  entries k v := by
    rw [he, List.mem_singleton, Prod.mk.injEq]
    have hne : (k, v) ∈ members.entries → k ≠ key :=
      fun hk heq => habsent (heq ▸ List.mem_map_of_mem (f := Prod.fst) hk)
    tauto

theorem Adds.cons {key : Str} {value : JsonValue} {m m' : Members}
    {pairs : List (Str × JsonValue)} (h : Adds m pairs m')
    (habsent : key ∉ members.entries.map Prod.fst)
    (he : ∀ k v, (k, v) ∈ m.entries ↔ k = key ∧ v = value ∨ k ≠ key ∧ (k, v) ∈ members.entries) :
    Adds members ((key, value) :: pairs) m' := by
  have hkey : key ∉ pairs.map Prod.fst := fun hk =>
    h.fresh key hk (List.mem_map_of_mem (f := Prod.fst) ((he key value).mpr (.inl ⟨rfl, rfl⟩)))
  refine ⟨List.nodup_cons.mpr ⟨hkey, h.nodup⟩, fun k hk => ?_, h.valid, fun k v => ?_⟩
  · rcases List.mem_cons.mp hk with rfl | hk
    · exact habsent
    · intro hdone
      obtain ⟨⟨k', v⟩, hv, rfl⟩ := List.mem_map.mp hdone
      refine h.fresh k' hk (List.mem_map_of_mem (f := Prod.fst) ((he k' v).mpr (.inr ⟨?_, hv⟩)))
      exact fun heq => hkey (heq ▸ hk)
  · rw [h.entries, he, List.mem_cons, Prod.mk.injEq]
    have hne : (k, v) ∈ members.entries → k ≠ key :=
      fun hk heq => habsent (heq ▸ List.mem_map_of_mem (f := Prod.fst) hk)
    tauto

theorem literal_parses {s : Str} {n : ℕ} {v : JsonValue} (hs : s.length = n)
    (h : strslice source p.position n = s) (hv : ∀ t, ValueOf R (s ++ t) v t) :
    Parses source (advance n >>= fun _ => pure v) (ValueOf R) p := by
  refine Parses.forward hs (fun t ht => ?_) (Parses.pure hv)
  rw [strslice_natCast, ht.drop] at h
  exact ⟨t.drop n, by rw [← h, List.take_append_drop]⟩

theorem next_parses {close : UInt8} {message : String} {done : JsonValue} {again : Parse JsonValue}
    {K : Str → JsonValue → Str → Prop} (hdone : ∀ t t', Ws t (close :: t') → K t done t')
    (hagain : ∀ p', Kept p p' → p'.position < source.length →
      Parses source again (fun a v t' => ∀ t, Ws t (44 :: a) → K t v t') (p'.forward 1)) :
    Parses source (next source close message done again) K p := by
  refine Parses.bind whitespace_parses fun _ p' hp' => ?_
  refine Ends.bind (.of_eq rfl (Parses.ite (fun hclose => ?_) fun _ => ?_))
  · refine Parses.next hclose (Parses.pure fun t' t ht => hdone t t' ?_)
    rwa [UInt8.ofNat_toNat] at ht
  refine Parses.ite (fun _ => Parses.fail) fun h44 => ?_
  have hlt : p'.position < source.length := lt_of_peek (by rw [not_not.mp h44]; decide)
  exact Parses.next (n := 44) (not_not.mp h44) (hagain p' hp' hlt)

section Sound

variable (hR : ∀ p, Parses source element (Spaced R) p)
include hR

theorem arrayLoop_parses (h : source.length - p.position < turns) :
    Parses source (arrayLoop source element turns items)
      (fun t v t' => ∃ vs, v = .array (items ++ vs) ∧ Items R t vs t') p := by
  induction turns generalizing p items with
  | zero => omega
  | succ turns ih =>
    refine Ends.bind (.of_eq rfl (Parses.ite (fun _ => Parses.fail) fun _ => ?_))
    refine Parses.bind (hR p) fun v p₁ h₁ => next_parses ?_ fun p₂ h₂ hlt => ?_
    · rintro b t' hb t ⟨a, ha, hv⟩
      exact ⟨[v], rfl, .last ha hv hb⟩
    · have hturns : source.length - (p₂.forward 1).position < turns := by
        have := h₁.position
        have := h₂.position
        show source.length - (p₂.position + 1) < turns
        omega
      refine (ih hturns).mono (fun _ _ h => h.mono ?_) fun _ _ hE => hE
      rintro c t' ⟨vs, rfl, hvs⟩ b hb t ⟨a, ha, hv⟩
      exact ⟨v :: vs, by rw [List.append_assoc, List.singleton_append], .more ha hv hb hvs⟩

theorem arrayValue_parses (h91 : strchar source p.position = 91) :
    Parses source (arrayValue source element) (ValueOf R) p := by
  refine Parses.next (n := 91) h91 (Parses.bind whitespace_parses fun _ p₁ _ => ?_)
  refine Ends.bind (.of_eq rfl (Parses.ite (fun h93 => ?_) fun _ => ?_))
  · exact Parses.next (n := 93) h93 (Parses.pure fun t' t ht => .noItems ht)
  · refine (arrayLoop_parses hR (by omega)).mono (fun _ _ h => h.mono ?_) fun _ _ hE => hE
    rintro b t' ⟨vs, rfl, hvs⟩ t ht
    exact .array (items_of_ws ht hvs)

theorem member_parses : Parses source (member source element)
    (fun t r t' => ∃ k v, r = some (k, v) ∧ Member R t k v t') p := by
  refine Parses.bind whitespace_parses fun _ p₁ _ => ?_
  refine Parses.bind stringValue_parses fun k p₂ _ => Parses.bind whitespace_parses fun _ p₃ _ => ?_
  refine Ends.bind (.of_eq rfl (Parses.ite (fun _ => Parses.fail) fun h58 => ?_))
  refine Parses.next (n := 58) (not_not.mp h58) (Parses.bind (hR _) fun v p₄ _ => Parses.pure ?_)
  rintro t' c ⟨d, hd, hv⟩ b hb a ha t ht
  exact ⟨k, v, rfl, .mk ht ha hb hd hv⟩

theorem objectLoop_parses (hvalid : StringMap.Valid members)
    (h : source.length - p.position < turns) :
    Parses source (objectLoop source element turns members)
      (fun t v t' => ∃ pairs m, v = .object m ∧ Pairs R t pairs t' ∧ Adds members pairs m) p := by
  induction turns generalizing p members with
  | zero => omega
  | succ turns ih =>
    refine Ends.bind (.of_eq rfl (Parses.ite (fun _ => Parses.fail) fun _ => ?_))
    refine Parses.bind (member_parses hR) fun r p₁ h₁ => ?_
    cases r with
    | none =>
      refine Parses.pure fun t m hm => ?_
      obtain ⟨k, v, ⟨⟩, -⟩ := hm
    | some kv =>
      obtain ⟨key, value⟩ := kv
      refine .seq (contains_ends hvalid) ?_ fun _ _ hE => hE
      rintro ⟨present, m₁⟩ _ ⟨rfl, hpresent, hm₁, he₁⟩
      refine Parses.ite (fun _ => Parses.fail) fun habsent => ?_
      refine .seq (put_ends hm₁) ?_ fun _ _ hE => hE
      rintro ⟨_, m₂⟩ _ ⟨rfl, hm₂, he₂⟩
      simp only [hpresent] at habsent
      simp only [he₁] at hm₂ he₂
      refine next_parses ?_ fun p₂ h₂ hlt => ?_
      · rintro b t' hb t ⟨k, v, ⟨⟩, hm⟩
        exact ⟨[(key, value)], m₂, rfl, .last hm hb, .one habsent hm₂ he₂⟩
      · have hturns : source.length - (p₂.forward 1).position < turns := by
          have := h₁.position
          have := h₂.position
          show source.length - (p₂.position + 1) < turns
          omega
        refine (ih hm₂ hturns).mono (fun _ _ h => h.mono ?_) fun _ _ hE => hE
        rintro c t' ⟨pairs, m, rfl, hpairs, hadds⟩ b hb t ⟨k, v, ⟨⟩, hm⟩
        exact ⟨(key, value) :: pairs, m, rfl, .more hm hb hpairs, hadds.cons habsent he₂⟩

theorem objectValue_parses (h123 : strchar source p.position = 123) :
    Parses source (objectValue source element) (ValueOf R) p := by
  refine Parses.next (n := 123) h123 (Parses.bind whitespace_parses fun _ p₁ _ => ?_)
  refine Ends.bind (.of_eq rfl (Parses.ite (fun h125 => ?_) fun _ => ?_))
  · refine Parses.next (n := 125) h125 (Parses.pure fun t' t ht => .noMembers ht ?_)
    exact ⟨StringMap.empty_valid, fun k v => by rw [StringMap.entries_empty]⟩
  · refine (objectLoop_parses hR StringMap.empty_valid (by omega)).mono (fun _ _ h => h.mono ?_)
      fun _ _ hE => hE
    rintro b t' ⟨pairs, m, rfl, hpairs, hadds⟩ t ht
    refine .object (pairs_of_ws ht hpairs) hadds.nodup ⟨hadds.valid, fun k v => ?_⟩
    rw [hadds.entries, StringMap.entries_empty]
    simp

theorem valueWith_parses : Parses source (valueWith source element) (ValueOf R) p := by
  refine Ends.bind (.of_eq rfl (Parses.ite (fun _ => ?_) fun _ => ?_))
  · exact Parses.bind stringValue_parses fun s p₁ _ => Parses.pure fun t' t ht => .string ht
  refine Parses.ite (fun _ => ?_) fun _ => ?_
  · refine numberValue_parses.mono (fun _ _ h => h.mono ?_) fun _ _ hE => hE
    rintro t t' ⟨s, rfl, rfl, hn⟩
    exact .number hn
  refine Ends.bind (.of_eq rfl (Parses.ite (fun h => ?_) fun _ => ?_))
  · exact literal_parses rfl h .null
  refine Ends.bind (.of_eq rfl (Parses.ite (fun h => ?_) fun _ => ?_))
  · exact literal_parses rfl h .isTrue
  refine Ends.bind (.of_eq rfl (Parses.ite (fun h => ?_) fun _ => ?_))
  · exact literal_parses rfl h .isFalse
  refine Parses.ite (fun h => arrayValue_parses hR h) fun _ => ?_
  exact Parses.ite (fun h => objectValue_parses hR h) fun _ => Parses.fail

end Sound

theorem value_parses (levels : ℕ) :
    ∀ p, Parses source (value source levels) (Spaced (Value levels)) p := by
  induction levels with
  | zero => exact fun p => Parses.bind whitespace_parses fun _ p' _ => Parses.fail
  | succ levels ih =>
    refine fun p => Parses.bind whitespace_parses fun _ p' _ => ?_
    refine (valueWith_parses ih).mono (fun _ _ h => h.mono ?_) fun _ _ hE => hE
    exact fun a t' hv t ht => ⟨a, ht, hv⟩

end Loxis.Stdlib.JsonParser
