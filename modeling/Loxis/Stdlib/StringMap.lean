import Loxis.Stdlib.HashMapRun
import Loxis.Stdlib.Str

/-! # Maps of strings

Tables with the hash function and the equality of strings, which raise nothing. The limit of
their growth is left out: it is reached by tables that the 32 bits of a heap offset do not
address.
-/

namespace Loxis.Stdlib

/-- The loop over the bytes. -/
def hashString (value : Str) : ℤ :=
  value.foldl (fun hash b => (hash * 31 + b.toNat).tmod 2147483647) 0

def equalString (a b : Str) : Bool := a == b

def strings : Functions Str where
  hash := hashString
  equal := equalString
  equiv := ⟨fun _ => beq_self_eq_true _, fun h => beq_iff_eq.mpr (beq_iff_eq.mp h).symm,
    fun h h' => beq_iff_eq.mpr ((beq_iff_eq.mp h).trans (beq_iff_eq.mp h'))⟩
  hash_eq a b h := by rw [eq_of_beq h]
  fault _ := none

namespace HashMap

variable {K V : Type} (F : Functions K)

/-- The body of `grow` without its limit. -/
def growFreely (put : K → V → Call K V (Option V)) : Call K V Unit := do
  let old ← table
  assign { slots := List.replicate (old.slots.length * 2) .empty, count := 0 }
  reinsert put old.slots

/-- `put` with at most this many calls of itself in progress. -/
def putFreely : ℕ → K → V → Call K V (Option V)
  | 0, _, _ => throw .diverges
  | depth + 1, key, value => putWith F (growFreely (putFreely depth)) key value

variable {F} {w : World K V} {M : F.toHashing.Map V} {depth : ℕ} {key : K} {value : V}

theorem putFreely_ends (h : Inv F.toHashing w.map) (hM : Maps F.toHashing w.map M) :
    Ends (putFreely F (depth + 2) key value) w
      (fun old w' => old = M (F.classOf key) ∧ Inv F.toHashing w'.map ∧
        Maps F.toHashing w'.map (Hashing.update M key (some value))) fun e _ => Raises F e := by
  refine putWith_ends (fun w' _ _ hinv hne => ?_) (fun e w' hx _ => hx) h hM
  have hput : ∀ (w : World K V) key value, Inv F.toHashing w.map → w.map.slots ≠ [] →
      ¬ w.map.Full → Located F w.map key none → Ends (putFreely F (depth + 1) key value) w
        (fun _ w' => Inserted F.toHashing w.map key value w'.map) (Thrown F w.map) :=
    fun w key value h hne hfull habsent =>
      (putWith_ends_room h hne hfull habsent).mono (fun _ _ h => h.2) fun _ _ h => h
  exact .bind (.of_eq rfl ((regrow_ends hput hinv hne).mono (fun _ _ h => h) fun _ _ h => h.1))

/-- Every table is the table of a map. -/
theorem exists_maps {H : Hashing K} {t : HashMap K V} (h : Inv H t) : ∃ M, Maps H t M := by
  classical
  refine ⟨fun c => if hc : ∃ v, ∃ k, (k, v) ∈ t.entries ∧ H.classOf k = c then some hc.choose
    else none, fun c v => ?_⟩
  constructor
  · intro hsome
    dsimp only at hsome
    split at hsome
    · next hc =>
      cases hsome
      exact hc.choose_spec
    · cases hsome
  · rintro ⟨k, hk, rfl⟩
    have hc : ∃ v', ∃ k', (k', v') ∈ t.entries ∧ H.classOf k' = H.classOf k := ⟨v, k, hk, rfl⟩
    obtain ⟨k', hk', heq⟩ := hc.choose_spec
    obtain ⟨i, hi⟩ := mem_entries.mp hk
    obtain ⟨j, hj⟩ := mem_entries.mp hk'
    have hij := h.distinct j i k' k _ _ hj hi (Hashing.classOf_eq_iff.mp heq)
    subst hij
    dsimp only
    rw [dif_pos hc]
    unfold Holds at hi hj
    rw [hi] at hj
    cases hj
    rfl

end HashMap

/-! ## Tables of strings -/

namespace StringMap

open HashMap

/-- A table that the operations have built. -/
abbrev Valid {V : Type} (t : HashMap Str V) : Prop := Inv strings.toHashing t

variable {V : Type} {t : HashMap Str V} {k key : Str} {v value : V} {n : ℕ}

theorem classOf_inj : strings.classOf k = strings.classOf key ↔ k = key := by
  rw [Hashing.classOf_eq_iff]
  exact beq_iff_eq

theorem not_raises {e : Stop} : ¬ Raises strings e := by
  rintro ⟨n, x, hx, -⟩
  cases hx

theorem maps_iff {M : strings.toHashing.Map V} (hM : Maps strings.toHashing t M) :
    (k, v) ∈ t.entries ↔ M (strings.classOf k) = some v := by
  rw [hM]
  constructor
  · exact fun h => ⟨k, h, rfl⟩
  · rintro ⟨k', hk', heq⟩
    rwa [classOf_inj.mp heq] at hk'

theorem keys_nodup (h : Valid t) : (t.entries.map Prod.fst).Nodup := by
  rw [List.Nodup, List.pairwise_map]
  exact h.pairwise.imp fun hne heq => by
    rw [heq] at hne
    exact absurd hne (by rw [show strings.equal _ _ = true from beq_self_eq_true _]; decide)

/-- The empty table. -/
def empty : HashMap Str V := ⟨[], 0⟩

theorem empty_valid : Valid (empty : HashMap Str V) := Inv.replicate strings.toHashing 0

theorem entries_empty : (empty : HashMap Str V).entries = [] := rfl

theorem put_ends (h : Valid t) :
    Ends (putFreely strings 2 key value) ⟨t, n⟩ (fun _ w' => Valid w'.map ∧
      ∀ k v, (k, v) ∈ w'.map.entries ↔ k = key ∧ v = value ∨ k ≠ key ∧ (k, v) ∈ t.entries)
      fun _ _ => False := by
  obtain ⟨M, hM⟩ := exists_maps h
  refine (putFreely_ends (w := ⟨t, n⟩) h hM).mono ?_ fun e w' hx => not_raises hx
  rintro old w' ⟨-, hinv, hM'⟩
  refine ⟨hinv, fun k v => ?_⟩
  rw [maps_iff hM', maps_iff hM]
  by_cases hk : k = key
  · subst hk
    rw [Hashing.update_self, Option.some.injEq]
    tauto
  · rw [Hashing.update_of_ne (fun heq => hk (classOf_inj.mp heq))]
    tauto

theorem containsKey_ends (h : Valid t) :
    Ends (containsKey strings key) ⟨t, n⟩ (fun b w' => (b = true ↔ key ∈ t.entries.map Prod.fst) ∧
      Valid w'.map ∧ w'.map.entries = t.entries) fun _ _ => False := by
  obtain ⟨M, hM⟩ := exists_maps h
  refine (HashMap.containsKey_ends (w := ⟨t, n⟩) h hM).mono ?_ fun e w' hx => not_raises hx.1
  rintro b w' ⟨rfl, hw'⟩
  rw [hw']
  refine ⟨?_, h.storage, entries_storage⟩
  rw [Option.isSome_iff_exists, List.mem_map]
  constructor
  · rintro ⟨v, hv⟩
    exact ⟨(key, v), (maps_iff hM).mpr hv, rfl⟩
  · rintro ⟨⟨k, v⟩, hk, rfl⟩
    exact ⟨v, (maps_iff hM).mp hk⟩

theorem get_ends (h : Valid t) (hv : (key, v) ∈ t.entries) :
    Ends (get strings key) ⟨t, n⟩ (fun r w' => r = some v ∧ Valid w'.map ∧
      w'.map.entries = t.entries) fun _ _ => False := by
  obtain ⟨M, hM⟩ := exists_maps h
  refine (HashMap.get_ends (w := ⟨t, n⟩) h hM).mono ?_ fun e w' hx => not_raises hx.1
  rintro r w' ⟨rfl, hw'⟩
  rw [hw']
  exact ⟨(maps_iff hM).mp hv, h.storage, entries_storage⟩

end StringMap

end Loxis.Stdlib
