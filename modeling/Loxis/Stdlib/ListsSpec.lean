import Loxis.Stdlib.ListsRep

/-! # Operations on the elements of a list

Reading and writing elements, and the growth of a list by one element.
-/

namespace Loxis.Stdlib.Lists

variable {T : Type} {w : World T} {abs : List (List (Value T))} {l : ℕ} {xs : List (Value T)}
  {f : Fields} {v : Value T} {k : ℕ} {E : Stop → World T → Prop}

theorem return_decide {p q : Prop} [Decidable p] [Decidable q] (h : p ↔ q) :
    (pure (decide p) : Call T Bool) w = .ok (decide q) w :=
  congrArg (EStateM.Result.ok · w) (decide_eq_decide.mpr h)

theorem fields_ok (hf : w.lists[l]? = some f) : fields l w = .ok f w := by
  rw [fields, hf]

theorem Rep.length_le (h : Rep w abs) (hl : abs[l]? = some xs) : xs.length ≤ limit := by
  obtain ⟨f, -, -, cap, b, -, -, hb⟩ := h.fields hl
  exact hb.le.trans hb.bounded

theorem size_ok (h : Rep w abs) (hl : abs[l]? = some xs) : size l w = .ok (xs.length : ℤ) w := by
  obtain ⟨f, hf, hlen, -⟩ := h.fields hl
  rw [size, bind_ok (fields_ok hf), hlen]
  rfl

theorem get_ok (h : Rep w abs) (hl : abs[l]? = some xs) (hk : k < xs.length) :
    get l k w = .ok xs[k] w := by
  obtain ⟨f, hf, hlen, cap, b, hcap, hm, hb⟩ := h.fields hl
  rw [get, bind_ok (fields_ok hf), bind_ok (require_ok ⟨by omega, by omega⟩),
    arrayGet_ok hm hb.size (hk.trans_le hb.le) hb.bounded, hb.elems k hk]

theorem get_error (h : Rep w abs) (hl : abs[l]? = some xs) {i : ℤ}
    (hi : ¬ (0 ≤ i ∧ i < xs.length)) :
    get l i w = .error (.raised "list index out of bounds") w := by
  obtain ⟨f, hf, hlen, -⟩ := h.fields hl
  rw [get, bind_ok (fields_ok hf), bind_error (require_error (by rwa [hlen]))]

/-- The array of a list is updated in place. -/
theorem Rep.store (h : Rep w abs) (hf : w.lists[l]? = some f) {cap : ℕ} {b : Block T}
    (hm : w.memory[f.buffer]? = some (some b)) (hcap : f.cap = cap) {ys : List (Value T)} {len : ℤ}
    (hlen : len = ys.length) (hb : (b.store k v).Stores cap ys) :
    Rep { w.store f.buffer b k v with lists := w.lists.set l { f with len := len } }
      (abs.set l ys) := by
  have hlt := (List.getElem?_eq_some_iff.mp hm).1
  refine h.update hf ⟨hlen, cap, _, hcap, List.getElem?_set_self hlt, hb⟩ ?_ (.inl rfl)
  intro base b' hne hb'
  rwa [World.store, List.getElem?_set_ne (Ne.symm hne)]

theorem set_self (hf : w.lists[l]? = some f) : w.lists.set l { f with len := f.len } = w.lists := by
  obtain ⟨hlt, heq⟩ := List.getElem?_eq_some_iff.mp hf
  subst heq
  exact List.set_getElem_self hlt

theorem set_ok (h : Rep w abs) (hl : abs[l]? = some xs) (hk : k < xs.length) :
    ∃ w', set l k v w = .ok () w' ∧ Rep w' (abs.set l (xs.set k v)) := by
  obtain ⟨f, hf, hlen, cap, b, hcap, hm, hb⟩ := h.fields hl
  refine ⟨w.store f.buffer b k v, ?_, ?_⟩
  · rw [set, bind_ok (fields_ok hf), bind_ok (require_ok ⟨by omega, by omega⟩),
      arraySet_ok hm hb.size (hk.trans_le hb.le) hb.bounded]
  · have hrep := h.store hf hm hcap (hlen.trans (by rw [List.length_set])) (hb.store (v := v) hk)
    rwa [set_self hf] at hrep

theorem set_error (h : Rep w abs) (hl : abs[l]? = some xs) {i : ℤ}
    (hi : ¬ (0 ≤ i ∧ i < xs.length)) :
    set l i v w = .error (.raised "list index out of bounds") w := by
  obtain ⟨f, hf, hlen, -⟩ := h.fields hl
  rw [set, bind_ok (fields_ok hf), bind_error (require_error (by rwa [hlen]))]

/-! ## Growth -/

theorem abs_set_self (hl : abs[l]? = some xs) : abs.set l xs = abs := by
  obtain ⟨hlt, heq⟩ := List.getElem?_eq_some_iff.mp hl
  subst heq
  exact List.set_getElem_self hlt

/-- The elements are copied to an array that no list has yet. -/
structure Copied (w u : World T) (next cap : ℕ) (xs : List (Value T)) : Prop where
  lists : u.lists = w.lists
  old : ∀ (base : ℕ) b, w.memory[base]? = some (some b) → u.memory[base]? = some (some b)
  new : w.memory.length ≤ next
  array : ∃ b, u.memory[next]? = some (some b) ∧ b.Stores cap xs

theorem Copied.step {u : World T} {next cap : ℕ} (hu : Copied w u next cap xs)
    (hlt : xs.length < cap) :
    ∃ u', arraySet next xs.length v u = .ok () u' ∧ Copied w u' next cap (xs ++ [v]) := by
  obtain ⟨b, hb, hstores⟩ := hu.array
  have hnext := (List.getElem?_eq_some_iff.mp hb).1
  refine ⟨_, arraySet_ok hb hstores.size hlt hstores.bounded, hu.lists, fun base b' hb' => ?_,
    hu.new, _, List.getElem?_set_self hnext, hstores.append hlt⟩
  have hbase := (List.getElem?_eq_some_iff.mp hb').1
  have hnew := hu.new
  rw [World.store, List.getElem?_set_ne (by omega)]
  exact hu.old base b' hb'

theorem grow_ends (h : Rep w abs) (hl : abs[l]? = some xs) (hf : w.lists[l]? = some f)
    (hfull : f.cap ≤ f.len) :
    Ends (grow l) w (fun _ w' => Rep w' abs ∧ ∃ f', w'.lists[l]? = some f' ∧ f'.len < f'.cap)
      fun e w' => e = .raised "list capacity overflow" ∧ w' = w := by
  obtain ⟨hlen, cap, b, hcap, hm, hb⟩ := h.holds l f xs hf hl
  have hle := hb.le
  unfold grow
  refine .bind (.of_eq (fields_ok hf) ?_)
  by_cases hmax : f.cap ≤ 238609293
  swap
  · unfold Ends
    rw [bind_error (require_error hmax)]
    exact ⟨rfl, rfl⟩
  refine .bind (.of_eq (require_ok hmax) ?_)
  refine .bind (.of_eq (mul_of_fits ⟨by omega, by omega⟩ ⟨by omega, by omega⟩
    ⟨by omega, by omega⟩) ?_)
  obtain ⟨nextCap, hnextCap, hlt, hbounded⟩ : ∃ nextCap : ℕ,
      (if f.cap * 2 ≤ 0 then 1 else f.cap * 2) = nextCap ∧ xs.length < nextCap ∧
        nextCap ≤ limit := by
    unfold limit
    split
    · exact ⟨1, rfl, by omega, by decide⟩
    · exact ⟨cap * 2, by omega, by omega, by omega⟩
  rw [hnextCap]
  refine .bind (.of_eq (arrayNew_ok hbounded) ?_)
  refine .seq (Ends.counted xs.length
    (fun n i u => i = (n : ℤ) ∧ Copied w u w.memory.length nextCap (xs.take n)) ?_ ?_ ?_ ?_)
    (fun _ u hu => ?_) fun _ _ h => h
  · rintro n i u - ⟨rfl, hu⟩
    have hfu : u.lists[l]? = some f := by rw [hu.lists]; exact hf
    rw [bind_ok (fields_ok hfu), hlen]
    exact return_decide Nat.cast_lt
  · rintro n i u hn ⟨rfl, hu⟩
    have hfu : u.lists[l]? = some f := by rw [hu.lists]; exact hf
    refine .bind (.of_eq (fields_ok hfu) ?_)
    refine .bind (.of_eq (arrayGet_ok (hu.old _ _ hm) hb.size (by omega) hb.bounded) ?_)
    have htake : (xs.take n).length = n := List.length_take_of_le hn.le
    obtain ⟨u', hset, hu'⟩ := hu.step (v := b.cells (n + 1)) (by omega)
    rw [htake] at hset
    rw [hb.elems n hn, List.take_concat_get' _ _ hn] at hu'
    refine .bind (.of_eq hset (.of_eq (add_ok ⟨by omega, by omega⟩ ⟨by omega, by omega⟩) ?_))
    exact ⟨by omega, hu'⟩
  · refine ⟨rfl, rfl, fun base b' hb' => ?_, le_rfl, _, List.getElem?_concat_length, ?_⟩
    · rw [List.getElem?_append_left (List.getElem?_eq_some_iff.mp hb').1]
      exact hb'
    · rw [List.take_zero]
      exact Block.ofSize_stores hbounded
  · unfold turns
    unfold limit at hbounded
    omega
  · obtain ⟨-, hlists, hold, hnew, b', hb', hstores⟩ := hu
    have hfu : u.lists[l]? = some f := by rw [hlists]; exact hf
    rw [List.take_length] at hstores
    refine .bind (.of_eq (fields_ok hfu) ?_)
    refine .bind (.of_eq rfl ?_)
    refine .bind (.of_eq (fields_ok hfu) (.of_eq rfl ⟨?_, ?_⟩))
    · have hbase := (List.getElem?_eq_some_iff.mp hm).1
      have hrep : Rep ⟨u.memory.set f.buffer none,
          w.lists.set l { f with buffer := w.memory.length, cap := nextCap }⟩ (abs.set l xs) :=
        h.update hf ⟨hlen, nextCap, b', rfl, ?_, hstores⟩ ?_ (.inr le_rfl)
      · rw [abs_set_self hl, ← hlists] at hrep
        exact hrep
      · rw [List.getElem?_set_ne (Nat.ne_of_lt hbase)]
        exact hb'
      · intro base b₀ hne hb₀
        rw [List.getElem?_set_ne (Ne.symm hne)]
        exact hold base b₀ hb₀
    · refine ⟨_, List.getElem?_set_self (List.getElem?_eq_some_iff.mp hfu).1, ?_⟩
      change f.len < (nextCap : ℤ)
      omega

/-- The list has an array for so many elements. -/
def Room (w : World T) (l n : ℕ) : Prop := ∃ f, w.lists[l]? = some f ∧ (n : ℤ) ≤ f.cap

/-- The end of `push`, once there is room. -/
theorem append_ok (h : Rep w abs) (hl : abs[l]? = some xs) {n : ℕ} (hroom : Room w l n)
    (hlt : xs.length < n) : ∃ w',
      (do
        let f ← fields l
        arraySet f.buffer f.len v
        assign l { f with len := ← add f.len 1 } : Call T Unit) w = .ok () w' ∧
      Rep w' (abs.set l (xs ++ [v])) ∧ Room w' l n := by
  obtain ⟨f, hf, hn⟩ := hroom
  obtain ⟨hlen, cap, b, hcap, hm, hb⟩ := h.holds l f xs hf hl
  have hbounded := hb.bounded
  unfold limit at hbounded
  have hstore := arraySet_ok (w := w) (v := v) hm hb.size (k := xs.length) (by omega) hb.bounded
  rw [← hlen] at hstore
  refine ⟨{ w.store f.buffer b xs.length v with
    lists := w.lists.set l { f with len := f.len + 1 } }, ?_, ?_, ?_⟩
  · rw [bind_ok (fields_ok hf), bind_ok hstore,
      bind_ok (add_ok ⟨by omega, by omega⟩ ⟨by omega, by omega⟩)]
    rfl
  · exact h.store hf hm hcap (by rw [hlen, List.length_append]; rfl) (hb.append (by omega))
  · exact ⟨_, List.getElem?_set_self (List.getElem?_eq_some_iff.mp hf).1, hn⟩

theorem push_room (h : Rep w abs) (hl : abs[l]? = some xs) {n : ℕ} (hroom : Room w l n)
    (hlt : xs.length < n) :
    ∃ w', push l v w = .ok () w' ∧ Rep w' (abs.set l (xs ++ [v])) ∧ Room w' l n := by
  obtain ⟨f, hf, hn⟩ := hroom
  obtain ⟨hlen, -⟩ := h.holds l f xs hf hl
  rw [push, bind_ok (fields_ok hf), if_neg (by omega)]
  exact append_ok h hl ⟨f, hf, hn⟩ hlt

theorem push_ends (h : Rep w abs) (hl : abs[l]? = some xs) :
    Ends (push l v) w (fun _ w' => Rep w' (abs.set l (xs ++ [v])))
      fun e w' => e = .raised "list capacity overflow" ∧ w' = w := by
  obtain ⟨f, hf, hlen, cap, b, hcap, hm, hb⟩ := h.fields hl
  have hle := hb.le
  by_cases hroom : f.len < f.cap
  · obtain ⟨w', hpush, hw', -⟩ := push_room (v := v) h hl ⟨f, hf, hcap.ge⟩ (by omega)
    exact .of_eq hpush hw'
  · unfold push
    refine .bind (.of_eq (fields_ok hf) ?_)
    rw [if_pos (by omega)]
    refine .seq (grow_ends h hl hf (by omega)) (fun _ w' ⟨hw', f', hf', hlt⟩ => ?_) fun _ _ h => h
    obtain ⟨hlen', cap', b', hcap', -⟩ := hw'.holds l f' xs hf' hl
    obtain ⟨w'', htail, hw'', -⟩ := append_ok (v := v) hw' hl ⟨f', hf', hcap'.ge⟩ (by omega)
    exact .of_eq htail hw''

end Loxis.Stdlib.Lists
