import Loxis.Stdlib.ListsInPlace

/-! # Operations that return new lists

Slices, copies and chunks are built by appending to a list that comes after all others.
-/

namespace Loxis.Stdlib.Lists

open Loxis.Backend (Fits)

variable {T : Type} {w : World T} {abs : List (List (Value T))} {l : ℕ}
  {xs ys : List (Value T)} {v : Value T} {k n : ℕ} {E : Stop → World T → Prop}

theorem get_append (hl : abs[l]? = some xs) : (abs ++ [ys])[l]? = some xs := by
  rw [List.getElem?_append_left (List.getElem?_eq_some_iff.mp hl).1, hl]

theorem set_append {zs : List (Value T)} : (abs ++ [ys]).set abs.length zs = abs ++ [zs] := by
  rw [List.set_append_right _ _ le_rfl, Nat.sub_self]
  rfl

/-! ## Empty lists -/

theorem newList_ok (h : Rep w abs) :
    ∃ w', newList w = .ok abs.length w' ∧ Rep w' (abs ++ [[]]) := by
  have hnew := arrayNew_ok (w := w) (Nat.zero_le limit)
  refine ⟨{ memory := w.memory ++ [some (Block.ofSize 0)],
            lists := w.lists ++ [⟨w.memory.length, 0, 0⟩] }, ?_, h.append
    ⟨rfl, 0, _, rfl, List.getElem?_concat_length, Block.ofSize_stores (Nat.zero_le _)⟩
    (fun base b hb => ?_) le_rfl⟩
  · rw [newList]
    refine (bind_ok hnew).trans ?_
    rw [← h.length]
  · rw [List.getElem?_append_left (List.getElem?_eq_some_iff.mp hb).1]
    exact hb

theorem listWithCapacity_ok (h : Rep w abs) (hn : n ≤ limit) :
    ∃ w', listWithCapacity n w = .ok abs.length w' ∧ Rep w' (abs ++ [[]]) ∧
      Room w' abs.length n := by
  -- the array of the new list is left behind for the one of the capacity
  let memory := w.memory ++ [some (Block.ofSize n)]
  have hempty : newList { memory := memory, lists := w.lists } = .ok w.lists.length
      { memory := memory ++ [some (Block.ofSize 0)], lists := w.lists ++ [⟨memory.length, 0, 0⟩] } :=
    bind_ok (arrayNew_ok (Nat.zero_le limit))
  have hold {base : ℕ} {b : Block T} (hb : w.memory[base]? = some (some b)) :
      memory[base]? = some (some b) := by
    rw [List.getElem?_append_left (List.getElem?_eq_some_iff.mp hb).1]
    exact hb
  refine ⟨{ memory := memory ++ [some (Block.ofSize 0)],
            lists := w.lists ++ [⟨w.memory.length, 0, n⟩] }, ?_, ?_, ?_⟩
  · rw [listWithCapacity, bind_ok (arrayNew_ok hn), bind_ok hempty,
      bind_ok (fields_ok List.getElem?_concat_length)]
    rw [← h.length]
    have hset : (w.lists ++ [Fields.mk memory.length 0 0]).set w.lists.length ⟨w.memory.length, 0, n⟩ =
        w.lists ++ [⟨w.memory.length, 0, n⟩] := by
      rw [List.set_append_right _ _ le_rfl, Nat.sub_self]
      rfl
    rw [← hset]
    rfl
  · refine h.append ⟨rfl, n, _, rfl, ?_, Block.ofSize_stores hn⟩ (fun base b hb => ?_) le_rfl
    · rw [List.getElem?_append_left (by simp [memory])]
      exact List.getElem?_concat_length
    · rw [List.getElem?_append_left (List.getElem?_eq_some_iff.mp (hold hb)).1]
      exact hold hb
  · refine ⟨⟨w.memory.length, 0, n⟩, ?_, le_rfl⟩
    rw [← h.length]
    exact List.getElem?_concat_length

theorem listWithCapacity_error {c : ℤ} (hc : ¬ (0 ≤ c ∧ c ≤ 477218586)) :
    listWithCapacity c w = .error (.raised "array capacity out of range") w := by
  rw [listWithCapacity, bind_error (arrayNew_error hc)]

/-! ## Slices -/

theorem pushFrom_ends (h : Rep w (abs ++ [ys])) (hl : abs[l]? = some xs) {lim : Call T ℤ}
    (hlim : ∀ u zs, Rep u (abs ++ [zs]) → lim u = .ok (n : ℤ) u) (hk : k ≤ n)
    (hn : n ≤ xs.length) {c : ℕ} (hroom : Room w abs.length c) (hc : ys.length + (n - k) ≤ c) :
    Ends (pushFrom l abs.length lim k) w (fun _ w' =>
      Rep w' (abs ++ [ys ++ (xs.take n).drop k]) ∧ Room w' abs.length c) E := by
  have hlimit := h.length_le (get_append hl)
  unfold limit at hlimit
  unfold pushFrom
  refine .seq (Ends.counted (n - k)
    (fun m (i : ℤ) u => i = (k + m : ℕ) ∧ Rep u (abs ++ [ys ++ (xs.take (k + m)).drop k]) ∧
      Room u abs.length c) ?_ ?_ ?_ ?_) (fun i u hu => ?_) fun _ _ h => h
  · rintro m i u hm ⟨rfl, hu, -⟩
    rw [bind_ok (hlim _ _ hu)]
    exact return_decide (by omega)
  · rintro m i u hm ⟨rfl, hu, hroom⟩
    have hget := get_ok hu (get_append hl) (k := k + m) (by omega)
    have hslice : ((xs.take (k + m)).drop k).length = m := by
      rw [List.length_drop, List.length_take_of_le (by omega)]
      omega
    obtain ⟨u', hpush, hu', hroom'⟩ := push_room (v := xs[k + m]) hu List.getElem?_concat_length
      hroom (by rw [List.length_append, hslice]; omega)
    refine .bind (.of_eq hget (.bind (.of_eq hpush ?_)))
    refine .of_eq (add_ok ⟨by omega, by omega⟩ ⟨by omega, by omega⟩) ⟨rfl, ?_, hroom'⟩
    rw [set_append, List.append_assoc] at hu'
    have hnext : (xs.take (k + m)).drop k ++ [xs[k + m]] = (xs.take (k + (m + 1))).drop k := by
      rw [← Nat.add_assoc, ← List.take_concat_get' xs (k + m) (by omega),
        List.drop_append_of_le_length (by rw [List.length_take_of_le (by omega)]; omega)]
    rwa [hnext] at hu'
  · refine ⟨rfl, ?_, hroom⟩
    rwa [Nat.add_zero, List.drop_eq_nil_of_le (List.length_take_le k xs), List.append_nil]
  · unfold turns
    omega
  · obtain ⟨-, hu, hroom⟩ := hu
    rw [Nat.add_sub_cancel' hk] at hu
    exact .pure ⟨hu, hroom⟩

/-- A new list for so many elements of a list, which it then gets. -/
theorem slice_ends (h : Rep w abs) (hl : abs[l]? = some xs) (lim : Call T ℤ)
    (hlim : ∀ u zs, Rep u (abs ++ [zs]) → lim u = .ok (n : ℤ) u) (hk : k ≤ n)
    (hn : n ≤ xs.length) {c : ℕ} (hc : n - k ≤ c) (hlimit : c ≤ limit) :
    Ends (do
      let out ← listWithCapacity c
      pushFrom l out lim k
      return out) w
      (fun a w' => a = abs.length ∧ Rep w' (abs ++ [(xs.take n).drop k]) ∧
        Room w' abs.length c) E := by
  obtain ⟨w₁, hnew, hw₁, hroom⟩ := listWithCapacity_ok h hlimit
  refine .bind (.of_eq hnew ?_)
  refine .seq (pushFrom_ends hw₁ hl hlim hk hn hroom (by rw [List.length_nil]; omega))
    (fun _ w₂ hw₂ => ?_) fun _ _ h => h
  exact .pure ⟨rfl, hw₂⟩

theorem drop_ends (h : Rep w abs) (hl : abs[l]? = some xs) {count : ℤ} (hcount : 0 ≤ count) :
    Ends (drop l count) w
      (fun a w' => a = abs.length ∧ Rep w' (abs ++ [xs.drop count.toNat])) E := by
  have hlimit := h.length_le hl
  obtain ⟨f, hf, hlen, -⟩ := h.fields hl
  have hstart : min count f.len = (min count.toNat xs.length : ℕ) := by omega
  unfold drop
  refine .bind (.of_eq (require_ok hcount) ?_)
  refine .bind (.of_eq (fields_ok hf) ?_)
  dsimp only
  rw [hstart, hlen]
  unfold limit at hlimit
  refine .bind (.of_eq (sub_ok ⟨by omega, by omega⟩ ⟨by omega, by omega⟩) ?_)
  rw [← Nat.cast_sub (by omega)]
  refine (slice_ends (n := xs.length) h hl _ (fun u zs hu => size_ok hu (get_append hl)) (by omega)
    le_rfl le_rfl (by unfold limit; omega)).mono (fun a w' h' => ?_) fun _ _ h => h
  obtain ⟨ha, hw', -⟩ := h'
  refine ⟨ha, ?_⟩
  rw [List.take_length] at hw'
  rcases Nat.le_total count.toNat xs.length with hle | hge
  · rwa [Nat.min_eq_left hle] at hw'
  · rwa [Nat.min_eq_right hge, List.drop_length, ← List.drop_eq_nil_of_le hge] at hw'

theorem take_ends (h : Rep w abs) (hl : abs[l]? = some xs) {count : ℤ} (hcount : 0 ≤ count) :
    Ends (take l count) w
      (fun a w' => a = abs.length ∧ Rep w' (abs ++ [xs.take count.toNat])) E := by
  have hlimit := h.length_le hl
  obtain ⟨f, hf, hlen, -⟩ := h.fields hl
  have hstart : min count f.len = (min count.toNat xs.length : ℕ) := by omega
  unfold take
  refine .bind (.of_eq (require_ok hcount) ?_)
  refine .bind (.of_eq (fields_ok hf) ?_)
  dsimp only
  rw [hstart]
  refine (slice_ends (k := 0) h hl (pure _) (fun u zs hu => rfl) (Nat.zero_le _)
    (Nat.min_le_right _ _) le_rfl ((Nat.min_le_right _ _).trans hlimit)).mono
    (fun a w' h' => ?_) fun _ _ h => h
  obtain ⟨ha, hw', -⟩ := h'
  rw [List.drop_zero, ← List.take_eq_take_min] at hw'
  exact ⟨ha, hw'⟩

/-- The count of elements that are left, in the place of a count from the end. -/
theorem max_sub_toNat {len : ℕ} {count : ℤ} (hcount : 0 ≤ count) :
    (max 0 ((len : ℤ) - count)).toNat = len - count.toNat := by omega

theorem dropLast_ends (h : Rep w abs) (hl : abs[l]? = some xs) {count : ℤ} (hcount : 0 ≤ count)
    (hfits : Fits count) : Ends (dropLast l count) w (fun a w' => a = abs.length ∧
      Rep w' (abs ++ [xs.take (xs.length - count.toNat)])) E := by
  have hlimit := h.length_le hl
  obtain ⟨f, hf, hlen, -⟩ := h.fields hl
  have hmax := hfits.2
  unfold limit at hlimit
  unfold dropLast
  refine .bind (.of_eq (require_ok hcount) (.bind (.of_eq (fields_ok hf) ?_)))
  rw [hlen]
  refine .bind (.of_eq (sub_of_fits ⟨by omega, by omega⟩ hfits ⟨by omega, by omega⟩) ?_)
  rw [← max_sub_toNat hcount]
  exact take_ends h hl (le_max_left _ _)

theorem takeLast_ends (h : Rep w abs) (hl : abs[l]? = some xs) {count : ℤ} (hcount : 0 ≤ count)
    (hfits : Fits count) : Ends (takeLast l count) w (fun a w' => a = abs.length ∧
      Rep w' (abs ++ [xs.drop (xs.length - count.toNat)])) E := by
  have hlimit := h.length_le hl
  obtain ⟨f, hf, hlen, -⟩ := h.fields hl
  have hmax := hfits.2
  unfold limit at hlimit
  unfold takeLast
  refine .bind (.of_eq (require_ok hcount) (.bind (.of_eq (fields_ok hf) ?_)))
  rw [hlen]
  refine .bind (.of_eq (sub_of_fits ⟨by omega, by omega⟩ hfits ⟨by omega, by omega⟩) ?_)
  rw [← max_sub_toNat hcount]
  exact drop_ends h hl (le_max_left _ _)

/-! ## Copies -/

theorem append_ends {other : ℕ} (h : Rep w abs) (hl : abs[l]? = some xs)
    (ho : abs[other]? = some ys) :
    Ends (append l other) w (fun a w' => a = abs.length ∧ Rep w' (abs ++ [xs ++ ys]))
      fun e w' => e = .raised "array capacity out of range" ∧ w' = w := by
  have hlimit := h.length_le hl
  have hlimit' := h.length_le ho
  obtain ⟨f, hf, hlen, -⟩ := h.fields hl
  unfold limit at hlimit hlimit'
  unfold append
  refine .bind (.of_eq (fields_ok hf) (.bind (.of_eq (size_ok h ho) ?_)))
  rw [hlen]
  refine .bind (.of_eq (add_ok ⟨by omega, by omega⟩ ⟨by omega, by omega⟩) ?_)
  rw [← Nat.cast_add]
  by_cases hsum : xs.length + ys.length ≤ limit
  · obtain ⟨w₁, hnew, hw₁, hroom₁⟩ := listWithCapacity_ok h hsum
    refine .bind (.of_eq hnew ?_)
    refine .seq (pushFrom_ends (k := 0) hw₁ hl (fun u zs hu => size_ok hu (get_append hl))
      (Nat.zero_le _) le_rfl hroom₁ (by rw [List.length_nil]; omega)) (fun _ w₂ hw₂ => ?_)
      fun _ _ h => h
    obtain ⟨hw₂, hroom₂⟩ := hw₂
    rw [List.nil_append, List.take_length, List.drop_zero] at hw₂
    refine .seq (pushFrom_ends (k := 0) hw₂ ho (fun u zs hu => size_ok hu (get_append ho))
      (Nat.zero_le _) le_rfl hroom₂ (by omega)) (fun _ w₃ hw₃ => ?_) fun _ _ h => h
    obtain ⟨hw₃, -⟩ := hw₃
    rw [List.take_length, List.drop_zero] at hw₃
    exact .pure ⟨rfl, hw₃⟩
  · unfold Ends
    unfold limit at hsum
    rw [bind_error (listWithCapacity_error (by omega))]
    exact ⟨rfl, rfl⟩

theorem reversed_ends (h : Rep w abs) (hl : abs[l]? = some xs) :
    Ends (reversed l) w (fun a w' => a = abs.length ∧ Rep w' (abs ++ [xs.reverse])) E := by
  have hlimit := h.length_le hl
  obtain ⟨f, hf, hlen, -⟩ := h.fields hl
  obtain ⟨w₁, hnew, hw₁, hroom₁⟩ := listWithCapacity_ok h hlimit
  obtain ⟨f₁, hf₁, hlen₁, -⟩ := hw₁.fields (get_append hl)
  unfold limit at hlimit
  unfold reversed
  rw [← hlen] at hnew
  refine .bind (.of_eq (fields_ok hf) (.bind (.of_eq hnew (.bind (.of_eq (fields_ok hf₁) ?_)))))
  refine .bind (.of_eq (sub_ok ⟨by omega, by omega⟩ ⟨by omega, by omega⟩) ?_)
  rw [hlen₁]
  -- the last `n` elements have been pushed
  refine .seq (Ends.counted xs.length
    (fun n (i : ℤ) u => i = (xs.length : ℤ) - 1 - n ∧ Rep u (abs ++ [xs.reverse.take n]) ∧
      Room u abs.length xs.length) ?_ ?_ ?_ ?_) (fun i u hu => ?_) fun _ _ h => h
  · rintro n i u hn ⟨rfl, -⟩
    exact return_decide (by omega)
  · rintro n i u hn ⟨rfl, hu, hroom⟩
    rw [show (xs.length : ℤ) - 1 - n = (xs.length - 1 - n : ℕ) by omega]
    refine .bind (.of_eq (get_ok hu (get_append hl) (k := xs.length - 1 - n) (by omega)) ?_)
    have hn' : n < xs.reverse.length := by rw [List.length_reverse]; exact hn
    obtain ⟨u', hpush, hu', hroom'⟩ := push_room (v := xs[xs.length - 1 - n]) hu
      List.getElem?_concat_length hroom (by rw [List.length_take_of_le hn'.le]; exact hn)
    refine .bind (.of_eq hpush ?_)
    refine .of_eq (sub_ok ⟨by omega, by omega⟩ ⟨by omega, by omega⟩) ⟨by omega, ?_, hroom'⟩
    rw [set_append, ← List.getElem_reverse hn', List.take_concat_get' _ _ hn'] at hu'
    exact hu'
  · exact ⟨by omega, hw₁, hroom₁⟩
  · unfold turns
    omega
  · obtain ⟨-, hu, -⟩ := hu
    rw [← List.length_reverse, List.take_length] at hu
    exact .pure ⟨rfl, hu⟩

/-! ## Distinct elements -/

theorem eraseDupsBy_append {α : Type} (r : α → α → Bool) (as : List α) (a : α) :
    (as ++ [a]).eraseDupsBy r =
      if (as.eraseDupsBy r).any (r a) then as.eraseDupsBy r else as.eraseDupsBy r ++ [a] := by
  suffices h : ∀ bs, List.eraseDupsBy.loop r (as ++ [a]) bs =
      if (List.eraseDupsBy.loop r as bs).any (r a) then List.eraseDupsBy.loop r as bs
      else List.eraseDupsBy.loop r as bs ++ [a] from h []
  induction as with
  | nil =>
    intro bs
    rw [List.nil_append, List.eraseDupsBy.loop, List.eraseDupsBy.loop, List.any_reverse]
    cases bs.any (r a) with
    | true => rfl
    | false => exact List.reverse_cons
  | cons b as ih =>
    intro bs
    rw [List.cons_append, List.eraseDupsBy.loop, List.eraseDupsBy.loop]
    cases bs.any (r b) with
    | true => exact ih bs
    | false => exact ih (b :: bs)

variable {equal : Value T → Value T → Bool}

/-- The search for an element among those of another list. -/
theorem seen_ends (h : Rep w abs) (hl : abs[l]? = some ys) :
    Ends (loop (fun (_, j) => return j < (← size l)) (fun (seen, j) => do
      let seen := if equal (← get l j) v then true else seen
      return (seen, ← add j 1)) (false, (0 : ℤ))) w
      (fun p w' => w' = w ∧ p.1 = ys.any fun kept => equal kept v) E := by
  have hlimit := h.length_le hl
  unfold limit at hlimit
  refine (Ends.counted ys.length
    (fun m (p : Bool × ℤ) u => u = w ∧ p.2 = m ∧ p.1 = (ys.take m).any fun kept => equal kept v)
    ?_ ?_ ?_ ?_).mono (fun p w' hp => ?_) fun _ _ h => h
  · rintro m ⟨seen, j⟩ u hm ⟨rfl, rfl, -⟩
    change (size l >>= _) u = _
    rw [bind_ok (size_ok h hl)]
    exact return_decide Nat.cast_lt
  · rintro m ⟨seen, j⟩ u hm ⟨rfl, rfl, rfl⟩
    refine .bind (.of_eq (get_ok h hl hm) ?_)
    refine .bind (.of_eq (add_ok ⟨by omega, by omega⟩ ⟨by omega, by omega⟩) (.pure ?_))
    refine ⟨rfl, rfl, ?_⟩
    rw [← List.take_concat_get' ys m hm, List.any_append, List.any_cons, List.any_nil,
      Bool.or_false]
    cases equal ys[m] v with
    | true => rw [Bool.or_true, if_pos rfl]
    | false => rw [Bool.or_false, if_neg (by decide)]
  · exact ⟨rfl, rfl, rfl⟩
  · unfold turns
    omega
  · obtain ⟨rfl, -, hseen⟩ := hp
    rw [List.take_length] at hseen
    exact ⟨rfl, hseen⟩

/-- Some new lists may be left behind when there is no room for the result. -/
def Overflow (abs : List (List (Value T))) (e : Stop) (w : World T) : Prop :=
  e = .raised "list capacity overflow" ∧ ∃ new, Rep w (abs ++ new)

theorem distinct_ends (h : Rep w abs) (hl : abs[l]? = some xs) :
    Ends (distinct l equal) w (fun a w' => a = abs.length ∧
      Rep w' (abs ++ [xs.eraseDupsBy fun v kept => equal kept v])) (Overflow abs) := by
  have hlimit := h.length_le hl
  unfold limit at hlimit
  obtain ⟨w₁, hnew, hw₁⟩ := newList_ok h
  unfold distinct
  refine .bind (.of_eq hnew ?_)
  refine .seq (Ends.counted xs.length
    (fun n (i : ℤ) u => i = n ∧
      Rep u (abs ++ [(xs.take n).eraseDupsBy fun v kept => equal kept v])) ?_ ?_ ?_ ?_)
    (fun i u hu => ?_) fun _ _ h => h
  · rintro n i u hn ⟨rfl, hu⟩
    obtain ⟨f, hf, hlen, -⟩ := hu.fields (get_append hl)
    rw [bind_ok (fields_ok hf), hlen]
    exact return_decide Nat.cast_lt
  · rintro n i u hn ⟨rfl, hu⟩
    have hnext := eraseDupsBy_append (fun v kept => equal kept v) (xs.take n) xs[n]
    rw [List.take_concat_get' _ _ hn] at hnext
    refine .bind (.of_eq (get_ok hu (get_append hl) hn) ?_)
    refine .seq (seen_ends (v := xs[n]) hu List.getElem?_concat_length) (fun p u' hp => ?_)
      fun _ _ h => h
    obtain ⟨seen, j⟩ := p
    obtain ⟨rfl, rfl⟩ := hp
    by_cases hseen : ((xs.take n).eraseDupsBy fun v kept => equal kept v).any
        (fun kept => equal kept xs[n]) = true
    · rw [if_pos hseen] at hnext
      change Ends (if (!_) = true then _ else _) _ _ _
      rw [if_neg (by rw [hseen]; decide)]
      refine .of_eq (add_ok ⟨by omega, by omega⟩ ⟨by omega, by omega⟩) ⟨rfl, ?_⟩
      rwa [hnext]
    · rw [if_neg hseen] at hnext
      change Ends (if (!_) = true then _ else _) _ _ _
      rw [if_pos (by rw [Bool.eq_false_iff.mpr hseen]; rfl)]
      refine .seq (push_ends hu List.getElem?_concat_length) (fun _ u₁ hu₁ => ?_) ?_
      · rw [set_append, ← hnext] at hu₁
        exact .of_eq (add_ok ⟨by omega, by omega⟩ ⟨by omega, by omega⟩) ⟨rfl, hu₁⟩
      · rintro e u' ⟨rfl, rfl⟩
        exact ⟨rfl, _, hu⟩
  · exact ⟨rfl, hw₁⟩
  · unfold turns
    omega
  · obtain ⟨-, hu⟩ := hu
    rw [List.take_length] at hu
    exact .pure ⟨rfl, hu⟩

end Loxis.Stdlib.Lists

/-! ## Chunks

The list of the chunks comes first and the chunks after it, in their order. The last chunk may
be shorter.
-/

namespace Loxis.Stdlib.Lists

open Loxis.Backend (Fits)

variable {T : Type} {w : World T} {abs : List (List (Value T))} {l : ℕ}
  {xs : List (Value T)} {n s : ℕ}

/-- The pieces of this length, one after the other. -/
def chunk (s : ℕ) (xs : List (Value T)) (j : ℕ) : List (Value T) := (xs.drop (j * s)).take s

/-- The first `n` chunks, behind the list of their addresses. -/
def chunkLists (s : ℕ) (xs : List (Value T)) (address n : ℕ) : List (List (Value T)) :=
  ((List.range n).map fun j => .list (address + 1 + j)) :: (List.range n).map (chunk s xs)

/-- The number of chunks. -/
def chunkCount (s : ℕ) (xs : List (Value T)) : ℕ := (xs.length + (s - 1)) / s

theorem lt_chunkCount (hs : 0 < s) : n < chunkCount s xs ↔ n * s < xs.length := by
  rw [chunkCount, ← Nat.succ_le_iff, Nat.le_div_iff_mul_le hs, Nat.succ_mul]
  omega

theorem chunkLists_succ {address : ℕ} :
    ((chunkLists s xs address n ++ [chunk s xs n]).set 0
      (((List.range n).map fun j => .list (address + 1 + j)) ++ [.list (address + 1 + n)])) =
      chunkLists s xs address (n + 1) := by
  rw [chunkLists, chunkLists, List.range_succ, List.map_append, List.map_append]
  rfl

/-- The elements of a chunk are pushed to a list after all others. -/
theorem chunk_ends {before : List (List (Value T))} (h : Rep w (abs ++ before ++ [[]]))
    (hl : abs[l]? = some xs) (hlt : n * s < xs.length) {size : ℤ} (hsize : size = s)
    (hfits : Fits ((n * s : ℕ) + size)) (hfits' : Fits size) :
    Ends (loop (fun j => do
      if j < (← Lists.size l) then return j < (← add ((n * s : ℕ) : ℤ) size) else return false)
      (fun j => do
        push (abs ++ before).length (← get l j)
        add j 1) ((n * s : ℕ) : ℤ)) w
      (fun _ w' => Rep w' (abs ++ before ++ [chunk s xs n])) (Overflow abs) := by
  have hl' {zs : List (Value T)} : (abs ++ before ++ [zs])[l]? = some xs := by
    refine get_append ?_
    rw [List.getElem?_append_left (List.getElem?_eq_some_iff.mp hl).1, hl]
  have hlimit := h.length_le hl'
  unfold limit at hlimit
  refine (Ends.counted (min s (xs.length - n * s))
    (fun m (j : ℤ) u => j = (n * s + m : ℕ) ∧
      Rep u (abs ++ before ++ [(xs.drop (n * s)).take m])) ?_ ?_ ?_ ?_).mono
    (fun p w' hp => ?_) fun _ _ h => h
  · rintro m j u hm ⟨rfl, hu⟩
    rw [bind_ok (size_ok hu hl')]
    by_cases hj : ((n * s + m : ℕ) : ℤ) < xs.length
    · rw [if_pos hj, bind_ok (add_of_fits ⟨by omega, by omega⟩ hfits' hfits)]
      exact return_decide (by omega)
    · rw [if_neg hj]
      exact congrArg (EStateM.Result.ok · u) (decide_eq_false (by omega)).symm
  · rintro m j u hm ⟨rfl, hu⟩
    have hlt' : n * s + m < xs.length := by omega
    refine .bind (.of_eq (get_ok hu hl' hlt') ?_)
    refine .seq (push_ends hu List.getElem?_concat_length) (fun _ u₁ hu₁ => ?_) ?_
    · rw [set_append] at hu₁
      refine .of_eq (add_ok ⟨by omega, by omega⟩ ⟨by omega, by omega⟩) ⟨rfl, ?_⟩
      have hdrop : m < (xs.drop (n * s)).length := by rw [List.length_drop]; omega
      rw [← List.take_concat_get' _ m hdrop, List.getElem_drop]
      exact hu₁
    · rintro e u' ⟨rfl, rfl⟩
      rw [List.append_assoc] at hu
      exact ⟨rfl, _, hu⟩
  · exact ⟨rfl, h⟩
  · unfold turns
    omega
  · obtain ⟨-, hw'⟩ := hp
    rwa [← List.length_drop, ← List.take_eq_take_min] at hw'

theorem chunked_ends (h : Rep w abs) (hl : abs[l]? = some xs) {size : ℤ} (hsize : 0 < size)
    (hfits : Fits size) :
    Ends (chunked l size) w (fun a w' => a = abs.length ∧
      Rep w' (abs ++ chunkLists size.toNat xs abs.length (chunkCount size.toNat xs)))
      (Overflow abs) := by
  have hlimit := h.length_le hl
  unfold limit at hlimit
  obtain ⟨s, rfl⟩ := Int.eq_ofNat_of_zero_le hsize.le
  have hs : 0 < s := by omega
  have hmax := hfits.2
  obtain ⟨w₁, hnew, hw₁⟩ := newList_ok h
  have hl' {new : List (List (Value T))} : (abs ++ new)[l]? = some xs := by
    rw [List.getElem?_append_left (List.getElem?_eq_some_iff.mp hl).1, hl]
  unfold chunked
  refine .bind (.of_eq (require_ok hsize) (.bind (.of_eq hnew ?_)))
  rw [Int.toNat_natCast]
  refine .seq (Ends.counted (chunkCount s xs)
    (fun n (i : ℤ) u => i = (n * s : ℕ) ∧ Rep u (abs ++ chunkLists s xs abs.length n)) ?_ ?_ ?_ ?_)
    (fun i u hu => ?_) fun _ _ h => h
  · rintro n i u hn ⟨rfl, hu⟩
    rw [bind_ok (size_ok hu hl')]
    refine return_decide ?_
    rw [lt_chunkCount hs, Nat.cast_lt]
  · rintro n i u hn ⟨rfl, hu⟩
    have hlt := (lt_chunkCount hs).mp hn
    have hnext : Fits ((n * s : ℕ) + (s : ℤ)) := by
      rcases Nat.eq_zero_or_pos n with rfl | hpos
      · rw [Nat.zero_mul, Nat.cast_zero, zero_add]
        exact hfits
      · have := Nat.le_mul_of_pos_left s hpos
        exact ⟨by omega, by omega⟩
    obtain ⟨u₁, hchunk, hu₁⟩ := newList_ok hu
    refine .bind (.of_eq hchunk ?_)
    refine .seq (chunk_ends hu₁ hl hlt rfl hnext hfits) (fun _ u₂ hu₂ => ?_) fun _ _ h => h
    have hlength : (abs ++ chunkLists s xs abs.length n).length = abs.length + 1 + n := by
      rw [List.length_append, chunkLists, List.length_cons, List.length_map, List.length_range]
      omega
    have hout : (abs ++ chunkLists s xs abs.length n ++ [chunk s xs n])[abs.length]? =
        some ((List.range n).map fun j => .list (abs.length + 1 + j)) := by
      rw [List.append_assoc, List.getElem?_append_right le_rfl, Nat.sub_self]
      rfl
    refine .seq (push_ends hu₂ hout) (fun _ u₃ hu₃ => ?_) ?_
    · rw [hlength, List.append_assoc, List.set_append_right _ _ le_rfl, Nat.sub_self,
        chunkLists_succ] at hu₃
      refine .of_eq (add_of_fits ⟨by omega, by omega⟩ hfits hnext) ⟨?_, hu₃⟩
      rw [Nat.succ_mul, Nat.cast_add]
    · rintro e u' ⟨rfl, rfl⟩
      rw [List.append_assoc] at hu₂
      exact ⟨rfl, _, hu₂⟩
  · exact ⟨by rw [Nat.zero_mul]; rfl, hw₁⟩
  · have hle : chunkCount s xs ≤ xs.length := by
      by_contra hgt
      have := (lt_chunkCount hs).mp (Nat.lt_of_not_le hgt)
      have := Nat.le_mul_of_pos_right xs.length hs
      omega
    unfold turns
    omega
  · obtain ⟨-, hu⟩ := hu
    exact .pure ⟨rfl, hu⟩

end Loxis.Stdlib.Lists
