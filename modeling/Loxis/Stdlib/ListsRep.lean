import Loxis.Stdlib.Lists

/-! # What lists represent

The cells of an array are the elements of its list, and blank behind them. Each operation on
one list is an update of its fields and of its array.
-/

namespace Loxis.Stdlib.Lists

open Loxis.Backend (Fits)

variable {T : Type} {w : World T}

/-! ## Arithmetic -/

section Arithmetic

variable {a b : ℤ}

theorem add_of_fits (ha : Fits a) (hb : Fits b) (h : Fits (a + b)) : add a b w = .ok (a + b) w := by
  rw [add, eval_add ha hb h]
  rfl

theorem add_ok (ha : -2 ^ 62 ≤ a ∧ a < 2 ^ 62) (hb : -2 ^ 62 ≤ b ∧ b < 2 ^ 62) :
    add a b w = .ok (a + b) w :=
  add_of_fits ⟨by omega, by omega⟩ ⟨by omega, by omega⟩ ⟨by omega, by omega⟩

theorem sub_of_fits (ha : Fits a) (hb : Fits b) (h : Fits (a - b)) : sub a b w = .ok (a - b) w := by
  rw [sub, eval_sub ha hb h]
  rfl

theorem sub_ok (ha : -2 ^ 62 ≤ a ∧ a < 2 ^ 62) (hb : -2 ^ 62 ≤ b ∧ b < 2 ^ 62) :
    sub a b w = .ok (a - b) w :=
  sub_of_fits ⟨by omega, by omega⟩ ⟨by omega, by omega⟩ ⟨by omega, by omega⟩

theorem mul_of_fits (ha : Fits a) (hb : Fits b) (h : Fits (a * b)) : mul a b w = .ok (a * b) w := by
  rw [mul, eval_mul ha hb h]
  rfl

theorem require_ok {p : Prop} [Decidable p] {message : String} (h : p) :
    require p message w = .ok () w := by
  rw [require, if_pos h]
  rfl

theorem require_error {p : Prop} [Decidable p] {message : String} (h : ¬ p) :
    require p message w = .error (.raised message) w := by
  rw [require, if_neg h]
  rfl

end Arithmetic

/-! ## Arrays -/

/-- The largest array. -/
def limit : ℕ := 477218586

/-- The block with an element in it. -/
def Block.store (b : Block T) (k : ℕ) (value : Value T) : Block T :=
  { b with cells := Function.update b.cells (k + 1) value }

/-- An array of the capacity with the elements. What lies behind them is blank. -/
structure Block.Stores (b : Block T) (cap : ℕ) (xs : List (Value T)) : Prop where
  size : b.size = 9 + 9 * cap
  le : xs.length ≤ cap
  bounded : cap ≤ limit
  elems : ∀ k (h : k < xs.length), b.cells (k + 1) = xs[k]
  blank : ∀ k, xs.length ≤ k → k < cap → b.cells (k + 1) = .null ∨ b.cells (k + 1) = .int 0

section Array

variable {arr cap k : ℕ} {b : Block T} {xs : List (Value T)} {v : Value T}

theorem Block.store_self : (b.store k v).cells (k + 1) = v := Function.update_self ..

theorem Block.store_of_ne {j : ℕ} (h : j ≠ k) : (b.store k v).cells (j + 1) = b.cells (j + 1) :=
  Function.update_of_ne (by omega) ..

theorem Block.Stores.store (h : b.Stores cap xs) (hk : k < xs.length) :
    (b.store k v).Stores cap (xs.set k v) where
  size := h.size
  le := by rw [List.length_set]; exact h.le
  bounded := h.bounded
  elems j hj := by
    rw [List.length_set] at hj
    rw [List.getElem_set]
    split
    · next heq => rw [heq, Block.store_self]
    · next hne => rw [Block.store_of_ne (Ne.symm hne), h.elems j hj]
  blank j hj hcap := by
    rw [List.length_set] at hj
    rw [Block.store_of_ne (by omega)]
    exact h.blank j hj hcap

theorem Block.Stores.append (h : b.Stores cap xs) (hlen : xs.length < cap) :
    (b.store xs.length v).Stores cap (xs ++ [v]) where
  size := h.size
  le := by rw [List.length_append, List.length_singleton]; exact hlen
  bounded := h.bounded
  elems j hj := by
    rw [List.length_append, List.length_singleton] at hj
    rcases Nat.lt_succ_iff_lt_or_eq.mp hj with hlt | rfl
    · rw [Block.store_of_ne (by omega), List.getElem_append_left hlt, h.elems j hlt]
    · rw [Block.store_self, List.getElem_concat_length rfl]
  blank j hj hcap := by
    rw [List.length_append, List.length_singleton] at hj
    rw [Block.store_of_ne (by omega)]
    exact h.blank j (by omega) hcap

theorem Block.Stores.erase (h : b.Stores cap (xs ++ [v])) :
    (b.store xs.length .null).Stores cap xs where
  size := h.size
  le := by have := h.le; rw [List.length_append] at this; omega
  bounded := h.bounded
  elems j hj := by
    rw [Block.store_of_ne (by omega), h.elems j (by rw [List.length_append]; omega),
      List.getElem_append_left hj]
  blank j hj hcap := by
    rcases Nat.lt_or_eq_of_le hj with hlt | rfl
    · rw [Block.store_of_ne (by omega)]
      exact h.blank j (by rw [List.length_append, List.length_singleton]; omega) hcap
    · exact .inl Block.store_self

/-- Elements that have been erased need not be counted. -/
theorem Block.Stores.nil (h : b.Stores cap xs) (hx : ∀ x ∈ xs, x = .null) : b.Stores cap [] where
  size := h.size
  le := Nat.zero_le _
  bounded := h.bounded
  elems _ h := absurd h (Nat.not_lt_zero _)
  blank k _ hcap := by
    rcases Nat.lt_or_ge k xs.length with hlt | hge
    · exact .inl ((h.elems k hlt).trans (hx _ (List.getElem_mem hlt)))
    · exact h.blank k hge hcap

theorem offset_ok (hk : k < limit) :
    ((do add 9 (← mul k 9) : Call T ℤ) w) = .ok (9 + k * 9) w := by
  unfold limit at hk
  rw [bind_ok (mul_of_fits ⟨by omega, by omega⟩ ⟨by omega, by omega⟩ ⟨by omega, by omega⟩),
    add_ok ⟨by omega, by omega⟩ ⟨by omega, by omega⟩]

theorem cell_ok (hsize : b.size = 9 + 9 * cap) (hk : k < cap) (hcap : cap ≤ limit) :
    cell b (9 + k * 9) w = .ok (k + 1) w := by
  unfold limit at hcap
  have hoff : ((9 + k * 9 : ℤ) % 2 ^ 32).toNat = 9 * (k + 1) := by
    rw [Int.emod_eq_of_lt (by omega) (by omega)]
    omega
  rw [cell, hoff, if_pos ⟨by omega, Nat.mul_mod_right 9 _⟩, Nat.mul_div_cancel_left _ (by decide)]
  rfl

theorem block_ok (h : w.memory[arr]? = some (some b)) : block arr w = .ok b w := by
  rw [block, h]

theorem hread_ok (hm : w.memory[arr]? = some (some b)) (hsize : b.size = 9 + 9 * cap)
    (hk : k < cap) (hcap : cap ≤ limit) : hread arr (9 + k * 9) w = .ok (b.cells (k + 1)) w := by
  rw [hread, bind_ok (block_ok hm), bind_ok (cell_ok hsize hk hcap)]
  rfl

/-- The world with an element in an array. -/
def World.store (w : World T) (arr : ℕ) (b : Block T) (k : ℕ) (v : Value T) : World T :=
  { w with memory := w.memory.set arr (some (b.store k v)) }

theorem hset_ok (hm : w.memory[arr]? = some (some b)) (hsize : b.size = 9 + 9 * cap)
    (hk : k < cap) (hcap : cap ≤ limit) : hset arr (9 + k * 9) v w = .ok () (w.store arr b k v) := by
  rw [hset, bind_ok (block_ok hm), bind_ok (cell_ok hsize hk hcap)]
  rfl

theorem arrayGet_ok (hm : w.memory[arr]? = some (some b)) (hsize : b.size = 9 + 9 * cap)
    (hk : k < cap) (hcap : cap ≤ limit) : arrayGet arr k w = .ok (b.cells (k + 1)) w := by
  have h := bind_ok (f := fun off => hread arr off) (offset_ok (w := w) (hk.trans_le hcap))
  rw [bind_assoc] at h
  rw [arrayGet, h, hread_ok hm hsize hk hcap]

theorem arraySet_ok (hm : w.memory[arr]? = some (some b)) (hsize : b.size = 9 + 9 * cap)
    (hk : k < cap) (hcap : cap ≤ limit) : arraySet arr k v w = .ok () (w.store arr b k v) := by
  have h := bind_ok (f := fun off => hset arr off v) (offset_ok (w := w) (hk.trans_le hcap))
  rw [bind_assoc] at h
  rw [arraySet, h, hset_ok hm hsize hk hcap]

/-- A new array, which holds its capacity in front. -/
def Block.ofSize (cap : ℕ) : Block T :=
  ⟨9 + 9 * cap, Function.update (fun _ => .int 0) 0 (.int cap)⟩

theorem Block.ofSize_stores (h : cap ≤ limit) : (Block.ofSize cap : Block T).Stores cap [] where
  size := rfl
  le := Nat.zero_le cap
  bounded := h
  elems _ h := absurd h (Nat.not_lt_zero _)
  blank k _ _ := by
    right
    change Function.update (fun _ => Value.int 0) 0 (Value.int cap) (k + 1) = _
    rw [Function.update_of_ne (Nat.succ_ne_zero k)]

theorem arrayNew_ok (h : cap ≤ limit) : arrayNew cap w =
    .ok w.memory.length { w with memory := w.memory ++ [some (Block.ofSize cap)] } := by
  unfold limit at h
  rw [arrayNew, bind_ok (require_ok ⟨by omega, by omega⟩),
    bind_ok (mul_of_fits ⟨by omega, by omega⟩ ⟨by omega, by omega⟩ ⟨by omega, by omega⟩),
    bind_ok (add_ok ⟨by omega, by omega⟩ ⟨by omega, by omega⟩)]
  have hsize : ((9 + cap * 9 : ℤ) % 2 ^ 32).toNat = 9 + 9 * cap := by
    rw [Int.emod_eq_of_lt (by omega) (by omega)]
    omega
  let fresh : Block T := ⟨9 + 9 * cap, fun _ => .int 0⟩
  have halloc_eq : halloc (9 + cap * 9) w =
      .ok w.memory.length { w with memory := w.memory ++ [some fresh] } := by rw [halloc, hsize]
  have hcell {u : World T} : cell fresh 0 u = .ok 0 u := by
    rw [cell, if_pos ⟨Nat.le_add_right 9 _, rfl⟩]
    rfl
  rw [bind_ok halloc_eq]
  have hset_eq : hset w.memory.length 0 (.int cap) { w with memory := w.memory ++ [some fresh] } =
      .ok () { w with memory := w.memory ++ [some (Block.ofSize cap)] } := by
    rw [hset, bind_ok (block_ok List.getElem?_concat_length), bind_ok hcell]
    change EStateM.Result.ok () { w with memory := _ } = _
    rw [List.set_append_right _ _ le_rfl, Nat.sub_self]
    rfl
  rw [bind_ok hset_eq]
  rfl

theorem arrayNew_error {n : ℤ} (h : ¬ (n ≥ 0 ∧ n ≤ 477218586)) :
    arrayNew n w = .error (.raised "array capacity out of range") w := by
  rw [arrayNew, bind_error (require_error h)]

end Array

/-! ## Lists of the world -/

/-- The list of these fields has these elements. -/
structure Holds (memory : List (Option (Block T))) (f : Fields) (xs : List (Value T)) : Prop where
  len : f.len = xs.length
  array : ∃ (cap : ℕ) (b : Block T), f.cap = cap ∧ memory[f.buffer]? = some (some b) ∧
    b.Stores cap xs

/-- The lists by their addresses. No two of them have one array. -/
structure Rep (w : World T) (abs : List (List (Value T))) : Prop where
  length : w.lists.length = abs.length
  holds : ∀ (l : ℕ) f xs, w.lists[l]? = some f → abs[l]? = some xs → Holds w.memory f xs
  apart : ∀ (l l' : ℕ) f f', w.lists[l]? = some f → w.lists[l']? = some f' → l ≠ l' →
    f.buffer ≠ f'.buffer

section Rep

variable {abs : List (List (Value T))} {l : ℕ} {f g : Fields} {xs ys : List (Value T)}
  {memory : List (Option (Block T))}

theorem Rep.new : Rep (World.new : World T) [] where
  length := rfl
  holds _ _ _ h := nomatch h
  apart _ _ _ _ h := nomatch h

theorem Rep.fields (h : Rep w abs) (hl : abs[l]? = some xs) :
    ∃ f, w.lists[l]? = some f ∧ Holds w.memory f xs := by
  have hlt : l < w.lists.length := by
    rw [h.length]
    exact (List.getElem?_eq_some_iff.mp hl).1
  exact ⟨_, List.getElem?_eq_getElem hlt, h.holds _ _ _ (List.getElem?_eq_getElem hlt) hl⟩

/-- The arrays of other lists stay when one list gets other fields or another array. -/
theorem Rep.update (h : Rep w abs) (hf : w.lists[l]? = some f) (hg : Holds memory g ys)
    (hframe : ∀ (base : ℕ) b, base ≠ f.buffer → w.memory[base]? = some (some b) →
      memory[base]? = some (some b))
    (hbuffer : g.buffer = f.buffer ∨ w.memory.length ≤ g.buffer) :
    Rep { memory := memory, lists := w.lists.set l g } (abs.set l ys) := by
  have hlt : l < w.lists.length := (List.getElem?_eq_some_iff.mp hf).1
  -- the other lists keep their arrays, which are not that of this list
  have hother {l' : ℕ} {f' : Fields} (hne : l ≠ l') (hf' : w.lists[l']? = some f') :
      ∃ xs cap b, f'.len = xs.length ∧ abs[l']? = some xs ∧ f'.cap = (cap : ℕ) ∧
        w.memory[f'.buffer]? = some (some b) ∧ f'.buffer ≠ f.buffer ∧ b.Stores cap xs := by
    have hlt' : l' < abs.length := by
      rw [← h.length]
      exact (List.getElem?_eq_some_iff.mp hf').1
    obtain ⟨hlen, cap, b, hcap, hm, hb⟩ :=
      h.holds _ _ _ hf' (List.getElem?_eq_getElem hlt')
    exact ⟨_, cap, b, hlen, List.getElem?_eq_getElem hlt', hcap, hm,
      Ne.symm (h.apart _ _ _ _ hf hf' hne), hb⟩
  have hbuffers {l' : ℕ} {f' : Fields} (hne : l ≠ l') (hf' : w.lists[l']? = some f') :
      g.buffer ≠ f'.buffer := by
    obtain ⟨xs, cap, b, -, -, -, hm, hne', -⟩ := hother hne hf'
    rcases hbuffer with heq | hle
    · rw [heq]
      exact Ne.symm hne'
    · have := (List.getElem?_eq_some_iff.mp hm).1
      omega
  constructor
  · rw [List.length_set, List.length_set, h.length]
  · intro l' f' xs' hf' hxs'
    by_cases hne : l = l'
    · subst hne
      rw [List.getElem?_set_self hlt] at hf'
      rw [List.getElem?_set_self (by rw [← h.length]; exact hlt)] at hxs'
      cases hf'
      cases hxs'
      exact hg
    · rw [List.getElem?_set_ne hne] at hf' hxs'
      obtain ⟨xs, cap, b, hlen, hxs, hcap, hm, hne', hb⟩ := hother hne hf'
      rw [hxs] at hxs'
      cases hxs'
      exact ⟨hlen, cap, b, hcap, hframe _ _ hne' hm, hb⟩
  · intro l₁ l₂ f₁ f₂ h₁ h₂ hne
    by_cases hl₁ : l = l₁
    · subst hl₁
      rw [List.getElem?_set_self hlt] at h₁
      rw [List.getElem?_set_ne hne] at h₂
      cases h₁
      exact hbuffers hne h₂
    · rw [List.getElem?_set_ne hl₁] at h₁
      by_cases hl₂ : l = l₂
      · subst hl₂
        rw [List.getElem?_set_self hlt] at h₂
        cases h₂
        exact Ne.symm (hbuffers hl₁ h₁)
      · rw [List.getElem?_set_ne hl₂] at h₂
        exact h.apart _ _ _ _ h₁ h₂ hne

/-- A list with an array of its own comes to the others. -/
theorem Rep.append (h : Rep w abs) (hg : Holds memory g ys)
    (hframe : ∀ (base : ℕ) b, w.memory[base]? = some (some b) → memory[base]? = some (some b))
    (hbuffer : w.memory.length ≤ g.buffer) :
    Rep { memory := memory, lists := w.lists ++ [g] } (abs ++ [ys]) := by
  have hold {l : ℕ} {f : Fields} (hf : w.lists[l]? = some f) :
      ∃ xs, abs[l]? = some xs ∧ Holds w.memory f xs := by
    have hlt : l < abs.length := by
      rw [← h.length]
      exact (List.getElem?_eq_some_iff.mp hf).1
    exact ⟨_, List.getElem?_eq_getElem hlt, h.holds _ _ _ hf (List.getElem?_eq_getElem hlt)⟩
  have hlt {l : ℕ} {f : Fields} (hf : w.lists[l]? = some f) : f.buffer < g.buffer := by
    obtain ⟨xs, -, -, cap, b, -, hm, -⟩ := hold hf
    exact (List.getElem?_eq_some_iff.mp hm).1.trans_le hbuffer
  -- a list of the extended world is an earlier one or the last
  have hcases {l : ℕ} {f : Fields} (hf : (w.lists ++ [g])[l]? = some f) :
      w.lists[l]? = some f ∨ l = w.lists.length ∧ f = g := by
    rw [List.getElem?_append] at hf
    split at hf
    · exact .inl hf
    · next hge =>
      have hzero : l - w.lists.length = 0 := by
        have := (List.getElem?_eq_some_iff.mp hf).1
        rw [List.length_singleton] at this
        omega
      rw [hzero] at hf
      exact .inr ⟨by omega, (Option.some.inj hf).symm⟩
  constructor
  · rw [List.length_append, List.length_append, h.length]
    rfl
  · intro l f xs hf hxs
    rcases hcases hf with hf | ⟨rfl, rfl⟩
    · obtain ⟨xs', hxs', hlen, cap, b, hcap, hm, hb⟩ := hold hf
      rw [List.getElem?_append_left (List.getElem?_eq_some_iff.mp hxs').1, hxs'] at hxs
      cases hxs
      exact ⟨hlen, cap, b, hcap, hframe _ _ hm, hb⟩
    · rw [h.length, List.getElem?_concat_length] at hxs
      cases hxs
      exact hg
  · intro l l' f f' hf hf' hne
    rcases hcases hf with hf₀ | ⟨rfl, rfl⟩
    · rcases hcases hf' with hf₁ | ⟨rfl, rfl⟩
      · exact h.apart _ _ _ _ hf₀ hf₁ hne
      · exact (hlt hf₀).ne
    · rcases hcases hf' with hf₁ | ⟨rfl, rfl⟩
      · exact (hlt hf₁).ne'
      · exact absurd rfl hne

end Rep

end Loxis.Stdlib.Lists
