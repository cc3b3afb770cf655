import Loxis.Stdlib.ListsNew
import Loxis.Stdlib.ListsSort

/-! # Lists as sequences

Calls of the methods in any order, on any of the lists that they have returned, do what the
operations on sequences do.
-/

namespace Loxis.Stdlib.Lists

open Loxis.Backend (Fits)

/-- The numbers of the machine. -/
abbrev Number := { n : ℤ // Fits n }

/-- The calls; lists are named by their addresses. -/
inductive Op (T : Type)
  | new
  | withCapacity (capacity : Number)
  | size (l : ℕ)
  | get (l : ℕ) (index : Number)
  | set (l : ℕ) (index : Number) (value : Value T)
  | push (l : ℕ) (value : Value T)
  | insert (l : ℕ) (index : Number) (value : Value T)
  | removeAt (l : ℕ) (index : Number)
  | pop (l : ℕ)
  | clear (l : ℕ)
  | reverse (l : ℕ)
  | sortBy (l : ℕ) (before : Value T → Value T → Bool)
  | take (l : ℕ) (count : Number)
  | drop (l : ℕ) (count : Number)
  | takeLast (l : ℕ) (count : Number)
  | dropLast (l : ℕ) (count : Number)
  | append (l other : ℕ)
  | reversed (l : ℕ)
  | distinct (l : ℕ)
  | chunked (l : ℕ) (size : Number)

inductive Reply (T : Type)
  | unit
  | number (n : ℤ)
  | value (v : Value T)
  | optional (v : Option (Value T))
  | list (address : ℕ)

variable {T : Type} (equal : Value T → Value T → Bool)

/-- A method of a list that exists. -/
def method {α : Type} (l : ℕ) (reply : α → Reply T) (body : Call T α) : Call T (Reply T) := do
  let _ ← fields l
  return reply (← body)

def Op.call : Op T → Call T (Reply T)
  | new => return .list (← newList)
  | withCapacity c => return .list (← listWithCapacity c)
  | size l => method l .number (Lists.size l)
  | get l i => method l .value (Lists.get l i)
  | set l i v => method l (fun _ => .unit) (Lists.set l i v)
  | push l v => method l (fun _ => .unit) (Lists.push l v)
  | insert l i v => method l (fun _ => .unit) (Lists.insert l i v)
  | removeAt l i => method l .value (Lists.removeAt l i)
  | pop l => method l .optional (Lists.pop l)
  | clear l => method l (fun _ => .unit) (Lists.clear l)
  | reverse l => method l (fun _ => .unit) (Lists.reverse l)
  | sortBy l before => method l (fun _ => .unit) (Lists.sortBy l before)
  | take l n => method l .list (Lists.take l n)
  | drop l n => method l .list (Lists.drop l n)
  | takeLast l n => method l .list (Lists.takeLast l n)
  | dropLast l n => method l .list (Lists.dropLast l n)
  | append l other => do
    let _ ← fields other
    method l .list (Lists.append l other)
  | reversed l => method l .list (Lists.reversed l)
  | distinct l => method l .list (Lists.distinct l equal)
  | chunked l s => method l .list (Lists.chunked l s)

/-! ## Operations on sequences -/

section Sequences

variable (abs : List (List (Value T))) (o : Except Stop (Reply T)) (abs' : List (List (Value T)))

/-- The call raises an exception and changes nothing. -/
def Raises (message : String) : Prop := o = .error (.raised message) ∧ abs' = abs

/-- A result for which there is no room; new lists may have been made in vain. -/
def Overflows : Prop := o = .error (.raised "list capacity overflow") ∧ abs <+: abs'

/-- The call returns the address of a new list with these elements. -/
def Creates (ys : List (Value T)) : Prop := o = .ok (.list abs.length) ∧ abs' = abs ++ [ys]

/-- The call leaves the list with these elements. -/
def Updates (l : ℕ) (reply : Reply T) (ys : List (Value T)) : Prop :=
  o = .ok reply ∧ abs' = abs.set l ys

/-- What is asked of a call on a list, by its elements. -/
def OnList (l : ℕ) (P : List (Value T) → Prop) : Prop :=
  match abs[l]? with
  | some xs => P xs
  | none => o = .error .missing ∧ abs' = abs

/-- What a call does to the sequences. -/
def Op.Step : Op T → Prop
  | new => Creates abs o abs' []
  | withCapacity c =>
    if 0 ≤ c.val ∧ c.val ≤ limit then Creates abs o abs' []
    else Raises abs o abs' "array capacity out of range"
  | size l => OnList abs o abs' l fun xs => o = .ok (.number xs.length) ∧ abs' = abs
  | get l i => OnList abs o abs' l fun xs =>
    if 0 ≤ i.val ∧ i.val < xs.length then
      ∃ v, xs[i.val.toNat]? = some v ∧ o = .ok (.value v) ∧ abs' = abs
    else Raises abs o abs' "list index out of bounds"
  | set l i v => OnList abs o abs' l fun xs =>
    if 0 ≤ i.val ∧ i.val < xs.length then Updates abs o abs' l .unit (xs.set i.val.toNat v)
    else Raises abs o abs' "list index out of bounds"
  | push l v => OnList abs o abs' l fun xs =>
    Updates abs o abs' l .unit (xs ++ [v]) ∨ Raises abs o abs' "list capacity overflow"
  | insert l i v => OnList abs o abs' l fun xs =>
    if 0 ≤ i.val ∧ i.val ≤ xs.length then
      Updates abs o abs' l .unit (xs.insertIdx i.val.toNat v) ∨
        Raises abs o abs' "list capacity overflow"
    else Raises abs o abs' "list index out of bounds"
  | removeAt l i => OnList abs o abs' l fun xs =>
    if 0 ≤ i.val ∧ i.val < xs.length then
      ∃ v, xs[i.val.toNat]? = some v ∧ Updates abs o abs' l (.value v) (xs.eraseIdx i.val.toNat)
    else Raises abs o abs' "list index out of bounds"
  | pop l => OnList abs o abs' l fun xs => Updates abs o abs' l (.optional xs.getLast?) xs.dropLast
  | clear l => OnList abs o abs' l fun _ => Updates abs o abs' l .unit []
  | reverse l => OnList abs o abs' l fun xs => Updates abs o abs' l .unit xs.reverse
  | sortBy l before => OnList abs o abs' l fun xs => ∃ ys, Updates abs o abs' l .unit ys ∧
    ys.Perm xs ∧ (Strict before → ys.Pairwise fun x y => before y x = false)
  | take l n => OnList abs o abs' l fun xs =>
    if 0 ≤ n.val then Creates abs o abs' (xs.take n.val.toNat)
    else Raises abs o abs' "negative take count"
  | drop l n => OnList abs o abs' l fun xs =>
    if 0 ≤ n.val then Creates abs o abs' (xs.drop n.val.toNat)
    else Raises abs o abs' "negative drop count"
  | takeLast l n => OnList abs o abs' l fun xs =>
    if 0 ≤ n.val then Creates abs o abs' (xs.drop (xs.length - n.val.toNat))
    else Raises abs o abs' "negative take count"
  | dropLast l n => OnList abs o abs' l fun xs =>
    if 0 ≤ n.val then Creates abs o abs' (xs.take (xs.length - n.val.toNat))
    else Raises abs o abs' "negative drop count"
  | append l other => OnList abs o abs' other fun ys => OnList abs o abs' l fun xs =>
    Creates abs o abs' (xs ++ ys) ∨ Raises abs o abs' "array capacity out of range"
  | reversed l => OnList abs o abs' l fun xs => Creates abs o abs' xs.reverse
  | distinct l => OnList abs o abs' l fun xs =>
    Creates abs o abs' (xs.eraseDupsBy fun v kept => equal kept v) ∨ Overflows abs o abs'
  | chunked l s => OnList abs o abs' l fun xs =>
    if 0 < s.val then
      o = .ok (.list abs.length) ∧
          abs' = abs ++ chunkLists s.val.toNat xs abs.length (chunkCount s.val.toNat xs) ∨
        Overflows abs o abs'
    else Raises abs o abs' "chunk size must be positive"

end Sequences

/-! ## Refinement -/

variable {w : World T} {abs : List (List (Value T))} {l : ℕ} {xs : List (Value T)}

/-- A call that ends as asked for goes with a step. -/
def Simulates (P : Except Stop (Reply T) → List (List (Value T)) → Prop) (x : Call T (Reply T))
    (w : World T) : Prop :=
  ∃ abs', P (outcome x w).1 abs' ∧ Rep (outcome x w).2 abs'

theorem Simulates.of_ends {x : Call T (Reply T)}
    {P : Except Stop (Reply T) → List (List (Value T)) → Prop}
    (h : Ends x w (fun r w' => ∃ abs', P (.ok r) abs' ∧ Rep w' abs')
      fun e w' => ∃ abs', P (.error e) abs' ∧ Rep w' abs') : Simulates P x w := by
  unfold Simulates
  rcases h.outcome with ⟨r, w', heq, h'⟩ | ⟨e, w', heq, h'⟩
  · rwa [heq]
  · rwa [heq]

/-- A list that is named must exist. -/
theorem Simulates.onList (h : Rep w abs) {x : Call T (Reply T)}
    {P : Except Stop (Reply T) → List (List (Value T)) → List (Value T) → Prop}
    (hx : ∀ xs, abs[l]? = some xs → Simulates (fun o abs' => P o abs' xs) x w) :
    Simulates (fun o abs' => OnList abs o abs' l (P o abs')) (fields l >>= fun _ => x) w := by
  unfold Simulates outcome OnList
  cases hl : abs[l]? with
  | none =>
    have hnone : w.lists[l]? = none := by
      rw [List.getElem?_eq_none_iff, h.length]
      exact List.getElem?_eq_none_iff.mp hl
    have herror : fields l w = .error .missing w := by rw [fields, hnone]
    rw [bind_error herror]
    exact ⟨abs, ⟨rfl, rfl⟩, h⟩
  | some xs =>
    obtain ⟨f, hf, -⟩ := h.fields hl
    rw [bind_ok (fields_ok hf)]
    exact hx xs hl

theorem method_simulates {α : Type} (h : Rep w abs) {reply : α → Reply T} {body : Call T α}
    {P : Except Stop (Reply T) → List (List (Value T)) → List (Value T) → Prop}
    (hbody : ∀ xs, abs[l]? = some xs →
      Ends body w (fun a w' => ∃ abs', P (.ok (reply a)) abs' xs ∧ Rep w' abs')
        fun e w' => ∃ abs', P (.error e) abs' xs ∧ Rep w' abs') :
    Simulates (fun o abs' => OnList abs o abs' l (P o abs')) (method l reply body) w :=
  .onList h fun xs hl => .of_ends (.seq (hbody xs hl) (fun _ _ h' => .pure h') fun _ _ h' => h')

/-- Every call does to the lists what it does to sequences. -/
theorem call_simulates (h : Rep w abs) (op : Op T) :
    Simulates (fun o abs' => op.Step equal abs o abs') (op.call equal) w := by
  cases op with
  | new =>
    obtain ⟨w', hnew, hw'⟩ := newList_ok h
    exact .of_ends (.bind (.of_eq hnew (.pure ⟨_, ⟨rfl, rfl⟩, hw'⟩)))
  | withCapacity c =>
    refine .of_ends ?_
    by_cases hc : 0 ≤ c.val ∧ c.val ≤ limit
    · obtain ⟨n, hn⟩ := Int.eq_ofNat_of_zero_le hc.1
      obtain ⟨w', hnew, hw', -⟩ := listWithCapacity_ok (n := n) h (by omega)
      rw [← hn] at hnew
      refine .bind (.of_eq hnew (.pure ⟨_, ?_, hw'⟩))
      rw [Op.Step, if_pos hc]
      exact ⟨rfl, rfl⟩
    · rw [Op.call]
      unfold Ends
      rw [bind_error (listWithCapacity_error hc)]
      refine ⟨abs, ?_, h⟩
      rw [Op.Step, if_neg hc]
      exact ⟨rfl, rfl⟩
  | size l =>
    exact method_simulates h fun xs hl => .of_eq (size_ok h hl) ⟨abs, ⟨rfl, rfl⟩, h⟩
  | get l i =>
    refine method_simulates h fun xs hl => ?_
    obtain ⟨i, hi⟩ := i
    by_cases hb : 0 ≤ i ∧ i < xs.length
    · obtain ⟨k, rfl⟩ := Int.eq_ofNat_of_zero_le hb.1
      have hk : k < xs.length := by omega
      exact .of_eq (get_ok h hl hk)
        ⟨abs, (if_pos hb).mpr ⟨_, List.getElem?_eq_getElem hk, rfl, rfl⟩, h⟩
    · exact .of_eq_error (get_error h hl hb) ⟨abs, (if_neg hb).mpr ⟨rfl, rfl⟩, h⟩
  | set l i v =>
    refine method_simulates h fun xs hl => ?_
    obtain ⟨i, hi⟩ := i
    by_cases hb : 0 ≤ i ∧ i < xs.length
    · obtain ⟨k, rfl⟩ := Int.eq_ofNat_of_zero_le hb.1
      obtain ⟨w', hset, hw'⟩ := set_ok (k := k) (v := v) h hl (by omega)
      exact .of_eq hset ⟨_, (if_pos hb).mpr ⟨rfl, rfl⟩, hw'⟩
    · exact .of_eq_error (set_error h hl hb) ⟨abs, (if_neg hb).mpr ⟨rfl, rfl⟩, h⟩
  | push l v =>
    refine method_simulates h fun xs hl => ?_
    refine (push_ends h hl).mono (fun _ w' hw' => ⟨_, .inl ⟨rfl, rfl⟩, hw'⟩) ?_
    rintro e w' ⟨rfl, rfl⟩
    exact ⟨abs, .inr ⟨rfl, rfl⟩, h⟩
  | insert l i v =>
    refine method_simulates h fun xs hl => ?_
    obtain ⟨i, hi⟩ := i
    by_cases hb : 0 ≤ i ∧ i ≤ xs.length
    · obtain ⟨k, rfl⟩ := Int.eq_ofNat_of_zero_le hb.1
      refine (insert_ends (k := k) h hl (by omega)).mono
        (fun _ w' hw' => ⟨_, (if_pos hb).mpr (.inl ⟨rfl, rfl⟩), hw'⟩) ?_
      rintro e w' ⟨rfl, rfl⟩
      exact ⟨abs, (if_pos hb).mpr (.inr ⟨rfl, rfl⟩), h⟩
    · exact .of_eq_error (insert_error h hl hb) ⟨abs, (if_neg hb).mpr ⟨rfl, rfl⟩, h⟩
  | removeAt l i =>
    refine method_simulates h fun xs hl => ?_
    obtain ⟨i, hi⟩ := i
    by_cases hb : 0 ≤ i ∧ i < xs.length
    · obtain ⟨k, rfl⟩ := Int.eq_ofNat_of_zero_le hb.1
      have hk : k < xs.length := by omega
      refine (removeAt_ends h hl hk).mono ?_ fun _ _ h => h
      rintro v w' ⟨rfl, hw'⟩
      exact ⟨_, (if_pos hb).mpr ⟨_, List.getElem?_eq_getElem hk, rfl, rfl⟩, hw'⟩
    · exact .of_eq_error (removeAt_error h hl hb) ⟨abs, (if_neg hb).mpr ⟨rfl, rfl⟩, h⟩
  | pop l =>
    refine method_simulates h fun xs hl => (pop_ends h hl).mono ?_ fun _ _ h => h
    rintro a w' ⟨rfl, hw'⟩
    exact ⟨_, ⟨rfl, rfl⟩, hw'⟩
  | clear l =>
    exact method_simulates h fun xs hl => (clear_ends h hl).mono
      (fun _ w' hw' => ⟨_, ⟨rfl, rfl⟩, hw'⟩) fun _ _ h => h
  | reverse l =>
    exact method_simulates h fun xs hl => (reverse_ends h hl).mono
      (fun _ w' hw' => ⟨_, ⟨rfl, rfl⟩, hw'⟩) fun _ _ h => h
  | sortBy l before =>
    refine method_simulates h fun xs hl => (sortBy_ends h hl).mono ?_ fun _ _ h => h
    rintro _ w' ⟨ys, hw', hperm, hsorted⟩
    exact ⟨_, ⟨ys, ⟨rfl, rfl⟩, hperm, hsorted⟩, hw'⟩
  | take l n =>
    refine method_simulates h fun xs hl => ?_
    by_cases hn : 0 ≤ n.val
    · refine (take_ends h hl hn).mono ?_ fun _ _ h => h
      rintro a w' ⟨rfl, hw'⟩
      exact ⟨_, (if_pos hn).mpr ⟨rfl, rfl⟩, hw'⟩
    · exact .of_eq_error (bind_error (require_error hn)) ⟨abs, (if_neg hn).mpr ⟨rfl, rfl⟩, h⟩
  | drop l n =>
    refine method_simulates h fun xs hl => ?_
    by_cases hn : 0 ≤ n.val
    · refine (drop_ends h hl hn).mono ?_ fun _ _ h => h
      rintro a w' ⟨rfl, hw'⟩
      exact ⟨_, (if_pos hn).mpr ⟨rfl, rfl⟩, hw'⟩
    · exact .of_eq_error (bind_error (require_error hn)) ⟨abs, (if_neg hn).mpr ⟨rfl, rfl⟩, h⟩
  | takeLast l n =>
    refine method_simulates h fun xs hl => ?_
    by_cases hn : 0 ≤ n.val
    · refine (takeLast_ends h hl hn n.property).mono ?_ fun _ _ h => h
      rintro a w' ⟨rfl, hw'⟩
      exact ⟨_, (if_pos hn).mpr ⟨rfl, rfl⟩, hw'⟩
    · exact .of_eq_error (bind_error (require_error hn)) ⟨abs, (if_neg hn).mpr ⟨rfl, rfl⟩, h⟩
  | dropLast l n =>
    refine method_simulates h fun xs hl => ?_
    by_cases hn : 0 ≤ n.val
    · refine (dropLast_ends h hl hn n.property).mono ?_ fun _ _ h => h
      rintro a w' ⟨rfl, hw'⟩
      exact ⟨_, (if_pos hn).mpr ⟨rfl, rfl⟩, hw'⟩
    · exact .of_eq_error (bind_error (require_error hn)) ⟨abs, (if_neg hn).mpr ⟨rfl, rfl⟩, h⟩
  | append l other =>
    refine .onList h fun ys ho => method_simulates h fun xs hl => ?_
    refine (append_ends h hl ho).mono ?_ ?_
    · rintro a w' ⟨rfl, hw'⟩
      exact ⟨_, .inl ⟨rfl, rfl⟩, hw'⟩
    · rintro e w' ⟨rfl, rfl⟩
      exact ⟨abs, .inr ⟨rfl, rfl⟩, h⟩
  | reversed l =>
    refine method_simulates h fun xs hl => (reversed_ends h hl).mono ?_ fun _ _ h => h
    rintro a w' ⟨rfl, hw'⟩
    exact ⟨_, ⟨rfl, rfl⟩, hw'⟩
  | distinct l =>
    refine method_simulates h fun xs hl => (distinct_ends h hl).mono ?_ ?_
    · rintro a w' ⟨rfl, hw'⟩
      exact ⟨_, .inl ⟨rfl, rfl⟩, hw'⟩
    · rintro e w' ⟨rfl, new, hw'⟩
      exact ⟨_, .inr ⟨rfl, new, rfl⟩, hw'⟩
  | chunked l s =>
    refine method_simulates h fun xs hl => ?_
    by_cases hs : 0 < s.val
    · refine (chunked_ends h hl hs s.property).mono ?_ ?_
      · rintro a w' ⟨rfl, hw'⟩
        exact ⟨_, (if_pos hs).mpr (.inl ⟨rfl, rfl⟩), hw'⟩
      · rintro e w' ⟨rfl, new, hw'⟩
        exact ⟨_, (if_pos hs).mpr (.inr ⟨rfl, new, rfl⟩), hw'⟩
    · exact .of_eq_error (bind_error (require_error hs)) ⟨abs, (if_neg hs).mpr ⟨rfl, rfl⟩, h⟩

/-- Lists are sequences: whatever is called in any order does what it does to sequences, and
the arrays hold the elements and nothing behind them. -/
theorem lists_refine (ops : List (Op T)) : ∃ abs,
    Steps (fun abs op o abs' => op.Step equal abs o abs') [] ops
      (attempts (Op.call equal) ops World.new).1 abs ∧
      Rep (attempts (Op.call equal) ops World.new).2 abs := by
  refine attempts_steps (R := Rep) (fun op w abs h => ?_) ops Rep.new
  exact call_simulates equal h op

end Loxis.Stdlib.Lists
