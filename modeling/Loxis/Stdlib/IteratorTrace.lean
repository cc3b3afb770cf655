import Loxis.Stdlib.Iterator

/-! # Traces of iterators

A trace lists the effects of each call of `next` and the elements that the calls return, as an
evaluation of one element after the other has them. The stages do to traces what their classes
do to iterators.
-/

namespace Loxis.Stdlib

/-- The effects before the end and those of each later call, or the effects before an element. -/
inductive Trace (m : Type → Type) (T : Type)
  | done (effects after : List (m Unit))
  | step (effects : List (m Unit)) (x : T) (rest : Trace m T)

namespace Trace

variable {m : Type → Type} {T U A B : Type}

/-- The elements. -/
def items : Trace m T → List T
  | done _ _ => []
  | step _ x rest => x :: rest.items

/-- The effects of the next call. -/
def effects : Trace m T → List (m Unit)
  | done effects _ => effects
  | step effects _ _ => effects

/-- The result of the next call. -/
def item : Trace m T → Option T
  | done _ _ => none
  | step _ x _ => some x

/-- The trace of the later calls. -/
def tail : Trace m T → Trace m T
  | done _ after => done after after
  | step _ _ rest => rest

/-- The trace with effects before it. -/
def delay (before : List (m Unit)) : Trace m T → Trace m T
  | done effects after => done (before ++ effects) after
  | step effects x rest => step (before ++ effects) x rest

def ofList : List T → Trace m T
  | [] => done [] []
  | x :: xs => step [] x (ofList xs)

def map (value : T → U) (effect : T → m Unit) : Trace m T → Trace m U
  | done effects after => done effects after
  | step effects x rest => step (effects ++ [effect x]) (value x) (rest.map value effect)

def filter (value : T → Bool) (effect : T → m Unit) : Trace m T → Trace m T
  | done effects after => done effects after
  | step effects x rest =>
    if value x then step (effects ++ [effect x]) x (rest.filter value effect)
    else (rest.filter value effect).delay (effects ++ [effect x])

def take : ℕ → Trace m T → Trace m T
  | 0, _ => done [] []
  | _ + 1, done effects _ => done effects []
  | n + 1, step effects x rest => step effects x (rest.take n)

def drop : ℕ → Trace m T → Trace m T
  | 0, t => t
  | _ + 1, done effects after => done effects after
  | n + 1, step effects _ rest => (rest.drop n).delay effects

def zip : Trace m A → Trace m B → Trace m (A × B)
  | done effects _, _ => done effects []
  | step effects _ _, done effects' _ => done (effects ++ effects') []
  | step effects a rest, step effects' b rest' => step (effects ++ effects') (a, b) (rest.zip rest')

/-- The effects of the first calls. -/
def calls : ℕ → Trace m T → List (m Unit)
  | 0, _ => []
  | k + 1, t => t.effects ++ t.tail.calls k

/-! ## Elements -/

variable {t : Trace m T} {n : ℕ}

@[simp] theorem items_delay {before : List (m Unit)} : (t.delay before).items = t.items := by
  cases t <;> rfl

@[simp] theorem effects_delay {before : List (m Unit)} :
    (t.delay before).effects = before ++ t.effects := by
  cases t <;> rfl

@[simp] theorem item_delay {before : List (m Unit)} : (t.delay before).item = t.item := by
  cases t <;> rfl

@[simp] theorem tail_delay {before : List (m Unit)} : (t.delay before).tail = t.tail := by
  cases t <;> rfl

theorem items_ofList {xs : List T} : (ofList xs : Trace m T).items = xs := by
  induction xs with
  | nil => rfl
  | cons x xs ih => rw [ofList, items, ih]

theorem items_map {value : T → U} {effect : T → m Unit} :
    (t.map value effect).items = t.items.map value := by
  induction t with
  | done => rfl
  | step es x rest ih => rw [map, items, items, ih, List.map_cons]

theorem items_filter {value : T → Bool} {effect : T → m Unit} :
    (t.filter value effect).items = t.items.filter value := by
  induction t with
  | done => rfl
  | step es x rest ih =>
    rw [filter, items, List.filter_cons]
    split
    · rw [items, ih]
    · rw [items_delay, ih]

theorem items_take : (t.take n).items = t.items.take n := by
  induction t generalizing n with
  | done => cases n <;> rfl
  | step es x rest ih =>
    cases n with
    | zero => rfl
    | succ n => rw [take, items, items, ih, List.take_succ_cons]

theorem items_drop : (t.drop n).items = t.items.drop n := by
  induction t generalizing n with
  | done => cases n <;> rfl
  | step es x rest ih =>
    cases n with
    | zero => rfl
    | succ n => rw [drop, items_delay, items, ih, List.drop_succ_cons]

theorem items_zip {t : Trace m A} {u : Trace m B} : (t.zip u).items = t.items.zip u.items := by
  induction t generalizing u with
  | done => cases u <;> rfl
  | step es a rest ih =>
    cases u with
    | done => rfl
    | step es' b rest' => rw [zip, items, items, items, ih, List.zip_cons_cons]

theorem item_eq : t.item = t.items.head? := by
  cases t <;> rfl

theorem items_tail : t.tail.items = t.items.tail := by
  cases t <;> rfl

/-- Calls of a stage that takes elements call its source no more often than it takes. -/
theorem calls_take (k : ℕ) : ∃ j ≤ n, j ≤ k ∧ (t.take n).calls k = t.calls j := by
  have hdone (k : ℕ) : (done [] [] : Trace m T).calls k = [] := by
    induction k with
    | zero => rfl
    | succ k ih => rw [calls, tail, ih]; rfl
  induction k generalizing n t with
  | zero => exact ⟨0, Nat.zero_le n, Nat.le_refl 0, rfl⟩
  | succ k ih =>
    cases n with
    | zero =>
      refine ⟨0, Nat.le_refl 0, Nat.zero_le _, ?_⟩
      rw [take, hdone]
      rfl
    | succ n =>
      cases t with
      | done es after =>
        refine ⟨1, Nat.succ_le_succ (Nat.zero_le n), Nat.succ_le_succ (Nat.zero_le k), ?_⟩
        rw [take, calls, tail, hdone]
        rfl
      | step es x rest =>
        obtain ⟨j, hj, hk, heq⟩ := ih (t := rest) (n := n)
        refine ⟨j + 1, Nat.succ_le_succ hj, Nat.succ_le_succ hk, ?_⟩
        rw [take, calls, calls, tail, heq]
        rfl

end Trace

/-! ## Iterators that follow a trace -/

section Follow

variable {m : Type → Type} [Monad m] {T U A B : Type}

/-- Effects one after the other. -/
def run : List (m Unit) → m Unit
  | [] => pure ()
  | act :: acts => act >>= fun _ => run acts

/-- What `next` returns and the state after it. -/
def Iterator.view (iter : Iterator m T) (s : iter.State) : m (Option T × iter.State) :=
  (fun r => (r.item, r.rest)) <$> iter.next s

/-- The calls of `next` have the effects and the results of the traces that are related. -/
def Follows (iter : Iterator m T) (R : iter.State → Trace m T → Prop) : Prop :=
  ∀ s t, R s t → ∃ s', R s' t.tail ∧
    iter.view s = do
      run t.effects
      return (t.item, s')

/-- The iterator has the trace. -/
def Iterator.Has (iter : Iterator m T) (t : Trace m T) : Prop :=
  ∃ R, Follows iter R ∧ R iter.start t

/-- The callback has a value that depends on its argument only, besides an effect. -/
def IsPure (f : A → m B) (value : A → B) (effect : A → m Unit) : Prop :=
  ∀ a, f a = do
    effect a
    return value a

variable [LawfulMonad m]

theorem run_append {es es' : List (m Unit)} :
    run (es ++ es') = run es >>= fun _ => run es' := by
  induction es with
  | nil => simp [run]
  | cons act acts ih => simp only [List.cons_append, run, ih, bind_assoc]

theorem run_singleton {act : m Unit} : run [act] = act := by simp [run]

theorem IsPure.bind_eq {f : A → m B} {value : A → B} {effect : A → m Unit} {a : A} {k : B → m U}
    (hf : IsPure f value effect) : f a >>= k = run [effect a] >>= fun _ => k (value a) := by
  rw [hf a, bind_assoc, run_singleton]
  exact bind_congr fun _ => pure_bind _ _

/-- A program that goes on with what `next` returns. -/
theorem Iterator.bind_view {iter : Iterator m T} {s : iter.State}
    {k : Option T × iter.State → m A} :
    iter.view s >>= k = iter.next s >>= fun r => k (r.item, r.rest) := by
  rw [Iterator.view, bind_map_left]

end Follow

end Loxis.Stdlib
