import Loxis.Stdlib.IteratorSpec

/-! # Pipelines and lists

The terminal operations of a pipeline return what the functions of lists return, and have the
effects of an evaluation of one element after the other.
-/

namespace Loxis.Stdlib

variable {m : Type → Type} {T U A B : Type}

namespace Trace

/-- The effects of a loop over the elements up to the one that stops it. -/
def visits (stop : U → T → Bool) (value : U → T → U) (visit : U → T → List (m Unit)) :
    U → Trace m T → List (m Unit)
  | _, done effects _ => effects
  | u, step effects x rest =>
    effects ++ (visit u x ++ if stop u x then [] else rest.visits stop value visit (value u x))

/-- The effects up to the element that decides the result. -/
def upto (stop : T → Bool) (visit : T → List (m Unit)) (t : Trace m T) : List (m Unit) :=
  t.visits (fun _ => stop) (fun _ _ => ()) (fun _ => visit) ()

/-- The effects of a loop that goes on with the value of the callback. -/
def folding (value : U → T → U) (effect : U → T → m Unit) (initial : U) (t : Trace m T) :
    List (m Unit) :=
  t.visits (fun _ _ => false) value (fun u x => [effect u x]) initial

theorem visits_eq_upto (stop : T → Bool) (value : U → T → U) (visit : T → List (m Unit)) (u : U)
    (t : Trace m T) : t.visits (fun _ => stop) value (fun _ => visit) u = t.upto stop visit := by
  unfold upto
  induction t generalizing u with
  | done => rfl
  | step es x rest ih => rw [visits, visits, ih]

end Trace

variable [Monad m]

/-- The results of so many calls of `next`. -/
def Iterator.nexts (iter : Iterator m T) : ℕ → iter.State → m (List (Option T))
  | 0, _ => pure []
  | k + 1, s => do
    let r ← iter.next s
    return r.item :: (← iter.nexts k r.rest)

/-- The operations of an iterator have the results of the list and the effects of the trace. -/
structure Iterator.Computes (iter : Iterator m T) (xs : List T) (t : Trace m T) : Prop where
  toList : iter.toList iter.start [] = do
    run (t.upto (fun _ => false) fun _ => [])
    return xs
  forEach (f : T → m Unit) : iter.forEach f iter.start =
    run (t.upto (fun _ => false) fun x => [f x])
  count : iter.count iter.start 0 = do
    run (t.upto (fun _ => false) fun _ => [])
    return xs.length
  any (pred : T → m Bool) (value : T → Bool) (effect : T → m Unit) :
    IsPure pred value effect → iter.any pred iter.start = do
      run (t.upto value fun x => [effect x])
      return xs.any value
  all (pred : T → m Bool) (value : T → Bool) (effect : T → m Unit) :
    IsPure pred value effect → iter.all pred iter.start = do
      run (t.upto (fun x => !value x) fun x => [effect x])
      return xs.all value
  find (pred : T → m Bool) (value : T → Bool) (effect : T → m Unit) :
    IsPure pred value effect → iter.find pred iter.start = do
      run (t.upto value fun x => [effect x])
      return xs.find? value
  fold {U : Type} (f : U → T → m U) (value : U → T → U) (effect : U → T → m Unit) (initial : U) :
    (∀ u, IsPure (f u) (value u) (effect u)) → iter.fold f iter.start initial = do
      run (t.folding value effect initial)
      return xs.foldl value initial
  nexts (k : ℕ) : iter.nexts k iter.start = do
    run (t.calls k)
    return (List.range k).map fun i => xs[i]?

/-- Every count is at least zero. -/
def Pipeline.Counts {T : Type} : Pipeline m T → Prop
  | empty => True
  | list _ => True
  | map source _ => source.Counts
  | filter source _ => source.Counts
  | take source count => 0 ≤ count ∧ source.Counts
  | drop source count => 0 ≤ count ∧ source.Counts
  | zip left right => left.Counts ∧ right.Counts

/-- The functions of lists give the elements of the pipeline, and the evaluation of one element
after the other gives its trace. -/
inductive Pipeline.Evaluates : {T : Type} → Pipeline m T → List T → Trace m T → Prop
  | empty {T : Type} : Evaluates (.empty : Pipeline m T) [] (.ofList [])
  | list {T : Type} (items : List T) : Evaluates (.list items) items (.ofList items)
  | map {T U : Type} {p : Pipeline m T} {xs : List T} {t : Trace m T} {f : T → m U}
      {value : T → U} {effect : T → m Unit} : Evaluates p xs t → IsPure f value effect →
      Evaluates (.map p f) (xs.map value) (t.map value effect)
  | filter {T : Type} {p : Pipeline m T} {xs : List T} {t : Trace m T} {f : T → m Bool}
      {value : T → Bool} {effect : T → m Unit} : Evaluates p xs t → IsPure f value effect →
      Evaluates (.filter p f) (xs.filter value) (t.filter value effect)
  | take {T : Type} {p : Pipeline m T} {xs : List T} {t : Trace m T} {n : ℤ} :
      Evaluates p xs t → Evaluates (.take p n) (xs.take n.toNat) (t.take n.toNat)
  | drop {T : Type} {p : Pipeline m T} {xs : List T} {t : Trace m T} {n : ℤ} :
      Evaluates p xs t → Evaluates (.drop p n) (xs.drop n.toNat) (t.drop n.toNat)
  | zip {A B : Type} {p : Pipeline m A} {q : Pipeline m B} {xs : List A} {ys : List B}
      {t : Trace m A} {u : Trace m B} : Evaluates p xs t → Evaluates q ys u →
      Evaluates (.zip p q) (xs.zip ys) (t.zip u)

variable [LawfulMonad m]

/-! ## Loops -/

section Loop

variable {iter : Iterator m T} {R : iter.State → Trace m T → Prop}

/-- A loop over an iterator is the loop over its trace. -/
theorem Follows.loop (hR : Follows iter R) (L : U → iter.State → m B) (out : U → List T → B)
    (stop : U → T → Bool) (value : U → T → U) (answer : U → T → B)
    (visit : U → T → List (m Unit))
    (hL : ∀ u s, L u s = iter.view s >>= fun p => p.1.elim (pure (out u [])) fun x =>
      run (visit u x) >>= fun _ => if stop u x then pure (answer u x) else L (value u x) p.2)
    (hout : ∀ u x xs, out u (x :: xs) = if stop u x then answer u x else out (value u x) xs)
    {s : iter.State} {t : Trace m T} (h : R s t) (u : U) :
    L u s = run (t.visits stop value visit u) >>= fun _ => pure (out u t.items) := by
  induction t generalizing s u with
  | done es after =>
    obtain ⟨s', -, hview⟩ := hR s _ h
    rw [hL, hview, bind_assoc]
    exact bind_congr fun _ => pure_bind _ _
  | step es x rest ih =>
    obtain ⟨s', hs', hview⟩ := hR s _ h
    rw [hL, hview, bind_assoc, Trace.visits, run_append, run_append, bind_assoc, bind_assoc,
      Trace.items, hout]
    refine bind_congr fun _ => (pure_bind _ _).trans (bind_congr fun _ => ?_)
    split
    · exact pure_eq_run
    · exact ih hs' _

theorem Follows.nexts (hR : Follows iter R) {s : iter.State} {t : Trace m T} (h : R s t) (k : ℕ) :
    iter.nexts k s = run (t.calls k) >>= fun _ =>
      pure ((List.range k).map fun i => t.items[i]?) := by
  induction k generalizing s t with
  | zero => exact pure_eq_run
  | succ k ih =>
    obtain ⟨s', hs', hview⟩ := hR s t h
    have hnext : iter.nexts (k + 1) s = iter.view s >>= fun p =>
        iter.nexts k p.2 >>= fun os => pure (p.1 :: os) := by
      rw [Iterator.bind_view]
      rfl
    rw [hnext, hview, bind_assoc, Trace.calls, run_append, bind_assoc]
    refine bind_congr fun _ => (pure_bind _ _).trans ?_
    rw [ih hs', bind_assoc, List.range_succ_eq_map, List.map_cons, List.map_map]
    refine bind_congr fun _ => (pure_bind _ _).trans ?_
    rw [Trace.item_eq, Trace.items_tail, List.head?_eq_getElem?]
    simp only [List.getElem?_tail, Function.comp_def]

end Loop

/-! ## Terminal operations -/

section Terminal

variable {iter : Iterator m T} {t : Trace m T}

theorem toList_view {s : iter.State} {out : List T} : iter.toList s out = iter.view s >>= fun p =>
    p.1.elim (pure out) fun x => iter.toList p.2 (out ++ [x]) := by
  rw [Iterator.bind_view, Iterator.toList]
  refine bind_congr fun r => ?_
  obtain ⟨_ | x, rest, hs⟩ := r
  · rfl
  · rfl

theorem toList_eq (h : iter.Has t) : iter.toList iter.start [] =
    run (t.upto (fun _ => false) fun _ => []) >>= fun _ => pure t.items := by
  obtain ⟨R, hR, h0⟩ := h
  rw [← t.visits_eq_upto _ (fun out x => out ++ [x]) _ []]
  refine hR.loop (fun out s => iter.toList s out) (fun out xs => out ++ xs) _ _
    (fun out _ => out) _ (fun out s => ?_) (fun out x xs => ?_) h0 []
  · refine toList_view.trans (bind_congr fun p => ?_)
    obtain ⟨_ | x, s'⟩ := p
    · exact congrArg pure (List.append_nil out).symm
    · exact (pure_bind () fun _ => iter.toList s' (out ++ [x])).symm
  · rw [if_neg (by decide), List.append_assoc, List.singleton_append]

theorem count_eq (h : iter.Has t) : iter.count iter.start 0 =
    run (t.upto (fun _ => false) fun _ => []) >>= fun _ => pure t.items.length := by
  obtain ⟨R, hR, h0⟩ := h
  rw [← t.visits_eq_upto _ (fun total _ => total + 1) _ 0, ← Nat.zero_add t.items.length]
  refine hR.loop (fun total s => iter.count s total) (fun total xs => total + xs.length) _ _
    (fun total _ => total) _ (fun total s => ?_) (fun total x xs => ?_) h0 0
  · rw [Iterator.bind_view, Iterator.count]
    refine bind_congr fun r => ?_
    obtain ⟨_ | x, rest, hs⟩ := r
    · rfl
    · exact (pure_bind () fun _ => iter.count rest (total + 1)).symm
  · rw [if_neg (by decide), List.length_cons, Nat.add_assoc, Nat.add_comm 1]

theorem forEach_eq (h : iter.Has t) (f : T → m Unit) : iter.forEach f iter.start =
    run (t.upto (fun _ => false) fun x => [f x]) := by
  obtain ⟨R, hR, h0⟩ := h
  refine (hR.loop (fun _ s => iter.forEach f s) (fun _ _ => ()) _ _ (fun _ _ => ()) _
    (fun _ s => ?_) (fun _ x xs => rfl) h0 ()).trans (bind_pure_unit ..)
  rw [Iterator.bind_view, Iterator.forEach]
  refine bind_congr fun r => ?_
  obtain ⟨_ | x, rest, hs⟩ := r
  · rfl
  · exact congrArg (· >>= fun _ => iter.forEach f rest) run_singleton.symm

section Decide

variable {pred : T → m Bool} {value : T → Bool} {effect : T → m Unit}

theorem any_eq (h : iter.Has t) (hf : IsPure pred value effect) : iter.any pred iter.start =
    run (t.upto value fun x => [effect x]) >>= fun _ => pure (t.items.any value) := by
  obtain ⟨R, hR, h0⟩ := h
  refine hR.loop (fun _ s => iter.any pred s) (fun _ xs => xs.any value) _ _ (fun _ _ => true) _
    (fun _ s => ?_) (fun _ x xs => ?_) h0 ()
  · rw [Iterator.bind_view, Iterator.any]
    refine bind_congr fun r => ?_
    obtain ⟨_ | x, rest, hs⟩ := r
    · rfl
    · exact hf.bind_eq
  · rw [List.any_cons]
    cases value x <;> rfl

theorem all_eq (h : iter.Has t) (hf : IsPure pred value effect) : iter.all pred iter.start =
    run (t.upto (fun x => !value x) fun x => [effect x]) >>= fun _ =>
      pure (t.items.all value) := by
  obtain ⟨R, hR, h0⟩ := h
  refine hR.loop (fun _ s => iter.all pred s) (fun _ xs => xs.all value) _ _ (fun _ _ => false) _
    (fun _ s => ?_) (fun _ x xs => ?_) h0 ()
  · rw [Iterator.bind_view, Iterator.all]
    refine bind_congr fun r => ?_
    obtain ⟨_ | x, rest, hs⟩ := r
    · rfl
    · exact hf.bind_eq
  · rw [List.all_cons]
    cases value x <;> rfl

theorem find_eq (h : iter.Has t) (hf : IsPure pred value effect) : iter.find pred iter.start =
    run (t.upto value fun x => [effect x]) >>= fun _ => pure (t.items.find? value) := by
  obtain ⟨R, hR, h0⟩ := h
  refine hR.loop (fun _ s => iter.find pred s) (fun _ xs => xs.find? value) _ _
    (fun _ x => some x) _ (fun _ s => ?_) (fun _ x xs => ?_) h0 ()
  · rw [Iterator.bind_view, Iterator.find]
    refine bind_congr fun r => ?_
    obtain ⟨_ | x, rest, hs⟩ := r
    · rfl
    · exact hf.bind_eq
  · rw [List.find?_cons]
    cases value x <;> rfl

end Decide

theorem fold_eq (h : iter.Has t) {f : U → T → m U} {value : U → T → U} {effect : U → T → m Unit}
    (hf : ∀ u, IsPure (f u) (value u) (effect u)) (initial : U) :
    iter.fold f iter.start initial =
      run (t.folding value effect initial) >>= fun _ => pure (t.items.foldl value initial) := by
  obtain ⟨R, hR, h0⟩ := h
  refine hR.loop (fun total s => iter.fold f s total) (fun total xs => xs.foldl value total) _ _
    (fun total _ => total) _ (fun total s => ?_) (fun total x xs => rfl) h0 initial
  rw [Iterator.bind_view, Iterator.fold]
  refine bind_congr fun r => ?_
  obtain ⟨_ | x, rest, hs⟩ := r
  · rfl
  · exact (hf total).bind_eq

theorem Iterator.Has.computes (h : iter.Has t) : iter.Computes t.items t where
  toList := toList_eq h
  forEach := forEach_eq h
  count := count_eq h
  any _ _ _ hf := any_eq h hf
  all _ _ _ hf := all_eq h hf
  find _ _ _ hf := find_eq h hf
  fold _ _ _ initial hf := fold_eq h hf initial
  nexts k := by
    obtain ⟨R, hR, h0⟩ := h
    exact hR.nexts h0 k

end Terminal

/-! ## Pipelines -/

omit [LawfulMonad m] in
theorem Pipeline.Evaluates.items {T : Type} {p : Pipeline m T} {xs : List T} {t : Trace m T}
    (h : p.Evaluates xs t) : t.items = xs := by
  induction h with
  | empty => exact Trace.items_ofList
  | list => exact Trace.items_ofList
  | map _ _ ih => rw [Trace.items_map, ih]
  | filter _ _ ih => rw [Trace.items_filter, ih]
  | take _ ih => rw [Trace.items_take, ih]
  | drop _ ih => rw [Trace.items_drop, ih]
  | zip _ _ ih ih' => rw [Trace.items_zip, ih, ih']

theorem Pipeline.Evaluates.build {T : Type} {p : Pipeline m T} {xs : List T} {t : Trace m T}
    (h : p.Evaluates xs t) (hp : p.Counts) : ∃ iter, p.build = .ok iter ∧ iter.Has t := by
  induction h with
  | empty => exact ⟨_, rfl, emptyIterator_has⟩
  | list => exact ⟨_, rfl, listIterator_has⟩
  | map _ hf ih =>
    obtain ⟨iter, heq, h⟩ := ih hp
    exact ⟨_, by rw [Pipeline.build, heq]; rfl, mapIterator_has h hf⟩
  | filter _ hf ih =>
    obtain ⟨iter, heq, h⟩ := ih hp
    exact ⟨_, by rw [Pipeline.build, heq]; rfl, filterIterator_has h hf⟩
  | take _ ih =>
    obtain ⟨iter, heq, h⟩ := ih hp.2
    exact ⟨_, by rw [Pipeline.build, heq]; exact if_pos hp.1, takeIterator_has h hp.1⟩
  | drop _ ih =>
    obtain ⟨iter, heq, h⟩ := ih hp.2
    exact ⟨_, by rw [Pipeline.build, heq]; exact if_pos hp.1, dropIterator_has h hp.1⟩
  | zip _ _ ih ih' =>
    obtain ⟨left, hleft, h⟩ := ih hp.1
    obtain ⟨right, hright, h'⟩ := ih' hp.2
    exact ⟨_, by rw [Pipeline.build, hleft, hright]; rfl, zipIterator_has h h'⟩

omit [LawfulMonad m] in
theorem Pipeline.build_cases {T : Type} (p : Pipeline m T) :
    p.Counts ∧ (∃ iter, p.build = .ok iter) ∨
      ¬ p.Counts ∧ p.build = .error "negative iterator count" := by
  induction p with
  | empty => exact .inl ⟨trivial, _, rfl⟩
  | list => exact .inl ⟨trivial, _, rfl⟩
  | map source f ih =>
    rcases ih with ⟨hc, iter, heq⟩ | ⟨hc, heq⟩
    · exact .inl ⟨hc, _, by rw [build, heq]; rfl⟩
    · exact .inr ⟨hc, by rw [build, heq]; rfl⟩
  | filter source f ih =>
    rcases ih with ⟨hc, iter, heq⟩ | ⟨hc, heq⟩
    · exact .inl ⟨hc, _, by rw [build, heq]; rfl⟩
    · exact .inr ⟨hc, by rw [build, heq]; rfl⟩
  | take source count ih =>
    rcases ih with ⟨hc, iter, heq⟩ | ⟨hc, heq⟩
    · by_cases h : 0 ≤ count
      · exact .inl ⟨⟨h, hc⟩, _, by rw [build, heq]; exact if_pos h⟩
      · exact .inr ⟨fun h' => h h'.1, by rw [build, heq]; exact if_neg h⟩
    · exact .inr ⟨fun h' => hc h'.2, by rw [build, heq]; rfl⟩
  | drop source count ih =>
    rcases ih with ⟨hc, iter, heq⟩ | ⟨hc, heq⟩
    · by_cases h : 0 ≤ count
      · exact .inl ⟨⟨h, hc⟩, _, by rw [build, heq]; exact if_pos h⟩
      · exact .inr ⟨fun h' => h h'.1, by rw [build, heq]; exact if_neg h⟩
    · exact .inr ⟨fun h' => hc h'.2, by rw [build, heq]; rfl⟩
  | zip left right ih ih' =>
    rcases ih with ⟨hc, iter, heq⟩ | ⟨hc, heq⟩
    · rcases ih' with ⟨hc', iter', heq'⟩ | ⟨hc', heq'⟩
      · exact .inl ⟨⟨hc, hc'⟩, _, by rw [build, heq, heq']; rfl⟩
      · exact .inr ⟨fun h => hc' h.2, by rw [build, heq, heq']; rfl⟩
    · exact .inr ⟨fun h => hc h.1, by rw [build, heq]; rfl⟩

/-- Calls of a stage that takes elements pull no more of them than it takes. -/
theorem takeIterator_nexts {iter : Iterator m T} {t : Trace m T} (h : iter.Has t) {n : ℤ}
    (hn : 0 ≤ n) (k : ℕ) : ∃ j : ℕ, j ≤ n ∧ j ≤ k ∧
      (takeIterator iter n).nexts k (takeIterator iter n).start = run (t.calls j) >>= fun _ =>
        pure ((List.range k).map fun i => (t.items.take n.toNat)[i]?) := by
  obtain ⟨j, hj, hk, heq⟩ := t.calls_take k (n := n.toNat)
  obtain ⟨R, hR, h0⟩ := takeIterator_has h hn
  refine ⟨j, by omega, hk, ?_⟩
  rw [hR.nexts h0 k, heq, Trace.items_take]

/-- A pipeline has the results of the functions of lists, and calls the callbacks as an
evaluation of one element after the other does. -/
theorem pipelines_compute_lists {T : Type} {p : Pipeline m T} {xs : List T} {t : Trace m T}
    (h : p.Evaluates xs t) :
    (¬ p.Counts → p.build = .error "negative iterator count") ∧
      (p.Counts → ∃ iter, p.build = .ok iter ∧ iter.Computes xs t ∧
        ∀ n : ℤ, 0 ≤ n → ∀ k : ℕ, ∃ j : ℕ, j ≤ n ∧ j ≤ k ∧
          (takeIterator iter n).nexts k (takeIterator iter n).start = do
            run (t.calls j)
            return (List.range k).map fun i => (xs.take n.toNat)[i]?) := by
  refine ⟨fun hp => ?_, fun hp => ?_⟩
  · rcases p.build_cases with ⟨hc, -⟩ | ⟨-, heq⟩
    · exact absurd hc hp
    · exact heq
  · obtain ⟨iter, heq, hiter⟩ := h.build hp
    refine ⟨iter, heq, ?_, fun n hn k => ?_⟩
    · have hcomputes := hiter.computes
      rwa [h.items] at hcomputes
    · obtain ⟨j, hj, hk, hnexts⟩ := takeIterator_nexts hiter hn k
      exact ⟨j, hj, hk, by rw [hnexts, h.items]⟩

/-! ## Callbacks that share a state -/

/-- The functions of lists applied to whole lists, one after the other. -/
def Pipeline.lists {m : Type → Type} [Monad m] {T : Type} : Pipeline m T → m (List T)
  | empty => return []
  | list items => return items
  | map source f => do (← source.lists).mapM f
  | filter source f => do (← source.lists).filterM f
  | take source count => return (← source.lists).take count.toNat
  | drop source count => return (← source.lists).drop count.toNat
  | zip left right => do
    let xs ← left.lists
    return xs.zip (← right.lists)

/-- The next number of a counter. -/
def tick : StateM ℕ ℕ := modifyGet fun n => (n, n + 1)

/-- Both callbacks use the counter. -/
def counted : Pipeline (StateM ℕ) ℕ :=
  .filter (.map (.list [0, 0]) fun _ => tick) fun _ => return (← get) == 1

/-- Callbacks whose results depend on one state see it change between the elements. -/
theorem counted_not_lists : ∃ iter, counted.build = .ok iter ∧
    (iter.toList iter.start [] 0).1 ≠ (counted.lists 0).1 := by
  let iter : Iterator (StateM ℕ) ℕ := filterIterator
    (mapIterator (listIterator [0, 0]) fun _ => tick) fun _ => return (← get) == 1
  have hfirst : iter.view (0 : ℕ) 0 = ((some 0, (1 : ℕ)), 1) :=
    (congrFun filterIterator_view 0).trans rfl
  have hend : iter.view (2 : ℕ) 2 = ((none, (2 : ℕ)), 2) :=
    (congrFun filterIterator_view 2).trans rfl
  have hsecond : iter.view (1 : ℕ) 1 = ((none, (2 : ℕ)), 2) :=
    (congrFun filterIterator_view 1).trans hend
  have hlast : iter.toList (1 : ℕ) [0] 1 = ([0], 2) :=
    (congrFun toList_view 1).trans
      (congrArg (fun p => (p.1.1.elim (pure [0]) fun x => iter.toList p.1.2 ([0] ++ [x])) p.2)
        hsecond)
  have hall : iter.toList (0 : ℕ) [] 0 = ([0], 2) :=
    (congrFun toList_view 0).trans
      ((congrArg (fun p => (p.1.1.elim (pure []) fun x => iter.toList p.1.2 ([] ++ [x])) p.2)
        hfirst).trans hlast)
  have hlists : counted.lists 0 = ([], 2) := rfl
  refine ⟨iter, rfl, ?_⟩
  rw [hlists]
  exact fun h => absurd ((congrArg Prod.fst hall).symm.trans h) (by decide)

/-- Numbers that are added to a state and doubled, up to two of them. -/
def doubled : Pipeline (StateM ℕ) ℕ :=
  .take (.map (.list [1, 2, 3]) fun x => do modify (· + x); return 2 * x) 2

theorem doubled_computes : ∃ iter, doubled.build = .ok iter ∧
    iter.toList iter.start [] 0 = ([2, 4], 3) := by
  have hf : IsPure (m := StateM ℕ) (fun x => do modify (· + x); return 2 * x) (2 * ·)
      fun x => modify (· + x) := fun _ => rfl
  have hp : doubled.Counts := ⟨by decide, trivial⟩
  obtain ⟨iter, heq, hiter, -⟩ :=
    (pipelines_compute_lists (.take (.map (.list [1, 2, 3]) hf))).2 hp
  exact ⟨iter, heq, by rw [hiter.toList]; rfl⟩

end Loxis.Stdlib
