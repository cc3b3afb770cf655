import Loxis.Stdlib.IteratorTrace

/-! # Stages of iterators

Each stage over a source with a trace has the trace that the stage makes of it.
-/

namespace Loxis.Stdlib

variable {m : Type → Type} [Monad m] [LawfulMonad m] {T U A B : Type}

/-! ## What `next` does in terms of the sources -/

section View

variable {source : Iterator m T}

theorem mapIterator_view {transform : T → m U} {s : source.State} :
    (mapIterator source transform).view s = source.view s >>= fun p =>
      p.1.elim (pure (none, p.2)) fun x => transform x >>= fun y => pure (some y, p.2) := by
  rw [Iterator.bind_view]
  change (_ <$> (source.next s >>= _)) = _
  refine (map_bind ..).trans (bind_congr fun r => ?_)
  obtain ⟨_ | x, rest, hs⟩ := r
  · exact map_pure _ _
  · exact (map_bind ..).trans (bind_congr fun y => map_pure _ _)

theorem filterIterator_view {predicate : T → m Bool} {s : source.State} :
    (filterIterator source predicate).view s = source.view s >>= fun p =>
      p.1.elim (pure (none, p.2)) fun x => predicate x >>= fun keep =>
        if keep then pure (some x, p.2) else (filterIterator source predicate).view p.2 := by
  rw [Iterator.bind_view]
  change (_ <$> filterNext source predicate s) = _
  rw [filterNext]
  refine (map_bind ..).trans (bind_congr fun r => ?_)
  obtain ⟨_ | x, rest, hs⟩ := r
  · exact map_pure _ _
  · refine (map_bind ..).trans (bind_congr fun keep => ?_)
    cases keep with
    | true => exact map_pure _ _
    | false =>
      refine (map_bind ..).trans ?_
      exact (bind_congr fun r' => map_pure _ _).trans (bind_pure_comp _ _)

theorem takeIterator_view {count remaining : ℤ} {s : source.State} :
    (takeIterator source count).view (s, remaining) =
      if remaining = 0 then pure (none, (s, remaining))
      else source.view s >>= fun p =>
        p.1.elim (pure (none, (p.2, 0))) fun x => pure (some x, (p.2, remaining - 1)) := by
  by_cases h : remaining = 0
  · subst h
    exact map_pure _ _
  · rw [if_neg h, Iterator.bind_view]
    refine (congrArg _ (if_neg h)).trans ?_
    refine (map_bind ..).trans (bind_congr fun r => ?_)
    obtain ⟨_ | x, rest, hs⟩ := r
    · exact map_pure _ _
    · exact map_pure _ _

theorem dropIterator_view {count remaining : ℤ} {s : source.State} :
    (dropIterator source count).view (s, remaining) =
      if remaining > 0 then source.view s >>= fun p =>
        p.1.elim (pure (none, (p.2, 0))) fun _ =>
          (dropIterator source count).view (p.2, remaining - 1)
      else source.view s >>= fun p => pure (p.1, (p.2, remaining)) := by
  rw [Iterator.bind_view, Iterator.bind_view]
  change (_ <$> dropNext source s remaining) = _
  rw [dropNext]
  split
  · refine (map_bind ..).trans (bind_congr fun r => ?_)
    obtain ⟨_ | x, rest, hs⟩ := r
    · exact map_pure _ _
    · refine (map_bind ..).trans ?_
      exact (bind_congr fun r' => map_pure _ _).trans (bind_pure_comp _ _)
  · exact (map_bind ..).trans (bind_congr fun r => map_pure _ _)

theorem zipIterator_view {left : Iterator m A} {right : Iterator m B} {a : left.State}
    {b : right.State} {finished : Bool} :
    (zipIterator left right).view (a, b, finished) =
      if finished then pure (none, (a, b, finished))
      else left.view a >>= fun p =>
        p.1.elim (pure (none, (p.2, b, true))) fun x => right.view b >>= fun q =>
          q.1.elim (pure (none, (p.2, q.2, true))) fun y =>
            pure (some (x, y), (p.2, q.2, false)) := by
  cases finished with
  | true => exact map_pure _ _
  | false =>
    refine (map_bind ..).trans (.trans (bind_congr fun r => ?_) Iterator.bind_view.symm)
    obtain ⟨_ | x, rest, hs⟩ := r
    · exact map_pure _ _
    · refine (map_bind ..).trans ?_
      rw [Option.elim, Iterator.bind_view]
      refine bind_congr fun r' => ?_
      obtain ⟨_ | y, rest', hs'⟩ := r'
      · exact map_pure _ _
      · exact map_pure _ _

end View

/-! ## Stages follow the traces -/

open Trace

theorem pure_eq_run {x : A} : (pure x : m A) = run [] >>= fun _ => pure x :=
  (pure_bind () fun _ => pure x).symm

theorem emptyIterator_has : (emptyIterator : Iterator m T).Has (ofList []) := by
  refine ⟨fun _ t => t = ofList [], ?_, rfl⟩
  rintro s _ rfl
  refine ⟨s, rfl, ?_⟩
  exact (map_pure _ _).trans pure_eq_run

theorem listIterator_has {xs : List T} : (listIterator xs : Iterator m T).Has (ofList xs) := by
  refine ⟨fun index t => t = ofList (xs.drop index), ?_, rfl⟩
  rintro (index : ℕ) _ rfl
  by_cases h : index ≥ xs.length
  · refine ⟨index, ?_, ?_⟩
    · change _ = ofList (xs.drop index)
      rw [List.drop_eq_nil_of_le h]
      rfl
    · rw [List.drop_eq_nil_of_le h]
      exact (congrArg _ (dif_pos h)).trans ((map_pure _ _).trans pure_eq_run)
  · refine ⟨index + 1, ?_, ?_⟩
    · rw [List.drop_eq_getElem_cons (Nat.lt_of_not_le h)]
      rfl
    · rw [List.drop_eq_getElem_cons (Nat.lt_of_not_le h)]
      exact (congrArg _ (dif_neg h)).trans ((map_pure _ _).trans pure_eq_run)

section Stage

variable {source : Iterator m T} {t : Trace m T}

theorem mapIterator_has {transform : T → m U} {value : T → U} {effect : T → m Unit}
    (h : source.Has t) (hf : IsPure transform value effect) :
    (mapIterator source transform).Has (t.map value effect) := by
  obtain ⟨R, hR, h0⟩ := h
  refine ⟨fun s t' => ∃ t₀, R s t₀ ∧ t' = t₀.map value effect, ?_, t, h0, rfl⟩
  rintro (s : source.State) _ ⟨t₀, hs, rfl⟩
  obtain ⟨s', hs', hview⟩ := hR s t₀ hs
  refine ⟨s', ⟨t₀.tail, hs', by cases t₀ <;> rfl⟩, ?_⟩
  refine mapIterator_view.trans ?_
  rw [hview, bind_assoc]
  cases t₀ with
  | done es after => exact bind_congr fun _ => pure_bind _ _
  | step es x rest =>
    change _ = run (es ++ [effect x]) >>= fun _ =>
      (pure (some (value x), s') : m (Option U × source.State))
    rw [run_append, run_singleton, bind_assoc]
    refine bind_congr fun _ => ?_
    rw [pure_bind, item, Option.elim, hf x, bind_assoc]
    exact bind_congr fun _ => pure_bind _ _

theorem filterIterator_has {predicate : T → m Bool} {value : T → Bool} {effect : T → m Unit}
    (h : source.Has t) (hf : IsPure predicate value effect) :
    (filterIterator source predicate).Has (t.filter value effect) := by
  obtain ⟨R, hR, h0⟩ := h
  refine ⟨fun s t' => ∃ t₀, R s t₀ ∧ t' = t₀.filter value effect, ?_, t, h0, rfl⟩
  rintro (s : source.State) _ ⟨t₀, hs, rfl⟩
  -- the source is pulled until its trace ends or its element is kept
  induction t₀ generalizing s with
  | done es after =>
    obtain ⟨s', hs', hview⟩ := hR s _ hs
    refine ⟨s', ⟨_, hs', rfl⟩, ?_⟩
    refine filterIterator_view.trans ?_
    rw [hview, bind_assoc]
    exact bind_congr fun _ => pure_bind _ _
  | step es x rest ih =>
    obtain ⟨s', hs', hview⟩ := hR s _ hs
    have hstep : (filterIterator source predicate).view s = run (es ++ [effect x]) >>= fun _ =>
        if value x then pure (some x, s') else (filterIterator source predicate).view s' := by
      refine filterIterator_view.trans ?_
      rw [hview, bind_assoc, run_append, run_singleton, bind_assoc]
      refine bind_congr fun _ => ?_
      rw [pure_bind, item, Option.elim, hf x, bind_assoc]
      exact bind_congr fun _ => pure_bind _ _
    rw [hstep, Trace.filter]
    cases hx : value x with
    | true => exact ⟨s', ⟨rest, hs', rfl⟩, rfl⟩
    | false =>
      obtain ⟨s'', hs'', hrest⟩ := ih s' hs'
      refine ⟨s'', ?_, ?_⟩
      · rwa [if_neg (by decide), tail_delay]
      · rw [if_neg (by decide), effects_delay, item_delay]
        refine (bind_congr fun _ => hrest).trans ?_
        rw [← bind_assoc, ← run_append]

theorem takeIterator_has {count : ℤ} (h : source.Has t) (hcount : 0 ≤ count) :
    (takeIterator source count).Has (t.take count.toNat) := by
  obtain ⟨R, hR, h0⟩ := h
  refine ⟨fun s t' => 0 ≤ s.2 ∧ ∃ t₀, R s.1 t₀ ∧ t' = t₀.take s.2.toNat, ?_, hcount, t, h0, rfl⟩
  rintro ⟨(s : source.State), remaining⟩ _ ⟨hremaining, t₀, hs, rfl⟩
  obtain ⟨n, rfl⟩ := Int.eq_ofNat_of_zero_le hremaining
  cases n with
  | zero =>
    refine ⟨(s, 0), ⟨le_rfl, t₀, hs, rfl⟩, ?_⟩
    exact takeIterator_view.trans pure_eq_run
  | succ n =>
    obtain ⟨s', hs', hview⟩ := hR s t₀ hs
    have hne : ((n + 1 : ℕ) : ℤ) ≠ 0 := by omega
    cases t₀ with
    | done es after =>
      refine ⟨(s', 0), ⟨le_rfl, _, hs', rfl⟩, ?_⟩
      refine takeIterator_view.trans ?_
      rw [if_neg hne, hview, bind_assoc]
      exact bind_congr fun _ => pure_bind _ _
    | step es x rest =>
      refine ⟨(s', n), ⟨by omega, rest, hs', rfl⟩, ?_⟩
      refine takeIterator_view.trans ?_
      rw [if_neg hne, hview, bind_assoc]
      refine bind_congr fun _ => (pure_bind _ _).trans ?_
      rw [Nat.cast_succ, add_sub_cancel_right]
      rfl

theorem dropIterator_has {count : ℤ} (h : source.Has t) (hcount : 0 ≤ count) :
    (dropIterator source count).Has (t.drop count.toNat) := by
  obtain ⟨R, hR, h0⟩ := h
  refine ⟨fun s t' => 0 ≤ s.2 ∧ ∃ t₀, R s.1 t₀ ∧ t' = t₀.drop s.2.toNat, ?_, hcount, t, h0, rfl⟩
  rintro ⟨(s : source.State), remaining⟩ _ ⟨hremaining, t₀, hs, rfl⟩
  obtain ⟨n, rfl⟩ := Int.eq_ofNat_of_zero_le hremaining
  -- the source is pulled until its trace ends or no element is left to drop
  induction n generalizing s t₀ with
  | zero =>
    obtain ⟨s', hs', hview⟩ := hR s t₀ hs
    refine ⟨(s', 0), ⟨le_rfl, _, hs', rfl⟩, ?_⟩
    refine dropIterator_view.trans ?_
    rw [if_neg (by decide), hview, bind_assoc]
    exact bind_congr fun _ => pure_bind _ _
  | succ n ih =>
    obtain ⟨s', hs', hview⟩ := hR s t₀ hs
    have hpos : ((n + 1 : ℕ) : ℤ) > 0 := by omega
    cases t₀ with
    | done es after =>
      refine ⟨(s', 0), ⟨le_rfl, _, hs', rfl⟩, ?_⟩
      refine dropIterator_view.trans ?_
      rw [if_pos hpos, hview, bind_assoc]
      exact bind_congr fun _ => pure_bind _ _
    | step es x rest =>
      obtain ⟨s'', hs'', hrest⟩ := ih s' rest (by omega) hs'
      refine ⟨s'', ?_, ?_⟩
      · change _ ∧ ∃ _, _ ∧ ((rest.drop n).delay es).tail = _
        rwa [tail_delay]
      · refine dropIterator_view.trans ?_
        rw [if_pos hpos, hview, bind_assoc]
        change _ = run ((rest.drop n).delay es).effects >>= fun _ =>
          pure (((rest.drop n).delay es).item, s'')
        rw [effects_delay, item_delay, run_append, bind_assoc]
        refine bind_congr fun _ => (pure_bind _ _).trans ?_
        rw [Nat.cast_succ, add_sub_cancel_right]
        exact hrest

theorem zipIterator_has {left : Iterator m A} {right : Iterator m B} {t : Trace m A}
    {u : Trace m B} (ht : left.Has t) (hu : right.Has u) :
    (zipIterator left right).Has (t.zip u) := by
  obtain ⟨R, hR, h0⟩ := ht
  obtain ⟨R', hR', h0'⟩ := hu
  refine ⟨fun s t' => s.2.2 = true ∧ t' = .done [] [] ∨
    s.2.2 = false ∧ ∃ a b, R s.1 a ∧ R' s.2.1 b ∧ t' = a.zip b, ?_, .inr ⟨rfl, t, u, h0, h0', rfl⟩⟩
  rintro ⟨(s : left.State), (s' : right.State), finished⟩ t' (⟨hf, rfl⟩ | ⟨hf, a, b, ha, hb, rfl⟩)
  · cases hf
    exact ⟨(s, s', true), .inl ⟨rfl, rfl⟩, zipIterator_view.trans pure_eq_run⟩
  · cases hf
    obtain ⟨r, hr, hview⟩ := hR s a ha
    cases a with
    | done es after =>
      refine ⟨(r, s', true), .inl ⟨rfl, rfl⟩, ?_⟩
      refine zipIterator_view.trans ?_
      rw [if_neg (by decide), hview, bind_assoc]
      exact bind_congr fun _ => pure_bind _ _
    | step es x rest =>
      obtain ⟨r', hr', hview'⟩ := hR' s' b hb
      cases b with
      | done es' after' =>
        refine ⟨(r, r', true), .inl ⟨rfl, rfl⟩, ?_⟩
        refine zipIterator_view.trans ?_
        rw [if_neg (by decide), hview, bind_assoc]
        change _ = run (es ++ es') >>= fun _ => pure (none, (r, r', true))
        rw [run_append, bind_assoc]
        refine bind_congr fun _ => (pure_bind _ _).trans ?_
        rw [item, Option.elim, hview', bind_assoc]
        exact bind_congr fun _ => pure_bind _ _
      | step es' y rest' =>
        refine ⟨(r, r', false), .inr ⟨rfl, rest, rest', hr, hr', rfl⟩, ?_⟩
        refine zipIterator_view.trans ?_
        rw [if_neg (by decide), hview, bind_assoc]
        change _ = run (es ++ es') >>= fun _ => pure (some (x, y), (r, r', false))
        rw [run_append, bind_assoc]
        refine bind_congr fun _ => (pure_bind _ _).trans ?_
        rw [item, Option.elim, hview', bind_assoc]
        exact bind_congr fun _ => pure_bind _ _

end Stage

end Loxis.Stdlib
