import Loxis.Stdlib.HashMapRefine

/-! # Runs of hash maps and hash sets

Any sequence of operations on a new table has the results of the operations on a map, and on a
set. Growing above the greatest number of slots is an exception that changes nothing.
-/

namespace Loxis.Stdlib

variable {K V : Type} {H : Hashing K}

/-- Functions that raise nothing. -/
def Hashing.functions (H : Hashing K) : Functions K := { H with fault := fun _ => none }

theorem not_raises {e : Stop} : ¬ HashMap.Raises H.functions e := by
  rintro ⟨n, x, hx, -⟩
  cases hx

def World.new : World K V := ⟨⟨[], 0⟩, 0⟩

/-! ## Maps -/

inductive MapOp (K V : Type)
  | put (key : K) (value : V)
  | get (key : K)
  | containsKey (key : K)
  | remove (key : K)
  | clear
  | size
  | keys

inductive MapOut (K V : Type)
  | value (o : Option V)
  | flag (b : Bool)
  | number (n : ℕ)
  | keys (list : List K)
  | done

namespace MapOp

open HashMap

def call (F : Functions K) (depth : ℕ) : MapOp K V → Call K V (MapOut K V)
  | put key value => return .value (← HashMap.put F "map" depth key value)
  | get key => return .value (← HashMap.get F key)
  | containsKey key => return .flag (← HashMap.containsKey F key)
  | remove key => return .value (← HashMap.remove F key)
  | clear => do
    HashMap.clear
    return .done
  | size => return .number (← HashMap.size)
  | keys => return .keys (← HashMap.keys)

/-- The operation on a map. -/
inductive Step (H : Hashing K) :
    H.Map V → MapOp K V → Except Stop (MapOut K V) → H.Map V → Prop
  | put (M : H.Map V) (key : K) (value : V) :
      Step H M (put key value) (.ok (.value (M (H.classOf key))))
        (Hashing.update M key (some value))
  | overflow (M : H.Map V) (key : K) (value : V) :
      3 * (maxSlots + 1) ≤ 4 * ({c | M c ≠ none}.ncard + 1) →
      Step H M (put key value) (.error (.raised "map capacity overflow")) M
  | get (M : H.Map V) (key : K) : Step H M (get key) (.ok (.value (M (H.classOf key)))) M
  | containsKey (M : H.Map V) (key : K) :
      Step H M (containsKey key) (.ok (.flag (M (H.classOf key)).isSome)) M
  | remove (M : H.Map V) (key : K) :
      Step H M (remove key) (.ok (.value (M (H.classOf key)))) (Hashing.update M key none)
  | clear (M : H.Map V) : Step H M clear (.ok .done) fun _ => none
  | size (M : H.Map V) : Step H M size (.ok (.number {c | M c ≠ none}.ncard)) M
  | keys (M : H.Map V) (list : List K) : (list.map H.classOf).Nodup →
      (∀ c, c ∈ list.map H.classOf ↔ M c ≠ none) → Step H M keys (.ok (.keys list)) M

end MapOp

namespace HashMap

/-- The table stands for the map. -/
def Models (H : Hashing K) (w : World K V) (M : H.Map V) : Prop := Inv H w.map ∧ Maps H w.map M

theorem Models.storage {w w' : World K V} {M : H.Map V} (h : Models H w M)
    (hw' : w'.map = w.map.storage) : Models H w' M := by
  unfold Models
  rw [hw']
  exact ⟨h.1.storage, h.2.congr fun p => by rw [entries_storage]⟩

theorem models_new : Models H (World.new : World K V) fun _ => none :=
  ⟨.replicate H 0, maps_of_entries_nil rfl⟩

theorem models_clear {slots : List (Slot K V)} {calls : ℕ} :
    Models H (⟨⟨slots.map fun _ => .empty, 0⟩, calls⟩ : World K V) fun _ => none := by
  rw [Models, List.map_const']
  refine ⟨.replicate _ _, maps_of_entries_nil (List.eq_nil_iff_forall_not_mem.mpr ?_)⟩
  rintro ⟨k, v⟩ hmem
  obtain ⟨i, hi⟩ := mem_entries.mp hmem
  exact holds_replicate hi

end HashMap

namespace MapOp

open HashMap

variable {F : Functions K} {w : World K V} {depth : ℕ}

/-- A call does the step of its operation, or a function of the user has raised an exception. -/
theorem call_ends {M : F.toHashing.Map V} (op : MapOp K V) (h : Models F.toHashing w M) :
    Ends (op.call F (depth + 2)) w
      (fun out w' => ∃ M', Step F.toHashing M op (.ok out) M' ∧ Models F.toHashing w' M')
      (fun e w' => Inv F.toHashing w'.map ∧ (Raises F e ∨
        ∃ M', Step F.toHashing M op (.error e) M' ∧ Models F.toHashing w' M')) := by
  obtain ⟨hinv, hM⟩ := h
  have hthrown {e : Stop} {w' : World K V} (he : Thrown F w.map.storage e w') :
      Inv F.toHashing w'.map ∧ (Raises F e ∨
        ∃ M', Step F.toHashing M op (.error e) M' ∧ Models F.toHashing w' M') :=
    ⟨he.2 ▸ hinv.storage, .inl he.1⟩
  cases op with
  | put key value =>
    refine .seq (put_ends hinv hM) ?_ ?_
    · rintro old w' ⟨rfl, hinv', hM'⟩
      exact .pure ⟨_, .put M key value, hinv', hM'⟩
    · rintro e w' ⟨hinv', hx | ⟨⟨rfl, hfull⟩, hM'⟩⟩
      · exact ⟨hinv', .inl hx⟩
      · rw [hM.count hinv] at hfull
        exact ⟨hinv', .inr ⟨M, .overflow M key value hfull, hinv', hM'⟩⟩
  | get key =>
    refine .seq (get_ends hinv hM) ?_ fun e w' he => hthrown he
    rintro _ w' ⟨rfl, hw'⟩
    exact .pure ⟨M, .get M key, Models.storage ⟨hinv, hM⟩ hw'⟩
  | containsKey key =>
    refine .seq (containsKey_ends hinv hM) ?_ fun e w' he => hthrown he
    rintro _ w' ⟨rfl, hw'⟩
    exact .pure ⟨M, .containsKey M key, Models.storage ⟨hinv, hM⟩ hw'⟩
  | remove key =>
    refine .seq (remove_ends hinv hM) ?_ fun e w' he => hthrown he
    rintro _ w' ⟨rfl, hinv', hM'⟩
    exact .pure ⟨_, .remove M key, hinv', hM'⟩
  | clear => exact .bind (.of_eq rfl (.pure ⟨_, .clear M, models_clear⟩))
  | size =>
    refine .bind (.of_eq rfl (.pure ⟨M, ?_, hinv, hM⟩))
    rw [hM.count hinv]
    exact .size M
  | keys =>
    obtain ⟨hnodup, hmem⟩ := hM.keys hinv
    exact .bind (.of_eq (keys_eq hinv) (.pure ⟨M, .keys M _ hnodup hmem, hinv, hM⟩))

end MapOp

/-! ## Sets -/

inductive SetOp (K : Type)
  | add (value : K)
  | contains (value : K)
  | remove (value : K)
  | clear
  | size
  | values

inductive SetOut (K : Type)
  | flag (b : Bool)
  | number (n : ℕ)
  | values (list : List K)
  | done

namespace SetOp

open HashMap

def call (F : Functions K) (depth : ℕ) : SetOp K → Call K Unit (SetOut K)
  | add value => return .flag (← HashSet.add F depth value)
  | contains value => return .flag (← HashSet.contains F value)
  | remove value => return .flag (← HashSet.remove F value)
  | clear => do
    HashMap.clear
    return .done
  | size => return .number (← HashMap.size)
  | values => return .values (← HashSet.values)

/-- The operation on a set. -/
inductive Step (H : Hashing K) :
    Set H.Class → SetOp K → Except Stop (SetOut K) → Set H.Class → Prop
  | add (S : Set H.Class) (value : K) (b : Bool) : (b = true ↔ H.classOf value ∉ S) →
      Step H S (add value) (.ok (.flag b)) (insert (H.classOf value) S)
  | overflow (S : Set H.Class) (value : K) : 3 * (maxSlots + 1) ≤ 4 * (S.ncard + 1) →
      Step H S (add value) (.error (.raised "set capacity overflow")) S
  | contains (S : Set H.Class) (value : K) (b : Bool) : (b = true ↔ H.classOf value ∈ S) →
      Step H S (contains value) (.ok (.flag b)) S
  | remove (S : Set H.Class) (value : K) (b : Bool) : (b = true ↔ H.classOf value ∈ S) →
      Step H S (remove value) (.ok (.flag b)) (S \ {H.classOf value})
  | clear (S : Set H.Class) : Step H S clear (.ok .done) ∅
  | size (S : Set H.Class) : Step H S size (.ok (.number S.ncard)) S
  | values (S : Set H.Class) (list : List K) : (list.map H.classOf).Nodup →
      (∀ c, c ∈ list.map H.classOf ↔ c ∈ S) → Step H S values (.ok (.values list)) S

/-- The classes that have a value. -/
def domain (M : H.Map Unit) : Set H.Class := {c | M c ≠ none}

section Domain

variable {M : H.Map Unit} {value : K}

theorem isSome_iff_mem_domain {c : H.Class} : (M c).isSome = true ↔ c ∈ domain M := by
  rw [Option.isSome_iff_ne_none]
  rfl

theorem domain_add :
    domain (Hashing.update M value (some ())) = insert (H.classOf value) (domain M) := by
  ext c
  by_cases hc : c = H.classOf value
  · simp [domain, hc, Hashing.update_self]
  · simp [domain, hc, Hashing.update_of_ne hc]

theorem domain_remove : domain (Hashing.update M value none) = domain M \ {H.classOf value} := by
  ext c
  by_cases hc : c = H.classOf value
  · simp [domain, hc, Hashing.update_self]
  · simp [domain, hc, Hashing.update_of_ne hc]

end Domain

/-- The table stands for the set. -/
def Models (H : Hashing K) (w : World K Unit) (S : Set H.Class) : Prop :=
  ∃ M, HashMap.Models H w M ∧ S = domain M

variable {F : Functions K} {w : World K Unit} {depth : ℕ}

theorem call_ends {S : Set F.toHashing.Class} (op : SetOp K) (h : Models F.toHashing w S) :
    Ends (op.call F (depth + 2)) w
      (fun out w' => ∃ S', Step F.toHashing S op (.ok out) S' ∧ Models F.toHashing w' S')
      (fun e w' => Inv F.toHashing w'.map ∧ (Raises F e ∨
        ∃ S', Step F.toHashing S op (.error e) S' ∧ Models F.toHashing w' S')) := by
  obtain ⟨M, hmodels, rfl⟩ := h
  obtain ⟨hinv, hM⟩ := hmodels
  have hthrown {e : Stop} {w' : World K Unit} (he : Thrown F w.map.storage e w') :
      Inv F.toHashing w'.map ∧ (Raises F e ∨ ∃ S', Step F.toHashing (domain M) op (.error e) S' ∧
        Models F.toHashing w' S') :=
    ⟨he.2 ▸ hinv.storage, .inl he.1⟩
  cases op with
  | add value =>
    refine .bind (.seq (put_ends hinv hM) ?_ ?_)
    · rintro old w' ⟨rfl, hinv', hM'⟩
      have hstep {b : Bool} (hb : b = true ↔ F.classOf value ∉ domain M) :
          ∃ S', Step F.toHashing (domain M) (add value) (.ok (.flag b)) S' ∧
            Models F.toHashing w' S' :=
        ⟨_, .add _ value b hb, _, ⟨hinv', hM'⟩, domain_add.symm⟩
      cases hold : M (F.classOf value) with
      | some u => exact .pure (.pure (hstep (by simp [domain, hold])))
      | none => exact .pure (.pure (hstep (by simp [domain, hold])))
    · rintro e w' ⟨hinv', hx | ⟨⟨rfl, hfull⟩, hM'⟩⟩
      · exact ⟨hinv', .inl hx⟩
      · rw [hM.count hinv] at hfull
        exact ⟨hinv', .inr ⟨_, .overflow _ value hfull, M, ⟨hinv', hM'⟩, rfl⟩⟩
  | contains value =>
    refine .seq (containsKey_ends hinv hM) ?_ fun e w' he => hthrown he
    rintro _ w' ⟨rfl, hw'⟩
    exact .pure ⟨_, .contains _ value _ isSome_iff_mem_domain, M,
      HashMap.Models.storage ⟨hinv, hM⟩ hw', rfl⟩
  | remove value =>
    refine .bind (.seq (remove_ends hinv hM) ?_ fun e w' he => hthrown he)
    rintro _ w' ⟨rfl, hinv', hM'⟩
    exact .pure (.pure ⟨_, .remove _ value _ isSome_iff_mem_domain, _, ⟨hinv', hM'⟩,
      domain_remove.symm⟩)
  | clear =>
    refine .bind (.of_eq rfl (.pure ⟨_, .clear _, fun _ => none, models_clear, ?_⟩))
    simp [domain]
  | size =>
    refine .bind (.of_eq rfl (.pure ⟨_, ?_, M, ⟨hinv, hM⟩, rfl⟩))
    rw [hM.count hinv]
    exact .size _
  | values =>
    obtain ⟨hnodup, hmem⟩ := hM.keys hinv
    exact .bind (.of_eq (keys_eq hinv) (.pure ⟨_, .values _ _ hnodup hmem, M, ⟨hinv, hM⟩, rfl⟩))

end SetOp

/-- A call of pure functions does a step. -/
theorem MapOp.step (op : MapOp K V) {w : World K V} {M : H.Map V} (depth : ℕ)
    (h : HashMap.Models H w M) :
    ∃ M', MapOp.Step H M op (outcome (op.call H.functions (depth + 2)) w).1 M' ∧
      HashMap.Models H (outcome (op.call H.functions (depth + 2)) w).2 M' := by
  have hends : Ends (op.call H.functions (depth + 2)) w _ _ := op.call_ends h
  rcases hends.outcome with
    ⟨a, w', ho, hQ⟩ | ⟨e, w', ho, -, hx | hE⟩
  · rw [ho]
    exact hQ
  · exact absurd hx not_raises
  · rw [ho]
    exact hE

theorem SetOp.step (op : SetOp K) {w : World K Unit} {S : Set H.Class} (depth : ℕ)
    (h : SetOp.Models H w S) :
    ∃ S', SetOp.Step H S op (outcome (op.call H.functions (depth + 2)) w).1 S' ∧
      SetOp.Models H (outcome (op.call H.functions (depth + 2)) w).2 S' := by
  have hends : Ends (op.call H.functions (depth + 2)) w _ _ := op.call_ends h
  rcases hends.outcome with
    ⟨a, w', ho, hQ⟩ | ⟨e, w', ho, -, hx | hE⟩
  · rw [ho]
    exact hQ
  · exact absurd hx not_raises
  · rw [ho]
    exact hE

theorem SetOp.models_new : SetOp.Models H World.new ∅ :=
  ⟨_, HashMap.models_new, by simp [SetOp.domain]⟩

/-- Tables refine maps and sets, for any pure functions of the user. -/
theorem tables_refine (H : Hashing K) (depth : ℕ) :
    (∀ ops : List (MapOp K V), ∃ M, Steps (MapOp.Step H) (fun _ => none) ops
      (attempts (MapOp.call H.functions (depth + 2)) ops World.new).1 M) ∧
    ∀ ops : List (SetOp K), ∃ S, Steps (SetOp.Step H) ∅ ops
      (attempts (SetOp.call H.functions (depth + 2)) ops World.new).1 S := by
  constructor
  · intro ops
    obtain ⟨M, hsteps, -⟩ := attempts_steps (fun op w M hM => MapOp.step op depth hM)
      ops HashMap.models_new
    exact ⟨M, hsteps⟩
  · intro ops
    obtain ⟨S, hsteps, -⟩ := attempts_steps (fun op w S hS => SetOp.step op depth hS)
      ops SetOp.models_new
    exact ⟨S, hsteps⟩

end Loxis.Stdlib
