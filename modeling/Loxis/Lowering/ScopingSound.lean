import Mathlib.Data.List.Forall2
import Loxis.Lib.Simulation
import Loxis.Lowering.Scoping

/-! # The visit follows the lowering

The lowering and the visit run in step. The numbers of the bindings stand for the locals that
the bindings create.
-/

namespace Loxis.Lowering

open Function List

section Relation

/-- The locals of a scope are those of the bindings. -/
def Names (f : ℕ → LocalId) (n : ℕ) (sc : Scope) (b : Bindings) : Prop :=
  ∀ name, sc name = (b name).map f ∧ ∀ i, b name = some i → i < n

/-- The exception variables of try bodies are those of their numbers. -/
def Sites (f : ℕ → LocalId) (n : ℕ) (r : List LocalId) (q : List ℕ) : Prop :=
  r = q.map f ∧ ∀ i ∈ q, i < n

structure PendingFits (f : ℕ → LocalId) (n : ℕ) (F : Finalizer) (p : Pending) : Prop where
  body : F.body = p.body
  handlerActive : F.handlerActive = p.handlerActive
  lexical : Names f n F.lexical p.here
  regions : Sites f n F.regions p.regions
  exception : F.exception = f p.exception ∧ p.exception < n

structure LoopFits (f : ℕ → LocalId) (n : ℕ) (c : LoopContext) (l : LoopScope) : Prop where
  label : c.label = l.label
  depth : c.finallyDepth = l.depth
  regions : Sites f n c.regions l.regions

/-- What is fixed about the numbering, and stays when it grows. -/
structure World where
  holds : (ℕ → LocalId) → ℕ → Prop
  stable : ∀ f n f' n', holds f n → n ≤ n' → (∀ i < n, f' i = f i) → holds f' n'

structure Fits (f : ℕ → LocalId) (s : LowerState) (w : ScopeState) : Prop where
  inj : ∀ i j, i < w.next → j < w.next → f i = f j → i = j
  bound : ∀ i < w.next, f i < s.locals.length
  scope : Names f w.next s.scope w.last
  lexical : Names f w.next s.lexical w.here
  regions : Sites f w.next s.regions w.regions
  loops : Forall₂ (LoopFits f w.next) s.loopStack w.loops
  finals : Forall₂ (PendingFits f w.next) s.finallyStack w.finals

structure Tracks (T : World) (s : LowerState) (w : ScopeState) : Prop where
  stopped : s.blockTerminated = w.stopped
  env : s.closureEnvLocal.isSome = w.hasEnv
  paths : (∀ r ∈ s.paths, r.used = r.meant) ↔ w.fresh = true
  balanced : s.balanced = w.balanced
  fits : ∃ f, Fits f s w ∧ T.holds f w.next

variable {f f' : ℕ → LocalId} {n n' : ℕ} {sc : Scope} {b : Bindings} {T : World}
  {s s' : LowerState} {w : ScopeState}

theorem Names.stable (h : Names f n sc b) (hn : n ≤ n') (hf : ∀ i < n, f' i = f i) :
    Names f' n' sc b := by
  intro name
  obtain ⟨h₁, h₂⟩ := h name
  refine ⟨?_, fun i hi => Nat.lt_of_lt_of_le (h₂ i hi) hn⟩
  rw [h₁]
  cases hb : b name with
  | none => rfl
  | some i => exact congrArg some (hf i (h₂ i hb)).symm

theorem Names.update {name : String} {i : ℕ} (h : Names f n sc b) (hi : i < n) :
    Names f n (update sc name (some (f i))) (Function.update b name (some i)) := by
  intro m
  by_cases hm : m = name
  · subst hm
    rw [update_self, update_self]
    exact ⟨rfl, fun j hj => Option.some.inj hj ▸ hi⟩
  · rw [update_of_ne hm, update_of_ne hm]
    exact h m

theorem Sites.stable {r : List LocalId} {q : List ℕ} (h : Sites f n r q) (hn : n ≤ n')
    (hf : ∀ i < n, f' i = f i) : Sites f' n' r q :=
  ⟨h.1.trans (map_congr_left fun i hi => (hf i (h.2 i hi)).symm),
    fun i hi => Nat.lt_of_lt_of_le (h.2 i hi) hn⟩

theorem Sites.cons {r : List LocalId} {q : List ℕ} {i : ℕ} {l : LocalId} (h : Sites f n r q)
    (hl : l = f i ∧ i < n) : Sites f n (l :: r) (i :: q) := by
  refine ⟨?_, fun j hj => ?_⟩
  · rw [List.map_cons, ← h.1, ← hl.1]
  · rcases List.mem_cons.mp hj with rfl | hj
    · exact hl.2
    · exact h.2 j hj

theorem PendingFits.stable {F : Finalizer} {p : Pending} (h : PendingFits f n F p)
    (hn : n ≤ n') (hf : ∀ i < n, f' i = f i) : PendingFits f' n' F p :=
  ⟨h.body, h.handlerActive, h.lexical.stable hn hf, h.regions.stable hn hf,
    h.exception.1.trans (hf _ h.exception.2).symm, Nat.lt_of_lt_of_le h.exception.2 hn⟩

theorem PendingFits.inside {F : Finalizer} {p : Pending} (h : PendingFits f n F p) :
    Sites f n F.inside p.inside := by
  unfold Finalizer.inside Pending.inside
  rw [h.handlerActive]
  split
  · exact h.regions.cons h.exception
  · exact h.regions

theorem LoopFits.stable {c : LoopContext} {l : LoopScope} (h : LoopFits f n c l) (hn : n ≤ n')
    (hf : ∀ i < n, f' i = f i) : LoopFits f' n' c l :=
  ⟨h.label, h.depth, h.regions.stable hn hf⟩

theorem map_inj_of_lt {q q' : List ℕ} (hf : ∀ i j, i < n → j < n → f i = f j → i = j)
    (h : ∀ i ∈ q, i < n) (h' : ∀ i ∈ q', i < n) (he : q.map f = q'.map f) : q = q' := by
  induction q generalizing q' with
  | nil => exact (List.map_eq_nil_iff.mp he.symm).symm
  | cons i q ih =>
    cases q' with
    | nil => cases he
    | cons j q' =>
      obtain ⟨hij, hq⟩ := List.cons.inj he
      rw [hf i j (h i mem_cons_self) (h' j mem_cons_self) hij,
        ih (fun k hk => h k (mem_cons_of_mem _ hk)) (fun k hk => h' k (mem_cons_of_mem _ hk)) hq]

/-- Lists of try bodies agree where their numbers do. -/
theorem Sites.eq_iff {r r' : List LocalId} {q q' : List ℕ} (h : Sites f n r q)
    (h' : Sites f n r' q') (hf : ∀ i j, i < n → j < n → f i = f j → i = j) :
    r = r' ↔ q = q' := by
  rw [h.1, h'.1]
  exact ⟨map_inj_of_lt hf h.2 h'.2, fun he => he ▸ rfl⟩

/-- Names agree where their bindings do. -/
theorem Names.eq_iff {sc' : Scope} {b' : Bindings} (h : Names f n sc b) (h' : Names f n sc' b')
    (hf : ∀ i j, i < n → j < n → f i = f j → i = j) (name : String) :
    sc name = sc' name ↔ b name = b' name := by
  obtain ⟨h₁, h₂⟩ := h name
  obtain ⟨h₁', h₂'⟩ := h' name
  rw [h₁, h₁']
  constructor
  · intro he
    cases hb : b name with
    | none =>
      rw [hb] at he
      exact (Option.map_eq_none_iff.mp he.symm).symm
    | some i =>
      rw [hb] at he
      obtain ⟨j, hj, hij⟩ := Option.map_eq_some_iff.mp he.symm
      rw [hj, hf i j (h₂ i hb) (h₂' j hj) hij.symm]
  · intro he
    rw [he]

/-- What code may change without a counterpart in the visit. -/
structure Quiet (s s' : LowerState) : Prop where
  stopped : s'.blockTerminated = s.blockTerminated
  env : s'.closureEnvLocal = s.closureEnvLocal
  loops : s'.loopStack = s.loopStack
  paths : s'.paths = s.paths
  scope : s'.scope = s.scope
  lexical : s'.lexical = s.lexical
  regions : s'.regions = s.regions
  balanced : s'.balanced = s.balanced
  finals : s'.finallyStack = s.finallyStack
  locals : s.locals.length ≤ s'.locals.length

theorem Tracks.quiet (h : Tracks T s w) (hq : Quiet s s') : Tracks T s' w := by
  obtain ⟨f, hf, hT⟩ := h.fits
  refine ⟨hq.stopped.trans h.stopped, by rw [hq.env]; exact h.env,
    by rw [hq.paths]; exact h.paths, hq.balanced.trans h.balanced, f, ?_, hT⟩
  constructor
  · exact hf.inj
  · exact fun i hi => Nat.lt_of_lt_of_le (hf.bound i hi) hq.locals
  · rw [hq.scope]
    exact hf.scope
  · rw [hq.lexical]
    exact hf.lexical
  · rw [hq.regions]
    exact hf.regions
  · rw [hq.loops]
    exact hf.loops
  · rw [hq.finals]
    exact hf.finals

end Relation

section Rules

variable {α β γ δ : Type}

/-- The visit has no counterpart of `x`. -/
class Still (x : LowerM α) : Prop where
  silent : Silent Tracks x

/-- `x` at most starts or ends a block. -/
class Flag (x : LowerM α) : Prop where
  flag : ∀ T s w a s', Tracks T s w → x s = .ok (a, s') → ∃ b, Tracks T s' { w with stopped := b }

/-- The visit starts a block. -/
class Resumes (y : Visit β) : Prop where
  resumes : ∀ w b, y { w with stopped := b } = y w

variable {x : LowerM α} {y : Visit Unit} {g : α → LowerM β} {h : Unit → Visit γ} {T : World}
  {s s' : LowerState} {w : ScopeState}

theorem still_of_quiet (hq : ∀ s a s', x s = .ok (a, s') → Quiet s s') : Still x :=
  ⟨fun _ s _ a s' hR hx => hR.quiet (hq s a s' hx)⟩

theorem Quiet.refl (s : LowerState) : Quiet s s := ⟨rfl, rfl, rfl, rfl, rfl, rfl, rfl, rfl, rfl, Nat.le_refl _⟩

instance (name : String) (mut_ : Bool) : Still (newLocal name mut_) :=
  still_of_quiet fun s a s' hx => by
    cases hx
    exact ⟨rfl, rfl, rfl, rfl, rfl, rfl, rfl, rfl, rfl, by simp⟩

instance : Still newBlock :=
  still_of_quiet fun s a s' hx => by
    cases hx
    exact ⟨rfl, rfl, rfl, rfl, rfl, rfl, rfl, rfl, rfl, Nat.le_refl _⟩

instance (st : Statement) : Still (emit st) :=
  still_of_quiet fun s a s' hx => by
    cases hx
    split
    · exact .refl s
    · exact ⟨rfl, rfl, rfl, rfl, rfl, rfl, rfl, rfl, rfl, Nat.le_refl _⟩

instance (name : String) : Still (lookup name) :=
  still_of_quiet fun s a s' hx => by
    cases hx
    exact .refl s

instance : Still closureEnv :=
  still_of_quiet fun s a s' hx => by
    cases hx
    exact .refl s

instance : Still isTerminated :=
  still_of_quiet fun s a s' hx => by
    cases hx
    exact .refl s

instance : Still (get : LowerM LowerState) :=
  still_of_quiet fun s a s' hx => by
    cases hx
    exact .refl s

instance (a : α) : Still (pure a : LowerM α) := ⟨Silent.pure⟩

instance [hx : Still x] [hg : ∀ a, Still (g a)] : Still (x >>= g) :=
  ⟨Silent.bind hx.silent fun a => (hg a).silent⟩

instance {p : Prop} [Decidable p] {x x' : LowerM α} [hx : Still x] [hx' : Still x'] :
    Still (if p then x else x') := by
  split
  · exact hx
  · exact hx'

instance : Still scratchLocal :=
  still_of_quiet fun s a s' hx => by
    unfold scratchLocal at hx
    split at hx
    · cases hx
      exact .refl s
    · cases hx
      exact ⟨rfl, rfl, rfl, rfl, rfl, rfl, rfl, rfl, rfl, by simp⟩

instance : Still unitLocal := by
  unfold unitLocal
  infer_instance

instance (r : List LocalId) (st : Statement) : Still (atRegions r (emit st)) :=
  still_of_quiet fun s a s' hx => by
    cases hx
    dsimp only
    split
    all_goals exact ⟨rfl, rfl, rfl, rfl, rfl, rfl, rfl, rfl, rfl, Nat.le_refl _⟩

instance (F : Finalizer) : Still (popHandler F) := by
  unfold popHandler
  infer_instance

theorem Tracks.still {a : α} [hx : Still x] (hR : Tracks T s w) (h : x s = .ok (a, s')) :
    Tracks T s' w := hx.silent T s w a s' hR h

theorem Tracks.stop (h : Tracks T s w) (b : Bool) :
    Tracks T { s with blockTerminated := b } { w with stopped := b } := by
  obtain ⟨f, hf, hT⟩ := h.fits
  exact ⟨rfl, h.env, h.paths, h.balanced, f,
    ⟨hf.inj, hf.bound, hf.scope, hf.lexical, hf.regions, hf.loops, hf.finals⟩, hT⟩

instance (priority := low) flag_of_still [hx : Still x] : Flag x :=
  ⟨fun T s w a s' hR h => ⟨w.stopped, hx.silent T s w a s' hR h⟩⟩

theorem term_ok {t : Terminator} {a : Unit} (hx : term t s = .ok (a, s')) :
    s'.blockTerminated = true ∧ Quiet { s with blockTerminated := true } s' := by
  cases hx
  split
  · next h => exact ⟨h, ⟨h, rfl, rfl, rfl, rfl, rfl, rfl, rfl, rfl, Nat.le_refl _⟩⟩
  · exact ⟨rfl, ⟨rfl, rfl, rfl, rfl, rfl, rfl, rfl, rfl, rfl, Nat.le_refl _⟩⟩

instance (t : Terminator) : Flag (term t) :=
  ⟨fun _ _ _ _ _ hR hx => ⟨true, (hR.stop true).quiet (term_ok hx).2⟩⟩

instance (i : BlockId) : Flag (startBlock i) :=
  ⟨fun _ s _ _ _ hR hx => by
    cases hx
    exact ⟨false, (hR.stop false).quiet ⟨rfl, rfl, rfl, rfl, rfl, rfl, rfl, rfl, rfl, Nat.le_refl _⟩⟩⟩

instance [hx : Flag x] [hg : ∀ a, Flag (g a)] : Flag (x >>= g) :=
  ⟨fun T s w c s' hR h => by
    obtain ⟨a, t, ha, hc⟩ := bind_eq_ok h
    obtain ⟨b, hR₁⟩ := hx.flag T s w a t hR ha
    obtain ⟨b', hR₂⟩ := (hg a).flag T t _ c s' hR₁ hc
    exact ⟨b', hR₂⟩⟩

instance {p : Prop} [Decidable p] {x x' : LowerM α} [hx : Flag x] [hx' : Flag x'] :
    Flag (if p then x else x') := by
  split
  · exact hx
  · exact hx'

instance : Resumes resume := ⟨fun _ _ => rfl⟩

instance : Resumes (resume >>= h) := ⟨fun _ _ => rfl⟩

/-- `x` is visited by `y`. -/
abbrev Follows (x : LowerM α) (y : Visit Unit) : Prop := Sim Tracks (fun _ _ => True) x y

variable {V : β → γ → Prop} {y' : Visit γ}

/-- Code that the visit passes over. -/
theorem Sim.still [hx : Still x] (hg : ∀ a, Sim Tracks V (g a) y') : Sim Tracks V (x >>= g) y' :=
  Sim.left hx.silent hg

/-- Code before a block is started. -/
theorem Sim.flag [hx : Flag x] [hy : Resumes y'] (hg : ∀ a, Sim Tracks V (g a) y') :
    Sim Tracks V (x >>= g) y' := by
  intro T s w c s' hR h
  obtain ⟨a, t, ha, hc⟩ := bind_eq_ok h
  obtain ⟨b, hR₁⟩ := hx.flag T s w a t hR ha
  have := hg a T t _ c s' hR₁ hc
  rwa [hy.resumes] at this

/-- Code after the last part that is visited. -/
theorem Follows.then (hx : Follows x y) [hg : ∀ a, Still (g a)] : Follows (x >>= g) y := by
  intro T s w c s' hR h
  obtain ⟨a, t, ha, hc⟩ := bind_eq_ok h
  exact ⟨trivial, (hg a).silent T t _ c s' (hx T s w a t hR ha).2 hc⟩

theorem Follows.seq {z : Visit Unit} (hx : Follows x y) (hg : ∀ a, Follows (g a) z) :
    Follows (x >>= g) (y >>= fun _ => z) := Sim.bind hx fun a _ _ => hg a

theorem Follows.nothing [hx : Still x] : Follows x (return ()) :=
  Sim.of_silent hx.silent fun _ => trivial

/-- `y` visits `x` but for the end of a block. -/
def Ends (x : LowerM α) (y : Visit Unit) : Prop :=
  ∀ T s w a s', Tracks T s w → x s = .ok (a, s') → ∃ b, Tracks T s' { (y w).2 with stopped := b }

theorem Follows.thenFlag (hx : Follows x y) [hg : ∀ a, Flag (g a)] : Ends (x >>= g) y := by
  intro T s w c s' hR h
  obtain ⟨a, t, ha, hc⟩ := bind_eq_ok h
  exact (hg a).flag T t _ c s' (hx T s w a t hR ha).2 hc

theorem Ends.nothing [hx : Flag x] : Ends x (return ()) := fun T s w a s' hR h =>
  hx.flag T s w a s' hR h

theorem Ends.still {x : LowerM α} {g : α → LowerM β} [hx : Still x] (hg : ∀ a, Ends (g a) y) :
    Ends (x >>= g) y := by
  intro T s w c s' hR h
  obtain ⟨a, t, ha, hc⟩ := bind_eq_ok h
  exact hg a T t w c s' (hx.silent T s w a t hR ha) hc

theorem Ends.after {z : Visit Unit} (hx : Follows x y) (hg : ∀ a, Ends (g a) z) :
    Ends (x >>= g) (y >>= fun _ => z) := by
  intro T s w c s' hR h
  obtain ⟨a, t, ha, hc⟩ := bind_eq_ok h
  exact hg a T t _ c s' (hx T s w a t hR ha).2 hc

theorem Ends.seq {z : Visit Unit} [hz : Resumes z] (hx : Ends x y)
    (hg : ∀ a, Follows (g a) z) : Follows (x >>= g) (y >>= fun _ => z) := by
  intro T s w c s' hR h
  obtain ⟨a, t, ha, hc⟩ := bind_eq_ok h
  obtain ⟨b, hR₁⟩ := hx T s w a t hR ha
  have := hg a T t _ c s' hR₁ hc
  rw [hz.resumes] at this
  exact this

theorem follows_startBlock (i : BlockId) : Follows (startBlock i) resume := by
  intro T s w a s' hR hx
  cases hx
  exact ⟨trivial, (hR.stop false).quiet ⟨rfl, rfl, rfl, rfl, rfl, rfl, rfl, rfl, rfl, Nat.le_refl _⟩⟩

theorem follows_term (t : Terminator) : Follows (term t) stop := fun _ _ _ _ _ hR hx =>
  ⟨trivial, (hR.stop true).quiet (term_ok hx).2⟩

theorem follows_terminate : Follows terminate stop := by
  intro T s w a s' hR hx
  cases hx
  exact ⟨trivial, hR.stop true⟩

theorem sim_closureEnv : Sim Tracks (fun a b => a.isSome = b) closureEnv hasEnvironment := by
  intro T s w a s' hR hx
  cases hx
  exact ⟨hR.env, hR⟩

theorem sim_isTerminated : Sim Tracks (fun a b => a = b) isTerminated isStopped := by
  intro T s w a s' hR hx
  cases hx
  exact ⟨hR.stopped, hR⟩

end Rules

section Worlds

variable {l : Scope} {h : Bindings} {r : List LocalId} {q : List ℕ} {T : World} {s : LowerState}
  {w : ScopeState} {fs : List Finalizer} {ps : List Pending}

/-- A world in which a scope and bindings agree. -/
def World.names (T : World) (l : Scope) (h : Bindings) : World where
  holds f n := T.holds f n ∧ Names f n l h
  stable f n f' n' hf hn he := ⟨T.stable f n f' n' hf.1 hn he, hf.2.stable hn he⟩

/-- A world in which lists of try bodies agree. -/
def World.sites (T : World) (r : List LocalId) (q : List ℕ) : World where
  holds f n := T.holds f n ∧ Sites f n r q
  stable f n f' n' hf hn he := ⟨T.stable f n f' n' hf.1 hn he, hf.2.stable hn he⟩

/-- A world in which finally bodies agree. -/
def World.pending (T : World) (fs : List Finalizer) (ps : List Pending) : World where
  holds f n := T.holds f n ∧ Forall₂ (PendingFits f n) fs ps
  stable f n f' n' hf hn he :=
    ⟨T.stable f n f' n' hf.1 hn he, hf.2.imp fun _ _ hp => hp.stable hn he⟩

/-- A world in which the local of a binding is known. -/
def World.binding (T : World) (i : ℕ) (l : LocalId) : World where
  holds f n := T.holds f n ∧ l = f i ∧ i < n
  stable f n f' n' hf hn he :=
    ⟨T.stable f n f' n' hf.1 hn he, hf.2.1.trans (he i hf.2.2).symm, Nat.lt_of_lt_of_le hf.2.2 hn⟩

theorem Tracks.weaken (T' : World) (hR : Tracks T s w)
    (hT : ∀ f n, T.holds f n → T'.holds f n) : Tracks T' s w := by
  obtain ⟨f, hf, hh⟩ := hR.fits
  exact ⟨hR.stopped, hR.env, hR.paths, hR.balanced, f, hf, hT _ _ hh⟩

/-- The world remembers what is written around the place. -/
theorem Tracks.remember (hR : Tracks T s w) :
    Tracks ((T.names s.lexical w.here).sites s.regions w.regions) s w := by
  obtain ⟨f, hf, hT⟩ := hR.fits
  exact ⟨hR.stopped, hR.env, hR.paths, hR.balanced, f, hf, ⟨hT, hf.lexical⟩, hf.regions⟩

/-- The world remembers what an exit from the place runs. -/
theorem Tracks.rememberExit (hR : Tracks T s w) :
    Tracks ((T.pending s.finallyStack w.finals).sites s.regions w.regions) s w := by
  obtain ⟨f, hf, hT⟩ := hR.fits
  exact ⟨hR.stopped, hR.env, hR.paths, hR.balanced, f, hf, ⟨hT, hf.finals⟩, hf.regions⟩

theorem Tracks.setPlace (hR : Tracks ((T.names l h).sites r q) s w) :
    Tracks T { s with lexical := l, regions := r } { w with here := h, regions := q } := by
  obtain ⟨f, hf, ⟨hT, hl⟩, hr⟩ := hR.fits
  exact ⟨hR.stopped, hR.env, hR.paths, hR.balanced, f,
    ⟨hf.inj, hf.bound, hf.scope, hl, hr, hf.loops, hf.finals⟩, hT⟩

theorem Tracks.setLexical (hR : Tracks (T.names l h) s w) :
    Tracks T { s with lexical := l } { w with here := h } := by
  obtain ⟨f, hf, hT, hl⟩ := hR.fits
  exact ⟨hR.stopped, hR.env, hR.paths, hR.balanced, f,
    ⟨hf.inj, hf.bound, hf.scope, hl, hf.regions, hf.loops, hf.finals⟩, hT⟩

theorem Tracks.setRegions (hR : Tracks (T.sites r q) s w) :
    Tracks T { s with regions := r } { w with regions := q } := by
  obtain ⟨f, hf, hT, hr⟩ := hR.fits
  exact ⟨hR.stopped, hR.env, hR.paths, hR.balanced, f,
    ⟨hf.inj, hf.bound, hf.scope, hf.lexical, hr, hf.loops, hf.finals⟩, hT⟩

theorem Tracks.setStack (hR : Tracks (T.pending fs ps) s w) :
    Tracks T { s with finallyStack := fs } { w with finals := ps } := by
  obtain ⟨f, hf, hT, hl⟩ := hR.fits
  exact ⟨hR.stopped, hR.env, hR.paths, hR.balanced, f,
    ⟨hf.inj, hf.bound, hf.scope, hf.lexical, hf.regions, hf.loops, hl⟩, hT⟩

end Worlds

section Scopes

variable {α β : Type} {V : α → β → Prop} {x : LowerM α} {y : Visit β} {T : World} {l : Scope}
  {h : Bindings} {s s' : LowerState} {w : ScopeState} {a : α} {r : List LocalId} {q : List ℕ}

theorem map_ok {g : α × LowerState → α × LowerState}
    (hx : (x s >>= fun p => .ok (g p)) = .ok (a, s')) :
    ∃ b t, x s = .ok (b, t) ∧ g (b, t) = (a, s') := by
  cases hp : x s with
  | error e =>
    rw [hp] at hx
    cases hx
  | ok p =>
    rw [hp] at hx
    exact ⟨p.1, p.2, rfl, Except.ok.inj hx⟩

theorem sim_writtenAt (hxy : Sim Tracks V x y)
    (hT : ∀ f n, T.holds f n → Names f n l h ∧ Sites f n r q) (hR : Tracks T s w)
    (hx : writtenAt l r x s = .ok (a, s')) :
    V a (visitAt h q y w).1 ∧ Tracks T s' (visitAt h q y w).2 := by
  obtain ⟨b, t, hb, he⟩ := map_ok (s := { s with lexical := l, regions := r })
    (g := fun p => (p.1, { p.2 with lexical := s.lexical, regions := s.regions })) hx
  obtain ⟨rfl, rfl⟩ := Prod.mk.inj he
  have hR' : Tracks
      ((((T.names s.lexical w.here).sites s.regions w.regions).names l h).sites r q) s w :=
    hR.remember.weaken _ fun f n hf =>
      ⟨⟨hf, (hT f n hf.1.1).1⟩, (hT f n hf.1.1).2⟩
  obtain ⟨hv, hR₁⟩ := hxy _ _ _ _ _ hR'.setPlace hb
  exact ⟨hv, hR₁.setPlace⟩

theorem sim_inScope (hxy : Sim Tracks V x y) : Sim Tracks V (inScope x) (visitScope y) := by
  intro T s w a s' hR hx
  obtain ⟨b, t, hb, he⟩ := map_ok (g := fun p => (p.1, { p.2 with lexical := s.lexical })) hx
  obtain ⟨rfl, rfl⟩ := Prod.mk.inj he
  have hR' : Tracks (T.names s.lexical w.here) s w := hR.remember.weaken _ fun f n hf => hf.1
  obtain ⟨hv, hR₁⟩ := hxy _ _ _ _ _ hR' hb
  exact ⟨hv, hR₁.setLexical⟩

theorem ends_inScope {y : Visit Unit} (hxy : Ends x y) : Ends (inScope x) (visitScope y) := by
  intro T s w a s' hR hx
  obtain ⟨b, t, hb, he⟩ := map_ok (g := fun p => (p.1, { p.2 with lexical := s.lexical })) hx
  obtain ⟨rfl, rfl⟩ := Prod.mk.inj he
  have hR' : Tracks (T.names s.lexical w.here) s w := hR.remember.weaken _ fun f n hf => hf.1
  obtain ⟨c, hR₁⟩ := hxy _ _ _ _ _ hR' hb
  exact ⟨c, hR₁.setLexical⟩

/-- A try body, in a world that knows its exception variable. -/
theorem tracks_inRegion {i : ℕ} {e : LocalId} (hT : ∀ f n, T.holds f n → e = f i ∧ i < n)
    (hxy : ∀ T' s w a s', (∀ f n, T'.holds f n → T.holds f n) → Tracks T' s w →
      x s = .ok (a, s') → V a (y w).1 ∧ Tracks T' s' (y w).2)
    (hR : Tracks T s w) (hx : inRegion e x s = .ok (a, s')) :
    V a (visitRegion i y w).1 ∧ Tracks T s' (visitRegion i y w).2 := by
  obtain ⟨b, t, hb, he⟩ := map_ok (s := { s with regions := e :: s.regions })
    (g := fun p => (p.1, { p.2 with regions := s.regions })) hx
  obtain ⟨rfl, rfl⟩ := Prod.mk.inj he
  have hR' : Tracks ((T.sites s.regions w.regions).sites (e :: s.regions) (i :: w.regions)) s w :=
    hR.remember.weaken _ fun f n hf => ⟨⟨hf.1.1, hf.2⟩, hf.2.cons (hT f n hf.1.1)⟩
  obtain ⟨hv, hR₁⟩ := hxy (T.sites s.regions w.regions) _ _ _ _ (fun f n hf => hf.1)
    hR'.setRegions hb
  exact ⟨hv, hR₁.setRegions⟩

theorem sim_withLoop {i j : BlockId} {label : Option String} (hxy : Sim Tracks V x y) :
    Sim Tracks V (withLoop i j label x) (visitLoop label y) := by
  intro T s w a s' hR hx
  obtain ⟨b, t, hb, he⟩ := map_ok
    (s := { s with
      loopStack := ⟨i, j, label, s.finallyStack.length, s.regions⟩ :: s.loopStack })
    (g := fun p => (p.1, { p.2 with loopStack := p.2.loopStack.tail })) hx
  obtain ⟨rfl, rfl⟩ := Prod.mk.inj he
  obtain ⟨f, hf, hT⟩ := hR.fits
  have hR' : Tracks T
      { s with loopStack := ⟨i, j, label, s.finallyStack.length, s.regions⟩ :: s.loopStack }
      { w with loops := ⟨label, w.finals.length, w.regions⟩ :: w.loops } :=
    ⟨hR.stopped, hR.env, hR.paths, hR.balanced, f, ⟨hf.inj, hf.bound, hf.scope, hf.lexical,
      hf.regions, .cons ⟨rfl, hf.finals.length_eq, hf.regions⟩ hf.loops, hf.finals⟩, hT⟩
  obtain ⟨hv, hR₁⟩ := hxy _ _ _ _ _ hR' hb
  obtain ⟨f', hf', hT'⟩ := hR₁.fits
  have := forall₂_drop 1 hf'.loops
  rw [List.drop_one, List.drop_one] at this
  exact ⟨hv, hR₁.stopped, hR₁.env, hR₁.paths, hR₁.balanced, f',
    ⟨hf'.inj, hf'.bound, hf'.scope, hf'.lexical, hf'.regions, this, hf'.finals⟩, hT'⟩

/-- What a world must know to visit a part of a try statement. -/
structure TryFits (f : ℕ → LocalId) (n : ℕ) (l : Scope) (h : Bindings) (r : List LocalId)
    (q : List ℕ) (e : LocalId) (i : ℕ) : Prop where
  lexical : Names f n l h
  regions : Sites f n r q
  exception : e = f i ∧ i < n

/-- A part of a try statement, in a world that remembers what is around the statement. -/
theorem sim_withFinalizer {body : Option HirExpr} {active : Bool} {e : LocalId} {i : ℕ}
    (hxy : Sim Tracks V x y) (hT : ∀ f n, T.holds f n → TryFits f n l h r q e i)
    (hR : Tracks T s w) (hx : withFinalizer body active l r e x s = .ok (a, s')) :
    V a (visitPending body active h q i y w).1 ∧
      Tracks T s' (visitPending body active h q i y w).2 := by
  cases body with
  | none => exact hxy T s w a s' hR hx
  | some b =>
    obtain ⟨b', t, hb, he⟩ := map_ok
      (s := { s with finallyStack := ⟨b, active, l, r, e⟩ :: s.finallyStack })
      (g := fun p => (p.1, { p.2 with finallyStack := p.2.finallyStack.tail })) hx
    obtain ⟨rfl, rfl⟩ := Prod.mk.inj he
    obtain ⟨f, hf, hh⟩ := hR.fits
    obtain ⟨hl, hr, hi⟩ := hT _ _ hh
    have hR' : Tracks T { s with finallyStack := ⟨b, active, l, r, e⟩ :: s.finallyStack }
        { w with finals := ⟨b, active, h, q, i⟩ :: w.finals } :=
      ⟨hR.stopped, hR.env, hR.paths, hR.balanced, f, ⟨hf.inj, hf.bound, hf.scope, hf.lexical,
        hf.regions, hf.loops, .cons ⟨rfl, rfl, hl, hr, hi⟩ hf.finals⟩, hh⟩
    obtain ⟨hv, hR₁⟩ := hxy _ _ _ _ _ hR' hb
    obtain ⟨f', hf', hh'⟩ := hR₁.fits
    have := forall₂_drop 1 hf'.finals
    rw [List.drop_one, List.drop_one] at this
    exact ⟨hv, hR₁.stopped, hR₁.env, hR₁.paths, hR₁.balanced, f',
      ⟨hf'.inj, hf'.bound, hf'.scope, hf'.lexical, hf'.regions, hf'.loops, this⟩, hh'⟩

end Scopes

section Exits

variable {rec : HirExpr → LowerM LocalId} {vrec : HirExpr → Visit Unit}

/-- Two marks of the same fact. -/
theorem tracks_mark {T : World} {s s' : LowerState} {w : ScopeState} {a : Unit} {b c : Bool}
    (hR : Tracks T s w) (hx : mark b s = .ok (a, s')) (hbc : b = c) :
    Tracks T s' (markExit c w).2 := by
  subst hbc
  cases hx
  have hs := hR.stopped
  unfold markExit
  dsimp only
  rw [← hs]
  split
  · exact hR
  · obtain ⟨f, hf, hh⟩ := hR.fits
    refine ⟨rfl, hR.env, hR.paths, ?_, f,
      ⟨hf.inj, hf.bound, hf.scope, hf.lexical, hf.regions, hf.loops, hf.finals⟩, hh⟩
    exact congrArg (· && b) hR.balanced

theorem decide_sites {f : ℕ → LocalId} {n : ℕ} {r r' : List LocalId} {q q' : List ℕ}
    (h : Sites f n r q) (h' : Sites f n r' q')
    (hf : ∀ i j, i < n → j < n → f i = f j → i = j) : decide (r = r') = decide (q = q') :=
  decide_eq_decide.mpr (h.eq_iff h' hf)

variable (hrec : ∀ e, Follows (rec e) (vrec e))
include hrec

theorem tracks_runFinalizers {fs : List Finalizer} {ps : List Pending} {T : World}
    {s s' : LowerState} {w : ScopeState} {a : Bool} {r : List LocalId} {q : List ℕ}
    (hT : ∀ f n, T.holds f n → Sites f n r q ∧ Forall₂ (PendingFits f n) fs ps)
    (hR : Tracks T s w) (hx : runFinalizers rec r fs s = .ok (a, s')) :
    a = (visitFinals vrec q ps w).1 ∧ Tracks T s' (visitFinals vrec q ps w).2 := by
  induction fs generalizing ps s w r q with
  | nil =>
    obtain ⟨f, -, hh⟩ := hR.fits
    cases (hT _ _ hh).2
    obtain ⟨rfl, rfl⟩ := pure_eq_ok hx
    exact ⟨rfl, hR⟩
  | cons F fs ih =>
    obtain ⟨f, hf, hh⟩ := hR.fits
    cases ps with
    | nil => cases (hT _ _ hh).2
    | cons p ps =>
      have hp : ∀ f n, T.holds f n → PendingFits f n F p := fun f n hh =>
        (forall₂_cons.mp (hT f n hh).2).1
      obtain ⟨u, s₀, h₀, hx₀⟩ := bind_eq_ok hx
      obtain ⟨u', s₁, h₁, hx₁⟩ := bind_eq_ok hx₀
      obtain ⟨v, s₂, h₂, hx₂⟩ := bind_eq_ok hx₁
      have hR₀ := tracks_mark hR h₀ (decide_sites (hT _ _ hh).1 (hp _ _ hh).inside hf.inj)
      have hR₁ := (inferInstance : Still (popHandler F)).silent _ _ _ _ _ hR₀ h₁
      rw [(hp _ _ hh).body] at h₂
      obtain ⟨-, hR₂⟩ := sim_writtenAt (hrec p.body)
        (fun f n hh => ⟨(hp f n hh).lexical, (hp f n hh).regions⟩) hR₁ h₂
      obtain ⟨c, s₃, h₃, hx₃⟩ := bind_eq_ok hx₂
      cases h₃
      set w₂ := (visitAt p.here p.regions (vrec p.body) (markExit (decide (q = p.inside)) w).2).2
      have hv : visitFinals vrec q (p :: ps) w =
          if w₂.stopped then (false, w₂) else visitFinals vrec p.regions ps w₂ := by
        change (if w₂.stopped then (return false : Visit Bool)
          else visitFinals vrec p.regions ps) w₂ = _
        split <;> rfl
      rw [hv, ← hR₂.stopped]
      split at hx₃
      · next hs =>
        obtain ⟨rfl, rfl⟩ := pure_eq_ok hx₃
        rw [if_pos hs]
        exact ⟨rfl, hR₂⟩
      · next hs =>
        rw [if_neg hs]
        exact ih (fun f n hh => ⟨(hp f n hh).regions, (forall₂_cons.mp (hT f n hh).2).2⟩) hR₂ hx₃

theorem sim_lowerFinalizersTo (depth : ℕ) :
    Sim Tracks (fun a b => a = b) (lowerFinalizersTo rec depth) (visitFinalsTo vrec depth) := by
  intro T s w a s' hR hx
  set above := s.finallyStack.length - depth with habove
  obtain ⟨b, t, hb, he⟩ := map_ok (x := runFinalizers rec s.regions (s.finallyStack.take above))
    (s := { s with finallyStack := s.finallyStack.drop above })
    (g := fun p => (p.1, { p.2 with finallyStack := s.finallyStack })) hx
  obtain ⟨rfl, rfl⟩ := Prod.mk.inj he
  obtain ⟨f, hf, -⟩ := hR.fits
  have hlen := hf.finals.length_eq
  set T' := (T.pending s.finallyStack w.finals).sites s.regions w.regions
  have hRT : Tracks T' s w := hR.rememberExit
  have hR' : Tracks T' { s with finallyStack := s.finallyStack.drop above }
      { w with finals := w.finals.drop above } :=
    (hRT.weaken (T'.pending (s.finallyStack.drop above) (w.finals.drop above))
      fun f n hf => ⟨hf, forall₂_drop above hf.1.2⟩).setStack
  have hT : ∀ f n, T'.holds f n → Sites f n s.regions w.regions ∧
      Forall₂ (PendingFits f n) (s.finallyStack.take above) (w.finals.take above) :=
    fun f n hf => ⟨hf.2, forall₂_take above hf.1.2⟩
  obtain ⟨hv, hR₁⟩ := tracks_runFinalizers hrec hT hR' hb
  have hvis : visitFinalsTo vrec depth w =
      ((visitFinals vrec w.regions (w.finals.take above)
        { w with finals := w.finals.drop above }).1,
        { (visitFinals vrec w.regions (w.finals.take above)
          { w with finals := w.finals.drop above }).2 with finals := w.finals }) := by
    rw [habove, hlen]
    rfl
  rw [hvis]
  exact ⟨hv, (hR₁.weaken (T.pending s.finallyStack w.finals) fun f n hf => hf.1).setStack⟩

omit hrec in
theorem sites_after {f : ℕ → LocalId} {n : ℕ} {r : List LocalId} {q : List ℕ}
    {fs : List Finalizer} {ps : List Pending} (h : Sites f n r q)
    (hp : Forall₂ (PendingFits f n) fs ps) :
    Sites f n (afterFinalizers r fs) (afterPending q ps) := by
  induction hp generalizing r q with
  | nil => exact h
  | @cons F p fs ps hF hps ih =>
    have := ih hF.regions
    cases hps with
    | nil => exact this
    | cons =>
      unfold afterFinalizers afterPending at this ⊢
      rw [List.getLast?_cons_cons, List.getLast?_cons_cons]
      exact this

/-- An exit to the try bodies `r`, if it goes anywhere. -/
theorem tracks_exitWith {leave : LowerM Unit} (hl : Follows leave stop) (depth : ℕ)
    {T : World} {s s' : LowerState} {w : ScopeState} {a : Unit} {r : Option (List LocalId)}
    {q : Option (List ℕ)} (hR : Tracks T s w)
    (hT : ∀ f n, T.holds f n → Option.Rel (Sites f n) r q)
    (hx : exitWith rec depth r leave s = .ok (a, s')) :
    Tracks T s' (visitJump vrec depth q w).2 := by
  set T' := (T.pending s.finallyStack w.finals).sites s.regions w.regions
  obtain ⟨_, s₀, h₀, hx₀⟩ := bind_eq_ok hx
  cases h₀
  obtain ⟨c, s₁, h₁, hx₁⟩ := bind_eq_ok hx₀
  obtain ⟨hc, hR₁⟩ := sim_lowerFinalizersTo hrec depth T' s w c s₁ hR.rememberExit h₁
  have hv : visitJump vrec depth q w = (if (visitFinalsTo vrec depth w).1 then (do
      markExit (q.all fun q => q = afterPending w.regions
        (w.finals.take (w.finals.length - depth)))
      stop : Visit Unit) else return ()) (visitFinalsTo vrec depth w).2 := rfl
  rw [hv, ← hc]
  cases c with
  | false =>
    cases hx₁
    exact hR₁.weaken T fun f n hf => hf.1.1
  | true =>
    obtain ⟨_, s₂, h₂, hx₂⟩ := bind_eq_ok hx₁
    obtain ⟨f, hf, hh, hr⟩ := hR₁.fits
    have hafter := sites_after hr (forall₂_take (s.finallyStack.length - depth) hh.2)
    rw [hh.2.length_eq] at hafter
    have hmark : (r.all fun r => r = afterFinalizers s.regions
          (s.finallyStack.take (s.finallyStack.length - depth))) =
        q.all fun q => q = afterPending w.regions (w.finals.take (w.finals.length - depth)) := by
      rw [hh.2.length_eq]
      cases hT f _ hh.1 with
      | none => rfl
      | some hs => exact decide_sites hs hafter hf.inj
    have hR₂ := tracks_mark hR₁ h₂ hmark
    exact (hl _ _ _ _ _ (hR₂.weaken T fun f n hf => hf.1.1) hx₂).2

end Exits

section Bindings

variable {T : World} {s s' : LowerState} {w : ScopeState}

theorem sim_resolve (name : String) : Sim Tracks (fun _ _ => True) (resolve name) (use name) := by
  intro T s w a s' hR hx
  cases hx
  obtain ⟨f, hf, hT⟩ := hR.fits
  refine ⟨trivial, hR.stopped, hR.env, ?_, hR.balanced, f,
    ⟨hf.inj, hf.bound, hf.scope, hf.lexical, hf.regions, hf.loops, hf.finals⟩, hT⟩
  have hname := hf.scope.eq_iff hf.lexical hf.inj name
  simp only [use, Bool.and_eq_true, decide_eq_true_eq, ← hname, ← hR.paths, List.mem_cons,
    forall_eq_or_imp]
  exact and_comm

/-- A new local, and the binding that creates it. -/
theorem Tracks.fresh (hR : Tracks T s w) (hs : Quiet s s')
    (hl : s.locals.length < s'.locals.length) :
    Tracks (T.binding w.next s.locals.length) s' { w with next := w.next + 1 } := by
  obtain ⟨f, hf, hT⟩ := hR.fits
  have he : ∀ i < w.next, update f w.next s.locals.length i = f i := fun i hi =>
    update_of_ne (by omega) _ _
  have hn : w.next ≤ w.next + 1 := Nat.le_succ _
  refine ⟨hs.stopped.trans hR.stopped, by rw [hs.env]; exact hR.env,
    by rw [hs.paths]; exact hR.paths, hs.balanced.trans hR.balanced,
    update f w.next s.locals.length, ⟨fun i j hi hj hij => ?_, fun i hi => ?_,
      by rw [hs.scope]; exact hf.scope.stable hn he,
      by rw [hs.lexical]; exact hf.lexical.stable hn he,
      by rw [hs.regions]; exact hf.regions.stable hn he,
      by rw [hs.loops]; exact hf.loops.imp fun _ _ hl => hl.stable hn he,
      by rw [hs.finals]; exact hf.finals.imp fun _ _ hp => hp.stable hn he⟩,
    T.stable f _ _ _ hT hn he, (update_self w.next _ f).symm, Nat.lt_succ_self _⟩
  · simp only at hi hj
    rcases Nat.lt_succ_iff_lt_or_eq.mp hi with hi | rfl <;>
      rcases Nat.lt_succ_iff_lt_or_eq.mp hj with hj | rfl
    · rw [he i hi, he j hj] at hij
      exact hf.inj i j hi hj hij
    · rw [he i hi, update_self] at hij
      exact absurd hij (Nat.ne_of_lt (hf.bound i hi))
    · rw [he j hj, update_self] at hij
      exact absurd hij.symm (Nat.ne_of_lt (hf.bound j hj))
    · rfl
  · rcases Nat.lt_succ_iff_lt_or_eq.mp hi with hi | rfl
    · rw [he i hi]
      exact Nat.lt_trans (hf.bound i hi) hl
    · rw [update_self]
      exact hl

/-- A binding of a local whose number is known. -/
theorem Tracks.bind (name : String) {i : ℕ} {l : LocalId} (hR : Tracks T s w)
    (hT : ∀ f n, T.holds f n → l = f i ∧ i < n) :
    Tracks T
      { s with scope := update s.scope name (some l), lexical := update s.lexical name (some l) }
      { w with last := update w.last name (some i), here := update w.here name (some i) } := by
  obtain ⟨f, hf, hh⟩ := hR.fits
  obtain ⟨rfl, hi⟩ := hT _ _ hh
  exact ⟨hR.stopped, hR.env, hR.paths, hR.balanced, f, ⟨hf.inj, hf.bound, hf.scope.update hi,
    hf.lexical.update hi, hf.regions, hf.loops, hf.finals⟩, hh⟩

/-- Code that creates a local and binds it. -/
theorem follows_bind (name name' : String) (mut_ : Bool) (st : LocalId → Statement) :
    Follows (do
      let l ← newLocal name' mut_
      emit (st l)
      bindLocal name l) (do
      let i ← newBinding
      bindTo name i) := by
  intro T s w a s' hR hx
  obtain ⟨l, s₁, h₁, h⟩ := bind_eq_ok hx
  obtain ⟨u, s₂, h₂, h₃⟩ := bind_eq_ok h
  cases h₁
  cases h₃
  have hq : Quiet s s₂ := by
    cases h₂
    split
    all_goals exact ⟨rfl, rfl, rfl, rfl, rfl, rfl, rfl, rfl, rfl, by simp⟩
  have hl : s.locals.length < s₂.locals.length := by
    cases h₂
    split
    all_goals simp
  have hR' := (hR.fresh hq hl).bind name fun f n hf => hf.2
  exact ⟨trivial, hR'.weaken _ fun f n hf => hf.1⟩

end Bindings

section Nodes

variable {rec : HirExpr → LowerM LocalId} {vrec : HirExpr → Visit Unit}
  (hrec : ∀ e, Follows (rec e) (vrec e))
include hrec

theorem follows_lowerAll (es : List HirExpr) : Follows (lowerAll rec es) (visitAll vrec es) := by
  induction es with
  | nil => exact (Follows.nothing : Follows (pure []) (return ()))
  | cons e es ih => exact (hrec e).seq fun _ => ih.then

theorem follows_lowerAggregate (kind : AggregateKind) (name : String) (es : List HirExpr) :
    Follows (lowerAggregate rec kind name es) (visitAll vrec es) :=
  (follows_lowerAll hrec es).then

theorem follows_storeFields (obj : LocalId) (es : List (ℕ × HirExpr)) :
    Follows (storeFields rec obj es) (visitAll vrec (es.map Prod.snd)) := by
  induction es with
  | nil => exact (Follows.nothing : Follows (pure ()) (return ()))
  | cons e es ih => exact (hrec e.2).seq fun _ => Sim.still fun _ => ih

theorem follows_lowerStruct (size typeId : ℕ) (es : List HirExpr) :
    Follows (lowerStruct rec size typeId es) (visitAll vrec es) := by
  have h := follows_storeFields hrec
  refine Sim.still fun obj => Sim.still fun _ => ?_
  have := h obj (es.zipIdx.map fun p => (p.2 * 9, p.1))
  rw [List.map_map, show (Prod.snd ∘ fun p : HirExpr × ℕ => (p.2 * 9, p.1)) = Prod.fst from rfl,
    List.zipIdx_map_fst] at this
  exact this.then

theorem follows_lowerEnumCtor (typeId variantIndex size : ℕ) (offsets : List ℕ)
    (args : List HirExpr) :
    Follows (lowerEnumCtor rec typeId variantIndex size offsets args)
      (visitAll vrec ((offsets.zip args).map Prod.snd)) :=
  Sim.still fun obj => Sim.still fun _ => Sim.still fun _ =>
    (follows_storeFields hrec obj _).then

omit hrec in
theorem follows_finishCall (t : LocalId → BlockId → Terminator) :
    Follows (finishCall t) resume :=
  Sim.flag fun _ => Sim.flag fun _ => Sim.flag fun _ => (follows_startBlock _).then

theorem follows_lowerCall (label : String) (args : List HirExpr) :
    Follows (lowerCall rec label args) (visitAll vrec args >>= fun _ => resume) :=
  (follows_lowerAll hrec args).seq fun _ => follows_finishCall _

theorem follows_lowerCallValue (func : HirExpr) (args : List HirExpr) :
    Follows (lowerCallValue rec func args)
      (vrec func >>= fun _ => visitAll vrec args >>= fun _ => resume) := by
  refine (hrec func).seq fun f => (follows_lowerAll hrec args).seq fun ls => ?_
  split <;> exact follows_finishCall _

theorem follows_lowerMethodCall (recv : HirExpr) (dispatch : Dispatch) (args : List HirExpr) :
    Follows (lowerMethodCall rec recv dispatch args)
      (vrec recv >>= fun _ => visitAll vrec args >>= fun _ => resume) := by
  refine (hrec recv).seq fun r => (follows_lowerAll hrec args).seq fun ls => ?_
  cases dispatch <;> exact follows_finishCall _

theorem follows_lowerWith (e : HirExpr) (name : String) (rv : LocalId → Rvalue) :
    Follows (lowerWith rec e name rv) (vrec e) := (hrec e).then

theorem follows_lowerIndex (obj idx : HirExpr) :
    Follows (lowerIndex rec obj idx) (visitAll vrec [obj, idx]) :=
  (hrec obj).seq fun _ => (hrec idx).seq fun _ => Follows.nothing

theorem follows_lowerIsNot (e : HirExpr) (typeId : ℕ) :
    Follows (lowerIsNot rec e typeId) (vrec e) := (hrec e).then

omit hrec in
theorem flag_finishBranch (result v : LocalId) (exitB : BlockId) :
    Flag (finishBranch result v exitB) := by
  unfold finishBranch
  infer_instance

theorem ends_lowerElse (result : LocalId) (mergeB : BlockId) (e : Option HirExpr) :
    Ends (lowerElse rec result mergeB e) (visitOption vrec e) := by
  have := flag_finishBranch
  cases e with
  | some e => exact (hrec e).thenFlag
  | none => exact Ends.nothing (x := emit _ >>= fun _ => term _)

theorem follows_lowerIf (cond then_ : HirExpr) (else_ : Option HirExpr) :
    Follows (lowerIf rec cond then_ else_) (visitIf vrec cond then_ else_) := by
  have := flag_finishBranch
  refine (hrec cond).seq fun c => ?_
  refine Sim.flag fun thenB => Sim.flag fun elseB => Sim.flag fun mergeB => Sim.flag fun _ => ?_
  refine (follows_startBlock thenB).seq fun _ => (hrec then_).seq fun v => ?_
  refine Sim.flag fun result => Sim.flag fun _ => (follows_startBlock elseB).seq fun _ => ?_
  exact (ends_lowerElse hrec result mergeB else_).seq fun _ => (follows_startBlock mergeB).then

theorem follows_lowerBinary (op : MirBinOp) (l r : HirExpr) :
    Follows (lowerBinary rec op l r) (visitBinary vrec op l r) := by
  have hplain : Follows (do
      let a ← rec l
      let b ← rec r
      let tmp ← newLocal "bin" false
      emit (.assign tmp (.binary op (.copy a) (.copy b)))
      return tmp) (visitAll vrec [l, r]) :=
    (hrec l).seq fun _ => (hrec r).seq fun _ => Follows.nothing
  cases op
  case and | or => exact follows_lowerIf hrec _ _ _
  all_goals exact hplain

theorem follows_lowerPlace (e : HirExpr) : Follows (lowerPlace rec e) (visitPlace vrec e) := by
  cases e
  case path p =>
    refine @Follows.then _ _ _ _ _ (sim_resolve p.name) fun o => ?_
    cases o <;> infer_instance
  case deref e => exact hrec e
  case unary op e =>
    unfold lowerPlace visitPlace
    dsimp only
    split
    · exact hrec e
    · exact hrec _
  all_goals
    intro T s w a s' hR hx
    cases hx

omit hrec in
instance (op : MirAssignOp) (rd wr : String) (old : Rvalue) (rhs : LocalId) :
    Still (combine op rd wr old rhs) := by
  unfold combine
  infer_instance

theorem follows_assignPlace (op : MirAssignOp) (lhs rhs : HirExpr) :
    Follows (assignPlace rec op lhs rhs) (vrec rhs >>= fun _ => visitPlace vrec lhs) :=
  (hrec rhs).seq fun _ => (follows_lowerPlace hrec lhs).then

theorem follows_storePath (op : MirAssignOp) (p : HirPath) (env : Option LocalId)
    (rhs : HirExpr) :
    Follows (match p.captureOffset, env with
      | some offset, some env => assignCapture rec op env offset rhs
      | _, _ =>
        match p.globalSlot with
        | some slot => assignGlobal rec op slot rhs
        | none => assignPlace rec op (.path p) rhs)
      (vrec rhs >>= fun _ => useTarget p env.isSome) := by
  have hglobal : Follows (match p.globalSlot with
      | some slot => assignGlobal rec op slot rhs
      | none => assignPlace rec op (.path p) rhs)
      (vrec rhs >>= fun _ => if p.globalSlot.isSome then return () else use p.name) := by
    cases p.globalSlot with
    | some slot => exact (hrec rhs).seq fun _ => Follows.nothing
    | none => exact follows_assignPlace hrec op _ rhs
  unfold useTarget
  cases p.captureOffset with
  | none => exact hglobal
  | some offset =>
    cases env with
    | none => exact hglobal
    | some env => exact (hrec rhs).seq fun _ => Follows.nothing

theorem follows_lowerStore (op : MirAssignOp) (lhs rhs : HirExpr) :
    Follows (lowerStore rec op lhs rhs) (visitAssign vrec lhs rhs) := by
  cases lhs
  case path p =>
    refine Sim.bind sim_closureEnv ?_
    rintro env _ rfl
    exact follows_storePath hrec op p env rhs
  case field obj offset =>
    exact (hrec obj).seq fun _ => (hrec rhs).seq fun _ => Follows.nothing
  case index obj idx =>
    exact (hrec obj).seq fun _ => (hrec idx).seq fun _ => (hrec rhs).seq fun _ => Follows.nothing
  all_goals exact follows_assignPlace hrec op _ rhs

theorem follows_lowerAssign (op : MirAssignOp) (lhs rhs : HirExpr) :
    Follows (lowerAssign rec op lhs rhs) (visitAssign vrec lhs rhs) :=
  (follows_lowerStore hrec op lhs rhs).then

theorem follows_lowerOption (e : Option HirExpr) :
    Follows (lowerOption rec e) (visitOption vrec e) := by
  cases e with
  | some e => exact hrec e
  | none => exact Follows.nothing (x := pure 0)

theorem follows_lowerTail (e : Option HirExpr) :
    Follows (lowerTail rec e) (visitOption vrec e) := by
  cases e with
  | some e => exact hrec e
  | none => exact Follows.nothing (x := unitLocal)

theorem follows_lowerStmt (st : HirStmt HirExpr) :
    Follows (lowerStmt rec st) (visitStmt vrec st) := by
  refine Sim.bind sim_isTerminated ?_
  rintro a b rfl
  cases a with
  | true => exact Follows.nothing (x := pure ())
  | false =>
    cases st with
    | let_ pat init =>
      cases pat with
      | bind name mut_ => exact (hrec init).seq fun l => follows_bind name name mut_ _
      | wild | enum => exact (hrec init).then
    | expr e =>
      cases e with
      | some e => exact (hrec e).then
      | none => exact Follows.nothing (x := pure ())

theorem follows_lowerStmts (sts : List (HirStmt HirExpr)) :
    Follows (lowerStmts rec sts) (visitStmts vrec sts) := by
  induction sts with
  | nil => exact Follows.nothing (x := pure ())
  | cons st sts ih => exact (follows_lowerStmt hrec st).seq fun _ => ih

theorem follows_lowerBlock (sts : List (HirStmt HirExpr)) (tail : Option HirExpr) :
    Follows (lowerBlock rec sts tail) (visitBlock vrec sts tail) := by
  unfold lowerBlock visitBlock
  refine Sim.flag fun blockB => Sim.flag fun _ => (follows_startBlock blockB).seq fun _ => ?_
  exact sim_inScope ((follows_lowerStmts hrec sts).seq fun _ => follows_lowerTail hrec tail)

theorem follows_lowerWhile (cond body : HirExpr) (label : Option String) :
    Follows (lowerWhile rec cond body label) (visitWhile vrec cond body label) := by
  unfold lowerWhile visitWhile
  refine Sim.flag fun header => Sim.flag fun bodyB => Sim.flag fun exitB => Sim.flag fun _ => ?_
  refine (follows_startBlock header).seq fun _ => (hrec cond).seq fun c => Sim.flag fun _ => ?_
  refine (follows_startBlock bodyB).seq fun _ => Follows.seq (sim_withLoop (hrec body)) fun _ => ?_
  exact Sim.flag fun _ => (follows_startBlock exitB).then

theorem follows_lowerLoop (repeats : Bool) (body : HirExpr) (label : Option String) :
    Follows (lowerLoop rec repeats body label) (visitForever vrec body label) := by
  unfold lowerLoop visitForever
  refine Sim.flag fun bodyB => Sim.flag fun exitB => Sim.flag fun _ => ?_
  refine (follows_startBlock bodyB).seq fun _ => Follows.seq (sim_withLoop (hrec body)) fun _ => ?_
  exact Sim.flag fun _ => (follows_startBlock exitB).then

omit hrec in
theorem follows_bindPayloads (scrut : LocalId) (ps : List (Option HirPat × ℕ)) :
    Follows (bindPayloads scrut ps) (visitPayloads (ps.map Prod.fst)) := by
  induction ps with
  | nil => exact Follows.nothing (x := pure ())
  | cons p ps ih =>
    obtain ⟨_ | p, i⟩ := p
    · exact ih
    · cases p with
      | bind name mut_ =>
        have := (follows_bind name name mut_ fun l =>
          .assign l (.field scrut ((i + 1) * 9))).seq fun _ => ih
        simp only [bind_assoc] at this
        exact this
      | wild | enum => exact ih

omit hrec in
theorem follows_bindArm (scrut : LocalId) (c : Condition HirExpr) :
    Follows (bindArm scrut c) (visitBinds c) := by
  have hnone : Follows (pure () : LowerM Unit) (return ()) := Follows.nothing
  rcases c with e | (_ | (_ | ⟨name, mut_⟩ | ⟨elems, i⟩)) | _
  case pat.some.enum =>
    have := follows_bindPayloads scrut elems.zipIdx
    rwa [List.zipIdx_map_fst] at this
  all_goals exact hnone

theorem ends_lowerArm (scrut result : LocalId) (exitB : BlockId) (arm : HirWhenArm HirExpr) :
    Ends (lowerArm rec scrut result exitB arm) (visitArm vrec arm) := by
  have := flag_finishBranch
  exact ends_inScope (Ends.after (follows_bindArm scrut arm.condition) fun _ =>
    (hrec arm.body).thenFlag)

theorem ends_lowerCheck (scrut : LocalId) (c : Condition HirExpr) (bodyB next : BlockId) :
    Ends (lowerCheck rec scrut c bodyB next) (visitCheck vrec c) := by
  rcases c with e | (_ | (_ | ⟨name, mut_⟩ | ⟨elems, i⟩)) | _
  case expr => exact (hrec e).thenFlag
  case pat.some.enum => exact Ends.nothing (x := newLocal _ _ >>= fun _ => _)
  all_goals exact Ends.nothing (x := term _)

omit hrec in
/-- Each arm starts a block, and so does what comes after the arms. -/
theorem resumes_visitArms (vrec : HirExpr → Visit Unit) (arms : List (HirWhenArm HirExpr))
    {z : Visit Unit} [hz : Resumes z] : Resumes (visitArms vrec arms >>= fun _ => z) := by
  cases arms with
  | nil => exact hz
  | cons arm arms => exact ⟨fun _ _ => rfl⟩

theorem follows_lowerArms (scrut result : LocalId) (exitB elseB : BlockId)
    (arms : List (HirWhenArm HirExpr × BlockId × BlockId)) {z : Visit Unit} [Resumes z]
    {g : Unit → LowerM LocalId} (hg : Follows (g ()) z) :
    Follows (lowerArms rec scrut result exitB elseB arms >>= g)
      (visitArms vrec (arms.map Prod.fst) >>= fun _ => z) := by
  induction arms with
  | nil => exact hg
  | cons arm arms ih =>
    obtain ⟨arm, checkB, bodyB⟩ := arm
    have := resumes_visitArms vrec (arms.map Prod.fst) (z := z)
    simp only [lowerArms, visitArms, List.map_cons, bind_assoc]
    refine (follows_startBlock checkB).seq fun _ => (ends_lowerCheck hrec _ _ _ _).seq fun _ => ?_
    exact (follows_startBlock bodyB).seq fun _ => (ends_lowerArm hrec _ _ _ arm).seq fun _ => ih

omit hrec in
theorem follows_newArmBlocks {arms : List (HirWhenArm HirExpr)} {z : Visit Unit}
    {g : List (HirWhenArm HirExpr × BlockId × BlockId) → LowerM LocalId}
    (hg : ∀ checks, checks.map Prod.fst = arms → Follows (g checks) z) :
    Follows (newArmBlocks arms >>= g) z := by
  induction arms generalizing g with
  | nil => exact hg [] rfl
  | cons arm arms ih =>
    simp only [newArmBlocks, bind_assoc, pure_bind]
    refine Sim.still fun checkB => Sim.still fun bodyB => ih fun checks hc => ?_
    exact hg _ (congrArg (arm :: ·) hc)

omit hrec in
instance (elseArm : Option (HirWhenArm HirExpr)) (exitB : BlockId) :
    Still (newElse elseArm exitB) := by
  cases elseArm <;> unfold newElse <;> infer_instance

omit hrec in
theorem ends_enterChecks (checks : List (HirWhenArm HirExpr × BlockId × BlockId)) :
    Ends (enterChecks checks) (visitEnter (checks.map Prod.fst)) := by
  cases checks with
  | nil =>
    intro T s w a s' hR hx
    obtain ⟨_, s₁, h₁, hx₁⟩ := bind_eq_ok hx
    cases h₁
    obtain ⟨f, hf, -⟩ := hR.fits
    have hempty : Sites f w.next [] [] := ⟨rfl, fun i hi => nomatch hi⟩
    exact ⟨_, tracks_mark hR hx₁ (decide_sites hf.regions hempty hf.inj)⟩
  | cons c checks => exact (Ends.nothing (x := term (.goto c.2.1)) :)

theorem ends_lowerElseArm (result : LocalId) (exitB : BlockId)
    (arm : Option (HirWhenArm HirExpr)) :
    Ends (lowerElseArm rec result exitB arm) (visitOption vrec (arm.map HirWhenArm.body)) := by
  have := flag_finishBranch
  cases arm with
  | some arm => exact (hrec arm.body).thenFlag
  | none => exact Ends.nothing (x := pure ())

theorem follows_lowerWhen (scrut : Option HirExpr) (arms : List (HirWhenArm HirExpr)) :
    Follows (lowerWhen rec scrut arms) (visitWhen vrec scrut arms) := by
  unfold lowerWhen visitWhen
  split
  · exact Follows.nothing
  refine (follows_lowerOption hrec scrut).seq fun sc => Sim.still fun exitB => ?_
  refine Sim.still fun result => follows_newArmBlocks fun checks hc => Sim.still fun elseB => ?_
  rw [← hc]
  have := resumes_visitArms vrec (checks.map Prod.fst) (z := do
    resume
    visitOption vrec ((arms.find? fun arm => arm.isElse).map HirWhenArm.body)
    resume)
  refine (ends_enterChecks checks).seq fun _ =>
    follows_lowerArms hrec sc result exitB elseB checks ?_
  refine (follows_startBlock elseB).seq fun _ => (ends_lowerElseArm hrec _ _ _).seq fun _ => ?_
  exact (follows_startBlock exitB).then

end Nodes

section Jumps

variable {rec : HirExpr → LowerM LocalId} {vrec : HirExpr → Visit Unit}
  (hrec : ∀ e, Follows (rec e) (vrec e))

theorem rel_targetLoop {f : ℕ → LocalId} {n : ℕ} {cs : List LoopContext} {ls : List LoopScope}
    (label : Option String) (h : Forall₂ (LoopFits f n) cs ls) :
    Option.Rel (LoopFits f n) (targetLoop label cs) (jumpTarget label ls) := by
  cases label with
  | none =>
    cases h with
    | nil => exact .none
    | cons hc => exact .some hc
  | some l =>
    induction h with
    | nil => exact .none
    | @cons c p cs ls hc hcs ih =>
      change Option.Rel _ ((c :: cs).find? fun c => decide (c.label = some l))
        ((p :: ls).find? fun p => decide (p.label = some l))
      rw [List.find?_cons, List.find?_cons, hc.label]
      cases decide (p.label = some l) with
      | true => exact .some hc
      | false => exact ih

/-- The two sides agree on where a jump goes. -/
theorem tracks_jumpScope {T : World} {s : LowerState} {w : ScopeState} (label : Option String)
    (hR : Tracks T s w) :
    ((targetLoop label s.loopStack).map LoopContext.finallyDepth).getD s.finallyStack.length =
        (jumpScope label w).1.1 ∧
      Tracks (T.sites (((targetLoop label s.loopStack).map LoopContext.regions).getD [])
        (jumpScope label w).1.2) s w := by
  obtain ⟨f, hf, hT⟩ := hR.fits
  have hrel := rel_targetLoop label hf.loops
  have hfits : ∀ {T' : World}, T'.holds f w.next → Tracks T' s w := fun hT' =>
    ⟨hR.stopped, hR.env, hR.paths, hR.balanced, f, hf, hT'⟩
  rw [hf.finals.length_eq]
  unfold jumpScope
  dsimp only
  revert hrel
  generalize targetLoop label s.loopStack = c
  generalize jumpTarget label w.loops = l
  intro hrel
  cases hrel with
  | none => exact ⟨rfl, hfits ⟨hT, rfl, fun i hi => nomatch hi⟩⟩
  | some hc => exact ⟨hc.depth, hfits ⟨hT, hc.regions⟩⟩

theorem sim_handledDepth :
    Sim Tracks (fun s w => runtimeHandledDepth s.finallyStack = handledDepth w.finals)
      (get : LowerM LowerState) (get : Visit ScopeState) := by
  intro T s w a s' hR hx
  cases hx
  obtain ⟨f, hf, -⟩ := hR.fits
  refine ⟨?_, hR⟩
  have := hf.finals
  change runtimeHandledDepth s.finallyStack = handledDepth w.finals
  revert this
  generalize s.finallyStack = fs
  generalize w.finals = ps
  intro this
  induction this with
  | nil => rfl
  | cons hp hps ih =>
    unfold runtimeHandledDepth handledDepth
    rw [hp.handlerActive, hps.length_eq, ih]

include hrec

theorem follows_lowerBreak (label : Option String) (e : Option HirExpr) :
    Follows (lowerBreak rec label e) (visitBreak vrec label e) := by
  intro T s w a s' hR hx
  obtain ⟨depth, s₀, h₀, hx₀⟩ := bind_eq_ok hx
  obtain ⟨c, s₁, h₁, hx₁⟩ := bind_eq_ok hx₀
  cases h₀
  cases h₁
  obtain ⟨v, s₂, h₂, hx₂⟩ := bind_eq_ok hx₁
  obtain ⟨_, s₃, h₃, hx₃⟩ := bind_eq_ok hx₂
  obtain ⟨hdepth, hR'⟩ := tracks_jumpScope label hR
  rw [hdepth] at h₃
  have hR₂ := (follows_lowerOption hrec e _ _ _ _ _ hR' h₂).2
  have hR₃ := tracks_exitWith hrec (follows_term _) _ hR₂ (fun f n hf => .some hf.2) h₃
  exact ⟨trivial, (hR₃.weaken T fun f n hf => hf.1).still hx₃⟩

theorem follows_lowerContinue (label : Option String) :
    Follows (lowerContinue rec label) (visitBreak vrec label none) := by
  intro T s w a s' hR hx
  obtain ⟨depth, s₀, h₀, hx₀⟩ := bind_eq_ok hx
  obtain ⟨c, s₁, h₁, hx₁⟩ := bind_eq_ok hx₀
  cases h₀
  cases h₁
  obtain ⟨_, s₂, h₂, hx₂⟩ := bind_eq_ok hx₁
  obtain ⟨hdepth, hR'⟩ := tracks_jumpScope label hR
  rw [hdepth] at h₂
  have hR₂ := tracks_exitWith hrec (follows_term _) _ hR' (fun f n hf => .some hf.2) h₂
  exact ⟨trivial, (hR₂.weaken T fun f n hf => hf.1).still hx₂⟩

omit hrec in
theorem follows_returnWith (val : Operand) : Follows (returnWith val) stop :=
  Sim.still fun _ => Sim.still fun _ => follows_term _

omit hrec in
theorem rel_sites_none {f : ℕ → LocalId} {n : ℕ} : Option.Rel (Sites f n) none none := .none

omit hrec in
theorem rel_sites_nil {f : ℕ → LocalId} {n : ℕ} : Option.Rel (Sites f n) (some []) (some []) :=
  .some ⟨rfl, fun _ hi => nomatch hi⟩

theorem follows_lowerReturn (e : Option HirExpr) :
    Follows (lowerReturn rec e) (visitOption vrec e >>= fun _ => visitJump vrec 0 (some [])) := by
  refine (follows_lowerOption hrec e).seq fun v => Follows.then (x := exitWith rec 0 _ _) ?_
  intro T s w a s' hR hx
  exact ⟨trivial, tracks_exitWith hrec (follows_returnWith _) 0 hR (fun _ _ _ => rel_sites_nil) hx⟩

omit hrec in
theorem follows_throwWith (value : LocalId) : Follows (throwWith value) stop :=
  Sim.still fun _ => follows_terminate

theorem follows_lowerThrow (e : HirExpr) :
    Follows (lowerThrow rec e) (visitThrow vrec e) := by
  refine (hrec e).seq fun value => Sim.bind sim_handledDepth fun s w hd => ?_
  rw [hd]
  refine Follows.then (x := exitWith rec _ _ _) ?_
  intro T s w a s' hR hx
  exact ⟨trivial, tracks_exitWith hrec (follows_throwWith value) _ hR (fun _ _ _ => rel_sites_none)
    hx⟩

end Jumps

section Try

variable {rec : HirExpr → LowerM LocalId} {vrec : HirExpr → Visit Unit}
  (hrec : ∀ e, Follows (rec e) (vrec e))
  {T : World} {l : Scope} {h : Bindings} {r : List LocalId} {q : List ℕ} {i : ℕ}
  {exception : LocalId} {s s' : LowerState} {w : ScopeState} {finallyBody : Option HirExpr}

theorem Tracks.setLast (hR : Tracks (T.names l h) s w) (name : String) :
    Tracks (T.names l h) { s with scope := update s.scope name (l name) }
      { w with last := update w.last name (h name) } := by
  obtain ⟨f, hf, hT, hl⟩ := hR.fits
  refine ⟨hR.stopped, hR.env, hR.paths, hR.balanced, f, ⟨hf.inj, hf.bound, fun m => ?_, hf.lexical,
    hf.regions, hf.loops, hf.finals⟩, hT, hl⟩
  by_cases hm : m = name
  · subst hm
    simpa only [update_self] using hl m
  · simpa only [update_of_ne hm] using hf.scope m

theorem Tracks.rememberScope (hR : Tracks T s w) : Tracks (T.names s.scope w.last) s w := by
  obtain ⟨f, hf, hT⟩ := hR.fits
  exact ⟨hR.stopped, hR.env, hR.paths, hR.balanced, f, hf, hT, hf.scope⟩

include hrec

theorem tracks_catchBody {name : String} {body : HirExpr} {v : LocalId}
    (hT : ∀ f n, T.holds f n → TryFits f n l h r q exception i) (hR : Tracks T s w)
    (hx : inScope (do
      bindLocal name exception
      withFinalizer finallyBody false l r exception (rec body)) s = .ok (v, s')) :
    Tracks T s' (visitScope (do
      bindTo name i
      visitPending finallyBody false h q i (vrec body)) w).2 := by
  obtain ⟨b, t, hb, he⟩ := map_ok (g := fun p => (p.1, { p.2 with lexical := s.lexical })) hx
  obtain ⟨rfl, rfl⟩ := Prod.mk.inj he
  obtain ⟨u, s₁, h₁, h₂⟩ := bind_eq_ok hb
  cases h₁
  have hT' : ∀ f n, (T.names s.lexical w.here).holds f n → TryFits f n l h r q exception i :=
    fun f n hf => hT f n hf.1
  have hR' : Tracks (T.names s.lexical w.here) s w := hR.remember.weaken _ fun f n hf => hf.1
  have hR₁ := hR'.bind name fun f n hf => (hT' f n hf).exception
  obtain ⟨-, hR₂⟩ := sim_withFinalizer (hrec body) hT' hR₁ h₂
  exact hR₂.setLexical

/-- Each clause starts a block, so where the first one starts does not matter. -/
theorem tracks_lowerCatches {clauses : List (HirCatchClause HirExpr)} {result : LocalId}
    {normalFinallyB nextTest k : BlockId} {b : Bool}
    (hT : ∀ f n, T.holds f n → TryFits f n l h r q exception i)
    (hR : Tracks T s { w with stopped := b })
    (hx : lowerCatches rec finallyBody l r result exception normalFinallyB nextTest clauses s =
      .ok (k, s')) :
    ∃ b', Tracks T s' { (visitCatches vrec finallyBody h q i clauses w).2 with stopped := b' } := by
  induction clauses generalizing s w nextTest b with
  | nil =>
    obtain ⟨rfl, rfl⟩ := pure_eq_ok hx
    exact ⟨b, hR⟩
  | cons clause clauses ih =>
    obtain ⟨_, s₁, h₁, hx₁⟩ := bind_eq_ok hx
    obtain ⟨_, s₂, h₂, hx₂⟩ := bind_eq_ok hx₁
    obtain ⟨_, s₃, h₃, hx₃⟩ := bind_eq_ok hx₂
    obtain ⟨catchB, s₄, h₄, hx₄⟩ := bind_eq_ok hx₃
    obtain ⟨next, s₅, h₅, hx₅⟩ := bind_eq_ok hx₄
    obtain ⟨_, s₆, h₆, hx₆⟩ := bind_eq_ok hx₅
    obtain ⟨_, s₇, h₇, hx₇⟩ := bind_eq_ok hx₆
    obtain ⟨old, s₈, h₈, hx₈⟩ := bind_eq_ok hx₇
    obtain ⟨v, s₉, h₉, hx₉⟩ := bind_eq_ok hx₈
    obtain ⟨_, s₁₀, h₁₀, hx₁₀⟩ := bind_eq_ok hx₉
    obtain ⟨_, s₁₁, h₁₁, hx₁₁⟩ := bind_eq_ok hx₁₀
    have hR₁ : Tracks T s₁ { w with stopped := false } :=
      (follows_startBlock nextTest T _ _ _ _ hR h₁).2
    have hR₅ := (((hR₁.still h₂).still h₃).still h₄).still h₅
    obtain ⟨b₆, hR₆⟩ := (inferInstance : Flag (term _)).flag _ _ _ _ _ hR₅ h₆
    have hR₇ : Tracks T s₇ { w with stopped := false } :=
      (follows_startBlock catchB T _ _ _ _ hR₆ h₇).2
    cases h₈
    have hT' : ∀ f n, (T.names s₇.scope w.last).holds f n → TryFits f n l h r q exception i :=
      fun f n hf => hT f n hf.1
    have hR₉ := tracks_catchBody hrec hT' hR₇.rememberScope h₉
    cases h₁₀
    obtain ⟨b₁₁, hR₁₁⟩ := (flag_finishBranch _ _ _).flag _ _ _ _ _ (hR₉.setLast clause.name) h₁₁
    exact ih (hR₁₁.weaken T fun f n hf => hf.1) hx₁₁

omit hrec in
instance (result v : LocalId) : Still (finishTry result v) := by
  unfold finishTry
  infer_instance

omit hrec in
instance (value : LocalId) : Flag (throwWith value) :=
  ⟨fun T s w _ s' hR hx => ⟨true, (follows_throwWith value T s w _ s' hR hx).2⟩⟩

omit hrec in
instance (exception : LocalId) : Flag (rethrow exception) := by
  unfold rethrow
  infer_instance

theorem follows_lowerFinally (finallyBody : Option HirExpr) : Follows (lowerFinally rec finallyBody)
    (visitOption vrec finallyBody) := by
  cases finallyBody with
  | some e => exact (hrec e).then
  | none => exact Follows.nothing (x := pure ())

/-- The two copies of the finally body. -/
theorem follows_finallies {nextTest : BlockId} {t : Terminator} {normalFinallyB mergeB
    exceptionalFinallyB : BlockId} {result : LocalId} :
    Follows (do
      startBlock nextTest
      term t
      startBlock normalFinallyB
      lowerFinally rec finallyBody
      term (.goto mergeB)
      startBlock exceptionalFinallyB
      lowerFinally rec finallyBody
      rethrow exception
      startBlock mergeB
      return result) (do
      resume
      visitOption vrec finallyBody
      resume
      visitOption vrec finallyBody
      resume) := by
  have := follows_lowerFinally hrec finallyBody
  refine Sim.flag fun _ => Sim.flag fun _ => (follows_startBlock normalFinallyB).seq fun _ => ?_
  refine this.seq fun _ => Sim.flag fun _ => (follows_startBlock exceptionalFinallyB).seq fun _ => ?_
  exact this.seq fun _ => Sim.flag fun _ => (follows_startBlock mergeB).then

theorem follows_lowerTryCatch (body : HirExpr) (catches : List (HirCatchClause HirExpr))
    (finallyBody : Option HirExpr) :
    Follows (lowerTryCatch rec body catches finallyBody)
      (visitTryCatch vrec body catches finallyBody) := by
  intro T s w a s' hR hx
  obtain ⟨_, s₀, h₀, hx₀⟩ := bind_eq_ok hx
  cases h₀
  obtain ⟨result, s₁, h₁, hx₁⟩ := bind_eq_ok hx₀
  obtain ⟨exception, s₂, h₂, hx₂⟩ := bind_eq_ok hx₁
  obtain ⟨handlerB, s₃, h₃, hx₃⟩ := bind_eq_ok hx₂
  obtain ⟨normalFinallyB, s₄, h₄, hx₄⟩ := bind_eq_ok hx₃
  obtain ⟨exceptionalFinallyB, s₅, h₅, hx₅⟩ := bind_eq_ok hx₄
  obtain ⟨mergeB, s₆, h₆, hx₆⟩ := bind_eq_ok hx₅
  obtain ⟨_, s₇, h₇, hx₇⟩ := bind_eq_ok hx₆
  obtain ⟨_, s₈, h₈, hx₈⟩ := bind_eq_ok hx₇
  obtain ⟨_, s₉, h₉, hx₉⟩ := bind_eq_ok hx₈
  obtain ⟨_, s₁₀, h₁₀, hx₁₀⟩ := bind_eq_ok hx₉
  obtain ⟨nextTest, s₁₁, h₁₁, hx₁₁⟩ := bind_eq_ok hx₁₀
  obtain ⟨hq, hlen, rfl⟩ : Quiet s₁ s₂ ∧ s₁.locals.length < s₂.locals.length ∧
      exception = s₁.locals.length := by
    cases h₂
    exact ⟨⟨rfl, rfl, rfl, rfl, rfl, rfl, rfl, rfl, rfl, by simp⟩, by simp, rfl⟩
  set T₀ := (T.names s.lexical w.here).sites s.regions w.regions
  have hR₂ : Tracks (T₀.binding w.next s₁.locals.length) s₂ { w with next := w.next + 1 } :=
    (hR.remember.still h₁).fresh hq hlen
  have hT : ∀ f n, (T₀.binding w.next s₁.locals.length).holds f n →
      TryFits f n s.lexical w.here s.regions w.regions s₁.locals.length w.next :=
    fun f n hf => ⟨hf.1.1.2, hf.1.2, hf.2⟩
  have hR₇ := ((((hR₂.still h₃).still h₄).still h₅).still h₆).still h₇
  obtain ⟨-, hR₈⟩ := tracks_inRegion (V := fun _ _ => True)
    (y := visitPending finallyBody true w.here w.regions w.next (vrec body))
    (fun f n hf => (hT f n hf).exception)
    (fun T' t v a t' hT' hR hx => by
      obtain ⟨v', t₁, ht₁, ht₂⟩ := bind_eq_ok hx
      obtain ⟨-, hR'⟩ := sim_withFinalizer (hrec body) (fun f n hf => hT f n (hT' f n hf)) hR ht₁
      exact ⟨trivial, hR'.still ht₂⟩) hR₇ h₈
  obtain ⟨b₉, hR₉⟩ := (inferInstance : Flag (term _)).flag _ _ _ _ _ hR₈ h₉
  obtain ⟨b₁₀, hR₁₀⟩ := (inferInstance : Flag (startBlock _)).flag _ _ _ _ _ hR₉ h₁₀
  set w₁ := (visitRegion w.next (visitPending finallyBody true w.here w.regions w.next
    (vrec body)) { w with next := w.next + 1 }).2
  obtain ⟨b₁₁, hR₁₁⟩ := tracks_lowerCatches hrec (w := w₁) hT hR₁₀ h₁₁
  have hrest := follows_finallies hrec _ _ _ _ _ hR₁₁ hx₁₁
  exact ⟨trivial, hrest.2.weaken T fun f n hf => hf.1.1.1⟩

end Try

section Whole

variable {rec : HirExpr → LowerM LocalId} {vrec : HirExpr → Visit Unit}
  (hrec : ∀ e, Follows (rec e) (vrec e))

theorem follows_lowerPath (p : HirPath) :
    Follows (lowerPath p) (if p.globalSlot.isNone then use p.name else return ()) := by
  unfold lowerPath
  cases p.globalSlot with
  | some slot => exact Follows.nothing (x := newLocal _ _ >>= fun _ => _)
  | none =>
    refine Sim.bind (sim_resolve p.name) fun o _ _ => Sim.of_silent ?_ fun _ => trivial
    cases o with
    | some l => exact (inferInstance : Still (pure l)).silent
    | none =>
      refine Silent.bind (inferInstance : Still closureEnv).silent fun env => (?_ : Still _).silent
      cases p.captureOffset <;> cases env <;> dsimp only <;> infer_instance

instance still_lowerCaptures (captures : List HirClosureCapture) :
    Still (lowerCaptures captures) := by
  induction captures with
  | nil => exact (inferInstance : Still (pure []))
  | cons c cs ih =>
    refine ⟨Silent.bind (inferInstance : Still (lookup c.name)).silent fun o => ?_⟩
    cases o with
    | some l => exact (inferInstance : Still (lowerCaptures cs >>= fun _ => pure _)).silent
    | none =>
      refine Silent.bind (inferInstance : Still closureEnv).silent fun env => (?_ : Still _).silent
      cases c.sourceOffset <;> cases env <;> dsimp only <;> infer_instance

include hrec

theorem follows_lowerForceUnwrap (e : HirExpr) :
    Follows (lowerForceUnwrap rec e) (vrec e >>= fun _ => resume) :=
  (hrec e).seq fun _ => Sim.flag fun _ => Sim.flag fun _ => Sim.flag fun _ => Sim.flag fun _ =>
    Sim.flag fun _ => (follows_startBlock _).then

theorem follows_lowerElvis (lhs rhs : HirExpr) :
    Follows (lowerElvis rec lhs rhs) (do
      vrec lhs
      resume
      vrec rhs
      resume) := by
  refine (hrec lhs).seq fun l => Sim.flag fun result => Sim.flag fun okB => Sim.flag fun fbB => ?_
  refine Sim.flag fun mergeB => Sim.flag fun _ => Sim.flag fun _ => Sim.flag fun _ => ?_
  refine Sim.flag fun _ => (follows_startBlock fbB).seq fun _ => (hrec rhs).seq fun r => ?_
  exact Sim.flag fun _ => Sim.flag fun _ => (follows_startBlock mergeB).then

theorem follows_lowerSafeCall (recv : HirExpr) (method : String) (args : List HirExpr) :
    Follows (lowerSafeCall rec recv method args) (do
      vrec recv
      resume
      visitAll vrec args
      resume) := by
  refine (hrec recv).seq fun r => Sim.flag fun result => Sim.flag fun callB => ?_
  refine Sim.flag fun nullB => Sim.flag fun mergeB => Sim.flag fun _ => Sim.flag fun _ => ?_
  refine Sim.flag fun _ => Sim.flag fun _ => (follows_startBlock callB).seq fun _ => ?_
  refine (follows_lowerAll hrec args).seq fun ls => Sim.flag fun dest => Sim.flag fun resume => ?_
  refine Sim.flag fun _ => Sim.flag fun _ => Sim.flag fun _ => Sim.flag fun _ => ?_
  exact (follows_startBlock mergeB).then

theorem follows_lowerSafeField (recv : HirExpr) (offset : ℕ) :
    Follows (lowerSafeField rec recv offset) (vrec recv >>= fun _ => resume) := by
  refine (hrec recv).seq fun r => Sim.flag fun result => Sim.flag fun okB => ?_
  refine Sim.flag fun nullB => Sim.flag fun mergeB => Sim.flag fun _ => Sim.flag fun _ => ?_
  refine Sim.flag fun _ => Sim.flag fun _ => Sim.flag fun _ => Sim.flag fun _ => ?_
  exact Sim.flag fun _ => (follows_startBlock mergeB).then

theorem follows_lowerNode (e : HirExpr) : Follows (lowerNode rec e) (visitNode vrec e) := by
  cases e with
  | lit val => exact Follows.nothing (x := newLocal _ _ >>= fun _ => _)
  | null isNull => exact Follows.nothing (x := newLocal _ _ >>= fun _ => _)
  | path p => exact follows_lowerPath p
  | tuple es | array es => exact follows_lowerAggregate hrec _ _ es
  | struct size typeId es => exact follows_lowerStruct hrec size typeId es
  | call label args => exact follows_lowerCall hrec label args
  | callValue func args => exact follows_lowerCallValue hrec func args
  | methodCall recv dispatch args => exact follows_lowerMethodCall hrec recv dispatch args
  | field e | ref m e | deref e | cast e | is e => exact follows_lowerWith hrec e _ _
  | index obj idx => exact follows_lowerIndex hrec obj idx
  | unary op e => exact follows_lowerWith hrec e _ _
  | binary op l r => exact follows_lowerBinary hrec op l r
  | assign op lhs rhs => exact follows_lowerAssign hrec op lhs rhs
  | block stmts tail => exact follows_lowerBlock hrec stmts tail
  | if_ cond then_ else_ => exact follows_lowerIf hrec cond then_ else_
  | while_ cond body label => exact follows_lowerWhile hrec cond body label
  | for_ body label | loop body label => exact follows_lowerLoop hrec _ body label
  | when scrut arms => exact follows_lowerWhen hrec scrut arms
  | break_ label e => exact follows_lowerBreak hrec label e
  | continue_ label => exact follows_lowerContinue hrec label
  | return_ e => exact follows_lowerReturn hrec e
  | throw e => exact follows_lowerThrow hrec e
  | tryCatch body catches finallyBody => exact follows_lowerTryCatch hrec body catches finallyBody
  | try_ e => exact hrec e
  | safeCall recv method args => exact follows_lowerSafeCall hrec recv method args
  | safeField recv offset => exact follows_lowerSafeField hrec recv offset
  | elvis lhs rhs => exact follows_lowerElvis hrec lhs rhs
  | forceUnwrap e => exact follows_lowerForceUnwrap hrec e
  | isNot e typeId => exact follows_lowerIsNot hrec e typeId
  | closure name envTypeId captures => exact Follows.nothing (x := lowerCaptures _ >>= fun _ => _)
  | enumCtor typeId variantIndex size offsets args =>
    exact follows_lowerEnumCtor hrec typeId variantIndex size offsets args

omit hrec in
theorem follows_lowerExpr (n : ℕ) (e : HirExpr) : Follows (lowerExpr n e) (visitExpr n e) := by
  induction n generalizing e with
  | zero =>
    intro T s w a s' hR hx
    cases hx
  | succ n ih =>
    refine Sim.bind sim_isTerminated ?_
    rintro a b rfl
    cases a with
    | true => exact Follows.nothing (x := unitLocal)
    | false => exact follows_lowerNode ih e

end Whole

end Loxis.Lowering
