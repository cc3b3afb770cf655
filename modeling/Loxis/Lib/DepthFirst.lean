import Mathlib.Data.List.Nodup
import Mathlib.Data.Finset.Card
import Mathlib.Data.Finset.Dedup
import Loxis.Lib.Graph

/-! # Depth-first visits

A recursive visit of a graph with labelled edges, as loaders write it: the vertices on the way
to the current one are kept apart from the finished ones, a finished vertex is left alone, and
an edge back into the way is a failure. A vertex is recorded when it is finished, with the label
of the edge it was entered by.
-/

namespace Loxis.DepthFirst

open Relation

variable {V E : Type*}

/-- The vertices being visited, and the finished ones with the labels they were entered by. -/
structure State (V E : Type*) where
  loading : List V
  entered : List (V × Option E)

def State.finished (s : State V E) : List V := s.entered.map Prod.fst

def State.start : State V E := ⟨[], []⟩

inductive Failure (V : Type*)
  | cycle (v : V)
  | depth

/-- The visit of `v`, entered by `l`, to a depth of at most the first argument. -/
def visit [DecidableEq V] (succ : V → List (E × V)) :
    ℕ → V → Option E → State V E → Except (Failure V) (State V E)
  | 0, _, _, _ => .error .depth
  | n + 1, v, l, s =>
    if v ∈ s.finished then .ok s
    else if v ∈ s.loading then .error (.cycle v)
    else do
      let t ← (succ v).foldlM (fun s e => visit succ n e.2 (some e.1) s)
        { s with loading := v :: s.loading }
      .ok ⟨t.loading.erase v, t.entered ++ [(v, l)]⟩

/-- The edges without their labels. -/
def Edge (succ : V → List (E × V)) (u v : V) : Prop := ∃ e, (e, v) ∈ succ u

/-- The vertices are listed after all their successors, starting from `done`. -/
def PostOrder (succ : V → List (E × V)) : List V → List V → Prop
  | _, [] => True
  | done, v :: vs => (∀ e ∈ succ v, e.2 ∈ done) ∧ PostOrder succ (done ++ [v]) vs

variable {succ : V → List (E × V)}

theorem PostOrder.append {done vs ws : List V} (hv : PostOrder succ done vs)
    (hw : PostOrder succ (done ++ vs) ws) : PostOrder succ done (vs ++ ws) := by
  induction vs generalizing done with
  | nil => simpa using hw
  | cons v vs ih =>
    refine ⟨hv.1, ih hv.2 ?_⟩
    simpa using hw

/-- No edge leaves `done` and no cycle meets it. -/
structure Settled (succ : V → List (E × V)) (done : List V) : Prop where
  closed : ∀ u v, u ∈ done → Edge succ u v → v ∈ done
  acyclic : ∀ u ∈ done, ¬ TransGen (Edge succ) u u

theorem Settled.nil : Settled succ ([] : List V) := ⟨by simp, by simp⟩

theorem Settled.mem_of_reach {done : List V} (h : Settled succ done) {u v : V} (hu : u ∈ done)
    (hr : Graph.Reach (Edge succ) u v) : v ∈ done := hr.mem_of_closed h.closed hu

theorem Settled.snoc {done : List V} (h : Settled succ done) {v : V} (hv : v ∉ done)
    (hs : ∀ e ∈ succ v, e.2 ∈ done) : Settled succ (done ++ [v]) := by
  have hsucc : ∀ w, Edge succ v w → w ∈ done := fun w ⟨e, he⟩ => hs _ he
  constructor
  · intro u w hu he
    rw [List.mem_append, List.mem_singleton] at hu ⊢
    rcases hu with hu | rfl
    · exact Or.inl (h.closed u w hu he)
    · exact Or.inl (hsucc w he)
  · intro u hu hc
    rw [List.mem_append, List.mem_singleton] at hu
    rcases hu with hu | rfl
    · exact h.acyclic u hu hc
    · obtain ⟨w, hw, hwu⟩ := TransGen.head'_iff.mp hc
      exact hv (h.mem_of_reach (hsucc w hw) hwu)

theorem PostOrder.settled {done vs : List V} (hp : PostOrder succ done vs)
    (hd : Settled succ done) (hn : (done ++ vs).Nodup) : Settled succ (done ++ vs) := by
  induction vs generalizing done with
  | nil => simpa using hd
  | cons v vs ih =>
    have hv : v ∉ done := fun h => (List.nodup_append.mp hn).2.2 v h v (by simp) rfl
    have := ih hp.2 (hd.snoc hv hp.1) (by simpa using hn)
    simpa using this

/-- What visiting `roots` one after another adds to a state. -/
structure Grows (succ : V → List (E × V)) (roots : List (V × Option E)) (s t : State V E)
    (new : List (V × Option E)) : Prop where
  loading : t.loading = s.loading
  entered : t.entered = s.entered ++ new
  unfinished : ∀ x ∈ new, x.1 ∉ s.finished
  unloading : ∀ x ∈ new, x.1 ∉ s.loading
  nodup : (new.map Prod.fst).Nodup
  order : PostOrder succ s.finished (new.map Prod.fst)
  label : ∀ x ∈ new, x ∈ roots ∨
    ∃ r ∈ roots, ∃ u e, Graph.Reach (Edge succ) r.1 u ∧ (e, x.1) ∈ succ u ∧ x.2 = some e
  roots : ∀ r ∈ roots, r.1 ∈ t.finished

namespace Grows

variable {roots roots' : List (V × Option E)} {s t u : State V E} {new new' : List (V × Option E)}

theorem finished (h : Grows succ roots s t new) : t.finished = s.finished ++ new.map Prod.fst := by
  rw [State.finished, h.entered, List.map_append]
  rfl

theorem refl (s : State V E) : Grows succ [] s s [] where
  loading := rfl
  entered := by simp
  unfinished := by simp
  unloading := by simp
  nodup := by simp
  order := trivial
  label := by simp
  roots := by simp

theorem trans (h : Grows succ roots s t new) (h' : Grows succ roots' t u new') :
    Grows succ (roots ++ roots') s u (new ++ new') where
  loading := h'.loading.trans h.loading
  entered := by rw [h'.entered, h.entered, List.append_assoc]
  unfinished x hx := by
    rcases List.mem_append.mp hx with hx | hx
    · exact h.unfinished x hx
    · have := h'.unfinished x hx
      rw [h.finished, List.mem_append] at this
      exact fun hs => this (Or.inl hs)
  unloading x hx := by
    rcases List.mem_append.mp hx with hx | hx
    · exact h.unloading x hx
    · exact h.loading ▸ h'.unloading x hx
  nodup := by
    rw [List.map_append, List.nodup_append]
    refine ⟨h.nodup, h'.nodup, ?_⟩
    rintro a ha _ hb rfl
    obtain ⟨x, hx, rfl⟩ := List.mem_map.mp hb
    refine h'.unfinished x hx ?_
    rw [h.finished]
    exact List.mem_append_right _ ha
  order := by
    rw [List.map_append]
    exact h.order.append (h.finished ▸ h'.order)
  label x hx := by
    rcases List.mem_append.mp hx with hx | hx
    · rcases h.label x hx with hr | ⟨r, hr, hl⟩
      · exact Or.inl (List.mem_append_left _ hr)
      · exact Or.inr ⟨r, List.mem_append_left _ hr, hl⟩
    · rcases h'.label x hx with hr | ⟨r, hr, hl⟩
      · exact Or.inl (List.mem_append_right _ hr)
      · exact Or.inr ⟨r, List.mem_append_right _ hr, hl⟩
  roots r hr := by
    rcases List.mem_append.mp hr with hr | hr
    · rw [h'.finished]
      exact List.mem_append_left _ (h.roots r hr)
    · exact h'.roots r hr

theorem mono (h : Grows succ roots s t new) {x : V × Option E} (hx : x ∈ s.entered) :
    x ∈ t.entered := by
  rw [h.entered]
  exact List.mem_append_left _ hx

/-- Everything that a visit adds is reachable from its roots. -/
theorem reach (h : Grows succ roots s t new) {x : V × Option E} (hx : x ∈ new) :
    ∃ r ∈ roots, Graph.Reach (Edge succ) r.1 x.1 := by
  rcases h.label x hx with hr | ⟨r, hr, u, e, hu, he, -⟩
  · exact ⟨x, hr, .refl⟩
  · exact ⟨r, hr, hu.tail ⟨e, he⟩⟩

theorem finished_nodup (h : Grows succ roots s t new) (hs : s.finished.Nodup) :
    t.finished.Nodup := by
  rw [h.finished, List.nodup_append]
  refine ⟨hs, h.nodup, ?_⟩
  rintro a ha _ hb rfl
  obtain ⟨x, hx, rfl⟩ := List.mem_map.mp hb
  exact h.unfinished x hx ha

theorem settled (h : Grows succ roots s t new) (hs : Settled succ s.finished)
    (hn : s.finished.Nodup) : Settled succ t.finished := by
  have := h.finished_nodup hn
  rw [h.finished] at this ⊢
  exact h.order.settled hs this

end Grows

theorem foldlM_cons_ok {σ α ε : Type*} {f : σ → α → Except ε σ} {a : α} {as : List α} {s t : σ}
    (h : (a :: as).foldlM f s = .ok t) : ∃ u, f s a = .ok u ∧ as.foldlM f u = .ok t := by
  rw [List.foldlM_cons] at h
  cases hu : f s a with
  | error x =>
    rw [hu] at h
    cases h
  | ok u =>
    rw [hu] at h
    exact ⟨u, rfl, h⟩

/-- A visit of each edge of a list grows a state by what the visits add. -/
theorem foldlM_grows {f : V → Option E → State V E → Except (Failure V) (State V E)}
    (hf : ∀ v l s t, f v l s = .ok t → ∃ new, Grows succ [(v, l)] s t new)
    {es : List (E × V)} {s t : State V E}
    (h : es.foldlM (fun s e => f e.2 (some e.1) s) s = .ok t) :
    ∃ new, Grows succ (es.map fun e => (e.2, some e.1)) s t new := by
  induction es generalizing s with
  | nil =>
    obtain rfl := Except.ok.inj h
    exact ⟨[], .refl s⟩
  | cons e es ih =>
    obtain ⟨u, hu, h⟩ := foldlM_cons_ok h
    obtain ⟨new, hn⟩ := hf _ _ _ _ hu
    obtain ⟨new', hn'⟩ := ih h
    exact ⟨new ++ new', hn.trans hn'⟩

theorem foldlM_total {f : V → Option E → State V E → Except (Failure V) (State V E)}
    {es : List (E × V)} {s : State V E}
    (hg : ∀ v l s t, f v l s = .ok t → ∃ new, Grows succ [(v, l)] s t new)
    (hf : ∀ e ∈ es, ∀ u, u.loading = s.loading → f e.2 (some e.1) u ≠ .error .depth) :
    es.foldlM (fun s e => f e.2 (some e.1) s) s ≠ .error .depth := by
  induction es generalizing s with
  | nil => simp [pure, Except.pure]
  | cons e es ih =>
    rw [List.foldlM_cons]
    have he := hf e (by simp) s rfl
    cases hu : f e.2 (some e.1) s with
    | error x =>
      rw [hu] at he
      exact he
    | ok u =>
      obtain ⟨new, hn⟩ := hg _ _ _ _ hu
      refine ih fun e' he' u' hu' => ?_
      exact hf e' (List.mem_cons_of_mem _ he') u' (hu'.trans hn.loading)

theorem foldlM_cycle {f : V → Option E → State V E → Except (Failure V) (State V E)}
    {es : List (E × V)} {s : State V E} {w : V}
    (hg : ∀ v l s t, f v l s = .ok t → ∃ new, Grows succ [(v, l)] s t new)
    (h : es.foldlM (fun s e => f e.2 (some e.1) s) s = .error (.cycle w)) :
    ∃ e ∈ es, ∃ u : State V E, u.loading = s.loading ∧ f e.2 (some e.1) u = .error (.cycle w) := by
  induction es generalizing s with
  | nil => cases h
  | cons e es ih =>
    rw [List.foldlM_cons] at h
    cases hu : f e.2 (some e.1) s with
    | error x =>
      rw [hu] at h
      obtain rfl := Except.error.inj h
      exact ⟨e, by simp, s, rfl, hu⟩
    | ok u =>
      rw [hu] at h
      obtain ⟨new, hn⟩ := hg _ _ _ _ hu
      obtain ⟨e', he', u', hl, hc⟩ := ih h
      exact ⟨e', List.mem_cons_of_mem _ he', u', hl.trans hn.loading, hc⟩

section Visit

variable [DecidableEq V] {s t : State V E} {v : V} {l : Option E} {n : ℕ}

/-- The two ways in which a visit succeeds. -/
theorem visit_ok (h : visit succ (n + 1) v l s = .ok t) :
    v ∈ s.finished ∧ t = s ∨
    v ∉ s.finished ∧ v ∉ s.loading ∧ ∃ u,
      (succ v).foldlM (fun s e => visit succ n e.2 (some e.1) s)
        { s with loading := v :: s.loading } = .ok u ∧
      t = ⟨u.loading.erase v, u.entered ++ [(v, l)]⟩ := by
  rw [visit] at h
  split at h
  · next hv => exact Or.inl ⟨hv, (Except.ok.inj h).symm⟩
  · next hv =>
    split at h
    · cases h
    · next hl =>
      refine Or.inr ⟨hv, hl, ?_⟩
      cases hu : (succ v).foldlM (fun s e => visit succ n e.2 (some e.1) s)
          { s with loading := v :: s.loading } with
      | error e =>
        rw [hu] at h
        cases h
      | ok u =>
        rw [hu] at h
        exact ⟨u, rfl, (Except.ok.inj h).symm⟩

theorem Grows.finish {new : List (V × Option E)} {u : State V E} (hv : v ∉ s.finished)
    (hl : v ∉ s.loading)
    (h : Grows succ ((succ v).map fun e => (e.2, some e.1))
      { s with loading := v :: s.loading } u new) :
    Grows succ [(v, l)] s ⟨u.loading.erase v, u.entered ++ [(v, l)]⟩ (new ++ [(v, l)]) where
  loading := by
    change u.loading.erase v = s.loading
    rw [h.loading]
    exact List.erase_cons_head v s.loading
  entered := by
    change u.entered ++ [(v, l)] = _
    rw [h.entered, List.append_assoc]
  unfinished x hx := by
    rcases List.mem_append.mp hx with hx | hx
    · exact h.unfinished x hx
    · obtain rfl := List.mem_singleton.mp hx
      exact hv
  unloading x hx := by
    rcases List.mem_append.mp hx with hx | hx
    · exact fun hs => h.unloading x hx (List.mem_cons_of_mem _ hs)
    · obtain rfl := List.mem_singleton.mp hx
      exact hl
  nodup := by
    rw [List.map_append, List.nodup_append]
    refine ⟨h.nodup, by simp, ?_⟩
    rintro a ha b hb rfl
    obtain ⟨x, hx, rfl⟩ := List.mem_map.mp ha
    simp only [List.map_cons, List.map_nil, List.mem_singleton] at hb
    exact h.unloading x hx (hb ▸ List.mem_cons_self)
  order := by
    rw [List.map_append]
    refine h.order.append ⟨fun e he => ?_, trivial⟩
    have := h.roots (e.2, some e.1) (List.mem_map.mpr ⟨e, he, rfl⟩)
    rwa [h.finished] at this
  label x hx := by
    rcases List.mem_append.mp hx with hx | hx
    · refine Or.inr ⟨(v, l), by simp, ?_⟩
      rcases h.label x hx with hr | ⟨r, hr, u, e, hu, he, hx⟩
      · obtain ⟨e, he, rfl⟩ := List.mem_map.mp hr
        exact ⟨v, e.1, .refl, he, rfl⟩
      · obtain ⟨a, ha, rfl⟩ := List.mem_map.mp hr
        exact ⟨u, e, ReflTransGen.head ⟨a.1, ha⟩ hu, he, hx⟩
    · exact Or.inl hx
  roots r hr := by
    obtain rfl := List.mem_singleton.mp hr
    simp [State.finished]

theorem visit_grows (h : visit succ n v l s = .ok t) : ∃ new, Grows succ [(v, l)] s t new := by
  induction n generalizing v l s t with
  | zero => cases h
  | succ n ih =>
    rcases visit_ok h with ⟨hv, rfl⟩ | ⟨hv, hl, u, hu, rfl⟩
    · refine ⟨[], { Grows.refl t with label := by simp, roots := ?_ }⟩
      simpa using hv
    · obtain ⟨new, hn⟩ := foldlM_grows (fun v l s t h => ih h) hu
      exact ⟨_, hn.finish hv hl⟩

/-- No vertex that leads to `F` is finished yet. -/
theorem visit_first {F w : V} {e : E}
    (hhead : ∀ u, Graph.Reach (Edge succ) v u → Graph.Reach (Edge succ) u F →
      ∃ a as, succ u = a :: as ∧ (u = F ∧ a = (e, w) ∨ u ≠ F ∧ Graph.Reach (Edge succ) a.2 F))
    (h : visit succ n v l s = .ok t) (hv : Graph.Reach (Edge succ) v F)
    (hs : ∀ u ∈ s.finished, ¬ Graph.Reach (Edge succ) u F) (hw : w ∉ s.finished) :
    (w, some e) ∈ t.entered := by
  induction n generalizing v l s t with
  | zero => cases h
  | succ n ih =>
    rcases visit_ok h with ⟨hf, -⟩ | ⟨hf, hl, u, hu, rfl⟩
    · exact absurd hv (hs v hf)
    obtain ⟨a, as, ha, hcase⟩ := hhead v .refl hv
    rw [ha] at hu
    obtain ⟨t, ht, hu⟩ := foldlM_cons_ok hu
    obtain ⟨new, hn⟩ := foldlM_grows (fun v l s t h => visit_grows h) hu
    refine List.mem_append_left _ (hn.mono ?_)
    rcases hcase with ⟨rfl, rfl⟩ | ⟨-, har⟩
    · -- the edge itself comes first: `w` is finished by this very visit
      cases n with
      | zero => cases ht
      | succ n =>
        rcases visit_ok ht with ⟨hwf, -⟩ | ⟨-, -, u', -, rfl⟩
        · exact absurd hwf hw
        · simp
    · have hva : Edge succ v a.2 := ⟨a.1, by simp [ha]⟩
      exact ih (fun u hu => hhead u (ReflTransGen.head hva hu)) ht har hs hw

section Total

variable {U : Finset V}

/-- A depth above the number of vertices that are not being visited is never used up. -/
theorem visit_total (hU : ∀ u ∈ U, ∀ e ∈ succ u, e.2 ∈ U) (hv : v ∈ U)
    (hn : (U \ s.loading.toFinset).card < n) : visit succ n v l s ≠ .error .depth := by
  induction n generalizing v l s with
  | zero => omega
  | succ n ih =>
    rw [visit]
    split
    · simp
    split
    · simp
    next hl =>
    have hlt : (U \ (v :: s.loading).toFinset).card < (U \ s.loading.toFinset).card := by
      refine Finset.card_lt_card (Finset.ssubset_iff_of_subset ?_ |>.mpr ⟨v, ?_, by simp⟩)
      · exact Finset.sdiff_subset_sdiff (le_refl U) (by simp [Finset.subset_insert])
      · simp [hv, hl]
    have : (succ v).foldlM (fun s e => visit succ n e.2 (some e.1) s)
        { s with loading := v :: s.loading } ≠ .error .depth := by
      refine foldlM_total (fun v l s t h => visit_grows h) fun e he u hu => ?_
      refine ih (hU v hv e he) ?_
      rw [hu]
      change (U \ (v :: s.loading).toFinset).card < n
      omega
    cases hu : (succ v).foldlM (fun s e => visit succ n e.2 (some e.1) s)
        { s with loading := v :: s.loading } with
    | error x =>
      rw [hu] at this
      exact this
    | ok u => exact fun h => nomatch h

end Total

/-- A failure names a vertex on the way to `v` that `v` leads back to, unless a cycle lies
ahead. -/
theorem visit_cycle {w : V} (h : visit succ n v l s = .error (.cycle w)) :
    w ∈ s.loading ∧ Graph.Reach (Edge succ) v w ∨
      ∃ c, Graph.Reach (Edge succ) v c ∧ TransGen (Edge succ) c c := by
  induction n generalizing v l s with
  | zero => cases h
  | succ n ih =>
    rw [visit] at h
    split at h
    · cases h
    split at h
    · next hl =>
      obtain ⟨⟩ := h
      exact Or.inl ⟨hl, .refl⟩
    cases hu : (succ v).foldlM (fun s e => visit succ n e.2 (some e.1) s)
        { s with loading := v :: s.loading } with
    | ok u =>
      rw [hu] at h
      cases h
    | error x =>
      rw [hu] at h
      obtain rfl := Except.error.inj h
      obtain ⟨e, he, u, hl, hc⟩ := foldlM_cycle (fun v l s t h => visit_grows h) hu
      have hve : Edge succ v e.2 := ⟨e.1, he⟩
      rcases ih hc with ⟨hw, hr⟩ | ⟨c, hr, hcc⟩
      · rw [hl] at hw
        rcases List.mem_cons.mp hw with rfl | hw
        · exact Or.inr ⟨w, .refl, TransGen.head' hve hr⟩
        · exact Or.inl ⟨hw, ReflTransGen.head hve hr⟩
      · exact Or.inr ⟨c, ReflTransGen.head hve hr, hcc⟩

/-- The visits of several roots, which are entered by no edge. -/
def visitAll (succ : V → List (E × V)) (n : ℕ) (roots : List V) (s : State V E) :
    Except (Failure V) (State V E) :=
  roots.foldlM (fun s r => visit succ n r none s) s

theorem visitAll_append {pre post : List V} :
    visitAll succ n (pre ++ post) s = visitAll succ n pre s >>= visitAll succ n post := by
  rw [visitAll, List.foldlM_append]
  rfl

theorem visitAll_singleton {r : V} : visitAll succ n [r] s = visit succ n r none s := by
  rw [visitAll, List.foldlM_cons]
  cases visit succ n r none s <;> rfl

end Visit

/-- The first root that leads to `w` leads to `u`: an edge from `u` to `w` can be the one that
`w` is entered by. -/
def Primary (succ : V → List (E × V)) (roots : List V) (u w : V) : Prop :=
  ∃ pre r post, roots = pre ++ r :: post ∧ Graph.Reach (Edge succ) r u ∧
    ∀ p ∈ pre, ¬ Graph.Reach (Edge succ) p w

/-- The vertices that some root leads to. -/
def Reached (succ : V → List (E × V)) (roots : List V) (v : V) : Prop :=
  ∃ r ∈ roots, Graph.Reach (Edge succ) r v

theorem Primary.reached {roots : List V} {u w : V} (h : Primary succ roots u w) :
    Reached succ roots u := by
  obtain ⟨pre, r, post, rfl, hr, -⟩ := h
  exact ⟨r, by simp, hr⟩

theorem Reached.next {roots : List V} {u w : V} (h : Reached succ roots u)
    (he : Edge succ u w) : Reached succ roots w := by
  obtain ⟨r, hr, hu⟩ := h
  exact ⟨r, hr, hu.tail he⟩

/-- What the visits of all roots leave, from the empty state. -/
structure Visited (succ : V → List (E × V)) (roots : List V) (t : State V E) : Prop where
  loading : t.loading = []
  nodup : t.finished.Nodup
  settled : Settled succ t.finished
  finished : ∀ v, v ∈ t.finished ↔ Reached succ roots v
  root : ∀ v, (v, none) ∈ t.entered → v ∈ roots
  primary : ∀ v e, (v, some e) ∈ t.entered → ∃ u, (e, v) ∈ succ u ∧ Primary succ roots u v

theorem Visited.start : Visited succ [] (State.start : State V E) where
  loading := rfl
  nodup := List.nodup_nil
  settled := .nil
  finished v := by simp [State.finished, State.start, Reached]
  root v h := nomatch h
  primary v e h := nomatch h

theorem Visited.snoc {roots : List V} {r : V} {s t : State V E} {new : List (V × Option E)}
    (h : Visited succ roots s) (hn : Grows succ [(r, none)] s t new) :
    Visited succ (roots ++ [r]) t := by
  have hfrom : ∀ x ∈ new, Graph.Reach (Edge succ) r x.1 := by
    intro x hx
    obtain ⟨_, hr, hx⟩ := hn.reach hx
    obtain rfl := List.mem_singleton.mp hr
    exact hx
  have hset : Settled succ t.finished := hn.settled h.settled h.nodup
  constructor
  · exact hn.loading.trans h.loading
  · exact hn.finished_nodup h.nodup
  · exact hset
  · intro v
    constructor
    · intro hv
      rw [hn.finished, List.mem_append] at hv
      rcases hv with hv | hv
      · obtain ⟨p, hp, hr⟩ := (h.finished v).mp hv
        exact ⟨p, List.mem_append_left _ hp, hr⟩
      · obtain ⟨x, hx, rfl⟩ := List.mem_map.mp hv
        exact ⟨r, by simp, hfrom x hx⟩
    · rintro ⟨p, hp, hr⟩
      rcases List.mem_append.mp hp with hp | hp
      · rw [hn.finished]
        exact List.mem_append_left _ ((h.finished v).mpr ⟨p, hp, hr⟩)
      · obtain rfl := List.mem_singleton.mp hp
        exact hset.mem_of_reach (hn.roots (p, none) (by simp)) hr
  · intro v hv
    rw [hn.entered, List.mem_append] at hv
    rcases hv with hv | hv
    · exact List.mem_append_left _ (h.root v hv)
    · rcases hn.label _ hv with hr | ⟨_, _, _, e, _, _, hx⟩
      · simp only [List.mem_singleton, Prod.mk.injEq, and_true] at hr
        simp [hr]
      · cases hx
  · intro v e hv
    rw [hn.entered, List.mem_append] at hv
    rcases hv with hv | hv
    · obtain ⟨u, he, pre, p, post, rfl, hp, hpre⟩ := h.primary v e hv
      exact ⟨u, he, pre, p, post ++ [r], by simp, hp, hpre⟩
    · rcases hn.label _ hv with hr | ⟨p, hp, u, e', hu, he, hx⟩
      · simp at hr
      · obtain rfl := List.mem_singleton.mp hp
        obtain ⟨⟩ := hx
        refine ⟨u, he, roots, r, [], rfl, hu, fun p hp hr => ?_⟩
        exact hn.unfinished _ hv ((h.finished v).mpr ⟨p, hp, hr⟩)

section Roots

variable [DecidableEq V] {roots : List V} {s t : State V E} {n : ℕ}

theorem visitAll_visited {pre : List V} (hs : Visited succ pre s)
    (h : visitAll succ n roots s = .ok t) : Visited succ (pre ++ roots) t := by
  induction roots generalizing pre s with
  | nil =>
    obtain rfl := Except.ok.inj h
    simpa using hs
  | cons r roots ih =>
    obtain ⟨u, hu, h⟩ := foldlM_cons_ok h
    obtain ⟨new, hn⟩ := visit_grows hu
    simpa using ih (hs.snoc hn) h

theorem visitAll_mono {x : V × Option E} (h : visitAll succ n roots s = .ok t)
    (hx : x ∈ s.entered) : x ∈ t.entered := by
  induction roots generalizing s with
  | nil =>
    obtain rfl := Except.ok.inj h
    exact hx
  | cons r roots ih =>
    obtain ⟨u, hu, h⟩ := foldlM_cons_ok h
    obtain ⟨new, hn⟩ := visit_grows hu
    exact ih h (hn.mono hx)

theorem visitAll_spec (h : visitAll succ n roots .start = .ok t) : Visited succ roots t :=
  visitAll_visited .start h

/-- The edges out of every vertex that leads to `F` can be listed so that the visit enters `w`
by a given edge from `F`, as soon as that edge is a primary one. -/
theorem visitAll_first {F w : V} {e : E} (hp : Primary succ roots F w) (he : (e, w) ∈ succ F)
    (hhead : ∀ u, Reached succ roots u → Graph.Reach (Edge succ) u F →
      ∃ a as, succ u = a :: as ∧ (u = F ∧ a = (e, w) ∨ u ≠ F ∧ Graph.Reach (Edge succ) a.2 F))
    (h : visitAll succ n roots .start = .ok t) : (w, some e) ∈ t.entered := by
  obtain ⟨pre, r, post, rfl, hr, hpre⟩ := hp
  have hFw : Edge succ F w := ⟨e, he⟩
  rw [visitAll_append] at h
  cases hs : visitAll succ n pre (.start : State V E) with
  | error x =>
    rw [hs] at h
    cases h
  | ok s =>
    rw [hs] at h
    have hv := visitAll_spec hs
    change visitAll succ n (r :: post) s = .ok t at h
    obtain ⟨u, hu, h⟩ := foldlM_cons_ok h
    have hent : (w, some e) ∈ u.entered := by
      refine visit_first (fun x hx => hhead x ⟨r, by simp, hx⟩) hu hr (fun x hx hxF => ?_)
        (fun hw => ?_)
      · obtain ⟨p, hp, hpx⟩ := (hv.finished x).mp hx
        exact hpre p hp ((hpx.trans hxF).tail hFw)
      · obtain ⟨p, hp, hpw⟩ := (hv.finished w).mp hw
        exact hpre p hp hpw
    exact visitAll_mono h hent

/-- The visits end in a state or in a cycle that a root leads to. -/
theorem visitAll_cases {U : Finset V} (hU : ∀ u ∈ U, ∀ e ∈ succ u, e.2 ∈ U)
    (hr : ∀ r ∈ roots, r ∈ U) (hs : s.loading = []) (hn : U.card < n) :
    (∃ t, visitAll succ n roots s = .ok t) ∨
      (∃ w, visitAll succ n roots s = .error (.cycle w)) ∧
        ∃ c, Reached succ roots c ∧ TransGen (Edge succ) c c := by
  induction roots generalizing s with
  | nil => exact Or.inl ⟨s, rfl⟩
  | cons r roots ih =>
    rw [visitAll, List.foldlM_cons]
    have hnd := visit_total (l := none) (v := r) (s := s) hU (hr r (by simp))
      (by simpa [hs] using hn)
    cases hu : visit succ n r none s with
    | error x =>
      rw [hu] at hnd
      cases x with
      | depth => exact absurd rfl hnd
      | cycle w =>
        rcases visit_cycle hu with ⟨hw, -⟩ | ⟨c, hc, hcc⟩
        · simp [hs] at hw
        · exact Or.inr ⟨⟨w, rfl⟩, c, ⟨r, by simp, hc⟩, hcc⟩
    | ok u =>
      obtain ⟨new, hn'⟩ := visit_grows hu
      rcases ih (fun p hp => hr p (List.mem_cons_of_mem _ hp)) (hn'.loading.trans hs) with
        ht | ⟨hw, c, ⟨p, hp, hc⟩, hcc⟩
      · exact Or.inl ht
      · exact Or.inr ⟨hw, c, ⟨p, List.mem_cons_of_mem _ hp, hc⟩, hcc⟩

end Roots

end Loxis.DepthFirst
