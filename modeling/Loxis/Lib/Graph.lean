import Mathlib.Data.Finset.Card
import Mathlib.Logic.Relation
import Mathlib.Data.Finset.Filter
import Mathlib.Tactic.Common

/-! # Reachability and source components

Paths of a relation, the sets a relation cannot leave, and the source components
of a finite graph: every vertex is reachable from a component that no edge enters
from outside.
-/

namespace Loxis.Graph

open Relation

variable {V : Type*} {r r' : V → V → Prop}

/-- Reachability along the edges of a relation, in any number of steps. -/
abbrev Reach (r : V → V → Prop) : V → V → Prop := ReflTransGen r

theorem Reach.mem_of_closed {P : V → Prop} (hP : ∀ a b, P a → r a b → P b) {a b : V}
    (h : Reach r a b) (ha : P a) : P b := by
  induction h with
  | refl => exact ha
  | tail _ hbc ih => exact hP _ _ ih hbc

/-- A set that can only be entered from inside holds every vertex that reaches it. -/
theorem Reach.mem_of_coclosed {P : V → Prop} (hP : ∀ a b, P b → r a b → P a) {a b : V}
    (h : Reach r a b) (hb : P b) : P a := by
  induction h using ReflTransGen.head_induction_on with
  | refl => exact hb
  | head hac _ ih => exact hP _ _ ih hac

/-- A path whose vertices all satisfy `P` survives in any graph that keeps the edges inside `P`. -/
theorem Reach.transfer {P : V → Prop} (hr : ∀ a b, P a → P b → r a b → r' a b)
    (hP : ∀ a b, P a → r a b → P b) {a b : V} (h : Reach r a b) (ha : P a) : Reach r' a b := by
  induction h with
  | refl => exact .refl
  | tail hab hbc ih =>
    have hb := Reach.mem_of_closed hP hab ha
    exact ih.tail (hr _ _ hb (hP _ _ hb hbc) hbc)

theorem Reach.mono (h : ∀ a b, r a b → r' a b) {a b : V} (hab : Reach r a b) : Reach r' a b :=
  ReflTransGen.mono h _ _ hab

/-- A path either is trivial or starts with an edge. -/
theorem Reach.head_cases {a b : V} (h : Reach r a b) : a = b ∨ ∃ c, r a c ∧ Reach r c b := by
  rcases ReflTransGen.cases_head h with h | h
  · exact Or.inl h
  · exact Or.inr h

/-- The path that leaves a set `S` crosses its border. -/
theorem Reach.exit {S : V → Prop} {a b : V} (h : Reach r a b) (ha : S a) (hb : ¬ S b) :
    ∃ x y, S x ∧ ¬ S y ∧ r x y ∧ Reach r y b := by
  induction h using ReflTransGen.head_induction_on with
  | refl => exact absurd ha hb
  | @head a c hac hcb ih =>
    by_cases hc : S c
    · exact ih hc
    · exact ⟨a, c, ha, hc, hac, hcb⟩

/-- In a finite graph every vertex is reachable from a vertex all of whose ancestors
are also its descendants. -/
theorem exists_source (S : Finset V) (hS : ∀ a b, r a b → a ∈ S ∧ b ∈ S) {v : V} (hv : v ∈ S) :
    ∃ u ∈ S, Reach r u v ∧ ∀ w, Reach r w u → Reach r u w := by
  classical
  have hmem : ∀ w x, Reach r w x → x ∈ S → w ∈ S := fun w x h hx =>
    Reach.mem_of_coclosed (fun a b _ hab => (hS a b hab).1) h hx
  induction hn : (S.filter (Reach r · v)).card using Nat.strong_induction_on generalizing v with
  | _ n ih =>
    by_cases hs : ∀ w, Reach r w v → Reach r v w
    · exact ⟨v, hv, .refl, hs⟩
    · push Not at hs
      obtain ⟨w, hwv, hvw⟩ := hs
      have hw := hmem w v hwv hv
      have hlt : (S.filter (Reach r · w)).card < n := by
        rw [← hn]
        refine Finset.card_lt_card (Finset.ssubset_iff_of_subset ?_ |>.mpr ⟨v, ?_, ?_⟩)
        · intro x hx
          rw [Finset.mem_filter] at hx ⊢
          exact ⟨hx.1, hx.2.trans hwv⟩
        · exact Finset.mem_filter.mpr ⟨hv, .refl⟩
        · simp [hv, hvw]
      obtain ⟨u, hu, huw, hsrc⟩ := ih _ hlt hw rfl
      exact ⟨u, hu, huw.trans hwv, hsrc⟩

end Loxis.Graph

/-! ## Marked graphs

A collector that works from marks can only free what a mark leads it to. A vertex
survives when something above it is rooted or lies out of reach of every mark; a
collection step that frees whole doomed sets and re-marks what it orphans decides
the fate of no other vertex.
-/

namespace Loxis.Graph

variable {V : Type*}

/-- A graph with its rooted vertices and the vertices whose mark is pending. -/
structure Marked (V : Type*) where
  edge : V → V → Prop
  root : V → Prop
  pend : V → Prop

namespace Marked

variable (G : Marked V)

/-- Some vertex above `c` is rooted, or has no pending mark above it. -/
def Survives (c : V) : Prop :=
  ∃ a, Reach G.edge a c ∧ (G.root a ∨ ∀ b, Reach G.edge b a → ¬ G.pend b)

/-- Some vertex above `c` is rooted or carries a pending mark. -/
def Watched (c : V) : Prop := ∃ b, Reach G.edge b c ∧ (G.root b ∨ G.pend b)

/-- Some vertex above `c` is rooted. -/
def Rooted (c : V) : Prop := ∃ a, Reach G.edge a c ∧ G.root a

/-- Every vertex above `c` is unrooted and also lies below `c`. -/
def Source (c : V) : Prop := ∀ b, Reach G.edge b c → ¬ G.root b ∧ Reach G.edge c b

variable {G} {c : V}

theorem Rooted.survives (h : G.Rooted c) : G.Survives c :=
  let ⟨a, ha, hr⟩ := h
  ⟨a, ha, Or.inl hr⟩

theorem Rooted.of_reach {a : V} (h : G.Rooted a) (hac : Reach G.edge a c) : G.Rooted c :=
  let ⟨b, hb, hr⟩ := h
  ⟨b, hb.trans hac, hr⟩

theorem not_survives : ¬ G.Survives c ↔
    ∀ a, Reach G.edge a c → ¬ G.root a ∧ ∃ b, Reach G.edge b a ∧ G.pend b := by
  simp only [Survives]
  push Not
  rfl

/-- Where every vertex is watched, exactly the rooted vertices survive. -/
theorem survives_iff_rooted (h : ∀ a, Reach G.edge a c → G.Watched a) :
    G.Survives c ↔ G.Rooted c := by
  refine ⟨fun ⟨a, hac, ha⟩ => ?_, Rooted.survives⟩
  rcases ha with hr | hn
  · exact ⟨a, hac, hr⟩
  · obtain ⟨b, hba, hb⟩ := h a hac
    exact ⟨b, hba.trans hac, hb.resolve_right (hn b hba)⟩

theorem survives_of_no_pend (h : ∀ b, ¬ G.pend b) (c : V) : G.Survives c :=
  ⟨c, .refl, Or.inr fun b _ => h b⟩

/-- In a finite graph a vertex survives unless every unrooted source above it is marked. -/
theorem survives_iff_source (S : Finset V) (hS : ∀ a b, G.edge a b → a ∈ S ∧ b ∈ S)
    (hc : c ∈ S) : G.Survives c ↔
    G.Rooted c ∨ ∃ u, Reach G.edge u c ∧ G.Source u ∧ ∀ b, Reach G.edge b u → ¬ G.pend b := by
  constructor
  · rintro ⟨a, hac, ha⟩
    by_cases hr : G.Rooted c
    · exact Or.inl hr
    have hn := ha.resolve_left fun h => hr ⟨a, hac, h⟩
    have haS : a ∈ S := hac.mem_of_coclosed (P := (· ∈ S)) (fun x y _ hxy => (hS x y hxy).1) hc
    obtain ⟨u, -, hua, hu⟩ := exists_source S hS haS
    refine Or.inr ⟨u, hua.trans hac, fun b hb => ⟨fun h => hr ⟨b, hb.trans (hua.trans hac), h⟩,
      hu b hb⟩, fun b hb => hn b (hb.trans hua)⟩
  · rintro (h | ⟨u, huc, -, hn⟩)
    · exact h.survives
    · exact ⟨u, huc, Or.inr hn⟩

/-- An unrooted source survives when no mark lies above it. -/
theorem Source.survives_iff (h : G.Source c) :
    G.Survives c ↔ ∀ b, Reach G.edge b c → ¬ G.pend b := by
  refine ⟨fun ⟨a, hac, ha⟩ b hbc => ?_, fun hn => ⟨c, .refl, Or.inr hn⟩⟩
  exact ha.resolve_left (h a hac).1 b (hbc.trans (h a hac).2)

/-- One collection step: it frees the doomed set `F`, keeps the rest of the graph, and consumes
a mark only where the marked vertex is not part of an unrooted source. -/
structure Collects (G G' : Marked V) (F : V → Prop) : Prop where
  closed : ∀ a b, F b → G.edge a b → F a
  unrooted : ∀ a, F a → ¬ G.root a
  doomed : ∀ c, F c → ∃ b, Reach G.edge b c ∧ G.pend b
  edge_iff : ∀ a b, G'.edge a b ↔ G.edge a b ∧ ¬ F a
  root_iff : ∀ a, ¬ F a → (G'.root a ↔ G.root a)
  pend_new : ∀ b, G'.pend b → G.pend b ∨ ∃ a, F a ∧ G.edge a b
  pend_kept : ∀ w, ¬ F w → G.pend w → G.Source w → G'.pend w
  orphan : ∀ a b, F a → ¬ F b → G.edge a b → G'.Source b → G'.pend b

section Step

variable {G' : Marked V} {F : V → Prop}

theorem Collects.not_survives (h : Collects G G' F) (hc : F c) : ¬ G.Survives c := by
  rw [Marked.not_survives]
  intro a hac
  have ha := hac.mem_of_coclosed (P := F) (fun x y hy hxy => h.closed x y hy hxy) hc
  exact ⟨h.unrooted a ha, h.doomed a ha⟩

theorem Collects.outside (h : Collects G G' F) {a b : V} (ha : ¬ F a) (hab : Reach G.edge a b) :
    ¬ F b := fun hb => ha (hab.mem_of_coclosed (fun x y hy hxy => h.closed x y hy hxy) hb)

theorem Collects.reach (h : Collects G G' F) {a b : V} (hab : Reach G'.edge a b) :
    Reach G.edge a b := hab.mono fun x y hxy => ((h.edge_iff x y).mp hxy).1

theorem Collects.reach' (h : Collects G G' F) {a b : V} (ha : ¬ F a) (hab : Reach G.edge a b) :
    Reach G'.edge a b :=
  hab.transfer (P := fun x => ¬ F x) (fun x y hx _ hxy => (h.edge_iff x y).mpr ⟨hxy, hx⟩)
    (fun _ _ hx hxy => h.outside hx (.single hxy)) ha

theorem Collects.survives (h : Collects G G' F) (hs : G.Survives c) : G'.Survives c := by
  obtain ⟨a, hac, ha⟩ := hs
  have haF : ¬ F a := fun hf => h.not_survives hf ⟨a, .refl, ha⟩
  refine ⟨a, h.reach' haF hac, ha.imp (h.root_iff a haF).mpr fun hn b hba hb => ?_⟩
  rcases h.pend_new b hb with hp | ⟨f, hf, hfb⟩
  · exact hn b (h.reach hba) hp
  · -- a vertex below a freed one has the freed one's mark above it
    obtain ⟨d, hdf, hd⟩ := h.doomed f hf
    exact hn d ((hdf.tail hfb).trans (h.reach hba)) hd

theorem Collects.survives_of (h : Collects G G' F) (S : Finset V)
    (hS : ∀ a b, G.edge a b → a ∈ S ∧ b ∈ S) (hcS : c ∈ S) (hc : ¬ F c) (hs : G'.Survives c) :
    G.Survives c := by
  by_contra hn
  rw [Marked.not_survives] at hn
  have hS' : ∀ a b, G'.edge a b → a ∈ S ∧ b ∈ S := fun a b hab => hS a b ((h.edge_iff a b).mp hab).1
  have hF' : ∀ {a}, Reach G'.edge a c → ¬ F a := fun {a} ha hf => by
    rcases ha.head_cases with rfl | ⟨b, hab, -⟩
    · exact hc hf
    · exact ((h.edge_iff a b).mp hab).2 hf
  rcases (survives_iff_source S hS' hcS).mp hs with ⟨a, hac, hr⟩ | ⟨u, huc, hu, hp⟩
  · exact (hn a (h.reach hac)).1 ((h.root_iff a (hF' hac)).mp hr)
  · obtain ⟨-, w, hwu, hw⟩ := hn u (h.reach huc)
    by_cases hF : ∃ f, F f ∧ Reach G.edge f u
    · -- the source lost an edge from the freed set, so its target was re-marked
      obtain ⟨f, hf, hfu⟩ := hF
      obtain ⟨x, y, hx, hy, hxy, hyu⟩ := hfu.exit hf (hF' huc)
      have hyu' := h.reach' hy hyu
      refine hp y hyu' (h.orphan x y hx hy hxy fun b hby => ?_)
      exact ⟨(hu b (hby.trans hyu')).1, hyu'.trans (hu b (hby.trans hyu')).2⟩
    · -- nothing above the source was freed, so it was a source before and kept its mark
      push Not at hF
      have hout : ∀ b, Reach G.edge b u → ¬ F b := fun b hb hf => hF b hf hb
      have hup : ∀ b, Reach G.edge b u → Reach G'.edge b u := fun b hb => h.reach' (hout b hb) hb
      refine hp w (hup w hwu) (h.pend_kept w (hout w hwu) hw fun b hbw => ?_)
      have hbu := hup b (hbw.trans hwu)
      refine ⟨fun hr => (hu b hbu).1 ((h.root_iff b (hout b (hbw.trans hwu))).mpr hr), ?_⟩
      exact hwu.trans (h.reach (hu b hbu).2)

/-- A collection step decides the fate of no vertex it leaves alone. -/
theorem Collects.survives_iff (h : Collects G G' F) (S : Finset V)
    (hS : ∀ a b, G.edge a b → a ∈ S ∧ b ∈ S) (hcS : c ∈ S) :
    G.Survives c ↔ ¬ F c ∧ G'.Survives c :=
  ⟨fun hs => ⟨fun hf => h.not_survives hf hs, h.survives hs⟩,
    fun hs => h.survives_of S hS hcS hs.1 hs.2⟩

end Step

section Loss

variable {G' : Marked V} {b : V}

/-- Losing edges into one vertex keeps every path that does not start over at that vertex. -/
theorem reach_of_lost (hlost : ∀ x y, G.edge x y → G'.edge x y ∨ y = b) {w i : V}
    (h : Reach G.edge w i) : Reach G'.edge w i ∨ Reach G'.edge b i := by
  induction h with
  | refl => exact Or.inl .refl
  | @tail x y _ hxy ih =>
    rcases hlost x y hxy with hk | rfl
    · exact ih.imp (·.tail hk) (·.tail hk)
    · exact Or.inr .refl

/-- A vertex that loses a reference keeps everything watched when it is still rooted, is marked,
or leads nowhere and is itself below a watched vertex. -/
theorem Watched.lose (hlost : ∀ x y, G.edge x y → G'.edge x y ∨ y = b)
    (hroot : ∀ x, x ≠ b → G.root x → G'.root x) (hpend : ∀ x, x ≠ b → G.pend x → G'.pend x)
    (hb : G'.root b ∨ G'.pend b ∨
      ((∀ y, ¬ G'.edge b y) ∧ ∃ c, c ≠ b ∧ G'.edge c b ∧ G.Watched c))
    {i : V} (h : G.Watched i) : G'.Watched i := by
  have hstay : ∀ w, w ≠ b → G.root w ∨ G.pend w → G'.root w ∨ G'.pend w := fun w hw =>
    Or.imp (hroot w hw) (hpend w hw)
  have hwb : G'.Watched b := by
    rcases hb with hr | hp | ⟨hno, c, hcb, hedge, w, hwc, hw⟩
    · exact ⟨b, .refl, Or.inl hr⟩
    · exact ⟨b, .refl, Or.inr hp⟩
    · have hdead : ∀ y, y ≠ b → ¬ Reach G'.edge b y := fun y hy hr => by
        rcases hr.head_cases with rfl | ⟨z, hz, -⟩
        · exact hy rfl
        · exact hno z hz
      have hwc' := (reach_of_lost hlost hwc).resolve_right (hdead c hcb)
      have hwb : w ≠ b := by
        rintro rfl
        exact hdead c hcb hwc'
      exact ⟨w, hwc'.tail hedge, hstay w hwb hw⟩
  obtain ⟨w, hwi, hw⟩ := h
  have hdown : ∀ {x}, Reach G'.edge b x → G'.Watched x := fun hbx =>
    let ⟨w, hwb, hw⟩ := hwb
    ⟨w, hwb.trans hbx, hw⟩
  rcases reach_of_lost hlost hwi with hwi | hbi
  · by_cases hwb' : w = b
    · exact hdown (hwb' ▸ hwi)
    · exact ⟨w, hwi, hstay w hwb' hw⟩
  · exact hdown hbi

/-- New edges, roots and marks keep everything watched. -/
theorem Watched.gain (hedge : ∀ x y, G.edge x y → G'.edge x y)
    (hmark : ∀ x, G.root x ∨ G.pend x → G'.root x ∨ G'.pend x) {i : V} (h : G.Watched i) :
    G'.Watched i :=
  let ⟨w, hwi, hw⟩ := h
  ⟨w, hwi.mono hedge, hmark w hw⟩

end Loss

end Marked

end Loxis.Graph
