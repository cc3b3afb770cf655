import Loxis.Lib.TarjanInv

/-! # Tarjan's search finds the strongly connected components

Leaving a vertex keeps the invariant, so a search from any list of roots numbers
exactly the vertices the roots reach and gives two of them one component number
iff each reaches the other.
-/

namespace Loxis.Tarjan

open Loxis.Graph Function

variable {V : Type*} {succ : V → List V} {R : V → Prop}

section Region

variable {s : State V} {u : V} {fs : List (V × List V)}

/-- The vertices above `u` on the component stack, `u` included. -/
def Region (s : State V) (u x : V) : Prop := x ∈ s.stack ∧ s.disc u ≤ s.disc x

theorem Inv.top_stack (h : Inv succ R none s) (hf : s.frames = (u, []) :: fs) : u ∈ s.stack :=
  h.frames_stack (u, []) (by rw [hf]; exact List.mem_cons_self)

theorem Inv.region_frame (h : Inv succ R none s) (hf : s.frames = (u, []) :: fs) {x : V}
    (hx : Region s u x) {rest : List V} (hm : (x, rest) ∈ s.frames) : x = u ∧ rest = [] := by
  have hd := le_antisymm (h.head_max hf hm) hx.2
  obtain rfl : x = u := h.disc_inj _ _ (h.stack_disc _ hx.1) hd
  exact ⟨rfl, h.head_rest hf hm⟩

theorem Inv.region_examined (h : Inv succ R none s) (hf : s.frames = (u, []) :: fs) {x w : V}
    (hx : Region s u x) (hw : w ∈ succ x) : Examined succ s x w :=
  ⟨hw, fun rest hm => by rw [(h.region_frame hf hx hm).2]; exact List.not_mem_nil⟩

/-- No edge leaves the region of a component root except into closed components. -/
theorem Inv.region_edge (h : Inv succ R none s) (hf : s.frames = (u, []) :: fs)
    (hr : s.low u = s.disc u) {x w : V} (hx : Region s u x) (hw : w ∈ succ x) :
    Region s u w ∨ s.scc w ≠ none := by
  have hex := h.region_examined hf hx hw
  have hwd : s.disc w ≠ 0 := by
    rcases h.examined x w (h.stack_disc x hx.1) hex with hd | hd
    · exact hd
    · simp at hd
  by_cases hws : w ∈ s.stack
  · refine Or.inl ⟨hws, ?_⟩
    have := h.low_bound (u, []) (by rw [hf]; exact List.mem_cons_self) x hx.1 hx.2
      (fun g hg _ => h.head_max hf hg) w hws hex
    rwa [hr] at this
  · exact Or.inr fun hn => hws ((h.stack_scc w hwd).mpr hn)

theorem Inv.region_reach (h : Inv succ R none s) (hf : s.frames = (u, []) :: fs)
    (hr : s.low u = s.disc u) {x y : V} (hx : Region s u x) (hxy : Reach (Edge succ) x y) :
    Region s u y ∨ s.scc y ≠ none := by
  refine hxy.mem_of_closed (P := fun y => Region s u y ∨ s.scc y ≠ none) ?_ (Or.inl hx)
  rintro a b (ha | ha) hab
  · exact h.region_edge hf hr ha hab
  · exact Or.inr (h.closed a b ha hab)

theorem Inv.stack_open (h : Inv succ R none s) {x : V} (hx : x ∈ s.stack) : s.scc x = none :=
  (h.stack_scc x (h.stack_disc x hx)).mp hx

/-- Every vertex of the region reaches the root, following links downwards. -/
theorem Inv.region_to_root (h : Inv succ R none s) (hf : s.frames = (u, []) :: fs)
    (hr : s.low u = s.disc u) {x : V} (hx : Region s u x) : Reach (Edge succ) x u := by
  induction hd : s.disc x using Nat.strong_induction_on generalizing x with
  | _ d ih =>
    by_cases hxu : x = u
    · rw [hxu]
    have hnf : x ∉ s.frames.map Prod.fst := by
      intro hm
      obtain ⟨f, hfm, rfl⟩ := List.mem_map.mp hm
      exact hxu (h.region_frame hf hx hfm).1
    obtain ⟨y, hy, hyd, hxy⟩ := h.low_reach x hx.1
    have hlt := h.low_lt x hx.1 hnf
    rcases h.region_reach hf hr hx hxy with hyr | hyc
    · exact hxy.trans (ih _ (by omega) hyr rfl)
    · exact absurd (h.stack_open hy) hyc

theorem Inv.region_mutual (h : Inv succ R none s) (hf : s.frames = (u, []) :: fs)
    (hr : s.low u = s.disc u) {x y : V} (hx : Region s u x) :
    Region s u y ↔ Reach (Edge succ) x y ∧ Reach (Edge succ) y x := by
  have hfr : ∀ z, Region s u z → Reach (Edge succ) u z := fun z hz =>
    h.frame_reach (u, []) (by rw [hf]; exact List.mem_cons_self) z hz.1 hz.2
  constructor
  · intro hy
    exact ⟨(h.region_to_root hf hr hx).trans (hfr y hy),
      (h.region_to_root hf hr hy).trans (hfr x hx)⟩
  · rintro ⟨hxy, hyx⟩
    rcases h.region_reach hf hr hx hxy with hy | hy
    · exact hy
    · exact absurd (h.stack_open hx.1) (h.closed_reach hy hyx)

end Region

section Leave

variable [DecidableEq V] {s : State V} {u : V} {fs : List (V × List V)}

theorem popLoop_spec {u : V} {c : ℕ} {ys : List V} :
    ∀ {xs : List V} (onStack : V → Bool) (scc : V → Option ℕ), u ∉ xs →
      (popLoop u c (xs ++ u :: ys) onStack scc).1 = ys ∧
      (∀ w, (popLoop u c (xs ++ u :: ys) onStack scc).2.1 w =
        if w ∈ xs ∨ w = u then false else onStack w) ∧
      ∀ w, (popLoop u c (xs ++ u :: ys) onStack scc).2.2 w =
        if w ∈ xs ∨ w = u then some c else scc w
  | [], onStack, scc, _ => by simp [popLoop, update_apply]
  | x :: xs, onStack, scc, hu => by
    have hxu : x ≠ u := fun he => hu (he ▸ List.mem_cons_self)
    have hu' : u ∉ xs := fun hm => hu (List.mem_cons_of_mem _ hm)
    obtain ⟨h1, h2, h3⟩ := popLoop_spec (c := c) (update onStack x false)
      (update scc x (some c)) hu'
    simp only [List.cons_append, popLoop, if_neg hxu]
    refine ⟨h1, fun w => ?_, fun w => ?_⟩
    · simp only [h2, update_apply, List.mem_cons]
      grind
    · simp only [h3, update_apply, List.mem_cons]
      grind

/-- What closing the component of `u` does to the stack and the maps. -/
theorem Inv.close_spec (h : Inv succ R none s) (hf : s.frames = (u, []) :: fs) :
    let r := popLoop u s.comps s.stack s.onStack s.scc
    r.1.Sublist s.stack ∧ (∀ w, w ∈ r.1 ↔ w ∈ s.stack ∧ s.disc w < s.disc u) ∧
      (∀ w, r.2.1 w = true ↔ w ∈ s.stack ∧ s.disc w < s.disc u) ∧
      (∀ w, Region s u w → r.2.2 w = some s.comps) ∧ ∀ w, ¬ Region s u w → r.2.2 w = s.scc w := by
  obtain ⟨xs, ys, hst⟩ := List.append_of_mem (h.top_stack hf)
  have hsort := h.stack_sorted
  rw [hst, List.pairwise_append, List.pairwise_cons] at hsort
  obtain ⟨-, ⟨hys, -⟩, hxs⟩ := hsort
  have hux : u ∉ xs := fun hm => lt_irrefl _ (hxs u hm u List.mem_cons_self)
  have hreg : ∀ w, Region s u w ↔ w ∈ xs ∨ w = u := by
    intro w
    rw [Region, hst, List.mem_append, List.mem_cons]
    constructor
    · rintro ⟨hw | rfl | hw, hd⟩
      · exact Or.inl hw
      · exact Or.inr rfl
      · have := hys w hw; omega
    · rintro (hw | rfl)
      · exact ⟨Or.inl hw, (hxs w hw u List.mem_cons_self).le⟩
      · exact ⟨Or.inr (Or.inl rfl), le_rfl⟩
  have hlow : ∀ w, w ∈ ys ↔ w ∈ s.stack ∧ s.disc w < s.disc u := by
    intro w
    constructor
    · exact fun hw => ⟨by rw [hst]; simp [hw], hys w hw⟩
    · rintro ⟨hw, hd⟩
      rw [hst, List.mem_append, List.mem_cons] at hw
      rcases hw with hw | rfl | hw
      · have := hxs w hw u List.mem_cons_self; omega
      · omega
      · exact hw
  obtain ⟨h1, h2, h3⟩ := popLoop_spec (c := s.comps) s.onStack s.scc hux
  rw [← hst] at h1 h2 h3
  refine ⟨?_, fun w => by rw [h1]; exact hlow w, fun w => ?_, fun w hw => ?_, fun w hw => ?_⟩
  · rw [h1, hst]
    exact (List.sublist_cons_self u ys).trans (List.sublist_append_right xs _)
  · rw [h2]
    by_cases hw : Region s u w
    · simp only [if_pos ((hreg w).mp hw), Bool.false_eq_true, false_iff, not_and]
      intro _; have := hw.2; omega
    · rw [if_neg (hw ∘ (hreg w).mpr), h.on_iff]
      exact ⟨fun hm => ⟨hm, not_le.mp fun hd => hw ⟨hm, hd⟩⟩, fun hm => hm.1⟩
  · rw [h3, if_pos ((hreg w).mp hw)]
  · rw [h3, if_neg (hw ∘ (hreg w).mpr)]

/-- Leaving the root of a component closes the component. -/
theorem Inv.close (h : Inv succ R none s) (hf : s.frames = (u, []) :: fs)
    (hr : s.low u = s.disc u) :
    Inv succ R none (closeComponent u { s with frames := fs }) := by
  obtain ⟨hsub, hst, hon, hnew, hold⟩ := h.close_spec hf
  have hfs : ∀ g ∈ fs, g ∈ s.frames := fun g hg => by rw [hf]; exact List.mem_cons_of_mem _ hg
  have hlt : ∀ g ∈ fs, s.disc g.1 < s.disc u := fun g hg => h.head_lt hf hg
  have huS : Region s u u := ⟨h.top_stack hf, le_rfl⟩
  have hsome : ∀ w c, (popLoop u s.comps s.stack s.onStack s.scc).2.2 w = some c →
      (Region s u w ∧ c = s.comps) ∨ (¬ Region s u w ∧ s.scc w = some c) := by
    intro w c hc
    by_cases hw : Region s u w
    · rw [hnew w hw] at hc; exact Or.inl ⟨hw, (Option.some.inj hc).symm⟩
    · rw [hold w hw] at hc; exact Or.inr ⟨hw, hc⟩
  have hex : ∀ x w, x ∈ s.stack → s.disc x < s.disc u →
      Examined succ (closeComponent u { s with frames := fs }) x w → Examined succ s x w := by
    rintro x w hx hxu ⟨hw, hrest⟩
    refine ⟨hw, fun rest hm => ?_⟩
    rw [hf] at hm
    rcases List.mem_cons.mp hm with he | hm
    · rw [(Prod.mk.inj he).2]; exact List.not_mem_nil
    · exact hrest rest hm
  refine
    { disc_le := h.disc_le, disc_inj := h.disc_inj, clean := ?_, on_iff := ?_,
      stack_sorted := h.stack_sorted.sublist hsub, stack_disc := ?_, stack_scc := ?_,
      scc_lt := ?_, scc_used := ?_, visited_nodup := h.visited_nodup,
      visited_iff := h.visited_iff, frames_sorted := ?_, frames_stack := ?_,
      frames_rest := fun g hg => h.frames_rest g (hfs g hg), closed := ?_, examined := ?_,
      low_le := ?_, low_reach := ?_, low_lt := ?_, low_bound := ?_, frame_reach := ?_,
      bottom := ?_, same_comp := ?_, from_root := h.from_root, pend_new := by simp,
      pend_edge := by simp }
  · intro x hx
    have hxr : ¬ Region s u x := fun hm => h.stack_disc x hm.1 hx
    obtain ⟨h1, h2, h3⟩ := h.clean x hx
    refine ⟨h1, ?_, by rw [← h3]; exact hold x hxr⟩
    rw [Bool.eq_false_iff]
    exact fun hm => h.stack_disc x ((hon x).mp hm).1 hx
  · intro x; exact (hon x).trans (hst x).symm
  · intro x hx; exact h.stack_disc x ((hst x).mp hx).1
  · intro x hx
    refine (hst x).trans ⟨fun hm => ?_, fun hm => ?_⟩
    · rw [← (h.stack_scc x hx).mp hm.1]
      exact hold x fun hc => absurd hc.2 (not_le.mpr hm.2)
    · have hxr : ¬ Region s u x := fun hc => by
        have := hnew x hc
        simp only [closeComponent] at hm
        rw [this] at hm
        simp at hm
      have hxs : x ∈ s.stack := (h.stack_scc x hx).mpr ((hold x hxr).symm.trans hm)
      exact ⟨hxs, not_le.mp fun hd => hxr ⟨hxs, hd⟩⟩
  · intro x c hc
    rcases hsome x c hc with ⟨-, rfl⟩ | ⟨-, hc⟩
    · exact Nat.lt_succ_self _
    · exact Nat.lt_succ_of_lt (h.scc_lt x c hc)
  · intro c hc
    rcases Nat.lt_succ_iff_lt_or_eq.mp hc with hc | rfl
    · obtain ⟨x, hx⟩ := h.scc_used c hc
      have hxr : ¬ Region s u x := fun hm => by rw [h.stack_open hm.1] at hx; simp at hx
      exact ⟨x, (hold x hxr).trans hx⟩
    · exact ⟨u, hnew u huS⟩
  · have := h.frames_sorted
    rw [hf, List.map_cons, List.pairwise_cons] at this
    exact this.2
  · intro g hg
    exact (hst _).mpr ⟨h.frames_stack g (hfs g hg), hlt g hg⟩
  · intro x w hx hw
    have hout : Region s u w ∨ s.scc w ≠ none := by
      by_cases hxr : Region s u x
      · exact h.region_edge hf hr hxr hw
      · refine Or.inr (h.closed x w (fun hn => hx ?_) hw)
        exact (hold x hxr).trans hn
    by_cases hwr : Region s u w
    · simp only [closeComponent]; rw [hnew w hwr]; simp
    · simp only [closeComponent]; rw [hold w hwr]; exact hout.resolve_left hwr
  · intro x w hx hxw
    by_cases hxs : x ∈ s.stack
    · by_cases hxd : s.disc x < s.disc u
      · exact h.examined x w hx (hex x w hxs hxd hxw)
      · exact h.examined x w hx (h.region_examined hf ⟨hxs, not_lt.mp hxd⟩ hxw.1)
    · have hc := h.closed x w (fun hn => hxs ((h.stack_scc x hx).mpr hn)) hxw.1
      exact Or.inl fun hw => hc (h.clean w hw).2.2
  · intro x hx; exact h.low_le x ((hst x).mp hx).1
  · intro x hx
    obtain ⟨hxs, hxd⟩ := (hst x).mp hx
    obtain ⟨y, hy, hyd, hxy⟩ := h.low_reach x hxs
    refine ⟨y, (hst y).mpr ⟨hy, ?_⟩, hyd, hxy⟩
    have := h.low_le x hxs
    omega
  · intro x hx hxf
    obtain ⟨hxs, hxd⟩ := (hst x).mp hx
    refine h.low_lt x hxs ?_
    rw [hf, List.map_cons, List.mem_cons, not_or]
    exact ⟨fun he => by rw [he] at hxd; exact lt_irrefl _ hxd, hxf⟩
  · intro g hg x hx hgx hmax w hw hxw
    obtain ⟨hxs, hxd⟩ := (hst x).mp hx
    refine h.low_bound g (hfs g hg) x hxs hgx (fun k hk hkx => ?_) w ((hst w).mp hw).1
      (hex x w hxs hxd hxw)
    rw [hf] at hk
    rcases List.mem_cons.mp hk with rfl | hk
    · exact absurd hkx (not_le.mpr hxd)
    · exact hmax k hk hkx
  · intro g hg x hx hgx
    exact h.frame_reach g (hfs g hg) x ((hst x).mp hx).1 hgx
  · intro x hx
    obtain ⟨hxs, hxd⟩ := (hst x).mp hx
    obtain ⟨g, hg, hgx⟩ := h.bottom x hxs
    rw [hf] at hg
    rcases List.mem_cons.mp hg with rfl | hg
    · exact absurd hgx (not_le.mpr hxd)
    · exact ⟨g, hg, hgx⟩
  · intro x y c hc
    rcases hsome x c hc with ⟨hx, rfl⟩ | ⟨hx, hc⟩
    · rw [← h.region_mutual hf hr hx]
      constructor
      · intro hy
        rcases hsome y _ hy with ⟨hy, -⟩ | ⟨-, hy⟩
        · exact hy
        · exact absurd (h.scc_lt y _ hy) (lt_irrefl _)
      · exact fun hy => hnew y hy
    · rw [← h.same_comp x y c hc]
      constructor
      · intro hy
        rcases hsome y c hy with ⟨-, rfl⟩ | ⟨-, hy⟩
        · exact absurd (h.scc_lt x _ hc) (lt_irrefl _)
        · exact hy
      · intro hy
        have hyr : ¬ Region s u y := fun hm => by rw [h.stack_open hm.1] at hy; simp at hy
        exact (hold y hyr).trans hy

/-- Leaving a vertex whose component stays open folds its link into the frame below. -/
theorem Inv.fold (h : Inv succ R none s) (hf : s.frames = (u, []) :: fs)
    (hr : s.low u ≠ s.disc u) : Inv succ R none (foldLow u { s with frames := fs }) := by
  have huf : (u, []) ∈ s.frames := by rw [hf]; exact List.mem_cons_self
  have hus := h.top_stack hf
  have hlu : s.low u < s.disc u := lt_of_le_of_ne (h.low_le u hus) hr
  obtain ⟨y, hy, hyd, huy⟩ := h.low_reach u hus
  cases hfs : fs with
  | nil =>
    -- a lone frame sits at the bottom of the stack, so its link cannot point below it
    obtain ⟨g, hg, hgy⟩ := h.bottom y hy
    rw [hf, hfs] at hg
    obtain rfl : g = (u, []) := by simpa using hg
    exact absurd hgy (by rw [hyd]; exact not_le.mpr hlu)
  | cons p gs =>
    obtain ⟨p, next⟩ := p
    rw [hfs] at hf
    have hsub : ∀ g ∈ (p, next) :: gs, g ∈ s.frames := fun g hg => by
      rw [hf]; exact List.mem_cons_of_mem _ hg
    have hpf := hsub (p, next) List.mem_cons_self
    have hps := h.frames_stack _ hpf
    have hpu : s.disc p < s.disc u := h.head_lt hf (g := (p, next)) List.mem_cons_self
    have hfold : foldLow u { s with frames := (p, next) :: gs } =
        { s with low := update s.low p (min (s.low p) (s.low u)), frames := (p, next) :: gs } := by
      simp only [foldLow]
      split
      · next hlt => rw [min_eq_right hlt.le]
      · next hge => rw [min_eq_left (not_lt.mp hge), update_eq_self]
    have hle : ∀ x, update s.low p (min (s.low p) (s.low u)) x ≤ s.low x := by
      intro x
      rw [update_apply]
      split
      · next hx => rw [hx]; exact min_le_left _ _
      · exact le_rfl
    have hex : ∀ x w, (w ∈ succ x ∧ ∀ rest, (x, rest) ∈ (p, next) :: gs → w ∉ rest) →
        Examined succ s x w := by
      rintro x w ⟨hw, hrest⟩
      refine ⟨hw, fun rest hm => ?_⟩
      rw [hf] at hm
      rcases List.mem_cons.mp hm with he | hm
      · rw [(Prod.mk.inj he).2]; exact List.not_mem_nil
      · exact hrest rest hm
    rw [hfold]
    refine
      { h with
        clean := ?_, frames_sorted := ?_
        frames_stack := fun g hg => h.frames_stack g (hsub g hg)
        frames_rest := fun g hg => h.frames_rest g (hsub g hg)
        examined := fun x w hx hxw => h.examined x w hx (hex x w hxw)
        low_le := fun x hx => (hle x).trans (h.low_le x hx)
        low_reach := ?_, low_lt := ?_, low_bound := ?_
        frame_reach := fun g hg => h.frame_reach g (hsub g hg)
        bottom := ?_, pend_edge := by simp }
    · intro x hx
      have hxp : x ≠ p := by rintro rfl; exact h.stack_disc _ hps hx
      simpa [update_of_ne hxp] using h.clean x hx
    · have := h.frames_sorted
      rw [hf, List.map_cons, List.pairwise_cons] at this
      exact this.2
    · intro x hx
      by_cases hxp : x = p ∧ s.low u < s.low p
      · obtain ⟨rfl, hlt⟩ := hxp
        refine ⟨y, hy, by simp only [update_self, min_eq_right hlt.le, hyd], ?_⟩
        exact (h.frame_reach _ hpf u hus hpu.le).trans huy
      · obtain ⟨z, hz, hzd, hxz⟩ := h.low_reach x hx
        refine ⟨z, hz, ?_, hxz⟩
        simp only [update_apply]
        split
        · next hx' => rw [min_eq_left (not_lt.mp (not_and.mp hxp hx')), hzd, hx']
        · exact hzd
    · intro x hx hxf
      refine (hle x).trans_lt ?_
      by_cases hxu : x = u
      · rw [hxu]; exact hlu
      · refine h.low_lt x hx ?_
        rw [hf, List.map_cons, List.mem_cons, not_or]
        exact ⟨hxu, hxf⟩
    · intro g hg x hx hgx hmax w hw hxw
      by_cases hxu : s.disc u ≤ s.disc x
      · -- the region of `u` now belongs to the frame below
        have hpx : s.disc p ≤ s.disc g.1 := hmax (p, next) List.mem_cons_self (hpu.le.trans hxu)
        have hgp : g.1 = p := by
          rcases List.mem_cons.mp hg with rfl | hg'
          · rfl
          · have := h.frames_sorted
            rw [hf, List.map_cons, List.map_cons, List.pairwise_cons, List.pairwise_cons] at this
            have := this.2.1 _ (List.mem_map_of_mem hg')
            exact absurd hpx (not_le.mpr this)
        have := h.low_bound (u, []) huf x hx hxu (fun k hk _ => h.head_max hf hk) w hw
          (hex x w hxw)
        simp only [hgp, update_self]
        exact (min_le_right _ _).trans this
      · refine (hle g.1).trans (h.low_bound g (hsub g hg) x hx hgx (fun k hk hkx => ?_) w hw
          (hex x w hxw))
        rw [hf] at hk
        rcases List.mem_cons.mp hk with rfl | hk
        · exact absurd hkx hxu
        · exact hmax k hk hkx
    · intro x hx
      obtain ⟨g, hg, hgx⟩ := h.bottom x hx
      rw [hf] at hg
      rcases List.mem_cons.mp hg with rfl | hg
      · exact ⟨(p, next), List.mem_cons_self, hpu.le.trans hgx⟩
      · exact ⟨g, hg, hgx⟩

theorem Inv.finish (h : Inv succ R none s) (hf : s.frames = (u, []) :: fs) :
    Inv succ R none (finishNode u fs s) := by
  simp only [finishNode]
  split
  · next hr =>
    have hc := h.close hf hr
    have hnop : foldLow u (closeComponent u { s with frames := fs }) =
        closeComponent u { s with frames := fs } := by
      cases fs with
      | nil => rfl
      | cons p gs =>
        have hp : p ∈ s.frames := by rw [hf]; exact List.mem_cons_of_mem _ List.mem_cons_self
        have h1 := h.low_le _ (h.frames_stack p hp)
        have h2 := h.head_lt hf (g := p) List.mem_cons_self
        exact if_neg (by simp only [closeComponent]; omega)
    rw [hnop]
    exact hc
  · next hr => exact h.fold hf hr

end Leave

section Search

variable [DecidableEq V] {s : State V} {U : Finset V}

/-- The invariant at the head of the loop: the vertex on top may still be unnumbered. -/
def Good (succ : V → List V) (R : V → Prop) (s : State V) : Prop :=
  Inv succ R none s ∨
    ∃ v fs, s.frames = (v, []) :: fs ∧ Inv succ R (some v) { s with frames := fs }

/-- Work left: twice the edges not looked at, the open frames and the unnumbered vertices. -/
def work (succ : V → List V) (U : Finset V) (s : State V) : ℕ :=
  2 * (∑ v ∈ U with s.disc v = 0, (succ v).length + (s.frames.map fun f => f.2.length).sum) +
    s.frames.length + (U.filter (s.disc · = 0)).card

theorem Inv.advance_good (h : Inv succ R none s) {u : V} {next : List V}
    {fs : List (V × List V)} (hf : s.frames = (u, next) :: fs) :
    Good succ R (advance u fs s next) := by
  cases next with
  | nil => exact Or.inl (h.finish hf)
  | cons v rest =>
    simp only [advance, scanEdge]
    split
    · next hv => exact Or.inr ⟨v, (u, rest) :: fs, rfl, h.descend hf hv⟩
    · next hv =>
      split
      · next hon =>
        have hvs : v ∈ s.stack := (h.on_iff v).mp hon.1
        exact Or.inl (h.pass hf hv hon.2.le (Or.inr ⟨hvs, rfl⟩) fun _ => le_rfl)
      · next hon =>
        have := h.pass hf hv le_rfl (Or.inl rfl) fun hvs =>
          not_lt.mp fun hlt => hon ⟨(h.on_iff v).mpr hvs, hlt⟩
        rw [update_eq_self] at this
        exact Or.inl this

theorem Good.body (h : Good succ R s) : Good succ R (body succ s).1 := by
  rcases h with h | ⟨v, fs, hf, h⟩
  · cases hf : s.frames with
    | nil => simp only [Tarjan.body, hf]; exact Or.inl h
    | cons f fs =>
      have hd : s.disc f.1 ≠ 0 :=
        h.stack_disc _ (h.frames_stack f (by rw [hf]; exact List.mem_cons_self))
      simp only [Tarjan.body, hf, if_neg hd]
      exact h.advance_good hf
  · have hd : s.disc v = 0 := h.pend_new v rfl
    simp only [Tarjan.body, hf, if_pos hd]
    exact h.enter.advance_good rfl

@[simp] theorem disc_finishNode (u : V) (fs : List (V × List V)) (s : State V) :
    (finishNode u fs s).disc = s.disc := by
  unfold finishNode foldLow closeComponent
  dsimp only
  split <;> split <;> (try split) <;> rfl

@[simp] theorem frames_finishNode (u : V) (fs : List (V × List V)) (s : State V) :
    (finishNode u fs s).frames = fs := by
  unfold finishNode foldLow closeComponent
  dsimp only
  split <;> split <;> (try split) <;> rfl

theorem disc_advance (u : V) (fs : List (V × List V)) (s : State V) (next : List V) :
    (advance u fs s next).disc = s.disc := by
  cases next with
  | nil => simp [advance]
  | cons v rest => simp only [advance, scanEdge]; split <;> (try split) <;> rfl

theorem work_advance {u : V} {next : List V} {fs : List (V × List V)}
    (hf : s.frames = (u, next) :: fs) : work succ U (advance u fs s next) < work succ U s := by
  unfold work
  rw [disc_advance, hf]
  cases next with
  | nil =>
    simp only [advance, frames_finishNode, List.map_cons, List.sum_cons, List.length_cons,
      List.length_nil]
    omega
  | cons v rest =>
    simp only [advance, scanEdge]
    split <;> (try split) <;>
      simp only [List.map_cons, List.sum_cons, List.length_cons, List.length_nil] <;> omega

theorem work_enter {v : V} {fs : List (V × List V)} (hf : s.frames = (v, []) :: fs)
    (hd : s.disc v = 0) (hv : v ∈ U) : work succ U (enter succ v fs s) < work succ U s := by
  have hset : U.filter ((enter succ v fs s).disc · = 0) = (U.filter (s.disc · = 0)).erase v := by
    ext x
    simp only [enter, Finset.mem_filter, Finset.mem_erase, update_apply]
    split
    · next hx => simp [hx]
    · next hx => simp [hx]
  have hmem : v ∈ U.filter (s.disc · = 0) := Finset.mem_filter.mpr ⟨hv, hd⟩
  have hsum := Finset.add_sum_erase _ (fun x => (succ x).length) hmem
  have hcard := Finset.card_erase_add_one hmem
  unfold work
  rw [hset, hf]
  simp only [enter, List.map_cons, List.sum_cons, List.length_cons, List.length_nil]
  omega

theorem Good.work_body (h : Good succ R s) (hU : ∀ v ∈ U, ∀ w ∈ succ v, w ∈ U)
    (hR : ∀ r, R r → r ∈ U) (hb : (Tarjan.body succ s).2 = true) :
    work succ U (Tarjan.body succ s).1 < work succ U s := by
  rcases h with h | ⟨v, fs, hf, h⟩
  · cases hf : s.frames with
    | nil => simp [Tarjan.body, hf] at hb
    | cons f fs =>
      have hd : s.disc f.1 ≠ 0 :=
        h.stack_disc _ (h.frames_stack f (by rw [hf]; exact List.mem_cons_self))
      simp only [Tarjan.body, hf, if_neg hd]
      exact work_advance hf
  · have hd : s.disc v = 0 := h.pend_new v rfl
    obtain ⟨r, hr, hrv⟩ := h.from_root v (Or.inr rfl)
    have hv : v ∈ U := hrv.mem_of_closed (P := (· ∈ U)) (fun a b ha hab => hU a ha b hab) (hR r hr)
    simp only [Tarjan.body, hf, if_pos hd]
    exact (work_advance rfl).trans (work_enter hf hd hv)

theorem disc_body {x : V} (hx : s.disc x ≠ 0) : (Tarjan.body succ s).1.disc x ≠ 0 := by
  unfold Tarjan.body
  split
  · exact hx
  · split
    · rw [disc_advance]
      simp only [enter, update_apply]
      split
      · omega
      · exact hx
    · rw [disc_advance]; exact hx

theorem disc_body_top {x : V} {next : List V} {fs : List (V × List V)}
    (hf : s.frames = (x, next) :: fs) : (Tarjan.body succ s).1.disc x ≠ 0 := by
  by_cases hx : s.disc x = 0
  · simp only [Tarjan.body, hf, if_pos hx, disc_advance, enter, update_self]
    omega
  · exact disc_body hx

theorem body_done (h : (Tarjan.body succ s).2 = false) :
    s.frames = [] ∧ (Tarjan.body succ s).1 = s := by
  unfold Tarjan.body at h ⊢
  split at h
  · next hf => exact ⟨hf, rfl⟩
  · split at h <;> simp at h

/-- The turns that suffice to search a graph on the vertices `U`. -/
def searchBound (succ : V → List V) (U : Finset V) : ℕ :=
  2 * ∑ v ∈ U, (succ v).length + U.card + 2

omit [DecidableEq V] in
theorem work_start (root : V) :
    work succ U { s with frames := [(root, [])] } < searchBound succ U := by
  have h1 : ∑ v ∈ U with s.disc v = 0, (succ v).length ≤ ∑ v ∈ U, (succ v).length :=
    Finset.sum_le_sum_of_subset (Finset.filter_subset _ _)
  have h2 := Finset.card_filter_le U (s.disc · = 0)
  simp only [work, searchBound, List.map_cons, List.map_nil, List.sum_cons, List.sum_nil,
    List.length_cons, List.length_nil]
  omega

omit [DecidableEq V] in
theorem Inv.stack_nil (h : Inv succ R none s) (hf : s.frames = []) : s.stack = [] := by
  by_contra hne
  obtain ⟨x, hx⟩ := List.exists_mem_of_ne_nil _ hne
  obtain ⟨f, hf', -⟩ := h.bottom x hx
  rw [hf] at hf'
  simp at hf'

/-- A search from an unnumbered root numbers it and leaves no frame open. -/
theorem Inv.visitFrom (h : Inv succ R none s) (hf : s.frames = []) {fuel : ℕ} {root : V}
    (hroot : R root) (hd : s.disc root = 0) (hU : ∀ v ∈ U, ∀ w ∈ succ v, w ∈ U)
    (hR : ∀ r, R r → r ∈ U) (hfuel : searchBound succ U ≤ fuel) :
    Inv succ R none (visitFrom succ fuel root s) ∧ (visitFrom succ fuel root s).frames = [] ∧
      (visitFrom succ fuel root s).disc root ≠ 0 ∧
      ∀ v, s.disc v ≠ 0 → (visitFrom succ fuel root s).disc v ≠ 0 := by
  let P : State V → Prop := fun t => Good succ R t ∧
    (t.disc root ≠ 0 ∨ ∃ fs, t.frames = (root, []) :: fs) ∧ ∀ v, s.disc v ≠ 0 → t.disc v ≠ 0
  have hstart : P { s with frames := [(root, [])] } := by
    refine ⟨Or.inr ⟨root, [], rfl, ?_⟩, Or.inr ⟨[], rfl⟩, fun v hv => hv⟩
    have h0 : ({ s with frames := [] } : State V) = s := by rw [← hf]
    refine
      { disc_le := h.disc_le, disc_inj := h.disc_inj, clean := h.clean, on_iff := h.on_iff,
        stack_sorted := h.stack_sorted, stack_disc := h.stack_disc, stack_scc := h.stack_scc,
        scc_lt := h.scc_lt, scc_used := h.scc_used, visited_nodup := h.visited_nodup,
        visited_iff := h.visited_iff, frames_sorted := List.Pairwise.nil, frames_stack := by simp,
        frames_rest := by simp, closed := h.closed, examined := fun x w hx hxw => ?_,
        low_le := h.low_le, low_reach := h.low_reach, low_lt := ?_, low_bound := by simp,
        frame_reach := by simp, bottom := ?_, same_comp := h.same_comp, from_root := ?_,
        pend_new := fun v hv => Option.some.inj hv ▸ hd, pend_edge := by simp }
    · rw [h0] at hxw
      exact Or.inl ((h.examined x w hx hxw).resolve_right (by simp))
    · intro v hv; rw [h.stack_nil hf] at hv; simp at hv
    · intro v hv; rw [h.stack_nil hf] at hv; simp at hv
    · rintro v (hv | hv)
      · exact h.from_root v (Or.inl hv)
      · exact ⟨root, hroot, Option.some.inj hv ▸ .refl⟩
  have hstep : ∀ t, P t → P (Tarjan.body succ t).1 := by
    rintro t ⟨hg, hr, hm⟩
    refine ⟨hg.body, Or.inl ?_, fun v hv => disc_body (hm v hv)⟩
    rcases hr with hr | ⟨fs, hr⟩
    · exact disc_body hr
    · exact disc_body_top hr
  obtain ⟨t, ⟨hg, hr, hm⟩, hb, he⟩ := iterUntil_stop (μ := work succ U) hstep
    (fun t ht hb => ht.1.work_body hU hR hb) fuel hstart ((work_start root).trans_le hfuel)
  obtain ⟨hft, hbt⟩ := body_done hb
  have : Tarjan.visitFrom succ fuel root s = t := he.trans hbt
  rw [this]
  refine ⟨?_, hft, ?_, hm⟩
  · rcases hg with hg | ⟨v, fs, hv, -⟩
    · exact hg
    · rw [hft] at hv; simp at hv
  · rcases hr with hr | ⟨fs, hr⟩
    · exact hr
    · rw [hft] at hr; simp at hr

theorem Inv.visitRoots (hU : ∀ v ∈ U, ∀ w ∈ succ v, w ∈ U) (hR : ∀ r, R r → r ∈ U) {fuel : ℕ}
    (hfuel : searchBound succ U ≤ fuel) {live : V → Bool} :
    ∀ (roots : List V) {s : State V}, Inv succ R none s → s.frames = [] →
      (∀ r ∈ roots, live r = true → R r) →
      Inv succ R none (visitRoots succ live fuel roots s) ∧
        (visitRoots succ live fuel roots s).frames = [] ∧
        (∀ r ∈ roots, live r = true → (visitRoots succ live fuel roots s).disc r ≠ 0) ∧
        ∀ v, s.disc v ≠ 0 → (visitRoots succ live fuel roots s).disc v ≠ 0
  | [], s, h, hf, _ => ⟨h, hf, by simp, fun _ hv => hv⟩
  | root :: roots, s, h, hf, hroots => by
    have hrest := fun r hr => hroots r (List.mem_cons_of_mem root hr)
    simp only [Tarjan.visitRoots]
    split
    · next hd =>
      obtain ⟨h1, h2, h3, h4⟩ := Inv.visitRoots hU hR hfuel roots h hf hrest
      refine ⟨h1, h2, fun r hr hl => ?_, h4⟩
      rcases List.mem_cons.mp hr with rfl | hr
      · exact h4 _ hd
      · exact h3 r hr hl
    · next hd =>
      split
      · next hl =>
        obtain ⟨h1, h2, h3, h4⟩ := Inv.visitRoots hU hR hfuel roots h hf hrest
        refine ⟨h1, h2, fun r hr hlr => ?_, h4⟩
        rcases List.mem_cons.mp hr with rfl | hr
        · rw [hl] at hlr; simp at hlr
        · exact h3 r hr hlr
      · next hl =>
        have hlive : live root = true := by simpa using hl
        obtain ⟨g1, g2, g3, g4⟩ := h.visitFrom hf (hroots root List.mem_cons_self hlive)
          (not_ne_iff.mp hd) hU hR hfuel
        obtain ⟨h1, h2, h3, h4⟩ := Inv.visitRoots hU hR hfuel roots g1 g2 hrest
        refine ⟨h1, h2, fun r hr hlr => ?_, fun v hv => h4 v (g4 v hv)⟩
        rcases List.mem_cons.mp hr with rfl | hr
        · exact h4 _ g3
        · exact h3 r hr hlr

/-- Scratch maps in their initial state. -/
def Clean (s : State V) : Prop :=
  ∀ v, s.disc v = 0 ∧ s.low v = 0 ∧ s.onStack v = false ∧ s.scc v = none

omit [DecidableEq V] in
theorem Clean.inv (h : Clean s) : Inv succ R none
    { s with stack := [], frames := [], time := 0, comps := 0, visited := [] } where
  disc_le v := by simp [(h v).1]
  disc_inj u _ hu := absurd (h u).1 hu
  clean v _ := ⟨(h v).2.1, (h v).2.2.1, (h v).2.2.2⟩
  on_iff v := by simp [(h v).2.2.1]
  stack_sorted := .nil
  stack_disc := by simp
  stack_scc v hv := absurd (h v).1 hv
  scc_lt v c hc := by simp [(h v).2.2.2] at hc
  scc_used := by simp
  visited_nodup := .nil
  visited_iff v := by simp [(h v).1]
  frames_sorted := .nil
  frames_stack := by simp
  frames_rest := by simp
  closed v _ hv := absurd (h v).2.2.2 hv
  examined x _ hx := absurd (h x).1 hx
  low_le := by simp
  low_reach := by simp
  low_lt := by simp
  low_bound := by simp
  frame_reach := by simp
  bottom := by simp
  same_comp u _ c hc := by simp [(h u).2.2.2] at hc
  from_root v hv := by simp [(h v).1] at hv
  pend_new := by simp
  pend_edge := by simp

/-- The components of the graph that the admitted roots reach. -/
def findComponents (succ : V → List V) (live : V → Bool) (fuel : ℕ) (roots : List V)
    (s : State V) : State V :=
  visitRoots succ live fuel roots
    { s with stack := [], frames := [], time := 0, comps := 0, visited := [] }

/-- What a finished search has found. -/
structure Found (succ : V → List V) (R : V → Prop) (t : State V) : Prop where
  visited_nodup : t.visited.Nodup
  mem_visited : ∀ v, v ∈ t.visited ↔ ∃ r, R r ∧ Reach (Edge succ) r v
  scc_visited : ∀ v, v ∈ t.visited → ∃ c < t.comps, t.scc v = some c
  scc_unvisited : ∀ v, v ∉ t.visited →
    t.disc v = 0 ∧ t.low v = 0 ∧ t.onStack v = false ∧ t.scc v = none
  same_comp : ∀ u v, u ∈ t.visited →
    (t.scc u = t.scc v ↔ Reach (Edge succ) u v ∧ Reach (Edge succ) v u)
  scc_used : ∀ c < t.comps, ∃ v ∈ t.visited, t.scc v = some c

theorem findComponents_found (h : Clean s) {live : V → Bool} {fuel : ℕ} {roots : List V}
    (hU : ∀ v ∈ U, ∀ w ∈ succ v, w ∈ U) (hroots : ∀ r ∈ roots, live r = true → r ∈ U)
    (hfuel : searchBound succ U ≤ fuel) :
    Found succ (fun r => r ∈ roots ∧ live r = true)
      (findComponents succ live fuel roots s) := by
  obtain ⟨hi, hf, hr, -⟩ := Inv.visitRoots (R := fun r => r ∈ roots ∧ live r = true) hU
    (fun r hr => hroots r hr.1 hr.2) hfuel roots h.inv rfl (fun r hr hl => ⟨hr, hl⟩)
  change Inv succ _ none (findComponents succ live fuel roots s) at hi
  change (findComponents succ live fuel roots s).frames = [] at hf
  change ∀ r ∈ roots, live r = true → (findComponents succ live fuel roots s).disc r ≠ 0 at hr
  generalize findComponents succ live fuel roots s = t at *
  have hst := hi.stack_nil hf
  have hscc : ∀ v, t.disc v ≠ 0 → t.scc v ≠ none := fun v hv hn => by
    have := (hi.stack_scc v hv).mpr hn
    rw [hst] at this
    simp at this
  have hclosed : ∀ a b, t.disc a ≠ 0 → Edge succ a b → t.disc b ≠ 0 := fun a b ha hab =>
    (hi.examined a b ha ⟨hab, fun rest hm => by rw [hf] at hm; simp at hm⟩).resolve_right (by simp)
  refine
    { visited_nodup := hi.visited_nodup, mem_visited := fun v => ?_, scc_visited := fun v hv => ?_,
      scc_unvisited := fun v hv => ?_, same_comp := fun u v hu => ?_, scc_used := fun c hc => ?_ }
  · rw [hi.visited_iff]
    constructor
    · exact fun hv => hi.from_root v (Or.inl hv)
    · rintro ⟨r, ⟨hr1, hr2⟩, hrv⟩
      exact hrv.mem_of_closed (P := fun v => t.disc v ≠ 0) hclosed (hr r hr1 hr2)
  · obtain ⟨c, hc⟩ := Option.ne_none_iff_exists'.mp (hscc v ((hi.visited_iff v).mp hv))
    exact ⟨c, hi.scc_lt v c hc, hc⟩
  · have hd : t.disc v = 0 := not_ne_iff.mp fun hd => hv ((hi.visited_iff v).mpr hd)
    exact ⟨hd, hi.clean v hd⟩
  · obtain ⟨c, hc⟩ := Option.ne_none_iff_exists'.mp (hscc u ((hi.visited_iff u).mp hu))
    rw [← hi.same_comp u v c hc, hc, eq_comm]
  · obtain ⟨v, hv⟩ := hi.scc_used c hc
    refine ⟨v, (hi.visited_iff v).mpr fun hd => ?_, hv⟩
    rw [(hi.clean v hd).2.2] at hv
    simp at hv

theorem release_spec (vs : List V) (s : State V) (v : V) :
    (release vs s).disc v = (if v ∈ vs then 0 else s.disc v) ∧
    (release vs s).low v = (if v ∈ vs then 0 else s.low v) ∧
    (release vs s).onStack v = (if v ∈ vs then false else s.onStack v) ∧
    (release vs s).scc v = if v ∈ vs then none else s.scc v := by
  induction vs generalizing s with
  | nil => simp [release]
  | cons x vs ih =>
    obtain ⟨h1, h2, h3, h4⟩ := ih
      { s with
        disc := update s.disc x 0
        low := update s.low x 0
        onStack := update s.onStack x false
        scc := update s.scc x none }
    simp only [release, h1, h2, h3, h4, update_apply, List.mem_cons]
    refine ⟨?_, ?_, ?_, ?_⟩ <;> grind

/-- Releasing the visited vertices restores the scratch maps. -/
theorem Found.release_clean {t : State V} (h : Found succ R t) : Clean (release t.visited t) := by
  intro v
  obtain ⟨h1, h2, h3, h4⟩ := release_spec t.visited t v
  rw [h1, h2, h3, h4]
  by_cases hv : v ∈ t.visited
  · simp [hv]
  · simpa [hv] using h.scc_unvisited v hv

end Search

end Loxis.Tarjan
