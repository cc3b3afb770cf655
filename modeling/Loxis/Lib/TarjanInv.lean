import Loxis.Lib.Tarjan

/-! # Each turn of the search keeps its invariant

Numbering a vertex, looking at an edge and leaving a vertex each preserve `Inv`;
leaving the root of a component closes exactly that component.
-/

namespace Loxis.Tarjan

open Loxis.Graph Function

variable {V : Type*} {succ : V → List V} {R : V → Prop}

section Facts

variable {pend : Option V} {s : State V}

/-- Closed components are left by no path. -/
theorem Inv.closed_reach (h : Inv succ R pend s) {v w : V} (hv : s.scc v ≠ none)
    (hr : Reach (Edge succ) v w) : s.scc w ≠ none :=
  hr.mem_of_closed (P := fun x => s.scc x ≠ none) (fun a b ha hab => h.closed a b ha hab) hv

theorem Inv.time_pos_ne (h : Inv succ R pend s) (v : V) : s.disc v ≠ s.time + 1 := by
  have := h.disc_le v; omega

theorem Inv.head_lt (h : Inv succ R pend s) {u : V} {next : List V} {fs : List (V × List V)}
    (hf : s.frames = (u, next) :: fs) {g : V × List V} (hg : g ∈ fs) :
    s.disc g.1 < s.disc u := by
  have hs := h.frames_sorted
  rw [hf, List.map_cons, List.pairwise_cons] at hs
  exact hs.1 _ (List.mem_map_of_mem hg)

theorem Inv.head_max (h : Inv succ R pend s) {u : V} {next : List V} {fs : List (V × List V)}
    (hf : s.frames = (u, next) :: fs) {g : V × List V} (hg : g ∈ s.frames) :
    s.disc g.1 ≤ s.disc u := by
  rw [hf] at hg
  rcases List.mem_cons.mp hg with rfl | hg
  · exact le_rfl
  · exact (h.head_lt hf hg).le

theorem Inv.head_rest (h : Inv succ R pend s) {u : V} {next : List V} {fs : List (V × List V)}
    (hf : s.frames = (u, next) :: fs) {rest : List V} (hg : (u, rest) ∈ s.frames) :
    rest = next := by
  rw [hf] at hg
  rcases List.mem_cons.mp hg with he | hg
  · exact congrArg Prod.snd he
  · exact absurd (h.head_lt hf hg) (lt_irrefl _)

end Facts

section Enter

variable [DecidableEq V] {s : State V} {v : V}

theorem Inv.enter (h : Inv succ R (some v) s) : Inv succ R none (enter succ v s.frames s) := by
  have hv : s.disc v = 0 := h.pend_new v rfl
  have hns : v ∉ s.stack := fun hm => h.stack_disc v hm hv
  have hne : ∀ x ∈ s.stack, x ≠ v := fun x hx he => hns (he ▸ hx)
  have hdisc : ∀ x ∈ s.stack, update s.disc v (s.time + 1) x = s.disc x :=
    fun x hx => update_of_ne (hne x hx) _ _
  have hlow : ∀ x ∈ s.stack, update s.low v (s.time + 1) x = s.low x :=
    fun x hx => update_of_ne (hne x hx) _ _
  have hfr : ∀ f ∈ s.frames, f.1 ∈ s.stack := h.frames_stack
  have hex : ∀ x w, Examined succ (Tarjan.enter succ v s.frames s) x w → x ≠ v ∧
      Examined succ s x w := by
    intro x w ⟨hw, hr⟩
    refine ⟨?_, hw, fun rest hm => hr rest (List.mem_cons_of_mem _ hm)⟩
    rintro rfl
    exact hr _ List.mem_cons_self hw
  refine
    { disc_le := ?_, disc_inj := ?_, clean := ?_, on_iff := ?_, stack_sorted := ?_,
      stack_disc := ?_, stack_scc := ?_, scc_lt := h.scc_lt, scc_used := h.scc_used,
      visited_nodup := ?_, visited_iff := ?_, frames_sorted := ?_, frames_stack := ?_,
      frames_rest := ?_, closed := h.closed, examined := ?_, low_le := ?_, low_reach := ?_,
      low_lt := ?_, low_bound := ?_, frame_reach := ?_, bottom := ?_, same_comp := h.same_comp,
      from_root := ?_, pend_new := ?_, pend_edge := ?_ }
  · intro x
    simp only [Tarjan.enter, update_apply]
    have := h.disc_le x
    split <;> omega
  · intro x y hx hxy
    simp only [Tarjan.enter, update_apply] at hx hxy
    split at hxy <;> split at hxy
    · next h1 h2 => rw [h1, h2]
    · exact absurd hxy.symm (h.time_pos_ne y)
    · exact absurd hxy (h.time_pos_ne x)
    · next h1 _ => exact h.disc_inj x y (by simpa [h1] using hx) hxy
  · intro x hx
    simp only [Tarjan.enter, update_apply] at hx ⊢
    split at hx
    · omega
    · next hxv => simpa [hxv] using h.clean x hx
  · intro x
    simp only [Tarjan.enter, update_apply, List.mem_cons]
    split
    · next hxv => simp [hxv]
    · next hxv => simp [hxv, h.on_iff]
  · simp only [Tarjan.enter, List.pairwise_cons, update_self]
    refine ⟨fun x hx => ?_, h.stack_sorted.imp_of_mem ?_⟩
    · rw [hdisc x hx]; have := h.disc_le x; omega
    · intro a b ha hb hab; rwa [hdisc a ha, hdisc b hb]
  · intro x hx
    simp only [Tarjan.enter, List.mem_cons, update_apply] at hx ⊢
    split
    · omega
    · next hxv => exact h.stack_disc x (hx.resolve_left hxv)
  · intro x hx
    simp only [Tarjan.enter, List.mem_cons, update_apply] at hx ⊢
    split at hx
    · next hxv => simp [hxv, (h.clean v hv).2.2]
    · next hxv => simp [hxv, h.stack_scc x hx]
  · simp only [Tarjan.enter]
    refine h.visited_nodup.append (List.nodup_singleton v) ?_
    rw [List.disjoint_singleton]
    exact fun hm => (h.visited_iff v).mp hm hv
  · intro x
    simp only [Tarjan.enter, List.mem_append, List.mem_singleton, h.visited_iff, update_apply]
    split
    · next hxv => simp [hxv]
    · next hxv => simp [hxv]
  · simp only [Tarjan.enter, List.map_cons, List.pairwise_cons, update_self]
    refine ⟨fun x hx => ?_, h.frames_sorted.imp_of_mem ?_⟩
    · obtain ⟨f, hf, rfl⟩ := List.mem_map.mp hx
      rw [hdisc _ (hfr f hf)]; have := h.disc_le f.1; omega
    · intro a b ha hb hab
      obtain ⟨f, hf, rfl⟩ := List.mem_map.mp ha
      obtain ⟨g, hg, rfl⟩ := List.mem_map.mp hb
      rwa [hdisc _ (hfr f hf), hdisc _ (hfr g hg)]
  · intro f hf
    rcases List.mem_cons.mp hf with rfl | hf
    · exact List.mem_cons_self
    · exact List.mem_cons_of_mem _ (hfr f hf)
  · intro f hf w hw
    rcases List.mem_cons.mp hf with rfl | hf
    · exact hw
    · exact h.frames_rest f hf w hw
  · intro x w hx hxw
    obtain ⟨hxv, hxw⟩ := hex x w hxw
    simp only [Tarjan.enter, update_of_ne hxv] at hx
    left
    simp only [Tarjan.enter, update_apply]
    split
    · omega
    · next hwv =>
      rcases h.examined x w hx hxw with hw | hw
      · exact hw
      · exact absurd (Option.some.inj hw).symm hwv
  · intro x hx
    rcases List.mem_cons.mp hx with rfl | hx
    · simp [Tarjan.enter]
    · simp only [Tarjan.enter, hdisc x hx, hlow x hx]; exact h.low_le x hx
  · intro x hx
    rcases List.mem_cons.mp hx with rfl | hx
    · exact ⟨x, List.mem_cons_self, by simp [Tarjan.enter], .refl⟩
    · obtain ⟨y, hy, hd, hr⟩ := h.low_reach x hx
      refine ⟨y, List.mem_cons_of_mem _ hy, ?_, hr⟩
      simp only [Tarjan.enter, hdisc y hy, hlow x hx, hd]
  · intro x hx hxf
    simp only [Tarjan.enter, List.map_cons, List.mem_cons, not_or] at hx hxf
    have hxs := hx.resolve_left hxf.1
    simp only [Tarjan.enter, hdisc x hxs, hlow x hxs]
    exact h.low_lt x hxs hxf.2
  · intro f hf x hx hfx hmax w hw hxw
    obtain ⟨hxv, hxw⟩ := hex x w hxw
    have hxs : x ∈ s.stack := (List.mem_cons.mp hx).resolve_left hxv
    simp only [Tarjan.enter] at hfx hmax ⊢
    rw [hdisc x hxs] at hfx hmax
    rcases List.mem_cons.mp hf with rfl | hf'
    · rw [update_self] at hfx; have := h.disc_le x; omega
    rw [hdisc _ (hfr f hf')] at hfx hmax
    rw [hlow _ (hfr f hf')]
    rcases List.mem_cons.mp hw with rfl | hw'
    · rw [update_self]
      have := h.low_le _ (hfr f hf')
      have := h.disc_le f.1
      omega
    · rw [hdisc w hw']
      refine h.low_bound f hf' x hxs hfx (fun g hg hgx => ?_) w hw' hxw
      have := hmax g (List.mem_cons_of_mem _ hg)
      rw [hdisc _ (hfr g hg)] at this
      exact this hgx
  · intro f hf x hx hfx
    simp only [Tarjan.enter] at hfx
    rcases List.mem_cons.mp hf with rfl | hf'
    · rcases List.mem_cons.mp hx with rfl | hx'
      · exact .refl
      · rw [update_self, hdisc x hx'] at hfx; have := h.disc_le x; omega
    · rcases List.mem_cons.mp hx with rfl | hx'
      · -- the new vertex hangs off the frame that was on top
        cases hfs : s.frames with
        | nil => rw [hfs] at hf'; simp at hf'
        | cons p fs =>
          have hp : p ∈ s.frames := by rw [hfs]; exact List.mem_cons_self
          have hedge : x ∈ succ p.1 := h.pend_edge x p.1 p.2 fs rfl hfs
          exact (h.frame_reach f hf' p.1 (hfr p hp) (h.head_max hfs hf')).tail hedge
      · rw [hdisc _ (hfr f hf'), hdisc x hx'] at hfx
        exact h.frame_reach f hf' x hx' hfx
  · intro x hx
    rcases List.mem_cons.mp hx with rfl | hx
    · exact ⟨_, List.mem_cons_self, le_rfl⟩
    · obtain ⟨f, hf, hd⟩ := h.bottom x hx
      refine ⟨f, List.mem_cons_of_mem _ hf, ?_⟩
      simpa only [Tarjan.enter, hdisc x hx, hdisc _ (hfr f hf)] using hd
  · rintro x (hx | hx)
    · by_cases hxv : x = v
      · exact h.from_root x (Or.inr (by rw [hxv]))
      · simp only [Tarjan.enter, update_of_ne hxv] at hx
        exact h.from_root x (Or.inl hx)
    · simp at hx
  · simp
  · simp

end Enter

section Scan

variable [DecidableEq V] {s : State V} {u v : V} {rest : List V} {fs : List (V × List V)}

/-- Moving past a successor examines at most that one edge. -/
theorem examined_skip (hf : s.frames = (u, v :: rest) :: fs) (hu : ∀ g ∈ fs, g.1 ≠ u) {x w : V}
    (hx : w ∈ succ x ∧ ∀ next, (x, next) ∈ (u, rest) :: fs → w ∉ next) :
    Examined succ s x w ∨ (x = u ∧ w = v) := by
  by_cases h : x = u ∧ w = v
  · exact Or.inr h
  refine Or.inl ⟨hx.1, fun next hm hw => ?_⟩
  rw [hf] at hm
  rcases List.mem_cons.mp hm with he | hm
  · obtain ⟨rfl, rfl⟩ := Prod.mk.inj he
    rcases List.mem_cons.mp hw with rfl | hw
    · exact h ⟨rfl, rfl⟩
    · exact hx.2 rest List.mem_cons_self hw
  · exact hx.2 next (List.mem_cons_of_mem _ hm) hw

/-- Descending into a new vertex. -/
theorem Inv.descend (h : Inv succ R none s) (hf : s.frames = (u, v :: rest) :: fs)
    (hv : s.disc v = 0) : Inv succ R (some v) { s with frames := (u, rest) :: fs } := by
  have hu : ∀ g ∈ fs, g.1 ≠ u := fun g hg he => by
    have := h.head_lt hf hg; rw [he] at this; exact lt_irrefl _ this
  have hmem : ∀ g ∈ (u, rest) :: fs, ∃ g' ∈ s.frames, g'.1 = g.1 := by
    intro g hg
    rw [hf]
    rcases List.mem_cons.mp hg with rfl | hg
    · exact ⟨_, List.mem_cons_self, rfl⟩
    · exact ⟨g, List.mem_cons_of_mem _ hg, rfl⟩
  have hmap : ((u, rest) :: fs).map Prod.fst = s.frames.map Prod.fst := by rw [hf]; rfl
  have hvu : v ∈ succ u := h.frames_rest (u, v :: rest) (by rw [hf]; exact List.mem_cons_self) v
    List.mem_cons_self
  have hud : s.disc u ≠ 0 :=
    h.stack_disc u (h.frames_stack (u, v :: rest) (by rw [hf]; exact List.mem_cons_self))
  refine
    { h with
      frames_sorted := by simpa only [hmap] using h.frames_sorted
      frames_stack := ?_, frames_rest := ?_, examined := ?_, low_lt := ?_, low_bound := ?_,
      frame_reach := ?_, bottom := ?_, from_root := ?_, pend_new := ?_, pend_edge := ?_ }
  · intro g hg
    obtain ⟨g', hg', he⟩ := hmem g hg
    exact he ▸ h.frames_stack g' hg'
  · intro g hg w hw
    rcases List.mem_cons.mp hg with rfl | hg
    · exact h.frames_rest (u, v :: rest) (by rw [hf]; exact List.mem_cons_self) w
        (List.mem_cons_of_mem _ hw)
    · exact h.frames_rest g (by rw [hf]; exact List.mem_cons_of_mem _ hg) w hw
  · intro x w hx hxw
    rcases examined_skip hf hu hxw with hxw | ⟨-, rfl⟩
    · rcases h.examined x w hx hxw with hw | hw
      · exact Or.inl hw
      · simp at hw
    · exact Or.inr rfl
  · intro x hx hxf
    exact h.low_lt x hx (by rwa [hmap] at hxf)
  · intro g hg x hx hgx hmax w hw hxw
    obtain ⟨g', hg', he⟩ := hmem g hg
    rcases examined_skip hf hu hxw with hxw | ⟨-, rfl⟩
    · rw [← he]
      refine h.low_bound g' hg' x hx (by rwa [he]) (fun k hk hkx => ?_) w hw hxw
      rw [hf] at hk
      rw [he]
      rcases List.mem_cons.mp hk with rfl | hk
      · exact hmax (u, rest) List.mem_cons_self hkx
      · exact hmax k (List.mem_cons_of_mem _ hk) hkx
    · exact absurd hv (h.stack_disc _ hw)
  · intro g hg x hx hgx
    obtain ⟨g', hg', he⟩ := hmem g hg
    rw [← he] at hgx ⊢
    exact h.frame_reach g' hg' x hx hgx
  · intro x hx
    obtain ⟨g, hg, hgx⟩ := h.bottom x hx
    rw [hf] at hg
    rcases List.mem_cons.mp hg with rfl | hg
    · exact ⟨(u, rest), List.mem_cons_self, hgx⟩
    · exact ⟨g, List.mem_cons_of_mem _ hg, hgx⟩
  · rintro x (hx | hx)
    · exact h.from_root x (Or.inl hx)
    · obtain rfl := Option.some.inj hx
      obtain ⟨r, hr, hru⟩ := h.from_root u (Or.inl hud)
      exact ⟨r, hr, hru.tail hvu⟩
  · rintro x hx
    exact Option.some.inj hx ▸ hv
  · rintro x p next gs hx hg
    obtain rfl := Option.some.inj hx
    obtain ⟨he, -⟩ := List.cons.inj hg
    exact (Prod.mk.inj he).1 ▸ hvu

/-- Passing an edge into a numbered vertex, with any link for `u` that the edge justifies. -/
theorem Inv.pass (h : Inv succ R none s) (hf : s.frames = (u, v :: rest) :: fs)
    (hv : s.disc v ≠ 0) {l : ℕ} (hle : l ≤ s.low u)
    (hl : l = s.low u ∨ (v ∈ s.stack ∧ l = s.disc v)) (hb : v ∈ s.stack → l ≤ s.disc v) :
    Inv succ R none { s with low := update s.low u l, frames := (u, rest) :: fs } := by
  have hu : ∀ g ∈ fs, g.1 ≠ u := fun g hg he => by
    have := h.head_lt hf hg; rw [he] at this; exact lt_irrefl _ this
  have hmem : ∀ g ∈ (u, rest) :: fs, ∃ g' ∈ s.frames, g'.1 = g.1 := by
    intro g hg
    rw [hf]
    rcases List.mem_cons.mp hg with rfl | hg
    · exact ⟨_, List.mem_cons_self, rfl⟩
    · exact ⟨g, List.mem_cons_of_mem _ hg, rfl⟩
  have hmap : ((u, rest) :: fs).map Prod.fst = s.frames.map Prod.fst := by rw [hf]; rfl
  have huf : (u, v :: rest) ∈ s.frames := by rw [hf]; exact List.mem_cons_self
  have hvu : v ∈ succ u := h.frames_rest _ huf v List.mem_cons_self
  have hus : u ∈ s.stack := h.frames_stack _ huf
  have hlow : ∀ x, update s.low u l x ≤ s.low x := by
    intro x
    rw [update_apply]
    split
    · next hx => rw [hx]; exact hle
    · exact le_rfl
  refine
    { h with
      clean := ?_
      frames_sorted := by simpa only [hmap] using h.frames_sorted
      frames_stack := ?_, frames_rest := ?_, examined := ?_, low_le := ?_, low_reach := ?_,
      low_lt := ?_, low_bound := ?_, frame_reach := ?_, bottom := ?_, pend_edge := by simp }
  · intro x hx
    have hxu : x ≠ u := by rintro rfl; exact h.stack_disc _ hus hx
    simpa [update_of_ne hxu] using h.clean x hx
  · intro g hg
    obtain ⟨g', hg', he⟩ := hmem g hg
    exact he ▸ h.frames_stack g' hg'
  · intro g hg w hw
    rcases List.mem_cons.mp hg with rfl | hg
    · exact h.frames_rest _ huf w (List.mem_cons_of_mem _ hw)
    · exact h.frames_rest g (by rw [hf]; exact List.mem_cons_of_mem _ hg) w hw
  · intro x w hx hxw
    rcases examined_skip hf hu hxw with hxw | ⟨-, rfl⟩
    · exact h.examined x w hx hxw
    · exact Or.inl hv
  · intro x hx
    exact (hlow x).trans (h.low_le x hx)
  · intro x hx
    by_cases hxu : x = u ∧ l ≠ s.low u
    · obtain ⟨rfl, hne⟩ := hxu
      obtain ⟨hvs, rfl⟩ := hl.resolve_left hne
      exact ⟨v, hvs, by simp, .single hvu⟩
    · obtain ⟨y, hy, hd, hr⟩ := h.low_reach x hx
      refine ⟨y, hy, ?_, hr⟩
      simp only [update_apply]
      split
      · next hx' => rw [hd, hx', not_ne_iff.mp (not_and.mp hxu hx')]
      · exact hd
  · intro x hx hxf
    rw [hmap] at hxf
    exact (hlow x).trans_lt (h.low_lt x hx hxf)
  · intro g hg x hx hgx hmax w hw hxw
    obtain ⟨g', hg', he⟩ := hmem g hg
    rcases examined_skip hf hu hxw with hxw | ⟨rfl, rfl⟩
    · refine (hlow g.1).trans ?_
      rw [← he]
      refine h.low_bound g' hg' x hx (by rwa [he]) (fun k hk hkx => ?_) w hw hxw
      rw [hf] at hk
      rw [he]
      rcases List.mem_cons.mp hk with rfl | hk
      · exact hmax (u, rest) List.mem_cons_self hkx
      · exact hmax k (List.mem_cons_of_mem _ hk) hkx
    · -- the passed edge leaves the top frame, which is its own region
      have hxg : s.disc x ≤ s.disc g.1 := hmax (x, rest) List.mem_cons_self le_rfl
      have hgu : g.1 = x := by
        rw [← he] at hgx hxg ⊢
        exact h.disc_inj _ _ (h.stack_disc _ (h.frames_stack g' hg')) (le_antisymm hgx hxg)
      simp only [hgu, update_self]
      exact hb hw
  · intro g hg x hx hgx
    obtain ⟨g', hg', he⟩ := hmem g hg
    rw [← he] at hgx ⊢
    exact h.frame_reach g' hg' x hx hgx
  · intro x hx
    obtain ⟨g, hg, hgx⟩ := h.bottom x hx
    rw [hf] at hg
    rcases List.mem_cons.mp hg with rfl | hg
    · exact ⟨(u, rest), List.mem_cons_self, hgx⟩
    · exact ⟨g, List.mem_cons_of_mem _ hg, hgx⟩

end Scan

end Loxis.Tarjan
