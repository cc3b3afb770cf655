import Loxis.Driver.Linking

/-! # When linking is complete

The combined module is complete in every order of the import declarations exactly when the
imports of a module agree on what they take: the first one decides, and any of the imports that
can be first comes first in some order.
-/

namespace Loxis.Driver

open DepthFirst Relation

variable {L : ModuleLoader}

section Acyclic

theorem not_cyclic_of_visited {t : State FilePath ItemImport} (ht : L.visited = .ok t) :
    ¬ L.Cyclic := by
  rintro ⟨file, hf, hc⟩
  have hv := visitAll_spec ht
  exact hv.settled.acyclic file ((hv.finished file).mpr hf) hc

theorem exists_visited (hc : ¬ L.Cyclic) : ∃ t, L.visited = .ok t := by
  rcases visited_cases L with h | ⟨-, h⟩
  · exact h
  · exact absurd h hc

/-- A program with a cycle of imports is rejected, with a file of a cycle named. -/
theorem load_of_cyclic (hL : L.Resolvable) (hc : L.Cyclic) :
    ∃ file, L.load = .error (.cyclicImport file) := by
  rcases visited_cases L with ⟨t, ht⟩ | ⟨⟨file, hf⟩, -⟩
  · exact absurd hc (not_cyclic_of_visited ht)
  · exact ⟨file, load_of_cycle hL hf⟩

/-- No import that leads back to the prelude can be the one it is entered by. -/
theorem not_canEnter_prelude (hc : ¬ L.Cyclic) {file target : FilePath} {imp : ItemImport}
    (hp : L.prelude = some target) : ¬ L.CanEnter file imp target := by
  rintro ⟨he, pre, r, post, hroots, hr, hpre⟩
  rw [ModuleLoader.roots, hp] at hroots
  cases pre with
  | nil =>
    obtain rfl : target = r := (List.cons.inj hroots).1
    refine hc ⟨target, ⟨target, by simp [ModuleLoader.roots, hp], .refl⟩, ?_⟩
    exact TransGen.tail' hr ⟨imp, he⟩
  | cons p pre =>
    obtain rfl : target = p := (List.cons.inj hroots).1
    exact hpre target (by simp) .refl

end Acyclic

section Complete

variable {t : State FilePath ItemImport}

/-- What the combined module holds of an item's file, whatever the order of the imports. -/
theorem mem_items_iff (hc : ¬ L.Cyclic) (hU : L.Uniform) (ht : L.visited = .ok t) {p : ItemPtr} :
    p ∈ t.entered.flatMap L.kept ↔ p ∈ L.itemsOf p.file ∧ L.Loads p.file ∧
      ∀ file imp, L.CanEnter file imp p.file → imp.Selects p := by
  have hv := visitAll_spec ht
  constructor
  · intro hp
    obtain ⟨⟨f, l⟩, hx, hpx⟩ := List.mem_flatMap.mp hp
    obtain rfl : p.file = f := kept_file hpx
    obtain ⟨hpi, hk⟩ := mem_kept.mp hpx
    have hload : L.Loads p.file := (hv.finished p.file).mp (List.mem_map.mpr ⟨_, hx, rfl⟩)
    refine ⟨hpi, hload, fun file imp he => ?_⟩
    cases l with
    | none =>
      rcases List.mem_append.mp (hv.root p.file hx) with hr | hr
      · exact absurd he (not_canEnter_prelude hc (Option.mem_toList.mp hr))
      · rw [List.mem_singleton.mp hr] at he hpi
        exact hU.entry file imp he p hpi
    | some e =>
      obtain ⟨u, heu, hpu⟩ := hv.primary p.file e hx
      exact hU.selection file imp p.file he u e hpu.reached heu p hpi hk
  · rintro ⟨hpi, hload, hsel⟩
    obtain ⟨⟨f, l⟩, hx, hf⟩ := List.mem_map.mp ((hv.finished p.file).mpr hload)
    obtain rfl : f = p.file := hf
    rw [mem_flatMap_kept hv.nodup hx hpi]
    cases l with
    | none => rfl
    | some e =>
      obtain ⟨u, heu, hpu⟩ := hv.primary p.file e hx
      exact hsel u e ⟨heu, hpu⟩

theorem links_of_uniform (hL : L.Resolvable) (hc : ¬ L.Cyclic) (hU : L.Uniform) :
    ∃ out, L.load = .ok out ∧ L.Links out := by
  obtain ⟨t, ht⟩ := exists_visited hc
  obtain ⟨out, hout, hitems⟩ := load_of_visited hL ht
  have hmem : ∀ p, p ∈ out.items ↔ _ := fun p => hitems ▸ mem_items_iff hc hU ht
  have hfile : ∀ {file p}, p ∈ L.itemsOf file → p.file = file := ModuleLoader.mem_itemsOf
  have hreq : ∀ file imp target, L.Loads file → (imp, target) ∈ L.edges file →
      ∀ p ∈ L.itemsOf target, ∀ n, imp.Requests p.item n → p ∈ out.items := by
    intro file imp target hf he p hp n hn
    obtain rfl := hfile hp
    refine (hmem p).mpr ⟨hp, hf.next ⟨imp, he⟩, fun file' imp' he' => ?_⟩
    exact hU.selection file' imp' p.file he' file imp hf he p hp hn.selects
  refine ⟨out, hout, ⟨fun p hp => ?_, fun file imp target hf he p hp n hn => ⟨?_, ?_⟩, ?_, ?_⟩⟩
  · have hpe := hfile hp
    refine (hmem p).mpr ⟨hpe ▸ hp, ?_, fun file imp he => ?_⟩
    · exact hpe ▸ ⟨L.entryFile, by simp [ModuleLoader.roots], .refl⟩
    · exact hU.entry file imp (hpe ▸ he) p hp
  · have hnd : out.items.Nodup := hitems ▸ flatMap_kept_nodup (visitAll_spec ht).nodup
    exact List.count_eq_one_of_mem hnd (hreq file imp target hf he p hp n hn)
  · obtain ⟨hex, -, ⟨i, hi, hin, rfl⟩ | ⟨-, rfl⟩⟩ := hn
    · rw [hU.named file imp target hf he p hp hex i hi hin, hin]
    · rfl
  · rintro p hp q ⟨n, hn, ⟨hq, rfl⟩ | ⟨imp, target, he, hq, hreqn⟩⟩
    · obtain ⟨hpi, hload, hsel⟩ := (hmem p).mp hp
      have hqf := hfile hq
      refine (hmem q).mpr ⟨hqf ▸ hq, hqf ▸ hload, fun file imp he => ?_⟩
      rw [hqf] at he
      exact hU.closed file imp p.file he p hpi q hq (hsel file imp he) hn
    · exact hreq p.file imp target ((hmem p).mp hp).2.1 he q hq n hreqn
  · intro fs hfs
    obtain ⟨t', ht'⟩ := exists_visited (fun h => hc ((cyclic_reorder hfs).mp h))
    obtain ⟨out', hout', hitems'⟩ := load_of_visited (hL.reorder hfs) ht'
    refine ⟨out', hout', fun p => ?_⟩
    rw [hmem, hitems', mem_items_iff (fun h => hc ((cyclic_reorder hfs).mp h)) (hU.reorder hfs) ht']
    simp only [itemsOf_reorder hfs, loads_reorder hfs, canEnter_reorder hfs]

end Complete

section Promote

/-- The imports that satisfy `P` first, then the others, then the declarations. -/
def Module.promote (P : ItemImport → Bool) (mod : Module) : Module :=
  ⟨(mod.imports.filter P ++ mod.imports.filter (!P ·)).map .imp ++ mod.decls.map .decl⟩

theorem Module.items_perm (mod : Module) :
    mod.items.Perm (mod.imports.map .imp ++ mod.decls.map .decl) := by
  obtain ⟨items⟩ := mod
  change items.Perm _
  induction items with
  | nil => exact .refl _
  | cons item items ih =>
    cases item with
    | imp i => exact ih.cons _
    | decl d => exact (ih.cons _).trans List.perm_middle.symm

theorem Module.imports_append (is : List ItemImport) (ds : List Decl) :
    (Module.mk (is.map .imp ++ ds.map .decl)).imports = is := by
  simp [Module.imports, List.filterMap_append, List.filterMap_map]

theorem Module.decls_append (is : List ItemImport) (ds : List Decl) :
    (Module.mk (is.map .imp ++ ds.map .decl)).decls = ds := by
  simp [Module.decls, List.filterMap_append, List.filterMap_map]

theorem Module.promote_imports (P : ItemImport → Bool) (mod : Module) :
    (mod.promote P).imports = mod.imports.filter P ++ mod.imports.filter (!P ·) :=
  Module.imports_append _ _

theorem Module.promote_reorders (P : ItemImport → Bool) (mod : Module) :
    mod.Reorders (mod.promote P) where
  perm := mod.items_perm.trans
    ((((List.filter_append_perm P mod.imports).symm.map _)).append_right _)
  decls := Module.decls_append _ _

/-- Every file's imports promoted by a predicate of its own. -/
def FileSystem.promote (P : FilePath → ItemImport → Bool) (fs : FileSystem) : FileSystem :=
  ⟨fs.files.map fun f => (f.1, f.2.promote (P f.1))⟩

variable {P : FilePath → ItemImport → Bool} {fs : FileSystem}

theorem FileSystem.promote_reorders : fs.Reorders (fs.promote P) := by
  change List.Forall₂ _ fs.files (fs.files.map _)
  rw [List.forall₂_map_right_iff]
  exact List.forall₂_same.mpr fun f _ => ⟨rfl, f.2.promote_reorders _⟩

theorem FileSystem.promote_parseFile (p : FilePath) :
    (fs.promote P).parseFile p = (fs.parseFile p).promote (P p) := by
  obtain ⟨files⟩ := fs
  change ((files.map _).lookup p).getD ⟨[]⟩ = ((files.lookup p).getD ⟨[]⟩).promote (P p)
  induction files with
  | nil => rfl
  | cons f files ih =>
    obtain ⟨g, m⟩ := f
    by_cases hp : p = g
    · subst hp
      simp
    · simpa [List.lookup_cons, beq_eq_false_iff_ne.mpr hp] using ih

open Classical in
/-- In `file` the import `imp`, in the other files those that lead to `file`. -/
noncomputable def towards (L : ModuleLoader) (file : FilePath) (imp : ItemImport) (g : FilePath)
    (i : ItemImport) : Bool :=
  if g = file then i = imp
  else ∃ target, L.resolveModulePath i.segs g.dropLast = some target ∧
    Graph.Reach (Edge L.edges) target file

variable {file target : FilePath} {imp : ItemImport}

/-- The first import of a promoted file. -/
theorem promoted_head (g : FilePath)
    (hex : ∃ i x, (i, x) ∈ L.edges g ∧ towards L file imp g i = true)
    (hL : ∀ i ∈ (L.fs.parseFile g).imports, (L.resolveModulePath i.segs g.dropLast).isSome) :
    ∃ i x, (({ L with fs := L.fs.promote (towards L file imp) } : ModuleLoader).edges g).head? =
      some (i, x) ∧ towards L file imp g i = true ∧
      L.resolveModulePath i.segs g.dropLast = some x := by
  have hr : L.fs.Reorders (L.fs.promote (towards L file imp)) := FileSystem.promote_reorders
  obtain ⟨i₀, x₀, he₀, hi₀⟩ := hex
  rw [ModuleLoader.edges, resolveModulePath_reorder hr, FileSystem.promote_parseFile,
    Module.promote_imports]
  cases hfil : (L.fs.parseFile g).imports.filter (towards L file imp g) with
  | nil =>
    rw [List.filter_eq_nil_iff] at hfil
    exact absurd hi₀ (hfil i₀ (ModuleLoader.mem_edges.mp he₀).1)
  | cons i is =>
    have hi : i ∈ (L.fs.parseFile g).imports.filter (towards L file imp g) := by simp [hfil]
    obtain ⟨himp, hto⟩ := List.mem_filter.mp hi
    obtain ⟨x, hx⟩ := Option.isSome_iff_exists.mp (hL i himp)
    refine ⟨i, x, ?_, hto, hx⟩
    rw [List.cons_append, List.filterMap_cons, hx]
    rfl

/-- Some order of the import declarations enters `target` by a given import, if that import can
be the one it is entered by at all. -/
theorem exists_reorder (hL : L.Resolvable) (hc : ¬ L.Cyclic) (he : L.CanEnter file imp target) :
    ∃ fs, L.fs.Reorders fs ∧ ∃ t, ({ L with fs := fs } : ModuleLoader).visited = .ok t ∧
      (target, some imp) ∈ t.entered := by
  have hr : L.fs.Reorders (L.fs.promote (towards L file imp)) := FileSystem.promote_reorders
  obtain ⟨t, ht⟩ := exists_visited (fun h => hc ((cyclic_reorder hr).mp h))
  refine ⟨_, hr, t, ht, ?_⟩
  have he' : ({ L with fs := L.fs.promote (towards L file imp) } : ModuleLoader).CanEnter file imp
      target := by rwa [canEnter_reorder hr]
  refine visitAll_first he'.2 he'.1 (fun u hload hu => ?_) ht
  rw [edge_reorder hr] at hu ⊢
  have hex : ∃ i x, (i, x) ∈ L.edges u ∧ towards L file imp u i = true := by
    by_cases huf : u = file
    · subst huf
      exact ⟨imp, target, he.1, by simp [towards]⟩
    · rcases hu.head_cases with rfl | ⟨c, ⟨i, hi⟩, hcf⟩
      · exact absurd rfl huf
      · refine ⟨i, c, hi, ?_⟩
        simp only [towards, if_neg huf, decide_eq_true_eq]
        exact ⟨c, (ModuleLoader.mem_edges.mp hi).2, hcf⟩
  obtain ⟨i, x, hhead, hto, hx⟩ := promoted_head u hex (hL u ((loads_reorder hr).mp hload))
  obtain ⟨as, hhead⟩ := List.head?_eq_some_iff.mp hhead
  refine ⟨(i, x), as, hhead, ?_⟩
  by_cases huf : u = file
  · subst huf
    simp only [towards, if_true, decide_eq_true_eq] at hto
    subst hto
    have hx' := (ModuleLoader.mem_edges.mp he.1).2
    rw [hx] at hx'
    exact Or.inl ⟨rfl, by rw [Option.some.inj hx']⟩
  · simp only [towards, if_neg huf, decide_eq_true_eq] at hto
    obtain ⟨y, hy, hyf⟩ := hto
    rw [hx] at hy
    exact Or.inr ⟨huf, Option.some.inj hy ▸ hyf⟩

end Promote

section Exact

variable {out : Combined}

/-- In a complete combined module an import that can be first has selected the items. -/
theorem mem_items_of_links (hL : L.Resolvable) (hc : ¬ L.Cyclic) (h : L.Links out)
    {file target : FilePath} {imp : ItemImport} (he : L.CanEnter file imp target) {p : ItemPtr}
    (hp : p ∈ L.itemsOf target) : p ∈ out.items ↔ imp.Selects p := by
  obtain ⟨fs, hr, t, ht, hent⟩ := exists_reorder hL hc he
  obtain ⟨out', hout', hsame⟩ := h.reordered fs hr
  obtain ⟨out'', hout'', hitems⟩ := load_of_visited (hL.reorder hr) ht
  obtain rfl : out'' = out' := Except.ok.inj (hout''.symm.trans hout')
  rw [← itemsOf_reorder hr] at hp
  rw [← hsame, hitems, mem_flatMap_kept (visitAll_spec ht).nodup hent hp]

theorem uniform_of_links (hL : L.Resolvable) (hc : ¬ L.Cyclic) (h : L.Links out) : L.Uniform where
  named file imp target hf he p hp hex i hi hin := by
    by_cases hsel : matchesImportList (.decl p.item) imp = true
    · have := (h.requested file imp target hf he p hp _ ⟨hex, hsel, Or.inl ⟨i, hi, hin, rfl⟩⟩).2
      rw [← this, hin]
    · -- a listed name is selected
      refine absurd ?_ hsel
      simp only [matchesImportList, Bool.or_eq_true, List.any_eq_true, decide_eq_true_eq]
      exact Or.inr ⟨i, hi, hin⟩
  selection file imp target he file' imp' hf' he' p hp hsel := by
    obtain ⟨n, hn⟩ := hsel.requests
    have hcount := (h.requested file' imp' target hf' he' p hp n hn).1
    have hmem : p ∈ out.items := List.count_pos_iff.mp (by omega)
    exact (mem_items_of_links hL hc h he hp).mp hmem
  closed file imp target he p hp q hq hsel hm := by
    have hmem := (mem_items_of_links hL hc h he hp).mpr hsel
    have hpf := ModuleLoader.mem_itemsOf hp
    refine (mem_items_of_links hL hc h he hq).mp (h.referred p hmem q ⟨_, hm, Or.inl ⟨?_, rfl⟩⟩)
    rwa [hpf]
  entry file imp he p hp := (mem_items_of_links hL hc h he hp).mp (h.entry p hp)

/-- Linking is complete and does not depend on the order of the import declarations exactly for
the programs whose imports of a module agree; a cycle of imports is always rejected. -/
theorem linksCorrectly_iff (hL : L.Resolvable) :
    L.LinksCorrectly ↔ (¬ L.Cyclic → L.Uniform) := by
  constructor
  · rintro ⟨-, h⟩ hc
    obtain ⟨out, -, hlinks⟩ := h hc
    exact uniform_of_links hL hc hlinks
  · intro h
    refine ⟨fun hc => ?_, fun hc => links_of_uniform hL hc (h hc)⟩
    obtain ⟨file, hf⟩ := load_of_cyclic hL hc
    exact ⟨_, hf⟩

theorem resolvable_of_files
    (h : ∀ f ∈ L.fs.files, ∀ imp ∈ f.2.imports,
      (L.resolveModulePath imp.segs f.1.dropLast).isSome) : L.Resolvable := by
  intro file _ imp hi
  rw [FileSystem.parseFile] at hi
  cases hl : L.fs.files.lookup file with
  | none =>
    rw [hl] at hi
    cases hi
  | some mod =>
    rw [hl] at hi
    obtain ⟨l₁, l₂, hfiles, -⟩ := List.lookup_eq_some_iff.mp hl
    exact h (file, mod) (by simp [hfiles]) imp hi

/-- Two imports of one module that select different items: `a` is loaded for `f` only. -/
def selections : ModuleLoader where
  fs := ⟨[
    (["p", "main.lx"], ⟨[.imp ⟨["a"], [⟨"f", none⟩], false⟩, .imp ⟨["b"], [⟨"g", none⟩], false⟩]⟩),
    (["p", "a.lx"], ⟨[.decl ⟨"f", .public, []⟩, .decl ⟨"h", .public, []⟩]⟩),
    (["p", "b.lx"], ⟨[.imp ⟨["a"], [⟨"h", none⟩], false⟩, .decl ⟨"g", .public, ["h"]⟩]⟩)]⟩
  entryFile := ["p", "main.lx"]
  configuredStdlibRoot := none
  envStdlib := none
  currentPath := ["p"]

theorem selections_resolvable : selections.Resolvable := resolvable_of_files (by decide)

theorem selections_linksCorrectly_iff :
    selections.LinksCorrectly ↔ (¬ selections.Cyclic → selections.Uniform) :=
  linksCorrectly_iff selections_resolvable

theorem selections_not_linked : ¬ selections.LinksCorrectly := by
  rintro ⟨-, h⟩
  have hitems : selections.load.toOption.map Combined.items =
      some [⟨["p", "a.lx"], 0, "f", .public, []⟩, ⟨["p", "b.lx"], 0, "g", .public, ["h"]⟩] := by
    decide
  have hc : ¬ selections.Cyclic := by
    intro hc
    obtain ⟨file, hf⟩ := load_of_cyclic selections_resolvable hc
    rw [hf] at hitems
    cases hitems
  obtain ⟨out, hout, hlinks⟩ := h hc
  rw [hout] at hitems
  have hb : selections.Loads ["p", "b.lx"] :=
    ⟨["p", "main.lx"], by decide, .single ⟨⟨["b"], [⟨"g", none⟩], false⟩, by decide⟩⟩
  have hcount := (hlinks.requested ["p", "b.lx"] ⟨["a"], [⟨"h", none⟩], false⟩ ["p", "a.lx"] hb
    (by decide) ⟨["p", "a.lx"], 1, "h", .public, []⟩ (by decide) "h"
    ⟨by decide, by decide, Or.inl ⟨⟨"h", none⟩, by decide, by decide, by decide⟩⟩).1
  rw [Option.some.inj hitems] at hcount
  revert hcount
  decide

end Exact

end Loxis.Driver
