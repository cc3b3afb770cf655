import Mathlib.Data.List.Forall2
import Loxis.Driver.LoadOrder

/-! # What linking should do

The items that imports ask for and that items refer to, the programs that differ in the order of
their import declarations only, and what the combined module of a program should be.
-/

namespace Loxis.Driver

open DepthFirst

/-- The import asks for the item under the name `n`. -/
def ItemImport.Requests (imp : ItemImport) (d : Decl) (n : String) : Prop :=
  isExported (.decl d) ∧ matchesImportList (.decl d) imp ∧
    ((∃ i ∈ imp.items, i.name = d.name ∧ n = i.aliasName.getD i.name) ∨
      (∀ i ∈ imp.items, i.name ≠ d.name) ∧ n = d.name)

/-- The import selects the item for the combined module. -/
abbrev ItemImport.Selects (imp : ItemImport) (p : ItemPtr) : Prop :=
  keeps (some imp) (.decl p.item) = true

/-- The same declarations under import declarations in another order. -/
structure Module.Reorders (mod mod' : Module) : Prop where
  perm : mod.items.Perm mod'.items
  decls : mod'.decls = mod.decls

/-- The same files up to the order of their import declarations. -/
def FileSystem.Reorders (fs fs' : FileSystem) : Prop :=
  List.Forall₂ (fun f f' => f'.1 = f.1 ∧ f.2.Reorders f'.2) fs.files fs'.files

namespace ModuleLoader

variable (L : ModuleLoader)

/-- The item that the name `n` means in a file: one of its own, or one it imports as `n`. -/
def Denotes (file : FilePath) (n : String) (q : ItemPtr) : Prop :=
  q ∈ L.itemsOf file ∧ q.item.name = n ∨
    ∃ imp target, (imp, target) ∈ L.edges file ∧ q ∈ L.itemsOf target ∧ imp.Requests q.item n

def Refers (p q : ItemPtr) : Prop := ∃ n ∈ p.item.mentions, L.Denotes p.file n q

def Cyclic : Prop := ∃ file, L.Loads file ∧ Relation.TransGen (Edge L.edges) file file

/-- The combined module is complete, and the order of import declarations does not matter. -/
structure Links (out : Combined) : Prop where
  entry : ∀ p ∈ L.itemsOf L.entryFile, p ∈ out.items
  requested : ∀ file imp target, L.Loads file → (imp, target) ∈ L.edges file →
    ∀ p ∈ L.itemsOf target, ∀ n, imp.Requests p.item n →
      out.items.count p = 1 ∧ p.item.name = n
  referred : ∀ p ∈ out.items, ∀ q, L.Refers p q → q ∈ out.items
  reordered : ∀ fs, L.fs.Reorders fs → ∃ out', ({ L with fs := fs } : ModuleLoader).load = .ok out' ∧
    ∀ p, p ∈ out'.items ↔ p ∈ out.items

/-- Acyclic programs are linked, cyclic ones rejected. -/
def LinksCorrectly : Prop :=
  (L.Cyclic → ∃ e, L.load = .error e) ∧ (¬ L.Cyclic → ∃ out, L.load = .ok out ∧ L.Links out)

/-- An import that can be the one a file is entered by: it stands in a file that the first root
leading to the target leads to. -/
def CanEnter (file : FilePath) (imp : ItemImport) (target : FilePath) : Prop :=
  (imp, target) ∈ L.edges file ∧ Primary L.edges L.roots file target

/-- The imports of each module agree on what they take of it, rename nothing and take what the
taken items use. -/
structure Uniform : Prop where
  named : ∀ file imp target, L.Loads file → (imp, target) ∈ L.edges file →
    ∀ p ∈ L.itemsOf target, isExported (.decl p.item) →
      ∀ i ∈ imp.items, i.name = p.item.name → i.aliasName.getD i.name = i.name
  selection : ∀ file imp target, L.CanEnter file imp target →
    ∀ file' imp', L.Loads file' → (imp', target) ∈ L.edges file' →
      ∀ p ∈ L.itemsOf target, imp'.Selects p → imp.Selects p
  closed : ∀ file imp target, L.CanEnter file imp target →
    ∀ p ∈ L.itemsOf target, ∀ q ∈ L.itemsOf target,
      imp.Selects p → q.item.name ∈ p.item.mentions → imp.Selects q
  entry : ∀ file imp, L.CanEnter file imp L.entryFile →
    ∀ p ∈ L.itemsOf L.entryFile, imp.Selects p

end ModuleLoader

section Requests

variable {imp : ItemImport} {p : ItemPtr} {n : String}

theorem ItemImport.Requests.selects (h : imp.Requests p.item n) : imp.Selects p := by
  simp only [Selects, keeps, h.1, h.2.1, Bool.and_self]

/-- A selected item is requested under some name. -/
theorem ItemImport.Selects.requests (h : imp.Selects p) : ∃ n, imp.Requests p.item n := by
  simp only [Selects, keeps, Bool.and_eq_true] at h
  by_cases hi : ∃ i ∈ imp.items, i.name = p.item.name
  · obtain ⟨i, hi, hn⟩ := hi
    exact ⟨_, h.1, h.2, Or.inl ⟨i, hi, hn, rfl⟩⟩
  · push Not at hi
    exact ⟨_, h.1, h.2, Or.inr ⟨hi, rfl⟩⟩

end Requests

section Items

variable {L : ModuleLoader} {t : State FilePath ItemImport}

theorem mem_kept {x : FilePath × Option ItemImport} {p : ItemPtr} :
    p ∈ L.kept x ↔ p ∈ L.itemsOf x.1 ∧ keeps x.2 (.decl p.item) = true := List.mem_filter

theorem kept_file {x : FilePath × Option ItemImport} {p : ItemPtr} (h : p ∈ L.kept x) :
    p.file = x.1 := ModuleLoader.mem_itemsOf (mem_kept.mp h).1

/-- Every file contributes by one entry, so that no item is appended twice. -/
theorem flatMap_kept_nodup (ht : t.finished.Nodup) : (t.entered.flatMap L.kept).Nodup := by
  rw [List.nodup_flatMap]
  refine ⟨fun x _ => (ModuleLoader.itemsOf_nodup x.1).filter _, ?_⟩
  refine (List.pairwise_map.mp ht).imp fun {x y} hxy p hx hy => ?_
  exact hxy ((kept_file hx).symm.trans (kept_file hy))

theorem mem_flatMap_kept (ht : t.finished.Nodup) {x : FilePath × Option ItemImport}
    (hx : x ∈ t.entered) {p : ItemPtr} (hp : p ∈ L.itemsOf x.1) :
    p ∈ t.entered.flatMap L.kept ↔ keeps x.2 (.decl p.item) = true := by
  rw [List.mem_flatMap]
  constructor
  · rintro ⟨y, hy, hpy⟩
    have hfile : x.1 = y.1 := (ModuleLoader.mem_itemsOf hp).symm.trans (kept_file hpy)
    obtain rfl := List.inj_on_of_nodup_map ht hx hy hfile
    exact (mem_kept.mp hpy).2
  · exact fun h => ⟨x, hx, mem_kept.mpr ⟨hp, h⟩⟩

end Items

section Reorder

theorem Module.Reorders.mem_imports {mod mod' : Module} (h : mod.Reorders mod') {imp : ItemImport} :
    imp ∈ mod'.imports ↔ imp ∈ mod.imports := (h.perm.filterMap _).mem_iff.symm

variable {L : ModuleLoader} {fs : FileSystem}

theorem FileSystem.Reorders.parseFile {fs fs' : FileSystem} (h : fs.Reorders fs') (p : FilePath) :
    (fs.parseFile p).Reorders (fs'.parseFile p) := by
  obtain ⟨files⟩ := fs
  obtain ⟨files'⟩ := fs'
  change List.Forall₂ _ files files' at h
  change ((files.lookup p).getD ⟨[]⟩).Reorders ((files'.lookup p).getD ⟨[]⟩)
  induction h with
  | nil => exact ⟨.refl _, rfl⟩
  | @cons f f' _ _ hf _ ih =>
    obtain ⟨g, m⟩ := f
    obtain ⟨g', m'⟩ := f'
    obtain ⟨rfl, hm⟩ := hf
    by_cases hp : p = g'
    · subst hp
      simpa using hm
    · simpa [List.lookup_cons, beq_eq_false_iff_ne.mpr hp] using ih

theorem FileSystem.Reorders.names {fs fs' : FileSystem} (h : fs.Reorders fs') :
    fs'.files.map Prod.fst = fs.files.map Prod.fst := by
  obtain ⟨files⟩ := fs
  obtain ⟨files'⟩ := fs'
  change List.Forall₂ _ files files' at h
  induction h with
  | nil => rfl
  | cons hf _ ih => exact congrArg₂ List.cons hf.1 ih

theorem FileSystem.Reorders.exists_eq {fs fs' : FileSystem} (h : fs.Reorders fs') :
    fs'.exists = fs.exists := by
  funext p
  simp only [FileSystem.exists, FileSystem.paths, ← List.flatMap_map, h.names]

theorem FileSystem.Reorders.tryLxFile_eq {fs fs' : FileSystem} (h : fs.Reorders fs') :
    fs'.tryLxFile = fs.tryLxFile := by
  have hdir : fs'.isDirectory = fs.isDirectory := by
    funext p
    have := congrArg (fun l : List FilePath => decide (p ∈ l.flatMap fun g => g.dropLast.inits))
      h.names
    simpa only [FileSystem.isDirectory, List.flatMap_map] using this
  funext base
  simp only [FileSystem.tryLxFile, h.exists_eq, hdir]

variable (h : L.fs.Reorders fs)

include h

theorem findStdlibRoot_reorder :
    ({ L with fs := fs } : ModuleLoader).findStdlibRoot = L.findStdlibRoot := by
  simp only [ModuleLoader.findStdlibRoot, ModuleLoader.entryDir, h.exists_eq]

theorem roots_reorder : ({ L with fs := fs } : ModuleLoader).roots = L.roots := by
  simp only [ModuleLoader.roots, ModuleLoader.prelude, findStdlibRoot_reorder h, h.exists_eq]

theorem resolveModulePath_reorder :
    ({ L with fs := fs } : ModuleLoader).resolveModulePath = L.resolveModulePath := by
  funext segs dir
  simp only [ModuleLoader.resolveModulePath, ModuleLoader.resolveStdlibModule,
    ModuleLoader.resolveSourceModule, ModuleLoader.entryDir, findStdlibRoot_reorder h,
    h.tryLxFile_eq]

theorem itemsOf_reorder : ({ L with fs := fs } : ModuleLoader).itemsOf = L.itemsOf := by
  funext file
  simp only [ModuleLoader.itemsOf, (h.parseFile file).decls]

theorem mem_edges_reorder {file : FilePath} {e : ItemImport × FilePath} :
    e ∈ ({ L with fs := fs } : ModuleLoader).edges file ↔ e ∈ L.edges file := by
  rw [ModuleLoader.mem_edges, ModuleLoader.mem_edges, resolveModulePath_reorder h]
  exact and_congr_left' (h.parseFile file).mem_imports

theorem edge_reorder : Edge ({ L with fs := fs } : ModuleLoader).edges = Edge L.edges := by
  funext u v
  exact propext (exists_congr fun e => mem_edges_reorder h)

theorem loads_reorder {file : FilePath} :
    ({ L with fs := fs } : ModuleLoader).Loads file ↔ L.Loads file := by
  simp only [Reached, edge_reorder h, roots_reorder h]

theorem cyclic_reorder : ({ L with fs := fs } : ModuleLoader).Cyclic ↔ L.Cyclic := by
  simp only [ModuleLoader.Cyclic, loads_reorder h, edge_reorder h]

theorem canEnter_reorder : ({ L with fs := fs } : ModuleLoader).CanEnter = L.CanEnter := by
  funext file imp target
  simp only [ModuleLoader.CanEnter, Primary, mem_edges_reorder h, edge_reorder h, roots_reorder h]

theorem ModuleLoader.Resolvable.reorder (hL : L.Resolvable) :
    ({ L with fs := fs } : ModuleLoader).Resolvable := by
  intro file hf imp hi
  rw [resolveModulePath_reorder h]
  exact hL file ((loads_reorder h).mp hf) imp ((h.parseFile file).mem_imports.mp hi)

theorem ModuleLoader.Uniform.reorder (hU : L.Uniform) :
    ({ L with fs := fs } : ModuleLoader).Uniform := by
  constructor
  · simpa only [loads_reorder h, mem_edges_reorder h, itemsOf_reorder h] using hU.named
  · simpa only [loads_reorder h, mem_edges_reorder h, itemsOf_reorder h, canEnter_reorder h]
      using hU.selection
  · simpa only [itemsOf_reorder h, canEnter_reorder h] using hU.closed
  · simpa only [itemsOf_reorder h, canEnter_reorder h] using hU.entry

end Reorder

end Loxis.Driver
