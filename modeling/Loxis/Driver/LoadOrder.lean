import Loxis.Driver.ModuleLoader
import Loxis.Lib.DepthFirst

/-! # Loading as a depth-first visit

The imports of a program are the labelled edges of a graph of files. Where every import can be
resolved, the loader visits that graph from the prelude and from the entry file, and the items
it collects are read off the order of the visit.
-/

namespace Loxis.Driver

open DepthFirst

namespace ModuleLoader

variable (L : ModuleLoader)

/-- The imports of a file with the files they resolve to. -/
def edges (file : FilePath) : List (ItemImport × FilePath) :=
  (L.fs.parseFile file).imports.filterMap fun imp =>
    (L.resolveModulePath imp.segs file.dropLast).map (imp, ·)

def roots : List FilePath := L.prelude.toList ++ [L.entryFile]

/-- The file is part of the program. -/
abbrev Loads (file : FilePath) : Prop := Reached L.edges L.roots file

/-- Every import of the program names a module. -/
def Resolvable : Prop :=
  ∀ file, L.Loads file → ∀ imp ∈ (L.fs.parseFile file).imports,
    (L.resolveModulePath imp.segs file.dropLast).isSome

/-- The items that a file reached by a given import contributes. -/
def kept (x : FilePath × Option ItemImport) : List ItemPtr :=
  (L.itemsOf x.1).filter fun p => keeps x.2 (.decl p.item)

variable {L}

theorem mem_edges {file target : FilePath} {imp : ItemImport} :
    (imp, target) ∈ L.edges file ↔ imp ∈ (L.fs.parseFile file).imports ∧
      L.resolveModulePath imp.segs file.dropLast = some target := by
  rw [edges, List.mem_filterMap]
  constructor
  · rintro ⟨i, hi, h⟩
    obtain ⟨t, ht, h⟩ := Option.map_eq_some_iff.mp h
    obtain ⟨rfl, rfl⟩ := Prod.mk.inj h
    exact ⟨hi, ht⟩
  · rintro ⟨hi, ht⟩
    exact ⟨imp, hi, by rw [ht]; rfl⟩

theorem mem_itemsOf {file : FilePath} {p : ItemPtr} (h : p ∈ L.itemsOf file) : p.file = file := by
  obtain ⟨d, -, rfl⟩ := List.mem_map.mp h
  rfl

theorem itemsOf_nodup (file : FilePath) : (L.itemsOf file).Nodup := by
  have h : ((L.itemsOf file).map ItemPtr.index).Nodup := by
    rw [itemsOf, List.map_map]
    change ((L.fs.parseFile file).decls.zipIdx.map Prod.snd).Nodup
    rw [List.zipIdx_map_snd]
    exact List.nodup_range'
  exact h.of_map

end ModuleLoader

/-- The loader's state against the order in which the visit finished the files. -/
structure Refines (L : ModuleLoader) (s : LoadState) (t : State FilePath ItemImport) : Prop where
  loading : s.loading = t.loading
  loaded : ∀ file, file ∈ s.loaded ↔ file ∈ t.finished
  items : s.items = t.entered.flatMap L.kept
  loadOrder : s.loadOrder = t.finished

/-- The loader and the visit succeed together, and fail at the same file. -/
inductive Agree (L : ModuleLoader) :
    Except LoadError LoadState → Except (Failure FilePath) (State FilePath ItemImport) → Prop
  | ok {s : LoadState} {t : State FilePath ItemImport} : Refines L s t → Agree L (.ok s) (.ok t)
  | cycle (file : FilePath) : Agree L (.error (.cyclicImport file)) (.error (.cycle file))
  | depth : Agree L (.error .depth) (.error .depth)

section Refinement

variable {L : ModuleLoader} {s : LoadState} {t : State FilePath ItemImport}

theorem Agree.bind {x : Except LoadError LoadState}
    {y : Except (Failure FilePath) (State FilePath ItemImport)}
    {f : LoadState → Except LoadError LoadState}
    {g : State FilePath ItemImport → Except (Failure FilePath) (State FilePath ItemImport)}
    (h : Agree L x y) (hf : ∀ s t, Refines L s t → Agree L (f s) (g t)) :
    Agree L (x >>= f) (y >>= g) := by
  cases h with
  | ok h => exact hf _ _ h
  | cycle file => exact .cycle file
  | depth => exact .depth

theorem Agree.foldlM {file : FilePath} {imports : List ItemImport} {n : ℕ}
    (hr : ∀ imp ∈ imports, (L.resolveModulePath imp.segs file.dropLast).isSome)
    (ih : ∀ imp ∈ imports, ∀ target, L.resolveModulePath imp.segs file.dropLast = some target →
      ∀ s t, Refines L s t →
        Agree L (L.appendModule n target (some imp) s) (visit L.edges n target (some imp) t))
    (h : Refines L s t) :
    Agree L
      (imports.foldlM (fun s imp =>
        match L.resolveModulePath imp.segs file.dropLast with
        | none => .error (.unresolvedImport (imp.segs.getLast?.getD "") file)
        | some imported => L.appendModule n imported (some imp) s) s)
      ((imports.filterMap fun imp =>
        (L.resolveModulePath imp.segs file.dropLast).map (imp, ·)).foldlM
          (fun s e => visit L.edges n e.2 (some e.1) s) t) := by
  induction imports generalizing s t with
  | nil => exact .ok h
  | cons imp imports ihl =>
    obtain ⟨target, ht⟩ := Option.isSome_iff_exists.mp (hr imp (by simp))
    rw [List.foldlM_cons, List.filterMap_cons, ht]
    simp only [Option.map_some, List.foldlM_cons]
    refine (ih imp (by simp) target ht s t h).bind fun s t h => ?_
    refine ihl (fun i hi => hr i (List.mem_cons_of_mem _ hi)) (fun i hi => ?_) h
    exact ih i (List.mem_cons_of_mem _ hi)

theorem appendModule_agree (hL : L.Resolvable) {n : ℕ} {file : FilePath}
    {importedBy : Option ItemImport} (hf : L.Loads file) (h : Refines L s t) :
    Agree L (L.appendModule n file importedBy s) (visit L.edges n file importedBy t) := by
  induction n generalizing file importedBy s t with
  | zero => exact .depth
  | succ n ih =>
    rw [ModuleLoader.appendModule, visit]
    by_cases hd : file ∈ t.finished
    · rw [if_pos hd, if_pos ((h.loaded file).mpr hd)]
      exact .ok h
    rw [if_neg hd, if_neg (fun hs => hd ((h.loaded file).mp hs)), h.loading]
    by_cases hl : file ∈ t.loading
    · rw [if_pos hl, if_pos hl]
      exact .cycle file
    rw [if_neg hl, if_neg hl]
    refine Agree.bind (Agree.foldlM (hL file hf) (fun imp hi target ht s t h => ?_) ?_) ?_
    · exact ih (hf.next ⟨imp, ModuleLoader.mem_edges.mpr ⟨hi, ht⟩⟩) h
    · exact ⟨rfl, h.loaded, h.items, h.loadOrder⟩
    · intro s t h
      refine .ok ⟨?_, fun g => ?_, ?_, ?_⟩
      · change s.loading.erase file = _
        rw [h.loading]
        congr 1
        exact lawful_beq_subsingleton _ _
      · have := h.loaded g
        simp only [State.finished, List.map_append, List.mem_cons, List.mem_append, List.map_cons,
          List.map_nil, List.not_mem_nil, or_false] at this ⊢
        rw [this, or_comm]
      · simp [h.items, ModuleLoader.kept]
      · simp [h.loadOrder, State.finished]

variable (L) in
/-- The state after the prelude and the entry file. -/
def ModuleLoader.loadRoots : Except LoadError LoadState :=
  (match L.prelude with
    | some file => L.appendModule L.maxDepth file none ⟨[], [], [], [], []⟩
    | none => .ok ⟨[], [], [], [], []⟩) >>= L.appendModule L.maxDepth L.entryFile none

theorem load_eq : L.load = L.loadRoots >>= fun s =>
    .ok ⟨stem L.entryFile, L.entryFile, s.items, s.intrinsicSources⟩ := by
  rw [ModuleLoader.load, ModuleLoader.loadRoots, bind_assoc]
  cases L.prelude <;> rfl

variable (L) in
/-- The order in which `load` visits the files. -/
def ModuleLoader.visited : Except (Failure FilePath) (State FilePath ItemImport) :=
  visitAll L.edges L.maxDepth L.roots .start

theorem loadRoots_agree (hL : L.Resolvable) : Agree L L.loadRoots L.visited := by
  have hstart : Refines L ⟨[], [], [], [], []⟩ .start := ⟨rfl, fun file => Iff.rfl, rfl, rfl⟩
  have hroot : ∀ file ∈ L.roots, L.Loads file := fun file hf => ⟨file, hf, .refl⟩
  rw [ModuleLoader.visited, ModuleLoader.roots, visitAll_append]
  refine Agree.bind ?_ fun s t h => ?_
  · cases hp : L.prelude with
    | none => exact .ok hstart
    | some file =>
      rw [Option.toList_some, visitAll_singleton]
      exact appendModule_agree hL (hroot file (by simp [ModuleLoader.roots, hp])) hstart
  · rw [visitAll_singleton]
    exact appendModule_agree hL (hroot L.entryFile (by simp [ModuleLoader.roots])) h

/-- The items that `load` returns are read off the visit. -/
theorem load_of_visited (hL : L.Resolvable) {t : State FilePath ItemImport}
    (ht : L.visited = .ok t) : ∃ out, L.load = .ok out ∧ out.items = t.entered.flatMap L.kept := by
  have hagree := loadRoots_agree hL
  rw [ht] at hagree
  rw [load_eq]
  generalize L.loadRoots = x at hagree
  cases hagree with
  | ok h => exact ⟨_, rfl, h.items⟩

theorem load_of_cycle (hL : L.Resolvable) {file : FilePath}
    (ht : L.visited = .error (.cycle file)) : L.load = .error (.cyclicImport file) := by
  have hagree := loadRoots_agree hL
  rw [ht] at hagree
  rw [load_eq]
  generalize L.loadRoots = x at hagree
  cases hagree with
  | cycle => rfl

theorem mem_paths_of_exists {fs : FileSystem} {p : FilePath} (h : fs.exists p) : p ∈ fs.paths := by
  simpa [FileSystem.exists] using h

theorem tryLxFile_mem {fs : FileSystem} {base p : FilePath} (h : fs.tryLxFile base = some p) :
    p ∈ fs.paths := by
  rw [FileSystem.tryLxFile] at h
  split at h
  · next he => exact Option.some.inj h ▸ mem_paths_of_exists he
  split at h
  · next he => exact Option.some.inj h ▸ mem_paths_of_exists he
  split at h
  · exact mem_paths_of_exists (List.find?_some h)
  · cases h

theorem resolveModulePath_mem {segs : List String} {dir p : FilePath}
    (h : L.resolveModulePath segs dir = some p) : p ∈ L.fs.paths := by
  rw [ModuleLoader.resolveModulePath] at h
  split at h
  · cases h
  rcases (Option.orElse_eq_some _ _ _).mp h with h | ⟨-, h⟩
  · unfold ModuleLoader.resolveStdlibModule at h
    split at h
    · split at h <;> exact tryLxFile_mem h
    · cases h
  rcases (Option.orElse_eq_some _ _ _).mp h with h | ⟨-, h⟩
  · obtain ⟨dir, -, h⟩ := List.exists_of_findSome?_eq_some h
    exact tryLxFile_mem h
  · exact tryLxFile_mem h

/-- The depth that `load` allows is never used up. -/
theorem visited_cases (L : ModuleLoader) : (∃ t, L.visited = .ok t) ∨
    (∃ file, L.visited = .error (.cycle file)) ∧
      ∃ c, L.Loads c ∧ Relation.TransGen (Edge L.edges) c c := by
  refine visitAll_cases (U := insert L.entryFile L.fs.paths.toFinset) ?_ ?_ rfl ?_
  · rintro u - ⟨imp, target⟩ he
    have := resolveModulePath_mem (ModuleLoader.mem_edges.mp he).2
    simp [this]
  · intro r hr
    rcases List.mem_append.mp hr with hr | hr
    · have := Option.mem_toList.mp hr
      obtain ⟨-, he⟩ := Option.filter_eq_some_iff.mp this
      simp [mem_paths_of_exists he]
    · simp [List.mem_singleton.mp hr]
  · have h₁ := Finset.card_insert_le L.entryFile L.fs.paths.toFinset
    have h₂ := L.fs.paths.toFinset_card_le
    rw [ModuleLoader.maxDepth]
    omega

end Refinement

end Loxis.Driver
