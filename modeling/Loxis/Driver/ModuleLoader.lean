import Mathlib.Data.List.Basic
import Mathlib.Data.Nat.Notation

/-! # The module loader

The files of a program are parsed modules under absolute paths. The loader resolves the imports
of a file, appends the imported modules first, and then those items of the file that the import
it was reached by asks for.
-/

namespace Loxis.Driver

/-- The components of an absolute, lexically normal path. -/
abbrev FilePath := List String

inductive Visibility
  | «private» | internal | «public»
  deriving DecidableEq, Repr

structure ImportItem where
  name : String
  aliasName : Option String
  deriving DecidableEq, Repr

/-- `import m` and `import m as B` import a module, `from m import { a, b as c }` its items. -/
structure ItemImport where
  segs : List String
  items : List ImportItem
  importModule : Bool
  deriving DecidableEq, Repr

/-- A function, class, enum class, interface, object, property, constant or type alias, with
the names that its types and bodies use. -/
structure Decl where
  name : String
  visibility : Visibility
  mentions : List String
  deriving DecidableEq, Repr

inductive Item
  | decl (d : Decl)
  | imp (i : ItemImport)
  deriving DecidableEq, Repr

structure Module where
  items : List Item
  deriving DecidableEq, Repr

def Module.imports (mod : Module) : List ItemImport :=
  mod.items.filterMap fun
    | .imp i => some i
    | .decl _ => none

def Module.decls (mod : Module) : List Decl :=
  mod.items.filterMap fun
    | .imp _ => none
    | .decl d => some d

/-- A shared item of a parsed file: the pointer is its place among the file's declarations. -/
structure ItemPtr where
  file : FilePath
  index : ℕ
  item : Decl
  deriving DecidableEq, Repr

structure FileSystem where
  files : List (FilePath × Module)

namespace FileSystem

variable (fs : FileSystem)

/-- The files and all their parent directories. -/
def paths : List FilePath := fs.files.flatMap fun f => f.1.inits

def «exists» (p : FilePath) : Bool := p ∈ fs.paths

def isDirectory (p : FilePath) : Bool := p ∈ fs.files.flatMap fun f => f.1.dropLast.inits

/-- What cannot be read as a file is parsed as an empty one. -/
def parseFile (p : FilePath) : Module := (fs.files.lookup p).getD ⟨[]⟩

/-- The segments of a module path are identifiers, which have no extension to replace. -/
def replaceExtension (base : FilePath) (ext : String) : FilePath :=
  base.dropLast ++ [base.getLast?.getD "" ++ ext]

def tryLxFile (base : FilePath) : Option FilePath :=
  if fs.exists (replaceExtension base ".lx") then some (replaceExtension base ".lx")
  else if fs.exists (replaceExtension base ".lxs") then some (replaceExtension base ".lxs")
  else if fs.isDirectory base then
    (["mod.lx", "package.lx", "index.lx"].map fun entry => base ++ [entry]).find? fs.exists
  else none

end FileSystem

structure ModuleLoader where
  fs : FileSystem
  entryFile : FilePath
  configuredStdlibRoot : Option FilePath
  /-- The environment variable `LOXIS_STDLIB`. -/
  envStdlib : Option FilePath
  currentPath : FilePath

inductive LoadError
  | cyclicImport (file : FilePath)
  | unresolvedImport (name : String) (file : FilePath)
  | depth
  deriving DecidableEq, Repr

def LoadError.what : LoadError → String
  | .cyclicImport file => "cyclic import involving /" ++ "/".intercalate file
  | .unresolvedImport name file =>
    "cannot resolve import '" ++ name ++ "' from /" ++ "/".intercalate file
  | .depth => ""

structure LoadState where
  items : List ItemPtr
  intrinsicSources : List FilePath
  loading : List FilePath
  loaded : List FilePath
  loadOrder : List FilePath

/-- The module that the front end goes on with. -/
structure Combined where
  name : String
  file : FilePath
  items : List ItemPtr
  intrinsicSources : List FilePath

/-- A file name without its extension. -/
def stem (file : FilePath) : String :=
  let name := file.getLast?.getD ""
  match name.toList.reverse.dropWhile (· ≠ '.') with
  | [] | [_] => name
  | _ :: rest => String.ofList rest.reverse

def isExported (item : Item) : Bool :=
  match item with
  | .decl n => n.visibility ≠ .private
  | .imp _ => false

def matchesImportList (item : Item) (imp : ItemImport) : Bool :=
  imp.importModule || imp.items.isEmpty ||
    match item with
    | .decl n => imp.items.any fun imported => imported.name = n.name
    | .imp _ => false

/-- What a file keeps of an item when it is reached by an import, or as a root. -/
def keeps (importedBy : Option ItemImport) (item : Item) : Bool :=
  match importedBy with
  | none => true
  | some imp => isExported item && matchesImportList item imp

namespace ModuleLoader

variable (L : ModuleLoader)

def entryDir : FilePath := L.entryFile.dropLast

/-- A directory and its parents, the root being its own parent. -/
def walkUp (dir : FilePath) : List FilePath := List.iterate List.dropLast dir 24

def findStdlibRoot : Option FilePath :=
  let hasPrelude root := L.fs.exists (root ++ ["loxis", "prelude.lx"])
  (L.configuredStdlibRoot.toList ++ L.envStdlib.toList ++
    (walkUp L.entryDir).map (· ++ ["stdlib"]) ++ [L.currentPath ++ ["stdlib"]]).find? hasPrelude

def resolveStdlibModule (segs : List String) : Option FilePath :=
  match L.findStdlibRoot, segs with
  | some root, "loxis" :: rest =>
    if rest.isEmpty then L.fs.tryLxFile (root ++ ["loxis", "prelude"])
    else L.fs.tryLxFile (root ++ ["loxis"] ++ rest)
  | _, _ => none

def resolveSourceModule (segs : List String) (nearDir : FilePath) : Option FilePath :=
  (walkUp nearDir ++ walkUp L.entryDir).findSome? fun dir => L.fs.tryLxFile (dir ++ segs)

def resolveModulePath (segs : List String) (importingDir : FilePath) : Option FilePath :=
  if segs.isEmpty then none
  else L.resolveStdlibModule segs <|> L.resolveSourceModule segs importingDir <|>
    L.fs.tryLxFile (importingDir ++ segs)

/-- The items of a file that are not imports. -/
def itemsOf (file : FilePath) : List ItemPtr :=
  (L.fs.parseFile file).decls.zipIdx.map fun d => ⟨file, d.2, d.1⟩

/-- The files whose code may use the intrinsics. -/
def intrinsicSource (file : FilePath) : Bool :=
  (L.findStdlibRoot.any fun root => root.isPrefixOf file) ||
    (L.fs.parseFile file).imports.any fun imp => imp.segs = ["loxis", "unsafe"]

/-- `file` with all that it imports, to a depth of at most the first argument. -/
def appendModule : ℕ → FilePath → Option ItemImport → LoadState → Except LoadError LoadState
  | 0, _, _, _ => .error .depth
  | n + 1, file, importedBy, s =>
    if file ∈ s.loaded then .ok s
    else if file ∈ s.loading then .error (.cyclicImport file)
    else do
      let t ← (L.fs.parseFile file).imports.foldlM
        (fun s imp =>
          match L.resolveModulePath imp.segs file.dropLast with
          | none => .error (.unresolvedImport (imp.segs.getLast?.getD "") file)
          | some imported => appendModule n imported (some imp) s)
        { s with
          loading := file :: s.loading
          intrinsicSources :=
            if L.intrinsicSource file then s.intrinsicSources ++ [file] else s.intrinsicSources }
      .ok { t with
        items := t.items ++ (L.itemsOf file).filter fun p => keeps importedBy (.decl p.item)
        loading := t.loading.erase file
        loaded := file :: t.loaded
        loadOrder := t.loadOrder ++ [file] }

/-- The prelude, where a standard library is found that has one. -/
def prelude : Option FilePath :=
  (L.findStdlibRoot.map (· ++ ["loxis", "prelude.lx"])).filter L.fs.exists

/-- More than the number of files that a chain of imports can pass through. -/
def maxDepth : ℕ := L.fs.paths.length + 2

def load : Except LoadError Combined := do
  let s : LoadState := ⟨[], [], [], [], []⟩
  let s ← match L.prelude with
    | some file => L.appendModule L.maxDepth file none s
    | none => .ok s
  let s ← L.appendModule L.maxDepth L.entryFile none s
  .ok ⟨stem L.entryFile, L.entryFile, s.items, s.intrinsicSources⟩

end ModuleLoader

end Loxis.Driver
