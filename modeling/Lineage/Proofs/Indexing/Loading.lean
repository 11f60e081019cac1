/-
# Loading is adding, up to the first failure

The files that a path names are loaded in their order, each one read, parsed and added
before the next one is looked at.  What is left behind is an index with the modules of the
files before the first one that fails (`loadPath_spec`): a module is added whole or not at
all, so an index that agrees with its classes does so after any loading
(`Coherent.loadPath`).
-/

import Lineage.Files.Memory
import Lineage.Files.Tree
import Lineage.Hierarchy.Load
import Lineage.Proofs.Indexing.Coherence
import Lineage.Proofs.Outline.Definitions

namespace Lineage

/-! ### Path order -/

namespace Files

namespace Component

/-- Components by their kind, and then by their names. -/
theorem compare_eq_compareLex (a b : Component) :
    a.compare b = compareLex (compareOn rank) (compareOn text) a b := by
  rcases a with _ | _ | _ | m <;> rcases b with _ | _ | _ | n <;> rfl

/-- The order of components is transitive, as that of the texts in them is. -/
instance : Std.TransCmp compare := by
  have h : compare = compareLex (compareOn rank) (compareOn text) :=
    funext₂ compare_eq_compareLex
  rw [h]
  infer_instance

end Component

/-- Paths are compared component by component. -/
theorem comparePaths_eq_compareLex (p q : List Component) :
    comparePaths p q = List.compareLex Component.compare p q := by
  induction p generalizing q with
  | nil => cases q <;> rfl
  | cons a p ih =>
    cases q with
    | nil => rfl
    | cons b q => rw [comparePaths, ih, List.compareLex_cons_cons]

/-- The order of paths is transitive. -/
instance : Std.TransCmp comparePaths := by
  have h : comparePaths = List.compareLex Component.compare := funext₂ comparePaths_eq_compareLex
  rw [h]
  infer_instance

/-- No path stands before one that it follows in the order of paths. -/
def InPathOrder (paths : List Path) : Prop :=
  paths.Pairwise fun p q => (comparePaths p.components q.components).isLE

/-- Sorted paths are in path order. -/
theorem inPathOrder_sortPaths (paths : List Path) : InPathOrder (sortPaths paths) := by
  have hle : ∀ o : Ordering, (o != .gt) = o.isLE := by decide
  simp only [InPathOrder, sortPaths, hle]
  refine List.pairwise_mergeSort (fun p q r => Std.TransCmp.isLE_trans) (fun p q => ?_) paths
  have hswap : comparePaths q.components p.components =
      (comparePaths p.components q.components).swap := Std.OrientedCmp.eq_swap
  rw [hswap]
  cases comparePaths p.components q.components <;> rfl

variable {dir : Path} {files : List Path}

/-- The listing of files in memory. -/
theorem MemoryFiles.inPathOrder_sources (fs : MemoryFiles)
    (h : fs.fileSystem.sources dir = .ok files) : InPathOrder files := by
  obtain rfl := Except.ok.inj h
  exact inPathOrder_sortPaths _

/-- The listing of a directory tree. -/
theorem FileTree.inPathOrder_sources (t : FileTree)
    (h : t.fileSystem.sources dir = .ok files) : InPathOrder files := by
  simp only [fileSystem] at h
  split at h
  · unfold sourcesBelow at h
    split at h
    · cases h
    · obtain rfl := Except.ok.inj h
      exact inPathOrder_sortPaths _
  · obtain rfl := Except.ok.inj h
    exact List.Pairwise.nil
  · obtain rfl := Except.ok.inj h
    exact List.Pairwise.filter _ (List.pairwise_singleton _ _)
  · cases h

end Files

namespace Hierarchy

open Outline Files Source

/-! ### Files that hold modules -/

/-- The file can be read, and that is the module that it holds. -/
def Holds (fs : FileSystem Id) (file : Path) (m : ModuleOutline) : Prop :=
  ∃ source, fs.read file = .ok source ∧ parse source file.text = .outline m

/-- The file cannot be read, or what it holds cannot be parsed, for that reason. -/
inductive Fails (fs : FileSystem Id) (file : Path) : LoadError → Prop
  | unread {e : IoError} (h : fs.read file = .error e) : Fails fs file (.io e)
  | unparsed {source : String} {e : ParseError} (hread : fs.read file = .ok source)
      (hparse : parse source file.text = .refused e) : Fails fs file (.parse file.text e)

variable {fs : FileSystem Id} {file : Path} {m : ModuleOutline} {e : LoadError}

/-- A file that holds a module does not fail. -/
theorem Holds.not_fails (h : Holds fs file m) : ¬Fails fs file e := by
  obtain ⟨source, hread, hparse⟩ := h
  rintro (⟨hread'⟩ | ⟨hread', hparse'⟩)
  · rw [hread] at hread'
    cases hread'
  · obtain rfl := Except.ok.inj (hread.symm.trans hread')
    rw [hparse] at hparse'
    cases hparse'

/-- Every file holds a module, or fails. -/
theorem holds_or_fails (fs : FileSystem Id) (file : Path) :
    (∃ m, Holds fs file m) ∨ ∃ e, Fails fs file e := by
  cases hread : fs.read file with
  | error e => exact .inr ⟨_, .unread hread⟩
  | ok source =>
    rcases outline_or_refused source file.text with ⟨m, hm⟩ | ⟨e, he⟩
    · exact .inl ⟨m, source, hread, hm⟩
    · exact .inr ⟨_, .unparsed hread he⟩

namespace ClassIndex

/-! ### Modules, one after another -/

/-- The index with modules, added one after another under their names, and their ids. -/
def addModules (index : ClassIndex) : List (String × ModuleOutline) → ClassIndex × List ClassId
  | [] => (index, [])
  | m :: ms =>
    let (index', ids) := index.addModule m.1 m.2
    let (index'', more) := index'.addModules ms
    (index'', ids ++ more)

variable {index : ClassIndex} {root : List Component} {files : List Path}

/-- Modules are added one after another. -/
theorem addModules_cons (index : ClassIndex) (m : String × ModuleOutline)
    (ms : List (String × ModuleOutline)) :
    index.addModules (m :: ms) =
      (((index.addModule m.1 m.2).1.addModules ms).1,
        (index.addModule m.1 m.2).2 ++ ((index.addModule m.1 m.2).1.addModules ms).2) := rfl

/-- A coherent index is coherent with more modules. -/
theorem Coherent.addModules (h : index.Coherent) (ms : List (String × ModuleOutline)) :
    (index.addModules ms).1.Coherent := by
  induction ms generalizing index with
  | nil => exact h
  | cons m ms ih =>
    rw [addModules_cons]
    exact ih (h.addModule m.1 m.2)

/-- The modules of files, under their names below `root`. -/
def named (root : List Component) (files : List Path) (modules : List ModuleOutline) :
    List (String × ModuleOutline) :=
  List.zipWith (fun file m => (moduleNameOf root file.components, m)) files modules

/-! ### Loading -/

/-- What comes of loading files: the modules of the first ones have been added, and the
next one fails. -/
structure Loads (fs : FileSystem Id) (root : List Component) (index : ClassIndex)
    (loaded rest : List Path) (modules : List ModuleOutline)
    (result : ClassIndex × Except LoadError (List ClassId)) : Prop where
  holds : List.Forall₂ (Holds fs) loaded modules
  index_eq : result.1 = (index.addModules (named root loaded modules)).1
  /-- Without a failure, the ids are those of all modules. -/
  complete : rest = [] → result.2 = .ok (index.addModules (named root loaded modules)).2
  failed : ∀ {file more}, rest = file :: more → ∃ e, Fails fs file e ∧ result.2 = .error e

/-- A text with an outline is added as its module. -/
theorem addParsed_of_outline {module path source : String} (h : parse source path = .outline m) :
    index.addParsed module path source =
      ((index.addModule module m).1, .ok (index.addModule module m).2) := by
  simp [addParsed, h]

/-- A text that is refused adds nothing. -/
theorem addParsed_of_refused {module path source : String} {e : ParseError}
    (h : parse source path = .refused e) :
    index.addParsed module path source = (index, .error (.parse path e)) := by
  simp [addParsed, h]

/-- One file, in a file system whose answers are values. -/
theorem loadFiles_cons (fs : FileSystem Id) (root : List Component) (index : ClassIndex)
    (file : Path) (files : List Path) :
    loadFiles fs root index (file :: files) =
      match (fs.read file : Except IoError String) with
      | .error e => (index, .error (.io e))
      | .ok source =>
        match index.addParsed (moduleNameOf root file.components) file.text source with
        | (index', .error e) => (index', .error e)
        | (index', .ok ids) =>
          match (loadFiles fs root index' files : ClassIndex × Except LoadError (List ClassId)) with
          | (index'', .error e) => (index'', .error e)
          | (index'', .ok more) => (index'', .ok (ids ++ more)) := rfl

/-- At a file that fails loading ends, with what has been loaded before. -/
theorem loadFiles_of_fails (h : Fails fs file e) :
    loadFiles fs root index (file :: files) = (index, .error e) := by
  rw [loadFiles_cons]
  rcases h with ⟨hread⟩ | ⟨hread, hparse⟩
  · simp only [hread]
  · simp only [hread, addParsed_of_refused hparse]

/-- A file that holds a module is added, and the others are loaded after it. -/
theorem loadFiles_of_holds (h : Holds fs file m) :
    loadFiles fs root index (file :: files) =
      let added := index.addModule (moduleNameOf root file.components) m
      let others := loadFiles fs root added.1 files
      (others.1, others.2.map (added.2 ++ ·)) := by
  obtain ⟨source, hread, hparse⟩ := h
  simp only [loadFiles_cons, hread, addParsed_of_outline hparse]
  rcases loadFiles fs root _ files with ⟨index', _ | _⟩ <;> rfl

/-- Without files nothing is loaded. -/
theorem Loads.nil (fs : FileSystem Id) (root : List Component) (index : ClassIndex) :
    Loads fs root index [] [] [] (loadFiles fs root index []) where
  holds := .nil
  index_eq := rfl
  complete _ := rfl
  failed h := nomatch h

/-- Nothing is loaded if the first file fails. -/
theorem Loads.of_fails (h : Fails fs file e) (files : List Path) :
    Loads fs root index [] (file :: files) [] (loadFiles fs root index (file :: files)) where
  holds := .nil
  index_eq := by rw [loadFiles_of_fails h]; rfl
  complete hrest := nomatch hrest
  failed hrest := by
    obtain ⟨rfl, rfl⟩ := List.cons.inj hrest
    exact ⟨e, h, by rw [loadFiles_of_fails h]⟩

/-- A file that holds a module is loaded, and then the others are. -/
theorem Loads.of_holds {loaded rest : List Path} {modules : List ModuleOutline}
    (h : Holds fs file m)
    (hothers : Loads fs root (index.addModule (moduleNameOf root file.components) m).1 loaded rest
      modules (loadFiles fs root (index.addModule (moduleNameOf root file.components) m).1 files)) :
    Loads fs root index (file :: loaded) rest (m :: modules)
      (loadFiles fs root index (file :: files)) where
  holds := .cons h hothers.holds
  index_eq := by
    rw [loadFiles_of_holds h]
    exact hothers.index_eq
  complete hrest := by
    rw [loadFiles_of_holds h]
    dsimp only
    rw [hothers.complete hrest]
    rfl
  failed hrest := by
    obtain ⟨e, he, hresult⟩ := hothers.failed hrest
    refine ⟨e, he, ?_⟩
    rw [loadFiles_of_holds h]
    dsimp only
    rw [hresult]
    rfl

/-- Loading files parts them at the first one that fails. -/
theorem exists_loads (fs : FileSystem Id) (root : List Component) (index : ClassIndex)
    (files : List Path) :
    ∃ loaded rest modules, files = loaded ++ rest ∧
      Loads fs root index loaded rest modules (loadFiles fs root index files) := by
  induction files generalizing index with
  | nil => exact ⟨[], [], [], rfl, .nil fs root index⟩
  | cons file files ih =>
    rcases holds_or_fails fs file with ⟨m, hm⟩ | ⟨e, he⟩
    · obtain ⟨loaded, rest, modules, rfl, hloads⟩ :=
        ih (index.addModule (moduleNameOf root file.components) m).1
      exact ⟨file :: loaded, rest, m :: modules, rfl, .of_holds hm hloads⟩
    · exact ⟨[], file :: files, [], rfl, .of_fails he files⟩

variable {loaded rest : List Path} {modules : List ModuleOutline}
  {result : ClassIndex × Except LoadError (List ClassId)}

/-- The loaded files are as many as can be: no more of the first ones hold modules. -/
theorem Loads.longest (h : Loads fs root index loaded rest modules result) {others : List Path}
    (hfirst : others <+: loaded ++ rest) (hothers : ∀ file ∈ others, ∃ m, Holds fs file m) :
    others <+: loaded := by
  rcases List.prefix_or_prefix_of_prefix hfirst (List.prefix_append loaded rest) with hle | hge
  · exact hle
  · obtain ⟨more, rfl⟩ := hge
    rw [List.prefix_append_right_inj] at hfirst
    cases more with
    | nil => exact ⟨[], by rw [List.append_nil, List.append_nil]⟩
    | cons file more =>
      obtain ⟨after, hrest⟩ := hfirst
      have hrest : rest = file :: (more ++ after) := hrest.symm
      obtain ⟨e, he, _⟩ := h.failed hrest
      obtain ⟨m, hm⟩ := hothers file (by simp)
      exact absurd he hm.not_fails

/-- Loading succeeds just when no file is left. -/
theorem Loads.ok_iff (h : Loads fs root index loaded rest modules result) :
    (∃ ids, result.2 = .ok ids) ↔ rest = [] := by
  constructor
  · rintro ⟨ids, hids⟩
    cases rest with
    | nil => rfl
    | cons file more =>
      obtain ⟨e, _, he⟩ := h.failed rfl
      rw [he] at hids
      cases hids
  · intro hrest
    exact ⟨_, h.complete hrest⟩

/-! ### Paths -/

/-- The files that a path names: itself if it is a Python source, else those of the
listing. -/
def filesAt (fs : FileSystem Id) (path : Path) : Except IoError (List Path) :=
  if isPythonSource path then .ok [path] else fs.sources path

/-- What the module names of the files at a path are relative to. -/
def rootOf (path : Path) : List Component :=
  if isPythonSource path then (parent? path.components).getD [] else path.components

/-- To load a path is to load the files that it names, in the order of the listing. -/
theorem loadPath_eq (fs : FileSystem Id) (index : ClassIndex) (path : Path) :
    loadPath fs index path =
      match filesAt fs path with
      | .error e => (index, .error (.io e))
      | .ok files => loadFiles fs (rootOf path) index files := by
  unfold loadPath filesAt rootOf
  split <;> rfl

/-- **Loading adds the modules of the files before the first one that fails**, one after
another and whole: the loading succeeds if no file fails, with the ids of all modules in
their order, and otherwise ends with the reason for which the first failing file cannot be
read or parsed.  A listing that fails, and a source that is refused, leave the index as it
is.  The files are in path order. -/
theorem loadPath_spec (fs : FileSystem Id) (index : ClassIndex) (path : Path) :
    (match filesAt fs path with
      | .error e => loadPath fs index path = (index, .error (.io e))
      | .ok files => ∃ loaded rest modules, files = loaded ++ rest ∧
          Loads fs (rootOf path) index loaded rest modules (loadPath fs index path) ∧
          (∀ others, others <+: files → (∀ file ∈ others, ∃ m, Holds fs file m) →
            others <+: loaded) ∧
          ((∃ ids, (loadPath fs index path).2 = .ok ids) ↔ loaded = files)) ∧
    (∀ module source,
      match parse source module with
      | .outline m => index.addSource module source =
          ((index.addModule module m).1, .ok (index.addModule module m).2)
      | .refused e => index.addSource module source = (index, .error (.parse module e))
      | .defect _ => False) ∧
    (∀ memory : MemoryFiles, ∀ dir files,
      memory.fileSystem.sources dir = .ok files → InPathOrder files) ∧
    (∀ tree : FileTree, ∀ dir files,
      tree.fileSystem.sources dir = .ok files → InPathOrder files) := by
  refine ⟨?_, fun module source => ?_, fun memory _ _ => memory.inPathOrder_sources,
    fun tree _ _ => tree.inPathOrder_sources⟩
  · rw [loadPath_eq]
    cases filesAt fs path with
    | error e => rfl
    | ok files =>
      obtain ⟨loaded, rest, modules, rfl, hloads⟩ := exists_loads fs (rootOf path) index files
      refine ⟨loaded, rest, modules, rfl, hloads, fun others => hloads.longest, ?_⟩
      exact hloads.ok_iff.trans ⟨fun h => by rw [h, List.append_nil], List.self_eq_append_right.1⟩
  · rcases outline_or_refused source module with ⟨m, hm⟩ | ⟨e, he⟩
    · rw [hm]
      exact addParsed_of_outline hm
    · rw [he]
      exact addParsed_of_refused he

/-- **Loading keeps the agreement of an index with its classes**, also when it fails. -/
theorem Coherent.loadPath (h : index.Coherent) (fs : FileSystem Id) (path : Path) :
    (index.loadPath fs path).1.Coherent := by
  rw [loadPath_eq]
  cases filesAt fs path with
  | error e => exact h
  | ok files =>
    obtain ⟨loaded, rest, modules, _, hloads⟩ := exists_loads fs (rootOf path) index files
    exact hloads.index_eq ▸ h.addModules _

end ClassIndex
end Hierarchy
end Lineage
