/-
# Names of loaded modules

A file that is loaded lies below the directory that is loaded (`ListsSources`), and its module
is named for the way there: the names of the directories and of the file, without its extension,
joined by dots.  A file that is named `__init__` adds no name, and in the directory itself it
goes by the name of the directory (`Spells`).

Names are joined as they are.  So a module of such a file has no empty part in its name just when
none of the joined names has one (`isUsable_intercalate_iff`), and then no class of it has a
qualified name that begins with a dot (`loaded_modules_named`).  All this is about files that have
a name to go by (`HasName`): the `__init__` of a directory without a name has none.
-/

import Lineage.Proofs.Indexing.Contributions
import Lineage.Proofs.Indexing.Loading
import Lineage.Proofs.Indexing.TopLevel

namespace Lineage

namespace Files

open Hierarchy

variable {base path inner root directories : List Component} {cs : List Char}
  {name extension title : String} {parts : List String} {dir file : Path} {files : List Path}

/-! ### Components below a directory -/

/-- What is below a path is what its components go on with. -/
theorem below?_eq_some_iff : below? base path = some inner ↔ path = base ++ inner := by
  induction base generalizing path with
  | nil => exact ⟨fun h => Option.some.inj h, fun h => congrArg some h⟩
  | cons b base ih =>
    cases path with
    | nil => simp [below?]
    | cons c path =>
      rw [below?]
      split
      · rename_i heq
        rw [ih, heq, List.cons_append, List.cons_inj_right]
      · rename_i hne
        simp [Ne.symm hne]

/-- A text is split at each of its slashes. -/
theorem splitSlashes_eq_splitOn (cs : List Char) : splitSlashes cs = cs.splitOn '/' := by
  induction cs with
  | nil => rfl
  | cons c cs ih =>
    rw [splitSlashes, List.splitOn_cons_eq_if_modifyHead, ih]
    by_cases hc : c = '/'
    · rw [if_pos hc, if_pos (beq_iff_eq.2 hc)]
    · rw [if_neg hc, if_neg (mt beq_iff_eq.1 hc)]
      obtain ⟨part, parts, hparts⟩ := List.exists_cons_of_ne_nil (List.splitOn_ne_nil '/' cs)
      rw [hparts]
      rfl

/-- A text that is split has one part at least. -/
theorem splitSlashes_ne_nil (cs : List Char) : splitSlashes cs ≠ [] := by
  rw [splitSlashes_eq_splitOn]
  exact List.splitOn_ne_nil '/' cs

/-- A slash splits a text, whatever stands around it. -/
theorem splitSlashes_append (cs rest : List Char) :
    splitSlashes (cs ++ '/' :: rest) = splitSlashes cs ++ splitSlashes rest := by
  simp only [splitSlashes_eq_splitOn, List.splitOn_append_cons_self]

/-- The components of what stands behind a slash. -/
def innerComponents (cs : List Char) : List Component :=
  (splitSlashes cs).filterMap innerComponent?

/-- A path without a slash at its start has the component of its first part, then the others. -/
theorem componentsOf_of_split {c : Char} {part : List Char} {parts : List (List Char)}
    (hc : c ≠ '/') (h : splitSlashes (c :: cs) = part :: parts) :
    componentsOf (c :: cs) =
      (if part = ['.'] then [.here] else (innerComponent? part).toList) ++
        parts.filterMap innerComponent? := by
  rw [componentsOf.eq_def, h]
  split
  · contradiction
  · rename_i heq
    exact absurd (List.cons.inj heq).1 hc
  · contradiction
  · rename_i heq _ _
    obtain ⟨rfl, rfl⟩ := List.cons.inj heq
    rfl

/-- What stands behind a slash adds its components. -/
theorem componentsOf_append (h : cs ≠ []) (rest : List Char) :
    componentsOf (cs ++ '/' :: rest) = componentsOf cs ++ innerComponents rest := by
  have hsplit := splitSlashes_append cs rest
  obtain ⟨c, cs, rfl⟩ := List.exists_cons_of_ne_nil h
  by_cases hc : c = '/'
  · subst hc
    show .root :: (splitSlashes ('/' :: cs ++ '/' :: rest)).filterMap innerComponent? = _
    rw [hsplit, List.filterMap_append]
    rfl
  · -- the first stretch is read in its own way, and stays the first one
    obtain ⟨part, parts, hparts⟩ := List.exists_cons_of_ne_nil (splitSlashes_ne_nil (c :: cs))
    rw [hparts, List.cons_append, List.cons_append] at hsplit
    rw [List.cons_append, componentsOf_of_split hc hsplit, componentsOf_of_split hc hparts,
      List.filterMap_append, List.append_assoc]
    rfl

/-- A slash at the end of a path means nothing. -/
theorem componentsOf_slash (cs rest : List Char) :
    componentsOf (cs ++ '/' :: rest) = componentsOf (cs ++ ['/']) ++ innerComponents rest := by
  cases cs with
  | nil => rfl
  | cons c cs =>
    have hnone : innerComponents [] = [] := rfl
    rw [componentsOf_append (List.cons_ne_nil c cs), componentsOf_append (List.cons_ne_nil c cs),
      hnone, List.append_nil]

/-- What is joined to a path that is not empty lies below it. -/
theorem prefix_components_join (h : dir.text ≠ "") (names : List String) :
    dir.components <+: (FileTree.join dir names).components := by
  unfold FileTree.join Path.components
  by_cases hslash : dir.text.endsWith "/"
  · simp only [hslash, if_true, String.toList_append]
    rw [← String.endsWith_toSlice, String.Slice.endsWith_string_iff, String.copy_toSlice] at hslash
    obtain ⟨front, hfront⟩ := hslash
    have hdir : dir.text.toList = front ++ ['/'] := hfront.symm
    have hjoined : front ++ ['/'] ++ "".toList ++ ("/".intercalate names).toList =
        front ++ '/' :: ("/".intercalate names).toList := by simp
    rw [hdir, hjoined]
    exact ⟨_, (componentsOf_slash front _).symm⟩
  · have hne : dir.text.toList ≠ [] := fun heq => h (String.toList_eq_nil_iff.1 heq)
    simp only [hslash, String.toList_append]
    have hjoined : dir.text.toList ++ "/".toList ++ ("/".intercalate names).toList =
        dir.text.toList ++ '/' :: ("/".intercalate names).toList := by simp
    rw [if_neg Bool.false_ne_true, hjoined]
    exact ⟨_, (componentsOf_append hne _).symm⟩

/-! ### Listings -/

/-- A listing has Python sources that lie below the directory. -/
def ListsSources (fs : FileSystem Id) : Prop :=
  ∀ {dir files}, fs.sources dir = .ok files → ∀ file ∈ files,
    dir.components <+: file.components ∧ isPythonSource file = true

/-- Sorting paths keeps each of them. -/
theorem mem_sortPaths {paths : List Path} : file ∈ sortPaths paths ↔ file ∈ paths :=
  List.mem_mergeSort

/-- Files in memory list sources below the directory. -/
theorem MemoryFiles.listsSources (memory : MemoryFiles) : ListsSources memory.fileSystem := by
  intro dir files h file hfile
  obtain rfl := Except.ok.inj h
  have hlisted := (List.mem_filter.1 (mem_sortPaths.1 hfile)).2
  rw [Bool.and_eq_true] at hlisted
  obtain ⟨inner, hinner⟩ := Option.isSome_iff_exists.1 hlisted.1
  exact ⟨⟨inner, (below?_eq_some_iff.1 hinner).symm⟩, hlisted.2⟩

/-- An empty path leads nowhere. -/
theorem FileTree.ne_of_resolve {t : FileTree} {entry : Entry} (h : t.resolve dir = .ok entry) :
    dir.text ≠ "" := by
  intro hempty
  have hmissing : t.resolve ⟨""⟩ = .error .missing := rfl
  obtain rfl : dir = ⟨""⟩ := congrArg Path.mk hempty
  rw [hmissing] at h
  cases h

/-- A directory tree lists sources below the directory. -/
theorem FileTree.listsSources (t : FileTree) : ListsSources t.fileSystem := by
  intro dir files h file hfile
  simp only [fileSystem] at h
  split at h
  · rename_i names hdir
    unfold sourcesBelow at h
    split at h
    · cases h
    · obtain rfl := Except.ok.inj h
      obtain ⟨hjoined, hsource⟩ := List.mem_filter.1 (mem_sortPaths.1 hfile)
      obtain ⟨names, _, rfl⟩ := List.mem_map.1 hjoined
      exact ⟨prefix_components_join (ne_of_resolve hdir) names, hsource⟩
  · obtain rfl := Except.ok.inj h
    cases hfile
  · obtain rfl := Except.ok.inj h
    obtain ⟨hdir, hsource⟩ := List.mem_filter.1 hfile
    obtain rfl := List.mem_singleton.1 hdir
    exact ⟨List.prefix_refl _, hsource⟩
  · cases h

/-! ### Names of files -/

/-- A name is parted at its last dot, unless nothing stands in front of it. -/
theorem splitName_eq (title : String) : splitName title =
    match splitLastDot? title with
    | some (name, extension) => if name = "" then (title, none) else (name, some extension)
    | none => (title, none) := by
  unfold splitName splitLastDot?
  dsimp only
  rw [← List.tail_drop]
  cases title.toList.reverse.drop (title.toList.reverse.takeWhile (· != '.')).length with
  | nil => rfl
  | cons dot front =>
    cases front with
    | nil => rfl
    | cons c front => simp

/-- A name is parted into a stem and an extension at its last dot, if the stem is not empty. -/
theorem splitName_eq_iff : splitName title = (name, some extension) ↔
    title = dotted name extension ∧ name ≠ "" ∧ '.' ∉ extension.toList := by
  rw [splitName_eq]
  constructor
  · intro h
    split at h
    · rename_i front last hsplit
      split at h
      · cases h
      · rename_i hne
        obtain ⟨rfl, hlast⟩ := Prod.mk.inj h
        obtain rfl := Option.some.inj hlast
        obtain ⟨htitle, hdot⟩ := splitLastDot?_eq_some_iff.1 hsplit
        exact ⟨htitle, hne, hdot⟩
    · cases h
  · rintro ⟨htitle, hne, hdot⟩
    rw [splitLastDot?_eq_some_iff.2 ⟨htitle, hdot⟩]
    exact if_neg hne

/-- A path has a file name just when its last component is a name. -/
theorem fileName?_eq_some_iff :
    fileName? path = some name ↔ path.getLast? = some (.named name) := by
  unfold fileName?
  split
  · rename_i last hlast
    rw [hlast, Option.some_inj, Option.some_inj, Component.named.injEq]
  · rename_i hlast
    exact ⟨(nomatch ·), fun h => absurd h (hlast name)⟩

/-- The extensions of Python sources. -/
def IsSourceExtension (extension : String) : Prop := extension = "py" ∨ extension = "pyi"

/-- The extension of a Python source has no dot. -/
theorem IsSourceExtension.not_mem_dot (h : IsSourceExtension extension) :
    '.' ∉ extension.toList := by
  rcases h with rfl | rfl <;> decide

/-- A Python source has a name in front of its extension. -/
theorem exists_name_of_isPythonSource (h : isPythonSource file = true) :
    ∃ front name extension, file.components = front ++ [.named (dotted name extension)] ∧
      name ≠ "" ∧ IsSourceExtension extension := by
  unfold isPythonSource at h
  split at h
  · rename_i extension hextension
    obtain ⟨title, htitle, hparted⟩ := Option.bind_eq_some_iff.1 hextension
    obtain ⟨front, hfront⟩ := List.getLast?_eq_some_iff.1 (fileName?_eq_some_iff.1 htitle)
    obtain ⟨hname, hne, _⟩ := splitName_eq_iff.1 (Prod.ext rfl hparted)
    exact ⟨front, stem title, extension, hname ▸ hfront, hne, by simpa [IsSourceExtension] using h⟩
  · cases h

/-- The directories that lead from `root` to a Python source, and its name without the
extension. -/
structure LeadsTo (root directories : List Component) (name : String) (file : Path) : Prop where
  ne : name ≠ ""
  components_eq : ∃ extension, IsSourceExtension extension ∧
    file.components = root ++ (directories ++ [.named (dotted name extension)])

/-! ### Names of modules -/

/-- No part of the name between its dots is empty: it is not empty itself, and no dot of it
stands at an end or next to another one. -/
def IsUsable (name : String) : Prop := [] ∉ name.toList.splitOn '.'

/-- Whether a name is usable can be seen from its parts. -/
instance (name : String) : Decidable (IsUsable name) :=
  inferInstanceAs (Decidable ([] ∉ name.toList.splitOn '.'))

/-- Names that are joined by dots are usable just when each of them is. -/
theorem isUsable_intercalate_iff (h : parts ≠ []) :
    IsUsable (".".intercalate parts) ↔ ∀ part ∈ parts, IsUsable part := by
  induction parts with
  | nil => contradiction
  | cons part parts ih =>
    cases parts with
    | nil => simp
    | cons next parts =>
      have hjoined : (".".intercalate (part :: next :: parts)).toList =
          part.toList ++ '.' :: (".".intercalate (next :: parts)).toList := by
        rw [String.intercalate_cons_cons, String.toList_append, String.toList_append]
        simp
      rw [List.forall_mem_cons, ← ih (List.cons_ne_nil next parts)]
      unfold IsUsable
      rw [hjoined, List.splitOn_append_cons_self, List.mem_append, not_or]

/-- A usable name begins with a character that is not a dot. -/
theorem IsUsable.exists_cons (h : IsUsable name) : ∃ c cs, name.toList = c :: cs ∧ c ≠ '.' := by
  unfold IsUsable at h
  cases hname : name.toList with
  | nil =>
    rw [hname] at h
    exact absurd List.mem_cons_self h
  | cons c cs =>
    refine ⟨c, cs, rfl, ?_⟩
    rintro rfl
    have hsplit := List.splitOn_append_cons_self (a := '.') [] cs
    rw [hname] at h
    rw [List.nil_append] at hsplit
    exact h (hsplit ▸ List.mem_cons_self)

/-- The names that are joined to the name of a module: those of the directories, and that of the
file unless it is `__init__`; for such a file in `root` itself, the name of `root`. -/
inductive Spells (root directories : List Component) (name : String) : List String → Prop
  | source (hname : name ≠ "__init__") :
    Spells root directories name (directories.map Component.text ++ [name])
  | package (hname : name = "__init__") (hinner : directories ≠ []) :
    Spells root directories name (directories.map Component.text)
  | root {package : String} (hname : name = "__init__") (htop : directories = [])
    (hroot : root.getLast? = some (.named package)) : Spells root directories name [package]

/-- The file is not the `__init__` of a directory without a name: there is a name to spell. -/
def HasName (root directories : List Component) (name : String) : Prop :=
  name = "__init__" → directories = [] → ∃ package, root.getLast? = some (.named package)

/-- A file that has a name spells it. -/
theorem exists_spells (h : HasName root directories name) :
    ∃ parts, Spells root directories name parts := by
  by_cases hname : name = "__init__"
  · by_cases htop : directories = []
    · obtain ⟨package, hroot⟩ := h hname htop
      exact ⟨_, .root hname htop hroot⟩
    · exact ⟨_, .package hname htop⟩
  · exact ⟨_, .source hname⟩

/-- A module that is spelled is spelled from one name at least. -/
theorem Spells.ne_nil (h : Spells root directories name parts) : parts ≠ [] := by
  cases h with
  | source hname => exact List.append_ne_nil_of_right_ne_nil _ (List.cons_ne_nil _ _)
  | package hname hinner => exact mt List.map_eq_nil_iff.1 hinner
  | root hname htop hroot => exact List.cons_ne_nil _ _

/-- **A module is named for the way to its file.** -/
theorem LeadsTo.moduleNameOf_eq (hfile : LeadsTo root directories name file)
    (h : Spells root directories name parts) :
    moduleNameOf root file.components = ".".intercalate parts := by
  obtain ⟨hne, extension, hextension, hcomponents⟩ := hfile
  have hbelow := below?_eq_some_iff.2 hcomponents
  have hparent : parent? (directories ++ [.named (dotted name extension)]) = some directories := by
    simp [parent?]
  have htitle : fileName? file.components = some (dotted name extension) := by
    rw [fileName?_eq_some_iff, hcomponents, ← List.append_assoc, List.getLast?_concat]
  have hstem : stem (dotted name extension) = name :=
    congrArg Prod.fst (splitName_eq_iff.2 ⟨rfl, hne, hextension.not_mem_dot⟩)
  simp only [moduleNameOf, hbelow, hparent, htitle, hstem, Option.getD_some, Option.map_some]
  cases h with
  | source hname => simp [hname]
  | package hname hinner => simp [hname, hinner]
  | root hname htop hroot => simp [hname, htop, fileName?_eq_some_iff.2 hroot]

end Files

namespace Hierarchy
namespace ClassIndex

open Outline Files

variable {index : ClassIndex} {d : ClassDecl} {id : ClassId} {fs : FileSystem Id}
  {root : List Component} {path file : Path} {files : List Path}

/-- A file that is loaded lies below what its name is relative to. -/
theorem exists_leadsTo (hfs : ListsSources fs) (hfiles : filesAt fs path = .ok files)
    (hfile : file ∈ files) : ∃ directories name, LeadsTo (rootOf path) directories name file := by
  unfold filesAt at hfiles
  unfold rootOf
  split at hfiles
  · rename_i hsource
    obtain rfl := Except.ok.inj hfiles
    obtain rfl := List.mem_singleton.1 hfile
    obtain ⟨front, name, extension, hcomponents, hne, hextension⟩ :=
      exists_name_of_isPythonSource hsource
    have hparent : parent? file.components = some front := by simp [parent?, hcomponents]
    rw [if_pos hsource, hparent]
    exact ⟨[], name, hne, extension, hextension, hcomponents⟩
  · rename_i hdirectory
    obtain ⟨⟨inner, hinner⟩, hsource⟩ := hfs hfiles file hfile
    obtain ⟨front, name, extension, hcomponents, hne, hextension⟩ :=
      exists_name_of_isPythonSource hsource
    rw [if_neg hdirectory]
    rcases List.eq_nil_or_concat' inner with rfl | ⟨directories, last, rfl⟩
    · -- the directory would be the file, and a source itself
      rw [List.append_nil] at hinner
      refine absurd ?_ hdirectory
      rwa [isPythonSource, hinner]
    · rw [hcomponents, ← List.append_assoc] at hinner
      obtain ⟨_, hlast⟩ := List.append_inj' hinner rfl
      obtain rfl : last = .named (dotted name extension) := List.singleton_inj.1 hlast
      refine ⟨directories, name, hne, extension, hextension, ?_⟩
      rw [hcomponents, ← hinner, List.append_assoc]

/-! ### Loaded classes -/

/-- A class of an index with more modules was there before, or belongs to one of them. -/
theorem old_or_new_addModules {modules : List (String × ModuleOutline)}
    (hd : (index.addModules modules).1.get? id = some d) :
    index.get? id = some d ∨ ∃ m ∈ modules, d.module = m.1 := by
  induction modules generalizing index with
  | nil => exact .inl hd
  | cons m modules ih =>
    rw [addModules_cons] at hd
    rcases ih hd with hd | ⟨m', hm', hmodule⟩
    · rcases (adds_addModule index m.1 m.2).old_or_new hd with hd | ⟨_, k, _, hdescribes⟩
      · exact .inl hd
      · exact .inr ⟨m, List.mem_cons_self, hdescribes.module_eq⟩
    · exact .inr ⟨m', List.mem_cons_of_mem m hm', hmodule⟩

/-- A module that a file gives is named for the file. -/
theorem exists_file_of_mem_named {modules : List ModuleOutline} {m : String × ModuleOutline}
    (h : m ∈ named root files modules) :
    ∃ file ∈ files, m.1 = moduleNameOf root file.components := by
  rw [named, ← List.map_uncurry_zip_eq_zipWith] at h
  obtain ⟨⟨file, outline⟩, hzip, rfl⟩ := List.mem_map.1 h
  exact ⟨file, (List.of_mem_zip hzip).1, rfl⟩

/-- A loaded class belongs to the module of one of the files. -/
theorem old_or_new_loadPath (hfiles : filesAt fs path = .ok files)
    (hd : (index.loadPath fs path).1.get? id = some d) :
    index.get? id = some d ∨
      ∃ file ∈ files, d.module = moduleNameOf (rootOf path) file.components := by
  rw [loadPath_eq, hfiles] at hd
  obtain ⟨loaded, rest, modules, rfl, hloads⟩ := exists_loads fs (rootOf path) index files
  rw [hloads.index_eq] at hd
  refine (old_or_new_addModules hd).imp_right fun ⟨m, hm, hmodule⟩ => ?_
  obtain ⟨file, hfile, hname⟩ := exists_file_of_mem_named hm
  exact ⟨file, List.mem_append_left rest hfile, hmodule.trans hname⟩

/-- A class of a module with a usable name has a qualified name that does not begin with a dot. -/
theorem Coherent.head?_qualifiedName (h : index.Coherent) (hd : index.get? id = some d)
    (husable : IsUsable d.module) : d.qualifiedName.toList.head? ≠ some '.' := by
  obtain ⟨path, hq⟩ := h.exists_path hd
  obtain ⟨c, cs, hmodule, hc⟩ := husable.exists_cons
  rw [hq, toList_dotted, hmodule, List.cons_append, List.head?_cons]
  exact fun heq => hc (Option.some.inj heq)

/-- **A loaded module is named for the way to its file from the directory**, if the file is not the
`__init__` of a directory without a name: the names of the directories and of the file, without
its extension, joined by dots, a last `__init__` left out; the `__init__` of the directory itself
goes by the directory's name.  The name of such a module has an empty part just when one of the
joined names has.  Every class that is loaded belongs to the module of one of the files, and its
qualified name does not begin with a dot unless the module has an empty part in its name.  Files in
memory and directory trees list what lies below the directory. -/
theorem loaded_modules_named :
    (∀ memory : MemoryFiles, ListsSources memory.fileSystem) ∧
    (∀ tree : FileTree, ListsSources tree.fileSystem) ∧
    ∀ fs path files, ListsSources fs → filesAt fs path = .ok files →
      (∀ file ∈ files, ∃ directories name, LeadsTo (rootOf path) directories name file ∧
        (HasName (rootOf path) directories name → ∃ parts,
          Spells (rootOf path) directories name parts ∧
          moduleNameOf (rootOf path) file.components = ".".intercalate parts ∧
          (IsUsable (moduleNameOf (rootOf path) file.components) ↔
            ∀ part ∈ parts, IsUsable part))) ∧
      ∀ index : ClassIndex, index.Coherent → ∀ id d, index.get? id = none →
        (index.loadPath fs path).1.get? id = some d →
          (∃ file ∈ files, d.module = moduleNameOf (rootOf path) file.components) ∧
          (∃ rest, d.qualifiedName = dotted d.module rest) ∧
          (IsUsable d.module → d.qualifiedName.toList.head? ≠ some '.') := by
  refine ⟨MemoryFiles.listsSources, FileTree.listsSources,
    fun fs path files hfs hfiles => ⟨fun file hfile => ?_, fun index hindex id d hnew hd => ?_⟩⟩
  · obtain ⟨directories, name, hleads⟩ := exists_leadsTo hfs hfiles hfile
    refine ⟨directories, name, hleads, fun hname => ?_⟩
    obtain ⟨parts, hparts⟩ := exists_spells hname
    have hmodule := hleads.moduleNameOf_eq hparts
    exact ⟨parts, hparts, hmodule, hmodule ▸ isUsable_intercalate_iff hparts.ne_nil⟩
  · have hloaded := hindex.loadPath fs path
    refine ⟨(old_or_new_loadPath hfiles hd).resolve_left fun hold => ?_, hloaded.exists_path hd,
      hloaded.head?_qualifiedName hd⟩
    rw [hnew] at hold
    cases hold

/-- One file in memory. -/
def oneFile (path source : String) : MemoryFiles := .ofList [(⟨path⟩, source)]

/-- There is nothing to sort in a single path. -/
theorem sortPaths_singleton (file : Path) : sortPaths [file] = [file] := List.mergeSort_singleton _

/-- The hypotheses of `loaded_modules_named` are satisfiable: a package below the directory is
named for its way there, and its class for it. -/
theorem loaded_modules_named_subpackage :
    let fs := (oneFile "pkg/sub/__init__.py" "class C: 0\n").fileSystem
    let index := ofModules true []
    ListsSources fs ∧ filesAt fs ⟨"pkg"⟩ = .ok [⟨"pkg/sub/__init__.py"⟩] ∧ index.Coherent ∧
      index.get? ⟨1⟩ = none ∧
      (∃ directories name parts, LeadsTo [.named "pkg"] directories name ⟨"pkg/sub/__init__.py"⟩ ∧
        HasName [.named "pkg"] directories name ∧ Spells [.named "pkg"] directories name parts ∧
        "sub" = ".".intercalate parts ∧ ∀ part ∈ parts, IsUsable part) ∧
      ∃ d, (index.loadPath fs ⟨"pkg"⟩).1.get? ⟨1⟩ = some d ∧ IsUsable d.module ∧
        d.qualifiedName = "sub.C" ∧ d.qualifiedName.toList.head? ≠ some '.' := by
  intro fs index
  have hfs : ListsSources fs := MemoryFiles.listsSources _
  have hfiles : filesAt fs ⟨"pkg"⟩ = .ok [⟨"pkg/sub/__init__.py"⟩] :=
    congrArg Except.ok (sortPaths_singleton _)
  have hindex : index.Coherent := Coherent.ofModules true []
  have hnew : index.get? ⟨1⟩ = none := rfl
  have hloaded : ((index.loadPath fs ⟨"pkg"⟩).1.get? ⟨1⟩).any (fun d =>
      decide (IsUsable d.module) && d.qualifiedName == "sub.C") = true := by
    rw [loadPath_eq, hfiles]
    decide +kernel
  obtain ⟨d, hd, hnamed⟩ := (Option.any_eq_true ..).1 hloaded
  simp only [Bool.and_eq_true, decide_eq_true_eq, beq_iff_eq] at hnamed
  obtain ⟨hmodules, hclasses⟩ := loaded_modules_named.2.2 fs ⟨"pkg"⟩ _ hfs hfiles
  obtain ⟨directories, name, hleads, hspelled⟩ := hmodules _ (List.mem_singleton_self _)
  have hname : HasName [.named "pkg"] directories name := fun _ _ => ⟨"pkg", rfl⟩
  have hmodule : moduleName ⟨"pkg"⟩ ⟨"pkg/sub/__init__.py"⟩ = "sub" := by decide
  have hsub : IsUsable (moduleName ⟨"pkg"⟩ ⟨"pkg/sub/__init__.py"⟩) := by
    rw [hmodule]
    decide
  obtain ⟨parts, hparts, hjoined, husable⟩ := hspelled hname
  exact ⟨hfs, hfiles, hindex, hnew,
    ⟨directories, name, parts, hleads, hname, hparts, hmodule.symm.trans hjoined,
      husable.1 hsub⟩,
    d, hd, hnamed.1, hnamed.2, (hclasses index hindex _ _ hnew hd).2.2 hnamed.1⟩

/-- A file whose name begins with a dot gives its module such a name, and its class too. -/
theorem not_isUsable_listed :
    let fs := (oneFile "pkg/.hidden.py" "class C: 0\n").fileSystem
    filesAt fs ⟨"pkg"⟩ = .ok [⟨"pkg/.hidden.py"⟩] ∧
      moduleName ⟨"pkg"⟩ ⟨"pkg/.hidden.py"⟩ = ".hidden" ∧ ¬ IsUsable ".hidden" ∧
      ∃ d, ((ofModules false []).loadPath fs ⟨"pkg"⟩).1.get? ⟨0⟩ = some d ∧
        d.qualifiedName = ".hidden.C" := by
  intro fs
  have hfiles : filesAt fs ⟨"pkg"⟩ = .ok [⟨"pkg/.hidden.py"⟩] :=
    congrArg Except.ok (sortPaths_singleton _)
  have hloaded : (((ofModules false []).loadPath fs ⟨"pkg"⟩).1.get? ⟨0⟩).any
      (·.qualifiedName == ".hidden.C") = true := by
    rw [loadPath_eq, hfiles]
    decide +kernel
  obtain ⟨d, hd, hname⟩ := (Option.any_eq_true ..).1 hloaded
  exact ⟨hfiles, by decide, by decide, d, hd, beq_iff_eq.1 hname⟩

end ClassIndex
end Hierarchy
end Lineage
