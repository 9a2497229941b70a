/-
Aether.Command.ImportTheorems — which declarations a program gets from its
imports.

The loop follows the imports of the main file alone, one file for each path,
and leaves an import of a path it has seen where it is
(`import_closure_iff`).
-/
import Aether.Command.Import
import Mathlib.Data.List.Count
import Mathlib.Data.List.Nodup

namespace Aether.Command

/-! ## §1 Graphs of source files -/

def nodesOf (fs : FileSystem) (path : Bytes) : List AstNode := ((fs path).bind File.parsed).getD []

/-- The files that the main file reaches by imports; an import is resolved
from the file it stands in. -/
inductive Reaches (fs : FileSystem) (main : Bytes) : Bytes → Prop
  | main : Reaches fs main main
  | step {path text path' : Bytes} {file : File} (h : Reaches fs main path)
      (himport : .importNode text ∈ nodesOf fs path)
      (hresolve : resolveImport fs path text = some (.source path' file)) : Reaches fs main path'

/-- Source files without errors that import source files. -/
structure SourceGraph where
  fs : FileSystem
  main : Bytes
  parses : ∀ path, Reaches fs main path → ∃ file nodes, fs path = some file ∧ file.parsed = some nodes
  resolves : ∀ path, Reaches fs main path → ∀ text, .importNode text ∈ nodesOf fs path →
    ∃ path' file, resolveImport fs path text = some (.source path' file)

/-- The declarations of a file but its imports. -/
def declared (fs : FileSystem) (path : Bytes) : List Decl :=
  (declsAt path (nodesOf fs path)).filter fun decl => !decl.isImport

def sameDecl (decl decl' : Decl) : Bool := decl.file == decl'.file && decl.place == decl'.place

theorem openFirst_opens {fs : FileSystem} {isAelib : Bool} {aePath aelibPath path : Bytes} {file : File}
    (h : openFirst fs isAelib aePath aelibPath = some (.source path file)) : fs path = some file := by
  rw [openFirst] at h
  split at h
  · next file' hopen =>
    cases h
    split at hopen
    · cases hopen
    · exact hopen
  · cases hlib : fs aelibPath with
    | none => simp [hlib] at h
    | some file' => simp [hlib] at h

theorem resolveImport_opens {fs : FileSystem} {inputFile text path : Bytes} {file : File}
    (h : resolveImport fs inputFile text = some (.source path file)) : fs path = some file := by
  rw [resolveImport] at h
  split at h
  · next resolved hopen =>
    cases h
    exact openFirst_opens hopen
  · exact openFirst_opens h

/-! ## §2 The imports of the main file -/

section Imports

variable (fs : FileSystem) (main : Bytes)

/-- The paths of the imports. -/
def pathsOf (decls : List Decl) : List Bytes :=
  decls.filterMap fun decl => (importText decl.node).map (importPath main)

/-- The file that an import is about, for a source file. -/
def target (decl : Decl) : Option Bytes :=
  (importText decl.node).bind fun text =>
    match resolveImport fs main text with
    | some (.source path _) => some path
    | _ => none

/-- An import that is resolved to a source file without errors. -/
def Sourced (decl : Decl) : Prop :=
  ∀ text, importText decl.node = some text → ∃ path file nodes,
    resolveImport fs main text = some (.source path file) ∧ file.parsed = some nodes ∧
      nodesOf fs path = nodes

variable {fs main}

/-- With a path of its own for each import all of them are resolved. -/
theorem mergeImports_fresh (decls : List Decl) (hsourced : ∀ decl ∈ decls, Sourced fs main decl) :
    ∀ imported appended, (pathsOf main decls).Nodup → (∀ path ∈ pathsOf main decls, path ∉ imported) →
      mergeImports fs main imported appended decls =
        some ((decls.filter fun decl => !decl.isImport) ++ appended ++
          (decls.filterMap (target fs main)).flatMap (declared fs)) := by
  induction decls with
  | nil => intro imported appended _ _; simp [mergeImports]
  | cons decl decls ih =>
    intro imported appended hnodup hfresh
    have hrest := ih fun d hd => hsourced d (List.mem_cons_of_mem _ hd)
    rw [mergeImports]
    cases htext : importText decl.node with
    | none =>
      simp only [pathsOf, List.filterMap_cons, htext, Option.map_none] at hnodup hfresh
      rw [hrest imported appended hnodup hfresh]
      simp [Decl.isImport, htext, target]
    | some text =>
      obtain ⟨path, file, nodes, hresolve, hparsed, hnodes⟩ :=
        hsourced decl (List.mem_cons_self ..) text htext
      simp only [pathsOf, List.filterMap_cons, htext, Option.map_some, List.nodup_cons] at hnodup hfresh
      have hnew : importPath main text ∉ imported := hfresh _ (List.mem_cons_self ..)
      simp only [if_neg hnew, hresolve, hparsed, Option.bind_eq_bind, Option.bind_some]
      rw [hrest _ _ hnodup.2]
      · simp [Decl.isImport, htext, target, hresolve, declared, hnodes]
      · intro p hp hmem
        rcases List.mem_cons.mp hmem with rfl | hmem
        · exact hnodup.1 hp
        · exact hfresh p (List.mem_cons_of_mem _ hp) hmem

/-- Where no import is left, each had a path of its own. -/
theorem fresh_of_mergeImports (decls : List Decl) : ∀ imported appended result,
    mergeImports fs main imported appended decls = some result →
      (∀ decl ∈ result, decl.isImport = false) →
        (pathsOf main decls).Nodup ∧ ∀ path ∈ pathsOf main decls, path ∉ imported := by
  induction decls with
  | nil => intro imported appended result _ _; simp [pathsOf]
  | cons decl decls ih =>
    intro imported appended result hresult hclean
    rw [mergeImports] at hresult
    cases htext : importText decl.node with
    | none =>
      simp only [htext, Option.map_eq_some_iff] at hresult
      obtain ⟨result', hresult', rfl⟩ := hresult
      have hrest := ih imported appended result' hresult' fun d hd =>
        hclean d (List.mem_cons_of_mem _ hd)
      simpa [pathsOf, htext] using hrest
    | some text =>
      simp only [htext] at hresult
      by_cases hseen : importPath main text ∈ imported
      · -- the import stays in the list
        simp only [if_pos hseen, Option.map_eq_some_iff] at hresult
        obtain ⟨result', -, rfl⟩ := hresult
        have himport := hclean decl (List.mem_cons_self ..)
        simp [Decl.isImport, htext] at himport
      · rw [if_neg hseen] at hresult
        have hfresh : (pathsOf main decls).Nodup ∧
            ∀ path ∈ pathsOf main decls, path ∉ importPath main text :: imported := by
          cases hresolve : resolveImport fs main text with
          | none => simp [hresolve] at hresult
          | some resolved =>
            cases resolved with
            | library path file =>
              simp only [hresolve] at hresult
              have hrest := ih _ _ _ hresult hclean
              exact ⟨hrest.1, fun p hp hmem => hrest.2 p hp (List.mem_cons_of_mem _ hmem)⟩
            | source path file =>
              simp only [hresolve, Option.bind_eq_bind, Option.bind_eq_some_iff] at hresult
              obtain ⟨nodes, -, hresult⟩ := hresult
              exact ih _ _ _ hresult hclean
        simp only [pathsOf, List.filterMap_cons, htext, Option.map_some, List.nodup_cons,
          List.forall_mem_cons]
        refine ⟨⟨fun hmem => ?_, hfresh.1⟩, hseen, fun p hp hmem => ?_⟩
        · exact hfresh.2 _ hmem (List.mem_cons_self ..)
        · exact hfresh.2 p hp (List.mem_cons_of_mem _ hmem)

end Imports

/-! ## §3 Counting declarations -/

theorem file_of_mem_declared {fs : FileSystem} {path : Bytes} {decl : Decl}
    (h : decl ∈ declared fs path) : decl.file = path := by
  obtain ⟨⟨node, place⟩, -, rfl⟩ := List.mem_map.mp (List.mem_filter.mp h).1
  rfl

theorem places_nodup (fs : FileSystem) (path : Bytes) : ((declared fs path).map Decl.place).Nodup := by
  have hall : ((declsAt path (nodesOf fs path)).map Decl.place).Nodup := by
    have hsnd : (declsAt path (nodesOf fs path)).map Decl.place =
        (nodesOf fs path).zipIdx.map Prod.snd := by
      simp [declsAt, Function.comp_def]
    rw [hsnd, List.zipIdx_map_snd]
    exact List.nodup_range'
  exact hall.sublist (List.filter_sublist.map _)

/-- A declaration occurs once in its own file and in no other one. -/
theorem countP_declared (fs : FileSystem) {path : Bytes} {decl : Decl} (hdecl : decl ∈ declared fs path)
    (path' : Bytes) : (declared fs path').countP (sameDecl decl) = if path' = path then 1 else 0 := by
  have hfile := file_of_mem_declared hdecl
  by_cases hpath : path' = path
  · subst hpath
    have hcount := List.count_eq_one_of_mem (places_nodup fs path') (List.mem_map_of_mem hdecl)
    rw [List.count, List.countP_map] at hcount
    rw [if_pos rfl, ← hcount]
    refine List.countP_congr fun decl' hdecl' => ?_
    simp only [sameDecl, hfile, file_of_mem_declared hdecl', beq_self_eq_true, Bool.true_and,
      beq_iff_eq, Function.comp_apply]
    exact eq_comm
  · rw [if_neg hpath, List.countP_eq_zero]
    intro decl' hdecl' hsame
    simp only [sameDecl, Bool.and_eq_true, beq_iff_eq] at hsame
    rw [hfile, file_of_mem_declared hdecl'] at hsame
    exact hpath hsame.1.symm

theorem countP_flatMap_declared (fs : FileSystem) {path : Bytes} {decl : Decl}
    (hdecl : decl ∈ declared fs path) (paths : List Bytes) :
    (paths.flatMap (declared fs)).countP (sameDecl decl) = paths.count path := by
  induction paths with
  | nil => rfl
  | cons path' paths ih =>
    rw [List.flatMap_cons, List.countP_append, countP_declared fs hdecl, ih, List.count_cons]
    simp only [beq_iff_eq]
    omega

/-! ## §4 Import closure -/

namespace SourceGraph

variable (g : SourceGraph)

/-- The declarations of the main file, imports included. -/
def mainDecls : List Decl := declsAt g.main (nodesOf g.fs g.main)

/-- The paths of its imports. -/
def paths : List Bytes := pathsOf g.main g.mainDecls

/-- The files that its imports are about. -/
def targets : List Bytes := g.mainDecls.filterMap (target g.fs g.main)

/-- All declarations of all files that are reached, each once, and no import. -/
def Closed (decls : List Decl) : Prop :=
  (∀ decl ∈ decls, decl.isImport = false) ∧
    ∀ path, Reaches g.fs g.main path → ∀ decl ∈ declared g.fs path, decls.countP (sameDecl decl) = 1

theorem mainDecls_sourced : ∀ decl ∈ g.mainDecls, Sourced g.fs g.main decl := by
  intro decl hdecl text htext
  obtain ⟨⟨node, place⟩, hnode, rfl⟩ := List.mem_map.mp hdecl
  have hmem : .importNode text ∈ nodesOf g.fs g.main := by
    have := List.fst_mem_of_mem_zipIdx hnode
    cases node with
    | importNode text' =>
      cases htext
      exact this
    | _ => cases htext
  obtain ⟨path, file, hresolve⟩ := g.resolves g.main .main text hmem
  obtain ⟨file', nodes, hfile, hparsed⟩ := g.parses path (.step .main hmem hresolve)
  obtain rfl : file = file' := Option.some.inj ((resolveImport_opens hresolve).symm.trans hfile)
  exact ⟨path, file, nodes, hresolve, hparsed, by simp [nodesOf, hfile, hparsed]⟩

theorem resolveImports_eq :
    resolveImports g.fs g.main = mergeImports g.fs g.main [] [] g.mainDecls := by
  obtain ⟨file, nodes, hfile, hparsed⟩ := g.parses g.main .main
  simp [resolveImports, mainDecls, nodesOf, hfile, hparsed]

end SourceGraph

/-- The program has the declarations of all files that are reached, each
once, and no import, exactly when the main file imports under different
paths, and itself or by one import each file that is reached and declares
something. -/
theorem import_closure_iff (g : SourceGraph) :
    (∃ decls, resolveImports g.fs g.main = some decls ∧ g.Closed decls) ↔
      g.paths.Nodup ∧ ∀ path, Reaches g.fs g.main path → declared g.fs path ≠ [] →
        (g.main :: g.targets).count path = 1 := by
  have hmerged : g.paths.Nodup → resolveImports g.fs g.main =
      some ((g.main :: g.targets).flatMap (declared g.fs)) := by
    intro hnodup
    rw [g.resolveImports_eq, mergeImports_fresh _ g.mainDecls_sourced [] [] hnodup (by simp)]
    simp [SourceGraph.targets, declared, SourceGraph.mainDecls]
  constructor
  · rintro ⟨decls, hresult, hclean, honce⟩
    have hnodup : g.paths.Nodup := by
      rw [g.resolveImports_eq] at hresult
      exact (fresh_of_mergeImports _ _ _ _ hresult hclean).1
    refine ⟨hnodup, fun path hpath hne => ?_⟩
    obtain ⟨decl, hdecl⟩ := List.exists_mem_of_ne_nil _ hne
    rw [hmerged hnodup] at hresult
    have hcount := honce path hpath decl hdecl
    rwa [← Option.some.inj hresult, countP_flatMap_declared _ hdecl] at hcount
  · rintro ⟨hnodup, honce⟩
    refine ⟨_, hmerged hnodup, ?_, fun path hpath decl hdecl => ?_⟩
    · intro decl hdecl
      obtain ⟨path, -, hdecl⟩ := List.mem_flatMap.mp hdecl
      simpa using (List.mem_filter.mp hdecl).2
    · rw [countP_flatMap_declared _ hdecl]
      exact honce path hpath (List.ne_nil_of_mem hdecl)

/-- A main file that imports a file with an import of its own. -/
def chainFiles : FileSystem := fun path =>
  if path = bytes "a.ae" then some ⟨some [.importNode (bytes "b.ae")], []⟩
  else if path = bytes "b.ae" then some ⟨some [.importNode (bytes "c.ae")], []⟩
  else if path = bytes "c.ae" then some ⟨some [.constDecl (bytes "x") none], []⟩
  else none

theorem resolves_chainFiles {path text : Bytes}
    (hpath : path = bytes "a.ae" ∨ path = bytes "b.ae" ∨ path = bytes "c.ae")
    (himport : .importNode text ∈ nodesOf chainFiles path) :
    ∃ path' file, resolveImport chainFiles path text = some (.source path' file) ∧
      (path' = bytes "b.ae" ∨ path' = bytes "c.ae") := by
  rcases hpath with rfl | rfl | rfl
  · have hnodes : nodesOf chainFiles (bytes "a.ae") = [.importNode (bytes "b.ae")] := rfl
    simp only [hnodes, List.mem_singleton, AstNode.importNode.injEq] at himport
    subst himport
    exact ⟨_, _, rfl, .inl rfl⟩
  · have hnodes : nodesOf chainFiles (bytes "b.ae") = [.importNode (bytes "c.ae")] := rfl
    simp only [hnodes, List.mem_singleton, AstNode.importNode.injEq] at himport
    subst himport
    exact ⟨_, _, rfl, .inr rfl⟩
  · have hnodes : nodesOf chainFiles (bytes "c.ae") = [.constDecl (bytes "x") none] := rfl
    simp [hnodes] at himport

theorem reaches_chainFiles {path : Bytes} (h : Reaches chainFiles (bytes "a.ae") path) :
    path = bytes "a.ae" ∨ path = bytes "b.ae" ∨ path = bytes "c.ae" := by
  induction h with
  | main => exact .inl rfl
  | step h himport hresolve ih =>
    obtain ⟨path', file, hresolve', hpath'⟩ := resolves_chainFiles ih himport
    rw [hresolve] at hresolve'
    cases hresolve'
    exact .inr hpath'

def chainGraph : SourceGraph where
  fs := chainFiles
  main := bytes "a.ae"
  parses path h := by
    rcases reaches_chainFiles h with rfl | rfl | rfl
    · exact ⟨_, _, rfl, rfl⟩
    · exact ⟨_, _, rfl, rfl⟩
    · exact ⟨_, _, rfl, rfl⟩
  resolves path h text himport := by
    obtain ⟨path', file, hresolve, -⟩ := resolves_chainFiles (reaches_chainFiles h) himport
    exact ⟨path', file, hresolve⟩

/-- The declaration of the file that is imported by an imported file is lost. -/
theorem transitive_import_lost :
    ¬ ∀ g : SourceGraph, ∃ decls, resolveImports g.fs g.main = some decls ∧ g.Closed decls := by
  intro h
  obtain ⟨decls, hresult, -, honce⟩ := h chainGraph
  have hempty : resolveImports chainFiles (bytes "a.ae") = some [] := rfl
  obtain rfl := Option.some.inj (hempty.symm.trans hresult)
  have hb : Reaches chainFiles (bytes "a.ae") (bytes "b.ae") :=
    .step .main (List.mem_cons_self ..) (rfl : resolveImport chainFiles _ (bytes "b.ae") = _)
  have hc : Reaches chainFiles (bytes "a.ae") (bytes "c.ae") :=
    .step hb (List.mem_cons_self ..) (rfl : resolveImport chainFiles _ (bytes "c.ae") = _)
  have hcount := honce _ hc ⟨bytes "c.ae", 0, .constDecl (bytes "x") none⟩ (List.mem_cons_self ..)
  cases hcount

end Aether.Command
