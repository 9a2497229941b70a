/-
Aether.Command.Import — phase 2.5 of `src/aether.c`: imports are replaced by
the declarations of the imported files.

A file is what the compiler makes of it: the declarations it parses to, or
none when it has parse errors, and the synthetic declarations that a library
gives. A declaration keeps the file it is from and its place there, as its
node keeps its location.
-/
import Aether.Ast
import Aether.Tokenizer

namespace Aether.Command

/-! ## §1 Paths -/

/-- `snprintf` into a buffer of 1024 bytes. -/
def pathBuf (path : Bytes) : Bytes := path.take 1023

/-- The text up to before the last `c`, if there is one. -/
def beforeLast (c : UInt8) (text : Bytes) : Option Bytes :=
  if c ∈ text then some (text.reverse.dropWhile (· != c)).tail.reverse else none

/-- `strrchr(text, '.')`: the text from the last dot on. -/
def extension (text : Bytes) : Option Bytes :=
  if ch '.' ∈ text then some (ch '.' :: (text.reverse.takeWhile (· != ch '.')).reverse) else none

/-- The path of an import, without its quotes. -/
def unquoted (text : Bytes) : Bytes :=
  if text.length ≥ 2 ∧ text.head? = some (ch '"') ∧ text.getLast? = some (ch '"') then
    text.tail.dropLast
  else text

/-- The path relative to the directory of a file. -/
def importPath (inputFile text : Bytes) : Bytes :=
  match beforeLast (ch '/') inputFile with
  | some dir => pathBuf (dir ++ ch '/' :: unquoted text)
  | none => pathBuf (unquoted text)

/-! ## §2 Files -/

structure File where
  parsed : Option (List AstNode)
  synthetic : List AstNode

abbrev FileSystem := Bytes → Option File

inductive Resolved where
  | source (path : Bytes) (file : File)
  | library (path : Bytes) (file : File)

/-- The file at the first path that can be opened; `isAelib` skips the
source paths. -/
def openFirst (fs : FileSystem) (isAelib : Bool) (aePath aelibPath : Bytes) : Option Resolved :=
  match (if isAelib then none else fs aePath) with
  | some file => some (.source aePath file)
  | none => (fs aelibPath).map (.library aelibPath)

/-- The file that an import is about: relative to the input file first, then
relative to the working directory. -/
def resolveImport (fs : FileSystem) (inputFile text : Bytes) : Option Resolved :=
  let path := importPath inputFile text
  let known := extension path = some (bytes ".ae") ∨ extension path = some (bytes ".aelib")
  let isAelib := extension path == some (bytes ".aelib")
  let aePath := if known then path else pathBuf (path ++ bytes ".ae")
  let aelibPath := if known then path else pathBuf (path ++ bytes ".aelib")
  match openFirst fs isAelib aePath aelibPath with
  | some resolved => some resolved
  | none => openFirst fs isAelib (pathBuf (unquoted text ++ bytes ".ae"))
      (pathBuf (unquoted text ++ bytes ".aelib"))

/-! ## §3 Declarations -/

structure Decl where
  file : Bytes
  place : Nat
  node : AstNode

def importText : AstNode → Option Bytes
  | .importNode text => some text
  | _ => none

def Decl.isImport (decl : Decl) : Bool := (importText decl.node).isSome

/-- The declarations of a file, each with its place. -/
def declsAt (path : Bytes) (nodes : List AstNode) : List Decl :=
  nodes.zipIdx.map fun (node, place) => ⟨path, place, node⟩

/-! ## §4 The loop -/

/-- The loop over the declarations of the program, from an import on. What
is appended holds no imports, so that the loop only passes over it; an import
of a path that is in `imported` stays where it is. -/
def mergeImports (fs : FileSystem) (inputFile : Bytes) (imported : List Bytes)
    (appended : List Decl) : List Decl → Option (List Decl)
  | [] => some appended
  | decl :: decls =>
    match importText decl.node with
    | none => (mergeImports fs inputFile imported appended decls).map (decl :: ·)
    | some text =>
      if importPath inputFile text ∈ imported then
        (mergeImports fs inputFile imported appended decls).map (decl :: ·)
      else
        let imported := importPath inputFile text :: imported
        match resolveImport fs inputFile text with
        | none => none
        | some (.library path file) =>
          mergeImports fs inputFile (path :: imported) (appended ++ declsAt path file.synthetic) decls
        | some (.source path file) => do
          let nodes ← file.parsed
          -- the imports of an imported file are left out
          mergeImports fs inputFile imported
            (appended ++ (declsAt path nodes).filter fun decl => !decl.isImport) decls

/-- The program that semantic analysis sees; `none` is the return with an
error. -/
def resolveImports (fs : FileSystem) (inputFile : Bytes) : Option (List Decl) := do
  let file ← fs inputFile
  let nodes ← file.parsed
  mergeImports fs inputFile [] [] (declsAt inputFile nodes)

end Aether.Command
