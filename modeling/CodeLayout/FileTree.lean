import CodeLayout.Text.Bytes

/-!
# Files and paths

A tree of files, given by the paths of its files. A path is looked up segment by segment: all but
the last one must be directories.
-/

namespace CodeLayout

namespace Path

/-- The byte between the segments of a path. -/
def slash : UInt8 := 47

/-- The segments of a path; neighbouring slashes have empty segments between them. -/
def segments (p : Bytes) : List Bytes :=
  p.pieces slash

/-- Whether a path starts at the root of all files. -/
def isAbsolute (p : Bytes) : Bool :=
  p.head? = some slash

/-- The segments of a path without those that lead nowhere. `done` holds the segments before, the
last one first. -/
def cleanFrom (absolute : Bool) (done : List Bytes) : List Bytes → List Bytes
  | [] => done.reverse
  | s :: rest =>
    if s.isEmpty || s = ascii "." then cleanFrom absolute done rest
    else if s = ascii ".." then
      match done with
      | d :: ds =>
        if d = ascii ".." then cleanFrom absolute (s :: done) rest else cleanFrom absolute ds rest
      | [] => cleanFrom absolute (if absolute then [] else [s]) rest
    else cleanFrom absolute (s :: done) rest

/-- The shortest path that leads to the same place. -/
def clean (p : Bytes) : Bytes :=
  let own := cleanFrom (isAbsolute p) [] (segments p)
  if isAbsolute p then slash :: Bytes.join [slash] own
  else if own.isEmpty then ascii "."
  else Bytes.join [slash] own

/-- The path of something in a directory. -/
def join (dir name : Bytes) : Bytes :=
  if dir.isEmpty then clean name else clean (dir ++ [slash] ++ name)

/-- The ending of the last segment of a path, from its last dot on. -/
def ending (p : Bytes) : Bytes :=
  let last := (segments p).getLastD []
  let behind := (last.reverse.takeWhile (· ≠ 46)).reverse
  if behind.length = last.length then [] else 46 :: behind

end Path

/-- Why a path cannot be used. -/
inductive PathError where
  | notExist
  | notDirectory
  | isDirectory
  deriving DecidableEq, Repr

/-- The text of an error. -/
def PathError.message : PathError → Bytes
  | .notExist => ascii "no such file or directory"
  | .notDirectory => ascii "not a directory"
  | .isDirectory => ascii "is a directory"

/-- What is at a path. -/
inductive FileEntry where
  | file (text : Bytes)
  | directory
  deriving DecidableEq, Repr

/-- Files by the segments of their paths. An absolute path has an empty segment in front. -/
structure FileTree where
  files : List (List Bytes × Bytes)
  /-- Directories that hold no file. -/
  folders : List (List Bytes) := []
  deriving DecidableEq, Repr, Inhabited

namespace FileTree

/-- The tree of files with the given paths. -/
def ofPaths (files : List (Bytes × Bytes)) : FileTree where
  files := files.map fun (p, text) => (Path.segments (Path.clean p), text)

/-- The paths of all files, and of the directories that hold none. -/
def paths (t : FileTree) : List (List Bytes) :=
  t.files.map (·.1) ++ t.folders

/-- What is at the given segments. -/
def entry? (t : FileTree) (own : List Bytes) : Option FileEntry :=
  match t.files.lookup own with
  | some text => some (.file text)
  | none =>
    if own.isEmpty || t.paths.any own.isPrefixOf then some .directory else none

/-- The directory that holds a directory. -/
def parent (dir : List Bytes) : List Bytes :=
  match dir.getLast? with
  | none => [ascii ".."]
  | some s => if s = ascii ".." then dir ++ [s] else if s.isEmpty then dir else dir.dropLast

/-- Follows segments from a directory on. -/
def follow (t : FileTree) (dir : List Bytes) : List Bytes → Except PathError (List Bytes)
  | [] => .ok dir
  | s :: rest =>
    match t.entry? dir with
    | none => .error .notExist
    | some (.file _) => .error .notDirectory
    | some .directory =>
      if s.isEmpty || s = ascii "." then follow t dir rest
      else if s = ascii ".." then follow t (parent dir) rest
      else follow t (dir ++ [s]) rest

/-- The segments at which a path ends up, and what is there. -/
def resolve (t : FileTree) (p : Bytes) : Except PathError (List Bytes × FileEntry) := do
  if p.isEmpty then throw .notExist
  let own ← t.follow (if Path.isAbsolute p then [[]] else []) (Path.segments p)
  match t.entry? own with
  | some e => return (own, e)
  | none => throw .notExist

/-- Puts a name in front of the first one that is not before it, unless it is there. -/
def insertName (n : Bytes) : List Bytes → List Bytes
  | [] => [n]
  | m :: ms => if n = m then m :: ms else if n.before m then n :: m :: ms else m :: insertName n ms

/-- The names in a directory, in order. -/
def names (t : FileTree) (dir : List Bytes) : List Bytes :=
  (t.paths.filterMap fun p =>
    if dir.isPrefixOf p then (p.drop dir.length).head? else none).foldr insertName []

/-- The number of levels of the tree. -/
def depth (t : FileTree) : Nat :=
  (t.paths.map List.length).foldl max 0

/-- The paths of the files below a directory that `keep` accepts. Whatever `skip` accepts is left
out, with all that is below it. -/
def walk (t : FileTree) (skip keep : Bytes → Bool) : Nat → Bytes → List Bytes → List Bytes
  | 0, _, _ => []
  | n + 1, path, own =>
    if skip path then []
    else
      match t.entry? own with
      | some .directory =>
        (t.names own).flatMap fun name => walk t skip keep n (Path.join path name) (own ++ [name])
      | some (.file _) => if keep path then [path] else []
      | none => []

/-- The tree with other text in one file. -/
def store (t : FileTree) (own : List Bytes) (text : Bytes) : FileTree :=
  { t with files := t.files.map fun (p, old) => if p = own then (p, text) else (p, old) }

end FileTree

end CodeLayout
