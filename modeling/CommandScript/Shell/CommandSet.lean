/-!
# Shell/CommandSet — the names of commands

A line that starts with a known name is read as a command. `CommandSet.scan` collects the names from a
list of directories: every entry that is, behind its links, a file somebody may execute.
-/

namespace CommandScript

/-- A set of command names. -/
structure CommandSet where
  names : List String

namespace CommandSet

/-- The set that knows no name. -/
def empty : CommandSet := ⟨[]⟩

/-- Whether the name is known. -/
def contains (s : CommandSet) (name : String) : Bool := s.names.contains name

/-- Add a name. -/
def insert (s : CommandSet) (name : String) : CommandSet :=
  if s.contains name then s else ⟨name :: s.names⟩

/-- The set of the given names. -/
def ofList (names : List String) : CommandSet := names.foldl insert empty

/-- Number of names. -/
def size (s : CommandSet) : Nat := s.names.length

/-- Whether no name is known. -/
def isEmpty (s : CommandSet) : Bool := s.names.isEmpty

end CommandSet

/-- What stands at a path. -/
inductive FileNode
  | file (mode : Nat)
  | directory
  | link (target : String)

/-- Files by path; the directories on the way to a path need not be listed. -/
abbrev FileTree := List (String × FileNode)

namespace FileTree

/-- The steps of a path. -/
def steps (path : String) : List String :=
  (path.splitOn "/").filter fun step => step != "" && step != "."

/-- What is listed at a path. -/
def at? (tree : FileTree) (path : List String) : Option FileNode :=
  (tree.find? fun entry => steps entry.1 == path).map (·.2)

/-- Follow up to `n` links. -/
def resolve (tree : FileTree) : Nat → List String → Option (List String)
  | 0, _ => none
  | n + 1, path =>
    match tree.at? path with
    | some (.link target) => tree.resolve n (steps target)
    | _ => some path

/-- Follow links; a chain longer than the tree has entries runs in a circle. -/
def target? (tree : FileTree) (path : List String) : Option (List String) :=
  tree.resolve (tree.length + 1) path

/-- Whether the path is a file that its owner, its group or others may execute. -/
def isExecutable (tree : FileTree) (path : List String) : Bool :=
  match (tree.target? path).bind tree.at? with
  | some (.file mode) => mode / 64 % 2 == 1 || mode / 8 % 2 == 1 || mode % 2 == 1
  | _ => false

/-- The paths of the entries in a directory. A file has none. -/
def entries (tree : FileTree) (directory : List String) : List (List String) :=
  match tree.target? directory with
  | none => []
  | some directory =>
    (tree.filter fun entry =>
      (steps entry.1).length == directory.length + 1
        && (steps entry.1).take directory.length == directory).map fun entry => steps entry.1

end FileTree

/-- The executable names in a list of directories, separated by colons. -/
def CommandSet.scan (tree : FileTree) (directories : String) : CommandSet :=
  let found := (directories.splitOn ":").flatMap fun directory =>
    if directory == "" then []
    else (tree.entries (FileTree.steps directory)).filter tree.isExecutable
  ofList (found.filterMap List.getLast?)

end CommandScript
