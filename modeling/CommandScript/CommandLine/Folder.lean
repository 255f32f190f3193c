/-!
# CommandLine/Folder — files with a text

A folder is a list of paths with the texts of the files there; the folders on the way to a file exist with
it. `Folder.read` finds the text of a file, or says why there is none.
-/

namespace CommandScript

/-- Files by path, relative to the folder. -/
structure Folder where
  files : List (String × String)

/-- Why a file cannot be read. -/
inductive ReadFault
  | missing | notAFolder | isAFolder
deriving DecidableEq

/-- The text of a fault. -/
def ReadFault.message : ReadFault → String
  | .missing => "No such file or directory (os error 2)"
  | .notAFolder => "Not a directory (os error 20)"
  | .isAFolder => "Is a directory (os error 21)"

namespace Folder

/-- The names of which a path consists. -/
def names (path : String) : List String := path.splitOn "/"

/-- The text of the file at the given names. -/
def file? (f : Folder) (place : List String) : Option String :=
  (f.files.find? fun (path, _) => names path == place).map Prod.snd

/-- Whether the given names lead to a folder. -/
def isFolder (f : Folder) (place : List String) : Bool :=
  place.isEmpty || f.files.any fun (path, _) =>
    place.isPrefixOf (names path) && place.length < (names path).length

/-- Follow names from a place. -/
def follow (f : Folder) (place : List String) : List String → Except ReadFault (List String)
  | [] => .ok place
  | name :: rest =>
    if f.isFolder place then
      if name.isEmpty || name = "." then follow f place rest
      else if name = ".." then
        if place.isEmpty then .error .missing else follow f place.dropLast rest
      else follow f (place ++ [name]) rest
    else if (f.file? place).isSome then .error .notAFolder
    else .error .missing

/-- The text of the file at a path. -/
def read (f : Folder) (path : String) : Except ReadFault String := do
  if path.isEmpty || path.startsWith "/" then .error .missing
  else
    let place ← f.follow [] (names path)
    match f.file? place with
    | some text => .ok text
    | none => .error (if f.isFolder place then .isAFolder else .missing)

end Folder

end CommandScript
