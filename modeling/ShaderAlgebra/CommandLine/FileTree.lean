import ShaderAlgebra.Failure

/-!
# Files

The program reads and writes files by their paths.  `Files` is what it needs of
the world around it, in any monad; `FileTree` is a world that is held in memory,
and says how paths lead to files.

A path is followed from left to right, and the first thing that stands in the
way is the fault that is reported.  Nothing is known of the tree outside of the
folder that paths start from but that the null device is there.
-/

namespace ShaderAlgebra
namespace CommandLine

/-- How files are read and written. -/
structure Files (m : Type → Type) where
  read : String → m (Except FileFault (List UInt8))
  write : String → String → m (Except FileFault Unit)

/-- The number of bytes a path may have. -/
def maxPathBytes : Nat := 4095

/-- The number of bytes a name in a path may have. -/
def maxNameBytes : Nat := 255

/-- A path: the folders it goes through and the name it ends with. -/
structure Path where
  /-- Whether the path starts from the root. -/
  absolute : Bool
  /-- The folders, of which `.` is the folder itself and `..` the one above. -/
  through : List String
  /-- The last name; a path that ends with a dot or two, or has no names, leads to a folder. -/
  last : Option String
  /-- Whether a slash follows the last name. -/
  slash : Bool
deriving DecidableEq, Repr

namespace Path

/-- Reads a path. -/
def ofString (text : String) : Except FileFault Path :=
  if maxPathBytes < text.utf8ByteSize then .error .nameTooLong
  else if text.isEmpty then .error .missing
  else
    let parts := text.splitOn "/"
    let names := parts.filter (· != "")
    let absolute := parts.head? == some ""
    let slash := parts.getLast? == some ""
    match names.getLast? with
    | none | some "." | some ".." => .ok { absolute, through := names, last := none, slash }
    | some name => .ok { absolute, through := names.dropLast, last := some name, slash }

end Path

/-- Accepts the names that are not too long. -/
def checkName (name : String) : Except FileFault Unit :=
  if name.utf8ByteSize ≤ maxNameBytes then .ok () else .error .nameTooLong

/-- Texts by the names that lead to them from the root, and the folder that paths start from. -/
structure FileTree where
  texts : List (List String × String)
  here : List String
deriving DecidableEq, Repr

namespace FileTree

/-- What is at the end of a row of names. -/
inductive Place where
  | text (content : String)
  | folder
  /-- The null device: it is empty, and what is written to it is gone. -/
  | null
  | vacant
deriving DecidableEq, Repr

/-- The names that lead to the null device. -/
def nullDevice : List String := ["dev", "null"]

/-- The names that lead to the folder of a new tree. -/
def home : List String := ["tmp", "folder"]

/-- The tree of texts under their paths, which start from its folder. -/
def ofList (texts : List (String × String)) : FileTree where
  texts := texts.map fun (path, content) => (home ++ path.splitOn "/", content)
  here := home

/-- What is at the end of a row of names.  A folder is there if something is in it. -/
def look (t : FileTree) (names : List String) : Place :=
  match t.texts.lookup names with
  | some content => .text content
  | none =>
    if names = nullDevice then .null
    else if (t.here :: nullDevice :: t.texts.map Prod.fst).any names.isPrefixOf then .folder
    else .vacant

/-- Goes from a folder through folders. -/
def enter (t : FileTree) (folder : List String) : List String → Except FileFault (List String)
  | [] => .ok folder
  | name :: rest =>
    if name = "." then t.enter folder rest
    else if name = ".." then t.enter folder.dropLast rest
    else do
      checkName name
      match t.look (folder ++ [name]) with
      | .folder => t.enter (folder ++ [name]) rest
      | .vacant => throw .missing
      | .text _ | .null => throw .notADirectory

/-- The folder in which the last name of a path is looked up. -/
def folderOf (t : FileTree) (path : Path) : Except FileFault (List String) :=
  t.enter (if path.absolute then [] else t.here) path.through

/-- Reads the text at a path. -/
def read (t : FileTree) (path : String) : Except FileFault (List UInt8) := do
  let path ← Path.ofString path
  let folder ← t.folderOf path
  let some name := path.last | throw .isADirectory
  checkName name
  match t.look (folder ++ [name]), path.slash with
  | .folder, _ => throw .isADirectory
  | .vacant, _ => throw .missing
  | _, true => throw .notADirectory
  | .text content, false => return content.toUTF8.toList
  | .null, false => return []

/-- Puts a text at the end of a row of names. -/
def put (t : FileTree) (names : List String) (content : String) : FileTree :=
  { t with texts := t.texts.filter (fun (path, _) => path != names) ++ [(names, content)] }

/-- Writes a text to a path.  A slash after the last name is refused before it is looked up. -/
def write (t : FileTree) (path content : String) : Except FileFault FileTree := do
  let path ← Path.ofString path
  let folder ← t.folderOf path
  let some name := path.last | throw .isADirectory
  if path.slash then throw .isADirectory
  checkName name
  match t.look (folder ++ [name]) with
  | .folder => throw .isADirectory
  | .null => return t
  | .text _ | .vacant => return t.put (folder ++ [name]) content

/-- The texts in the folder of a tree that are not in an earlier state of it, by their paths. -/
def changes (before after : FileTree) : List (String × String) :=
  let isNew := fun entry => ! before.texts.contains entry && after.here.isPrefixOf entry.1
  (after.texts.filter isNew).map fun (names, content) =>
    ("/".intercalate (names.drop after.here.length), content)

/-- Reading and writing in a tree in memory. -/
def files : Files (StateM FileTree) where
  read := fun path => return (← get).read path
  write := fun path content => do
    match (← get).write path content with
    | .ok t =>
      set t
      return .ok ()
    | .error fault => return .error fault

end FileTree
end CommandLine
end ShaderAlgebra
