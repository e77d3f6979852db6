/-
The directory of a run. It holds files by name; a file in a folder has the
names of the folders before its own, with slashes between them. A path is
read part by part: empty parts and single dots stay where they are, and
double dots go up again. Whether a path leads anywhere depends on what
lies on its way, so a folder that is not there cannot be left again. A
path has so many bytes at most, and so has a part of it; a part is
measured where it is looked for.

Little is known of what lies outside. At the root there are the folders of
devices and of passing files, and among the devices the one that is empty
and takes everything. Above the directory nothing is known. No other file
is found and no other folder, but a file can be put in any that is.
-/
import RecipeChart.Entries

namespace RecipeChart.CommandLine

/-- The contents of files by their names. -/
abbrev Directory := Entries String

/-- Where a path leads. -/
inductive Place where
  /-- To this name, which a file has or can be given. -/
  | file (name : String)
  | folder
  /-- Through a folder that is not there. -/
  | missing
  /-- Through a file, as if that were a folder. -/
  | blocked
  /-- To a name outside the directory. -/
  | outside
  /-- To the device that is empty and takes everything. -/
  | sink
  /-- Nowhere, for the path or a part of it has too many bytes. -/
  | overlong
  /-- Nowhere, for the text is no path: the zero character is in it. -/
  | impossible
  deriving Repr, DecidableEq

-- =============================================================== paths

/-- The pieces between the slashes. -/
def pieces : List Char → List (List Char)
  | [] => [[]]
  | c :: cs =>
    match pieces cs with
    | [] => [[c]]
    | p :: ps => if c = '/' then [] :: p :: ps else (c :: p) :: ps

/-- The parts of a path that go somewhere. -/
def parts (path : String) : List String :=
  ((pieces path.toList).map String.ofList).filter fun p => p ≠ "" && p ≠ "."

/-- What the path starts from: the root, written as one slash or as two,
or the directory, which is not written. -/
def anchor (path : String) : String :=
  match path.toList with
  | '/' :: '/' :: '/' :: _ => "/"
  | '/' :: '/' :: _ => "//"
  | '/' :: _ => "/"
  | _ => ""

/-- The name of what these parts lead to. -/
def nameOf (parts : List String) : String := "/".intercalate parts

/-- The most bytes of a part. -/
def mostPartBytes : Nat := 255

/-- The most bytes of a path, written without the parts that go nowhere. -/
def mostPathBytes : Nat := 4095

/-- Has the part too many bytes? -/
def isOverlong (part : String) : Bool := mostPartBytes < part.utf8ByteSize

/-- Where the parts lead, going on from a folder of which nothing is
known. -/
def unknownWalk (rest : List String) : Place :=
  match rest.dropWhile (· = "..") with
  | [] => .folder
  | part :: rest =>
    if isOverlong part then .overlong else if rest.isEmpty then .outside else .missing

/-- The folders that are known by their parts from the root on. -/
def rootFolders : List (List String) := [[], ["dev"], ["tmp"]]

/-- The device that is empty and takes everything, by its parts. -/
def sinkParts : List String := ["dev", "null"]

/-- Where the parts lead, going on from what `here` leads to from the
root. -/
def rootWalk (here : List String) : List String → Place
  | [] => if here ∈ rootFolders then .folder else if here = sinkParts then .sink else .outside
  | part :: rest =>
    if here ∈ rootFolders then
      if part = ".." then rootWalk here.dropLast rest
      else if isOverlong part then .overlong
      else rootWalk (here ++ [part]) rest
    else if here = sinkParts then .blocked
    else .missing

-- ============================================================ directory

namespace Directory

variable (d : Directory)

/-- Is there a folder where these parts lead? -/
def isFolder (parts : List String) : Bool :=
  parts.isEmpty || d.any fun f => (nameOf parts ++ "/").toList.isPrefixOf f.1.toList

/-- Where the parts lead, going on from the folder or the name `here`. -/
def walk (here : List String) : List String → Place
  | [] => if d.isFolder here then .folder else .file (nameOf here)
  | part :: rest =>
    if d.isFolder here then
      if part = ".." then if here = [] then unknownWalk rest else walk here.dropLast rest
      else if isOverlong part then .overlong
      else walk (here ++ [part]) rest
    else if d.any (·.1 = nameOf here) then .blocked
    else .missing

/-- Where the path leads. -/
def place (path : String) : Place :=
  if '\x00' ∈ path.toList then .impossible
  else if mostPathBytes < (anchor path ++ nameOf (parts path)).utf8ByteSize then .overlong
  else if anchor path = "" then d.walk [] (parts path)
  else rootWalk [] (parts path)

end Directory

end RecipeChart.CommandLine
