import RightLinear.Ordered.Map
import RightLinear.Storage.File

/-! # Folders

A folder with everything below it, as a table of files by the places where they lie.  A folder below
it exists exactly when a file lies in it or deeper.  A path may also lead out of the folder; of what
lies there it is known only that it is a folder, in which nothing has a name. -/

namespace RightLinear.Storage

/-! ### Places -/

/-- Where a path leads: to the end of a chain of names below the folder, or out of it. -/
inductive Place
  | below (names : List String)
  | outside
deriving Repr, DecidableEq

namespace Place

/-- The folder around a place. -/
def parent : Place → Place
  | .below [] => .outside
  | .below names => .below names.dropLast
  | .outside => .outside

/-- Where a part of a path leads from a place: nothing and a dot stay there, two dots lead to the
folder around it, any other part is a name. -/
def step? (place : Place) (part : String) : Option Place :=
  if part = "" ∨ part = "." then some place
  else if part = ".." then some place.parent
  else
    match place with
    | .below names => some (.below (names ++ [part]))
    | .outside => none

/-- Where a path starts: at the folder, or outside if a slash is in front. -/
def start (path : String) : Place := if path.startsWith "/" then .outside else .below []

end Place

/-! ### Files by place -/

/-- The files in and below a folder. -/
structure Folder where
  files : OrdMap (List String) ByteArray

namespace Folder

instance : EmptyCollection Folder := ⟨⟨∅⟩⟩

variable (folder : Folder)

/-- Writes a file in place of any other that lies where its path leads.  Two paths to one place are
one file.  The folders on the way come with it; what is outside is not kept. -/
def write (path : String) (bytes : ByteArray) : Folder :=
  match (components path).foldlM Place.step? (Place.start path) with
  | some (.below (name :: names)) => ⟨folder.files.insert (name :: names) bytes⟩
  | _ => folder

/-- Whether a place is a folder. -/
def isFolder : Place → Bool
  | .below names =>
    names.isEmpty || folder.files.keys.any fun file => names.isPrefixOf file && names != file
  | .outside => true

/-- Whether there is a file or a folder at a place. -/
def isTaken (place : Place) : Bool :=
  folder.isFolder place ||
    match place with
    | .below names => folder.files.contains names
    | .outside => true

/-- What there is to read at a place. -/
def contentsAt : Place → Contents
  | .below names =>
    match folder.files.get? names with
    | some bytes => .ok bytes
    | none => .error .isDirectory
  | .outside => .error .isDirectory

/-- Follows a path part by part from `place`.  Only a folder can be gone through. -/
def follow (place : Place) : List String → Contents
  | [] => folder.contentsAt place
  | part :: rest =>
    if folder.isFolder place then
      match place.step? part with
      | some next => if folder.isTaken next then follow next rest else .error .missing
      | none => .error .missing
    else .error .notDirectory

/-- Reads the file that a path leads to. -/
def read (path : String) : Contents := folder.follow (Place.start path) (components path)

end Folder
end RightLinear.Storage
