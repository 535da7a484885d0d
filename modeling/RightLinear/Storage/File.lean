/-! # Files and paths

Reading a file yields bytes or a fault; the bytes have to be UTF-8 to be a text.  The kind of a
grammar file is told by the extension of its name. -/

namespace RightLinear.Storage

/-- Why a file cannot be read as a text. -/
inductive Fault
  | missing
  | notDirectory
  | isDirectory
  | notText
  | other (description : String)
deriving Repr, DecidableEq

/-- What a fault is, in words. -/
def Fault.message : Fault → String
  | .missing => "No such file or directory (os error 2)"
  | .notDirectory => "Not a directory (os error 20)"
  | .isDirectory => "Is a directory (os error 21)"
  | .notText => "stream did not contain valid UTF-8"
  | .other description => description

/-- The bytes of a file, or why there are none. -/
abbrev Contents := Except Fault ByteArray

/-- The characters that the contents encode in UTF-8. -/
def textOf (contents : Contents) : Except Fault (List Char) :=
  match contents with
  | .error fault => .error fault
  | .ok bytes =>
    match String.fromUTF8? bytes with
    | some s => .ok s.toList
    | none => .error .notText

/-! ### Names -/

/-- The parts of a path between slashes. -/
def components (path : String) : List String := (path.splitToList (· == '/'))

/-- The last part of a path that names something. -/
def fileName? (path : String) : Option String :=
  match ((components path).filter fun c => c != "" && c != ".").getLast? with
  | some ".." => none
  | name => name

/-- What stands behind the last dot of a name, unless nothing stands before it. -/
def extensionOf (name : List Char) : Option (List Char) :=
  let behind := name.reverse.takeWhile (· != '.')
  let before := (name.reverse.drop behind.length).drop 1
  if before.isEmpty then none else some behind.reverse

/-- Whether the name of a file ends in `.json`, in letters of either case. -/
def isJson (path : String) : Bool :=
  match (fileName? path).bind fun name => extensionOf name.toList with
  | some ext => ext.map Char.toLower == ['j', 's', 'o', 'n']
  | none => false

end RightLinear.Storage
