import RightLinear.Definition.Json
import RightLinear.Error

/-! # Definitions in files

A grammar file holds a definition, in JSON or in the line format. -/

namespace RightLinear

namespace Definition

/-- Reads a definition in JSON from the contents of a file. -/
def ofJsonFile (contents : Storage.Contents) : Except Error Definition :=
  match Storage.textOf contents with
  | .error fault => .error (.file fault)
  | .ok text => (ofJson text).mapError .json

/-- Reads a definition in the line format from the contents of a file. -/
def ofTextFile (contents : Storage.Contents) : Except Error Definition :=
  match Storage.textOf contents with
  | .error fault => .error (.file fault)
  | .ok text => (ofText text).mapError .lines

end Definition

/-- The grammar of a file: in JSON if its name says so, else in the line format. -/
def Grammar.ofFile (path : String) (contents : Storage.Contents) : Except Error Grammar := do
  let definition ←
    if Storage.isJson path then Definition.ofJsonFile contents else Definition.ofTextFile contents
  definition.toGrammar.mapError .grammar

end RightLinear
