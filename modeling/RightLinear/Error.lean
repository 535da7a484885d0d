import RightLinear.Automaton.Basic
import RightLinear.Grammar.Generation
import RightLinear.Json.Fault
import RightLinear.Lines.Draft
import RightLinear.Storage.File

/-! # Errors

Everything that can go wrong, by the part of the library in which it does. -/

namespace RightLinear

/-- A fault of any part of the library. -/
inductive Error
  | file (fault : Storage.Fault)
  | json (fault : Json.Fault)
  | lines (fault : Lines.Fault)
  | grammar (fault : Grammar.Fault)
  | automaton (fault : Automaton.Fault)
  | exhausted (limits : Grammar.Exhausted)
deriving Repr, DecidableEq

/-- What an error is, in words. -/
def Error.message : Error → String
  | .file fault => "IO error: " ++ fault.message
  | .json fault => "JSON error: " ++ fault.message
  | .lines fault => "Parse error: " ++ fault.message
  | .grammar fault => "Invalid grammar: " ++ fault.message
  | .automaton fault => "Invalid automaton: " ++ fault.message
  | .exhausted limits => limits.message

end RightLinear
