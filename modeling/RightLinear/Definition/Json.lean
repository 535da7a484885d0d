import RightLinear.Definition.Basic
import RightLinear.Json.Printer
import RightLinear.Json.Typed

/-! # Definitions in JSON

A definition is written as an object with one field for each component; weights are left out when
there are none.  Reading takes the fields in any order, or a list of the components in the order of
writing, and passes over unknown fields.  Weights and limits may be missing. -/

namespace RightLinear

open Json Json.Reader

/-! ### Weights -/

namespace Weights

/-- Reads the table of weights. -/
def reader : Reader Weights := return ⟨← Json.table (Json.table word32)⟩

/-- Reads weights from a whole text. -/
def ofJson (text : List Char) : Except Json.Fault Weights := Reader.run reader text

/-- Writes the table of weights at the given depth. -/
def json (style : Style) (depth : Nat) (w : Weights) : List Char :=
  style.object depth <| w.table.entries.map fun (name, row) =>
    (name.toList, style.object (depth + 1) <| row.entries.map fun (alternative, weight) =>
      (alternative.toList, natural weight.toNat))

/-- The weights as one text without white space. -/
def toJson (w : Weights) : List Char := w.json .compact 0

end Weights

/-! ### Limits -/

namespace Limits

/-- The fields of limits that have been read. -/
structure Fields where
  maxSteps : Option UInt64 := none
  maxAttempts : Option UInt64 := none

/-- Reads one field. -/
def Fields.add (f : Fields) : Reader Fields := do
  match ← key with
  | "max_steps" => return { f with maxSteps := ← field "max_steps" f.maxSteps word64 }
  | "max_attempts" => return { f with maxAttempts := ← field "max_attempts" f.maxAttempts word64 }
  | _ =>
    skipField
    return f

/-- The limits of the fields, with the default for a missing one. -/
def Fields.limits (f : Fields) : Limits :=
  ⟨f.maxSteps.getD ({} : Limits).maxSteps, f.maxAttempts.getD ({} : Limits).maxAttempts⟩

/-- Reads limits. -/
def reader : Reader Limits :=
  record "struct GenerationConfig"
    (return (← entries Fields.add {}).limits)
    (do
      let maxSteps ← element? true word64
      let maxAttempts ← element? false word64
      return Fields.limits ⟨maxSteps, maxAttempts⟩)

/-- Writes limits at the given depth. -/
def json (style : Style) (depth : Nat) (l : Limits) : List Char :=
  style.object depth [("max_steps".toList, natural l.maxSteps.toNat),
    ("max_attempts".toList, natural l.maxAttempts.toNat)]

end Limits

/-! ### Definitions -/

namespace Definition

/-- The fields of a definition that have been read. -/
structure Fields where
  nonterminals : Option (List String) := none
  terminals : Option (List Char) := none
  productions : Option (OrdMap String (List String)) := none
  start : Option String := none
  weights : Option Weights := none
  limits : Option Limits := none

/-- Reads one field. -/
def Fields.add (f : Fields) : Reader Fields := do
  match ← key with
  | "nonterminals" =>
    return { f with nonterminals := ← field "nonterminals" f.nonterminals (list string) }
  | "terminals" => return { f with terminals := ← field "terminals" f.terminals (list character) }
  | "productions" =>
    return { f with productions := ← field "productions" f.productions (table (list string)) }
  | "start_symbol" => return { f with start := ← field "start_symbol" f.start string }
  | "weights" => return { f with weights := ← field "weights" f.weights Weights.reader }
  | "config" => return { f with limits := ← field "config" f.limits Limits.reader }
  | _ =>
    skipField
    return f

/-- The definition of the fields.  The first of the required fields that is missing is reported. -/
def Fields.definition (f : Fields) : Reader Definition := do
  let nonterminals ← present "nonterminals" f.nonterminals
  let terminals ← present "terminals" f.terminals
  let productions ← present "productions" f.productions
  let start ← present "start_symbol" f.start
  return ⟨nonterminals, terminals, productions, start, f.weights.getD ∅, f.limits.getD {}⟩

/-- Reads the element of a list of components that `known` elements come before. -/
def component {α : Type} (known : Nat) (item : Reader α) : Reader α := do
  match ← element? (known == 0) item with
  | some a => return a
  | none => fail (.mismatch (.wrongLength known "struct GrammarDefinition with 6 elements"))

/-- Reads a definition. -/
def reader : Reader Definition :=
  record "struct GrammarDefinition"
    (do (← entries Fields.add {}).definition)
    (do
      let nonterminals ← component 0 (list string)
      let terminals ← component 1 (list character)
      let productions ← component 2 (table (list string))
      let start ← component 3 string
      let weights ← element? false Weights.reader
      let limits ← element? false Limits.reader
      return ⟨nonterminals, terminals, productions, start, weights.getD ∅, limits.getD {}⟩)

/-- Reads a definition from a whole text. -/
def ofJson (text : List Char) : Except Json.Fault Definition := Reader.run reader text

/-- Writes a list of strings at the given depth. -/
def stringsJson (style : Style) (depth : Nat) (strings : List String) : List Char :=
  style.array depth (strings.map fun s => encode s.toList)

/-- Writes a definition. -/
def json (style : Style) (d : Definition) : List Char :=
  style.object 0 <|
    [("nonterminals".toList, stringsJson style 1 d.nonterminals),
      ("terminals".toList, style.array 1 (d.terminals.map fun t => encode [t])),
      ("productions".toList, style.object 1 <| d.productions.entries.map fun (name, alternatives) =>
        (name.toList, stringsJson style 2 alternatives)),
      ("start_symbol".toList, encode d.start.toList)] ++
    (if d.weights.isEmpty then [] else [("weights".toList, d.weights.json style 1)]) ++
    [("config".toList, d.limits.json style 1)]

/-- The definition as a text with indented lines. -/
def toJson (d : Definition) : List Char := d.json .pretty

end Definition
end RightLinear
