import RightLinear.Grammar.Basic

/-! # Random generation

A derivation starts from the start symbol; a step puts an alternative drawn from a random source
in the place of the leftmost nonterminal of the sentential form (`Element.leftmost?`).  It is
abandoned when its budget of steps is spent or when a nonterminal has no alternatives, which costs
no further draw.  `generate` tries derivations until one ends in a word or the attempts are used
up. -/

namespace RightLinear

open RightLinear.Random (Source)

namespace Element

/-- The form up to its leftmost nonterminal, the name of that nonterminal, and the form behind. -/
def leftmost? : List Element → Option (List Element × String × List Element)
  | [] => none
  | .nonterminal name :: rest => some ([], name, rest)
  | .terminal symbol :: rest =>
    (leftmost? rest).map fun (before, name, after) => (.terminal symbol :: before, name, after)

/-- The terminals of a form. -/
def yield (form : List Element) : List Char := form.filterMap symbol?

end Element

namespace Grammar

/-- All attempts were abandoned. -/
structure Exhausted where
  attempts : UInt64
  maxSteps : UInt64
deriving Repr, DecidableEq

/-- What came of exhausted attempts, in words. -/
def Exhausted.message (e : Exhausted) : String :=
  s!"Failed to generate a string in {e.attempts.toNat} attempts of at most {e.maxSteps.toNat} " ++
    "steps; increase max_steps or max_attempts"

variable (g : Grammar)

/-- Draws the index of an alternative: by weight if the nonterminal has a sampler, else uniformly
among `count` alternatives. -/
def drawIndex (name : String) (count : Nat) (source : Source) : Nat × Source :=
  match g.samplers.get? name with
  | some sampler => sampler.pick source
  | none => source.pick (.uniform count)

/-- Draws one of the alternatives of a nonterminal. -/
def choose (name : String) (alternatives : List Production) (source : Source) :
    Option Production × Source :=
  let (i, source) := g.drawIndex name alternatives.length source
  (alternatives[i]?, source)

/-- Derives from the form in at most `budget` steps; `none` if it then still has a nonterminal, or
if a nonterminal has no alternatives. -/
def deriveFrom : Nat → List Element → Source → Option (List Char) × Source
  | budget, form, source =>
    match Element.leftmost? form with
    | none => (some (Element.yield form), source)
    | some (before, name, after) =>
      match budget, g.productionsOf name with
      | 0, _ => (none, source)
      | _ + 1, [] => (none, source)
      | budget + 1, alternatives@(_ :: _) =>
        match g.choose name alternatives source with
        | (none, source) => (none, source)
        | (some p, source) => deriveFrom budget (before ++ p.elements ++ after) source

/-- One derivation from the start symbol.  Its budget is one step above `maxSteps`. -/
def derive (maxSteps : UInt64) (source : Source) : Option (List Char) × Source :=
  g.deriveFrom (maxSteps.toNat + 1) [.nonterminal g.start] source

/-- The word of the first of `attempts` derivations that is not abandoned. -/
def attempt (maxSteps : UInt64) : Nat → Source → Option (List Char) × Source
  | 0, source => (none, source)
  | attempts + 1, source =>
    match g.derive maxSteps source with
    | (some word, source) => (some word, source)
    | (none, source) => attempt maxSteps attempts source

/-- A random word, within the grammar's own number of attempts. -/
def generate (maxSteps : UInt64) (source : Source) : Except Exhausted (List Char) × Source :=
  match g.attempt maxSteps g.limits.maxAttempts.toNat source with
  | (some word, source) => (.ok word, source)
  | (none, source) => (.error ⟨g.limits.maxAttempts, maxSteps⟩, source)

end Grammar
end RightLinear
