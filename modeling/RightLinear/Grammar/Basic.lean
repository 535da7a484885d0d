import RightLinear.Grammar.Production
import RightLinear.Grammar.Sampler
import RightLinear.Grammar.Weights
import RightLinear.Ordered.Set

/-! # Right-linear grammars

A grammar declares nonterminals and terminals, gives each nonterminal a list of alternatives as
written and names a start symbol.  `make` reads the alternatives and reports the first fault;
`withWeights` attaches selection weights and prepares a sampler for each weighted nonterminal.
Alternatives and samplers follow from the other components, so `same` does not look at them. -/

namespace RightLinear

/-- Limits of random generation. -/
structure Limits where
  /-- A derivation may take one step more than this and is abandoned when it needs yet another. -/
  maxSteps : UInt64 := 30
  /-- The number of derivations tried before generation fails. -/
  maxAttempts : UInt64 := 50
deriving Repr, DecidableEq

instance : Inhabited Limits := ⟨⟨30, 50⟩⟩

/-- A right-linear grammar. -/
structure Grammar where
  nonterminals : OrdSet String
  terminals : OrdSet Char
  /-- The right-hand sides as written. -/
  productions : OrdMap String (List String)
  start : String
  weights : Weights
  limits : Limits
  /-- The right-hand sides as read. -/
  alternatives : OrdMap String (List Production)
  /-- The samplers of the weighted nonterminals. -/
  samplers : OrdMap String Sampler
deriving DecidableEq

namespace Grammar

/-- Why a description is not that of a grammar. -/
inductive Fault
  | undeclaredStart (name : String)
  | sharedName (symbol : Char)
  | undeclaredLeft (name : String)
  | emptyAlternative
  | noTerminal (alternative : String)
  | undeclaredNext (alternative : String)
  | tooLong (alternative : String)
  | weightOfNothing (name : String)
  | weightOfUnknown (name alternative : String)
  | zeroWeight (name alternative : String)
  | weightOverflow (name : String)
  | emptyRow (name : String)
  | zeroRow (name : String)
deriving Repr, DecidableEq

/-- What a fault is, in words. -/
def Fault.message : Fault → String
  | .undeclaredStart name => s!"Start symbol {name} must be a nonterminal"
  | .sharedName symbol => s!"{symbol} is declared both as a terminal and as a nonterminal"
  | .undeclaredLeft name => s!"LHS must be a nonterminal: {name}"
  | .emptyAlternative => "Empty production is not allowed"
  | .noTerminal alternative => s!"RHS must start with a terminal: {alternative}"
  | .undeclaredNext alternative => s!"RHS nonterminal not declared: {alternative}"
  | .tooLong alternative => s!"Only RHS of length 1 or 2 is supported: {alternative}"
  | .weightOfNothing name => s!"Weight given for {name} which has no productions"
  | .weightOfUnknown name alternative =>
    s!"Weight given for {name} -> {alternative} which is not a production"
  | .zeroWeight name alternative => s!"Weight of {name} -> {alternative} must be positive"
  | .weightOverflow name => s!"Weights for {name} overflow: their sum exceeds 4294967295"
  | .emptyRow name => s!"Weights for {name}: No weights provided in distribution"
  | .zeroRow name => s!"Weights for {name}: All weights are zero in distribution"

/-! ### Reading the alternatives -/

/-- Unites the alternatives of a nonterminal in order. -/
def mergeRules (rules : List (String × List String)) : OrdMap String (List String) :=
  rules.foldl (fun m r => m.alter r.1 [] (· ++ r.2)) ∅

/-- Reads a right-hand side: a declared terminal, then at most one declared nonterminal with a
name of one character. -/
def readAlternative (nonterminals : OrdSet String) (terminals : OrdSet Char) (text : String) :
    Except Fault Production :=
  match text.toList with
  | [] => .error .emptyAlternative
  | t :: rest =>
    if t ∈ terminals then
      match rest with
      | [] => .ok ⟨t, none⟩
      | [n] =>
        if String.singleton n ∈ nonterminals then .ok ⟨t, some (String.singleton n)⟩
        else .error (.undeclaredNext text)
      | _ :: _ :: _ => .error (.tooLong text)
    else .error (.noTerminal text)

/-- Reads all right-hand sides of one nonterminal, which has to be declared. -/
def readRule (nonterminals : OrdSet String) (terminals : OrdSet Char) (left : String)
    (alternatives : List String) : Except Fault (List Production) :=
  if left ∈ nonterminals then alternatives.mapM (readAlternative nonterminals terminals)
  else .error (.undeclaredLeft left)

/-- The first terminal that is also the name of a nonterminal. -/
def sharedName? (nonterminals : OrdSet String) (terminals : OrdSet Char) : Option Char :=
  terminals.toList.find? fun t => nonterminals.contains (String.singleton t)

/-- The grammar of the given declarations and rules, without weights and with default limits. -/
def make (nonterminals : List String) (terminals : List Char)
    (rules : List (String × List String)) (start : String) : Except Fault Grammar :=
  let nonterminals := OrdSet.ofList nonterminals
  let terminals := OrdSet.ofList terminals
  let productions := mergeRules rules
  if start ∈ nonterminals then
    match sharedName? nonterminals terminals with
    | some t => .error (.sharedName t)
    | none =>
      match productions.traverse (readRule nonterminals terminals) with
      | .error fault => .error fault
      | .ok alternatives =>
        .ok ⟨nonterminals, terminals, productions, start, ∅, {}, alternatives, ∅⟩
  else .error (.undeclaredStart start)

variable (g : Grammar)

/-- The alternatives of a nonterminal; none if it has no rule. -/
def productionsOf (name : String) : List Production := (g.alternatives.get? name).getD []

/-! ### Limits and weights -/

/-- The grammar with other limits. -/
def withLimits (limits : Limits) : Grammar := { g with limits }

/-- What is wrong with one weight: it belongs to no rule, or to no alternative, or is zero. -/
def weightFault? (e : Weights.Entry) : Option Fault :=
  match g.productions.get? e.nonterminal with
  | none => some (.weightOfNothing e.nonterminal)
  | some alternatives =>
    if e.alternative ∈ alternatives then
      if e.weight = 0 then some (.zeroWeight e.nonterminal e.alternative) else none
    else some (.weightOfUnknown e.nonterminal e.alternative)

/-- The fault of a rule whose weights have no running sums. -/
def Fault.ofTrouble (name : String) : Sampler.Trouble → Fault
  | .noWeight => .emptyRow name
  | .allZero => .zeroRow name
  | .overflow => .weightOverflow name

/-- The sampler of one nonterminal.  The sum of its weights has to fit 32 bits, and then they need
running sums to be looked up among. -/
def makeSampler (weights : Weights) (name : String) (alternatives : List String) :
    Except Fault Sampler :=
  let row := alternatives.map (weights.weightOf name)
  match Sampler.checkedSum row with
  | none => .error (.weightOverflow name)
  | some _ =>
    match Sampler.runningSums row with
    | .error trouble => .error (.ofTrouble name trouble)
    | .ok _ => .ok ⟨row⟩

/-- The grammar with the given weights in place of its own. -/
def withWeights (weights : Weights) : Except Fault Grammar :=
  match weights.entries.findSome? g.weightFault? with
  | some fault => .error fault
  | none =>
    let weighted := g.productions.filter fun name _ => weights.isWeighted name
    match weighted.traverse (makeSampler weights) with
    | .error fault => .error fault
    | .ok samplers => .ok { g with weights, samplers }

/-! ### Comparing -/

/-- Both grammars have the same components.  Declarations, rules and weights may stand in any
order, the alternatives of a rule may not. -/
def same (g h : Grammar) : Bool :=
  g.nonterminals.sameMembers h.nonterminals && g.terminals.sameMembers h.terminals &&
    g.productions.sameEntries (· == ·) h.productions && g.start == h.start &&
    g.weights.same h.weights && g.limits == h.limits

theorem same_refl : g.same g = true := by
  have hrules := OrdMap.sameEntries_refl (fun v => beq_self_eq_true v) g.productions
  simp [same, OrdSet.sameMembers_refl, hrules, Weights.same_refl]

end Grammar
end RightLinear
