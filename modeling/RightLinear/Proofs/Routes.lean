import RightLinear.Definition.File
import RightLinear.Definition.Steps
import RightLinear.Proofs.Construction

/-! # How grammars come about

A grammar is constructed from declarations and rules, step by step, or from a text in the line format
or in JSON (`Constructed`), which may stand in a file (`constructed_of_ofFile`).  Afterwards its limits
and weights may be replaced any number of times; `Changes g cs h` says that the changes `cs`, all of
them accepted, lead from `g` to `h`.

Whatever way a grammar has come, it is one of those with the invariant of construction
(`Changes.built`).  Of the changes only the last limits and the last weights count, in whatever order
they stand (`Changes.settled`). -/

namespace RightLinear.Grammar

/-! ### Routes -/

/-- The grammars that are constructed by one of the four routes. -/
inductive Constructed : Grammar → Prop
  | make {nonterminals : List String} {terminals : List Char}
      {rules : List (String × List String)} {start : String} {g : Grammar} :
      Grammar.make nonterminals terminals rules start = .ok g → Constructed g
  | ofSteps {start : String} {steps : List Definition.Step} {g : Grammar} :
      (Definition.ofSteps start steps).toGrammar = .ok g → Constructed g
  | ofText {text : List Char} {d : Definition} {g : Grammar} :
      Definition.ofText text = .ok d → d.toGrammar = .ok g → Constructed g
  | ofJson {text : List Char} {d : Definition} {g : Grammar} :
      Definition.ofJson text = .ok d → d.toGrammar = .ok g → Constructed g

theorem Constructed.built {g : Grammar} (h : g.Constructed) : g.Built := by
  cases h with
  | make h => exact .make h
  | ofSteps h => exact built_of_toGrammar h
  | ofText _ h => exact built_of_toGrammar h
  | ofJson _ h => exact built_of_toGrammar h

/-! ### Files -/

theorem mapError_eq_ok {ε ε' α : Type} {result : Except ε α} {f : ε → ε'} {a : α} :
    result.mapError f = .ok a ↔ result = .ok a := by
  cases result <;> simp [Except.mapError]

theorem bind_eq_ok {ε α β : Type} {result : Except ε α} {f : α → Except ε β} {b : β} :
    (result >>= f) = .ok b ↔ ∃ a, result = .ok a ∧ f a = .ok b := by
  cases result with
  | error e => simp [bind, Except.bind]
  | ok a => simp [bind, Except.bind]

theorem exists_ofJson_of_file {contents : Storage.Contents} {d : Definition}
    (h : Definition.ofJsonFile contents = .ok d) : ∃ text, Definition.ofJson text = .ok d := by
  unfold Definition.ofJsonFile at h
  split at h
  · cases h
  · exact ⟨_, mapError_eq_ok.mp h⟩

theorem exists_ofText_of_file {contents : Storage.Contents} {d : Definition}
    (h : Definition.ofTextFile contents = .ok d) : ∃ text, Definition.ofText text = .ok d := by
  unfold Definition.ofTextFile at h
  split at h
  · cases h
  · exact ⟨_, mapError_eq_ok.mp h⟩

theorem constructed_of_ofFile {path : String} {contents : Storage.Contents} {g : Grammar}
    (h : Grammar.ofFile path contents = .ok g) : g.Constructed := by
  unfold Grammar.ofFile at h
  dsimp only at h
  split at h
  · obtain ⟨d, hd, hg⟩ := bind_eq_ok.mp h
    obtain ⟨text, htext⟩ := exists_ofJson_of_file hd
    exact .ofJson htext (mapError_eq_ok.mp hg)
  · obtain ⟨d, hd, hg⟩ := bind_eq_ok.mp h
    obtain ⟨text, htext⟩ := exists_ofText_of_file hd
    exact .ofText htext (mapError_eq_ok.mp hg)
/-! ### Changes -/

/-- A replacement of the limits or of the weights. -/
inductive Change
  | limits (limits : Limits)
  | weights (weights : Weights)

/-- The limits of a change. -/
def Change.limits? : Change → Option Limits
  | .limits l => some l
  | .weights _ => none

/-- The weights of a change. -/
def Change.weights? : Change → Option Weights
  | .limits _ => none
  | .weights w => some w

/-- The last limits among the changes. -/
def lastLimits? (cs : List Change) : Option Limits := (cs.filterMap Change.limits?).getLast?

/-- The last weights among the changes. -/
def lastWeights? (cs : List Change) : Option Weights := (cs.filterMap Change.weights?).getLast?

/-- The changes are accepted one after another and lead from the first grammar to the last. -/
inductive Changes : Grammar → List Change → Grammar → Prop
  | nil (g : Grammar) : Changes g [] g
  | limits {g h : Grammar} {cs : List Change} (l : Limits) :
      Changes (g.withLimits l) cs h → Changes g (.limits l :: cs) h
  | weights {g g' h : Grammar} {cs : List Change} {w : Weights} :
      g.withWeights w = .ok g' → Changes g' cs h → Changes g (.weights w :: cs) h

theorem Changes.built {g h : Grammar} {cs : List Change} (hc : Changes g cs h) (hg : g.Built) :
    h.Built := by
  induction hc with
  | nil g => exact hg
  | limits l _ ih => exact ih (.withLimits l hg)
  | weights hw _ ih => exact ih (.withWeights hg hw)

/-! ### The last of each kind -/

theorem lastLimits?_limits (l : Limits) (cs : List Change) :
    lastLimits? (.limits l :: cs) = some ((lastLimits? cs).getD l) :=
  List.getLast?_cons

theorem lastWeights?_weights (w : Weights) (cs : List Change) :
    lastWeights? (.weights w :: cs) = some ((lastWeights? cs).getD w) :=
  List.getLast?_cons

/-- Weights are accepted by the rules alone, whatever limits and weights there were. -/
theorem withWeights_of_withWeights {g k h : Grammar} {w : Weights}
    (hk : k = { g with limits := k.limits, weights := k.weights, samplers := k.samplers })
    (hw : k.withWeights w = .ok (h.withLimits k.limits)) :
    g.withWeights w = .ok (h.withLimits g.limits) := by
  obtain ⟨hf, samplers, hs, heq⟩ := withWeights_eq_ok.mp hw
  rw [hk] at hf hs
  refine withWeights_eq_ok.mpr ⟨hf, samplers, hs, ?_⟩
  calc
    h.withLimits g.limits = (h.withLimits k.limits).withLimits g.limits := rfl
    _ = { g with weights := w, samplers } := by rw [heq, hk]; rfl

/-- Only the last limits and the last weights count: the limits are the last ones, and but for them
the grammar is the first one if no weights were given, else what the last weights make of it. -/
theorem Changes.settled {g h : Grammar} {cs : List Change} (hc : Changes g cs h) :
    h.limits = (lastLimits? cs).getD g.limits ∧
    (lastWeights? cs = none → h.withLimits g.limits = g) ∧
    ∀ w, lastWeights? cs = some w → g.withWeights w = .ok (h.withLimits g.limits) := by
  induction hc with
  | nil g => exact ⟨rfl, fun _ => rfl, fun w hw => nomatch hw⟩
  | @limits g h cs l _ ih =>
      obtain ⟨hlimits, hnone, hsome⟩ := ih
      refine ⟨?_, ?_, ?_⟩
      · rw [lastLimits?_limits]
        exact hlimits
      · intro hw
        exact congrArg (·.withLimits g.limits) (hnone hw)
      · intro w hw
        exact withWeights_of_withWeights rfl (hsome w hw)
  | @weights g g' h cs w hw _ ih =>
      obtain ⟨hlimits, hnone, hsome⟩ := ih
      obtain ⟨_, samplers, _, hg'⟩ := withWeights_eq_ok.mp hw
      have hg'limits : g'.limits = g.limits := by rw [hg']
      rw [lastWeights?_weights]
      refine ⟨?_, ?_, ?_⟩
      · rw [hlimits, hg'limits]
        rfl
      · intro hw
        cases hw
      · intro last hlast
        cases hrest : lastWeights? cs with
        | none =>
            rw [hrest, Option.getD_none, Option.some.injEq] at hlast
            rw [← hg'limits, hnone hrest, ← hlast]
            exact hw
        | some w' =>
            rw [hrest, Option.getD_some, Option.some.injEq] at hlast
            rw [← hlast]
            exact withWeights_of_withWeights (by rw [hg']) (hsome w' hrest)

theorem Changes.eq_of_lastWeights {g h h' : Grammar} {cs cs' : List Change} (hc : Changes g cs h)
    (hc' : Changes g cs' h') (hweights : lastWeights? cs' = lastWeights? cs) :
    h'.withLimits h.limits = h := by
  obtain ⟨_, hnone, hsome⟩ := hc.settled
  obtain ⟨_, hnone', hsome'⟩ := hc'.settled
  have heq : h'.withLimits g.limits = h.withLimits g.limits := by
    cases hw : lastWeights? cs with
    | none => exact (hnone' (hweights.trans hw)).trans (hnone hw).symm
    | some w => exact Except.ok.inj ((hsome' w (hweights.trans hw)).symm.trans (hsome w hw))
  calc
    h'.withLimits h.limits = (h'.withLimits g.limits).withLimits h.limits := rfl
    _ = (h.withLimits g.limits).withLimits h.limits := by rw [heq]
    _ = h := rfl

theorem Changes.weights_eq {g h : Grammar} {cs : List Change} (hc : Changes g cs h) :
    h.weights = (lastWeights? cs).getD g.weights := by
  obtain ⟨_, hnone, hsome⟩ := hc.settled
  have hlimits : h.weights = (h.withLimits g.limits).weights := rfl
  cases hw : lastWeights? cs with
  | none =>
      rw [hlimits, hnone hw]
      rfl
  | some w =>
      obtain ⟨_, samplers, _, heq⟩ := withWeights_eq_ok.mp (hsome w hw)
      rw [hlimits, heq]
      rfl

end RightLinear.Grammar
