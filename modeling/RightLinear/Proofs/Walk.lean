import RightLinear.Proofs.Derivations

/-! # Derivation as a walk

A derivation rewrites the leftmost nonterminal of a sentential form.  The form never has but one, at
its end, so the derivation is a walk: it keeps the output so far and the current nonterminal, makes one
choice a step, appends the terminal and moves on (`deriveFrom_sentential`).  Neither side looks at how
the grammar was built. -/

namespace RightLinear.Grammar

open RightLinear.Random (Source)

variable (g : Grammar)

/-- Walks at most `budget` steps from the current nonterminal, behind the output so far. -/
def walk : ℕ → List Char → Option String → Source → Option (List Char) × Source
  | _, front, none, source => (some front, source)
  | 0, _, some _, source => (none, source)
  | budget + 1, front, some name, source =>
    if g.productionsOf name = [] then (none, source)
    else
      match g.choose name (g.productionsOf name) source with
      | (none, source) => (none, source)
      | (some p, source) => walk budget (front ++ [p.terminal]) p.next source

variable {g}

theorem leftmost?_sentential_some (front : List Char) (name : String) :
    Element.leftmost? (sentential front (some name)) = some (front.map .terminal, name, []) := by
  induction front with
  | nil => rfl
  | cons t front ih =>
      show (Element.leftmost? (sentential front (some name))).map _ = _
      rw [ih]
      rfl

theorem leftmost?_sentential_none (front : List Char) :
    Element.leftmost? (sentential front none) = none := by
  induction front with
  | nil => rfl
  | cons t front ih =>
      show (Element.leftmost? (sentential front none)).map _ = _
      rw [ih]
      rfl

theorem yield_sentential_none (front : List Char) :
    Element.yield (sentential front none) = front := by
  induction front with
  | nil => rfl
  | cons t front ih => exact congrArg (t :: ·) ih

theorem deriveFrom_sentential (budget : ℕ) (front : List Char) (current : Option String)
    (source : Source) :
    g.deriveFrom budget (sentential front current) source = g.walk budget front current source := by
  induction budget generalizing front current source with
  | zero =>
      cases current with
      | none => simp only [deriveFrom, leftmost?_sentential_none, yield_sentential_none, walk]
      | some name => simp only [deriveFrom, leftmost?_sentential_some, walk]
  | succ budget ih =>
      cases current with
      | none => simp only [deriveFrom, leftmost?_sentential_none, yield_sentential_none, walk]
      | some name =>
          rw [deriveFrom, leftmost?_sentential_some, walk]
          dsimp only
          cases hps : g.productionsOf name with
          | nil => rfl
          | cons p ps =>
              dsimp only
              rw [if_neg (List.cons_ne_nil p ps)]
              cases g.choose name (p :: ps) source with
              | mk choice source =>
                  cases choice with
                  | none => rfl
                  | some chosen =>
                      -- What is put in for the nonterminal leaves a sentential form again.
                      dsimp only
                      rw [sentential_append_elements]
                      exact ih _ _ _

/-- One derivation is a walk from the start symbol, with a budget of one step above the limit. -/
theorem derive_eq_walk (limit : UInt64) (source : Source) :
    g.derive limit source = g.walk (limit.toNat + 1) [] (some g.start) source :=
  deriveFrom_sentential (limit.toNat + 1) [] (some g.start) source

end RightLinear.Grammar
