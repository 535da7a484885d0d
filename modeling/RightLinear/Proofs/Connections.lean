import Mathlib.Data.List.Basic
import RightLinear.Automaton.Basic

/-! # Relations entered transition by transition

A transition relation grows by connecting states with targets.  `connectAll` enters a list of
transitions, and what comes of it depends on what the list mentions: the keys are the sources
(`mem_keys_connectAll`), and the targets of a state on a symbol are those that are `given` for the two,
after those that there were (`targets?_connectAll`).  So the entries are the listed pairs of a source and
a symbol (`isSome_connectAll`), and a state leads to the targets listed for it (`leads_connectAll`). -/

namespace RightLinear

open Automaton (Transition)

namespace Delta

/-- The relation with the transitions added one after another. -/
def connectAll (transitions : List Transition) (d : Delta) : Delta :=
  transitions.foldl (fun d t => d.connect t.source t.symbol t.targets) d

/-- The targets listed for a state and a symbol, in order. -/
def given (transitions : List Transition) (q : String) (c : Char) : List String :=
  (transitions.filter fun t => t.source = q ∧ t.symbol = c).flatMap (·.targets)

/-- From the state `q`, the symbol leads to `r`. -/
def Leads (d : Delta) (q : String) (c : Char) (r : String) : Prop :=
  ∃ s, d.targets? q c = some s ∧ r ∈ s

variable {d : Delta} {q r : String} {c : Char}

/-! ### One connection -/

theorem mem_keys_connect {p : String} {a : Char} {targets : List String} :
    q ∈ (d.connect p a targets).keys ↔ q ∈ d.keys ∨ p = q := by
  unfold connect
  rw [OrdMap.keys_alter]
  split
  · next h => exact ⟨Or.inl, fun | .inl hq => hq | .inr e => e ▸ h⟩
  · simp [eq_comm]

/-! ### All connections -/

variable {transitions : List Transition}

theorem mem_keys_connectAll :
    q ∈ (connectAll transitions d).keys ↔ q ∈ d.keys ∨ ∃ t ∈ transitions, t.source = q := by
  induction transitions generalizing d with
  | nil => simp [connectAll]
  | cons t transitions ih =>
      show q ∈ (connectAll transitions (d.connect t.source t.symbol t.targets)).keys ↔ _
      rw [ih, mem_keys_connect]
      simp [or_assoc]

theorem mem_given :
    r ∈ given transitions q c ↔
      ∃ t ∈ transitions, t.source = q ∧ t.symbol = c ∧ r ∈ t.targets := by
  simp [given, and_assoc]

theorem given_eq_nil (hnone : ¬ ∃ t ∈ transitions, t.source = q ∧ t.symbol = c) :
    given transitions q c = [] := by
  refine List.eq_nil_iff_forall_not_mem.mpr fun r hr => ?_
  obtain ⟨t, ht, hsource, hsymbol, _⟩ := mem_given.mp hr
  exact hnone ⟨t, ht, hsource, hsymbol⟩

/-- Listed transitions add their targets to those that there are. -/
theorem targets?_connectAll (transitions : List Transition) (d : Delta) (q : String) (c : Char) :
    (connectAll transitions d).targets? q c =
      if ∃ t ∈ transitions, t.source = q ∧ t.symbol = c then
        some (((d.targets? q c).getD ∅).insertAll (given transitions q c))
      else d.targets? q c := by
  induction transitions generalizing d with
  | nil => simp [connectAll]
  | cons t transitions ih =>
      show (connectAll transitions (d.connect t.source t.symbol t.targets)).targets? q c = _
      rw [ih, targets?_connect]
      by_cases ht : q = t.source ∧ c = t.symbol
      · obtain ⟨rfl, rfl⟩ := ht
        have hgiven : given (t :: transitions) t.source t.symbol =
            t.targets ++ given transitions t.source t.symbol := by
          simp [given]
        have hlisted : ∃ t' ∈ t :: transitions, t'.source = t.source ∧ t'.symbol = t.symbol :=
          ⟨t, List.mem_cons_self, rfl, rfl⟩
        simp only [and_self, if_true]
        rw [if_pos hlisted, hgiven, OrdSet.insertAll_append, Option.getD_some]
        split
        · rfl
        · next hlater =>
          rw [given_eq_nil hlater]
          rfl
      · have hother : ¬ (t.source = q ∧ t.symbol = c) := fun e => ht ⟨e.1.symm, e.2.symm⟩
        have hgiven : given (t :: transitions) q c = given transitions q c := by
          simp [given, hother]
        simp only [ht, if_false, hgiven, List.mem_cons, exists_eq_or_imp, hother, false_or]

theorem isSome_connectAll :
    ((connectAll transitions d).targets? q c).isSome = true ↔
      (d.targets? q c).isSome = true ∨ ∃ t ∈ transitions, t.source = q ∧ t.symbol = c := by
  rw [targets?_connectAll]
  split
  · next hlisted => simp [hlisted]
  · next hnone => simp [hnone]

theorem leads_connectAll :
    (connectAll transitions d).Leads q c r ↔
      d.Leads q c r ∨ ∃ t ∈ transitions, t.source = q ∧ t.symbol = c ∧ r ∈ t.targets := by
  unfold Leads
  rw [targets?_connectAll, ← mem_given]
  split
  · cases d.targets? q c <;> simp
  · next hnone => rw [given_eq_nil hnone]; simp

/-! ### From nothing -/

theorem isSome_empty : ¬ ((∅ : Delta).targets? q c).isSome = true := Bool.false_ne_true

theorem not_leads_empty : ¬ (∅ : Delta).Leads q c r := by
  rintro ⟨_, h, _⟩
  cases h

end Delta
end RightLinear
