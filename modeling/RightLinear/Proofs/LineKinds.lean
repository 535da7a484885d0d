import RightLinear.Proofs.LinePatterns

/-! # Lines by kind

A line is about nonterminals, terminals, the start symbol, a weight or a rule.  Its kind is that of the
pattern that it matches, whatever the other lines are; a rule is what matches no pattern with a keyword
(`kindOf?_eq_some`).  So the kind of a line can be decided, and the lines of one kind can be taken out of
others (`ofKind`).  A line of the kind of a rule has the form of one, with the latest cut
(`ofLine_of_lastRules`). -/

namespace RightLinear.Lines

open Text

/-- What a line is about. -/
inductive Kind
  | nonterminals
  | terminals
  | start
  | weight
  | production
deriving Repr, DecidableEq

/-- The kind of a form; a silent line and one that matches no pattern have none. -/
def Form.kind? : Form → Option Kind
  | .silent => none
  | .nonterminals _ => some .nonterminals
  | .terminals _ => some .terminals
  | .start _ => some .start
  | .weight _ _ _ => some .weight
  | .production _ _ => some .production
  | .unknown _ => none

/-- The kind of a trimmed line. -/
def kindOf? (s : List Char) : Option Kind := (Form.ofLine s).kind?

/-- The line matches the pattern of the kind, a rule none of those with a keyword besides. -/
inductive HasKind (s : List Char) : Kind → Prop
  | nonterminals {body : List Char} : Declares "nonterminals".toList body s → HasKind s .nonterminals
  | terminals {body : List Char} : Declares "terminals".toList body s → HasKind s .terminals
  | start {name : List Char} : Starts name s → HasKind s .start
  | weight {left alternative digits : List Char} :
      Weighs left alternative digits s → HasKind s .weight
  | production {left body : List Char} : ¬ Silent s → Rules left body s →
      (¬ ∃ body, Declares "nonterminals".toList body s) →
      (¬ ∃ body, Declares "terminals".toList body s) → (¬ ∃ name, Starts name s) →
      (¬ ∃ left alternative digits, Weighs left alternative digits s) → HasKind s .production

variable {s : List Char}

theorem kindOf?_of_nonterminals {body : List Char} (h : Declares "nonterminals".toList body s) :
    kindOf? s = some .nonterminals := by
  rw [kindOf?, ofLine_of_nonterminals h, Form.kind?]

theorem kindOf?_of_terminals {body : List Char} (h : Declares "terminals".toList body s) :
    kindOf? s = some .terminals := by
  rw [kindOf?, ofLine_of_terminals h, Form.kind?]

theorem kindOf?_of_starts {name : List Char} (h : Starts name s) : kindOf? s = some .start := by
  rw [kindOf?, ofLine_of_starts h, Form.kind?]

theorem kindOf?_of_weighs {left alternative digits : List Char}
    (h : Weighs left alternative digits s) : kindOf? s = some .weight := by
  obtain ⟨left', alternative', hform⟩ := exists_ofLine_of_weighs h
  rw [kindOf?, hform, Form.kind?]

theorem kindOf?_eq_none : kindOf? s = none ↔ Silent s ∨ ¬ Recognized s := by
  constructor
  · intro h
    have hform := hasForm_ofLine s
    unfold kindOf? at h
    generalize Form.ofLine s = form at h hform
    cases hform with
    | silent hs => exact .inl hs
    | unknown _ hnone => exact .inr hnone
    | nonterminals _ => cases h
    | terminals _ => cases h
    | start _ => cases h
    | weight _ => cases h
    | production _ _ => cases h
  · intro h
    by_cases hs : Silent s
    · rw [kindOf?, ofLine_of_silent hs, Form.kind?]
    · rw [kindOf?, ofLine_of_not_recognized hs (h.resolve_left hs), Form.kind?]

/-- The kind of a line is that of the pattern that it matches. -/
theorem kindOf?_eq_some {kind : Kind} : kindOf? s = some kind ↔ HasKind s kind := by
  constructor
  · intro h
    have hother : ∀ k, kindOf? s = some k → k = kind := fun k hk => Option.some.inj (hk.symm.trans h)
    have hform := hasForm_ofLine s
    unfold kindOf? at h
    generalize Form.ofLine s = form at h hform
    cases hform with
    | silent _ => cases h
    | unknown _ _ => cases h
    | nonterminals hbody => exact Option.some.inj h ▸ .nonterminals hbody
    | terminals hbody => exact Option.some.inj h ▸ .terminals hbody
    | start hname => exact Option.some.inj h ▸ .start hname
    | weight hparts => exact Option.some.inj h ▸ .weight hparts.1
    | production hs hparts =>
        cases h
        -- A line of a pattern with a keyword has the kind of that pattern, which is not this one.
        refine .production hs hparts.1 ?_ ?_ ?_ ?_
        · rintro ⟨body, hbody⟩
          cases hother _ (kindOf?_of_nonterminals hbody)
        · rintro ⟨body, hbody⟩
          cases hother _ (kindOf?_of_terminals hbody)
        · rintro ⟨name, hname⟩
          cases hother _ (kindOf?_of_starts hname)
        · rintro ⟨left, alternative, digits, hparts⟩
          cases hother _ (kindOf?_of_weighs hparts)
  · intro h
    cases h with
    | nonterminals hbody => exact kindOf?_of_nonterminals hbody
    | terminals hbody => exact kindOf?_of_terminals hbody
    | start hname => exact kindOf?_of_starts hname
    | weight hparts => exact kindOf?_of_weighs hparts
    | production hs hrule hnonterminals hterminals hstart hweight =>
        have hform := hasForm_ofLine s
        unfold kindOf?
        generalize Form.ofLine s = form at hform
        cases hform with
        | silent hsilent => exact absurd hsilent hs
        | nonterminals hbody => exact absurd ⟨_, hbody⟩ hnonterminals
        | terminals hbody => exact absurd ⟨_, hbody⟩ hterminals
        | start hname => exact absurd ⟨_, hname⟩ hstart
        | weight hparts => exact absurd ⟨_, _, _, hparts.1⟩ hweight
        | production _ _ => rfl
        | unknown _ hnone => exact absurd (.inr (.inr (.inr (.inr ⟨_, _, hrule⟩)))) hnone

theorem ofLine_of_lastRules {left body : List Char} (hkind : HasKind s .production)
    (h : LastRules left body s) : Form.ofLine s = .production left ((fields '|' body).map trim) := by
  have hform := hasForm_ofLine s
  have hof := kindOf?_eq_some.mpr hkind
  unfold kindOf? at hof
  generalize Form.ofLine s = form at hof hform
  cases hform with
  | @production left' body' _ hparts =>
      have heq := (ruleParts?_of_lastRules hparts).symm.trans (ruleParts?_of_lastRules h)
      obtain ⟨rfl, hbody⟩ := Prod.mk.inj (Option.some.inj heq)
      rw [← map_trim_fields_trimStart body', hbody, map_trim_fields_trimStart]
  | silent _ => cases hof
  | nonterminals _ => cases hof
  | terminals _ => cases hof
  | start _ => cases hof
  | weight _ => cases hof
  | unknown _ _ => cases hof

instance (s : List Char) (kind : Kind) : Decidable (HasKind s kind) :=
  decidable_of_iff (kindOf? s = some kind) kindOf?_eq_some

/-- The lines of one kind, in order. -/
def ofKind (kind : Kind) (lines : List (List Char)) : List (List Char) :=
  lines.filter fun s => HasKind s kind

end RightLinear.Lines
