import RightLinear.Proofs.Alignment
import RightLinear.Proofs.Walk

/-! # Derivation and walk, turn by turn

`Turn` is one turn of the loop that derives: the leftmost nonterminal of the form, wherever it stands,
gives way to the alternative that is chosen for it.  `Pace` is one step of a walk, which knows only its
output and the current nonterminal.  Both make one choice, from the source as the step before left it, and
both are what their loops do (`deriveFrom_of_turn`, `walk_of_pace`).

On sentential forms a turn is a pace (`turn_iff_pace`), and a pace leads to a sentential form, so the two
run in lockstep: every form that a derivation goes through is sentential, and both make the same choices
from the same sources in the same order (`run_turn_iff`).  What a walk comes to is read off its paces, for
either outcome (`walk_eq_some`, `walk_eq_none`). -/

namespace RightLinear

open RightLinear.Random (Source)

/-! ### Runs -/

/-- Steps that follow each other, with what each of them chose. -/
inductive Run {σ α : Type} (step : σ → α → σ → Prop) : List α → σ → σ → Prop
  | nil (s : σ) : Run step [] s s
  | cons {s t u : σ} {a : α} {as : List α} : step s a t → Run step as t u → Run step (a :: as) s u

namespace Run

variable {σ τ α : Type} {step : σ → α → σ → Prop} {pace : τ → α → τ → Prop}

theorem nil_iff {s t : σ} : Run step [] s t ↔ t = s := by
  constructor
  · intro h
    cases h
    rfl
  · rintro rfl
    exact .nil _

theorem cons_iff {s u : σ} {a : α} {as : List α} :
    Run step (a :: as) s u ↔ ∃ t, step s a t ∧ Run step as t u := by
  constructor
  · intro h
    cases h with
    | cons hstep hrest => exact ⟨_, hstep, hrest⟩
  · rintro ⟨t, hstep, hrest⟩
    exact .cons hstep hrest

/-- A loop that counts down at each step has counted down by the length of a run. -/
theorem countdown {β : Type} (loop : ℕ → σ → β)
    (hstep : ∀ s a t, step s a t → ∀ n, loop (n + 1) s = loop n t) {as : List α} {s t : σ}
    (h : Run step as s t) (n : ℕ) : loop (as.length + n) s = loop n t := by
  induction h with
  | nil s => rw [List.length_nil, Nat.zero_add]
  | @cons s t u a as hfirst _ ih =>
      have hlength : (a :: as).length + n = as.length + n + 1 := by
        rw [List.length_cons]
        omega
      rw [hlength, hstep _ _ _ hfirst, ih]

/-- If each step from the image of a state is the image of a step, so is each run. -/
theorem image_iff {image : τ → σ}
    (hstep : ∀ t a s', step (image t) a s' ↔ ∃ t', s' = image t' ∧ pace t a t') {as : List α} {t : τ}
    {s' : σ} : Run step as (image t) s' ↔ ∃ t', s' = image t' ∧ Run pace as t t' := by
  induction as generalizing t with
  | nil =>
      simp only [nil_iff]
      exact ⟨fun h => ⟨t, h, rfl⟩, fun ⟨t', h, ht⟩ => ht ▸ h⟩
  | cons a as ih =>
      simp only [cons_iff, hstep]
      constructor
      · rintro ⟨_, ⟨t₁, rfl, hpace⟩, hrest⟩
        obtain ⟨t', rfl, hrun⟩ := ih.mp hrest
        exact ⟨t', rfl, t₁, hpace, hrun⟩
      · rintro ⟨t', rfl, t₁, hpace, hrun⟩
        exact ⟨_, ⟨t₁, rfl, hpace⟩, ih.mpr ⟨t', rfl, hrun⟩⟩

/-- Runs that begin in one state and whose choices show alike are the same, if alike choices in a state
are the same and lead to the same state. -/
theorem unique {β : Type} (shown : α → β)
    (hstep : ∀ s a b t u, step s a t → step s b u → shown a = shown b → a = b ∧ t = u)
    {as bs : List α} {s t u : σ} (h : Run step as s t) (h' : Run step bs s u)
    (hshown : as.map shown = bs.map shown) : as = bs ∧ t = u := by
  induction h generalizing bs with
  | nil s =>
      obtain rfl := List.map_eq_nil_iff.mp hshown.symm
      exact ⟨rfl, (nil_iff.mp h').symm⟩
  | cons hfirst _ ih =>
      cases h' with
      | nil => cases hshown
      | cons hfirst' hrest' =>
          obtain ⟨hhead, htail⟩ := List.cons.inj hshown
          obtain ⟨rfl, rfl⟩ := hstep _ _ _ _ _ hfirst hfirst' hhead
          obtain ⟨rfl, rfl⟩ := ih hrest' htail
          exact ⟨rfl, rfl⟩

end Run

namespace Grammar

/-! ### Turns and paces -/

/-- A derivation between two turns. -/
structure Derivation where
  form : List Element
  source : Source

/-- A walk between two steps. -/
structure Walker where
  output : List Char
  current : Option String
  source : Source

/-- The derivation that a walk stands for. -/
def Walker.derivation (w : Walker) : Derivation := ⟨sentential w.output w.current, w.source⟩

variable (g : Grammar)

/-- The walk at the start symbol. -/
def walker (source : Source) : Walker := ⟨[], some g.start, source⟩

/-- One turn of a derivation.  The leftmost nonterminal, which has alternatives, gives way to the chosen
one. -/
inductive Turn : Derivation → Production → Derivation → Prop
  | mk {form before after : List Element} {name : String} {p : Production} {source source' : Source} :
      Element.leftmost? form = some (before, name, after) → g.productionsOf name ≠ [] →
      g.choose name (g.productionsOf name) source = (some p, source') →
      Turn ⟨form, source⟩ p ⟨before ++ p.elements ++ after, source'⟩

/-- One step of a walk.  The terminal of the chosen alternative is appended, and the walk moves on to
the nonterminal behind it. -/
inductive Pace : Walker → Production → Walker → Prop
  | mk {output : List Char} {name : String} {p : Production} {source source' : Source} :
      g.productionsOf name ≠ [] →
      g.choose name (g.productionsOf name) source = (some p, source') →
      Pace ⟨output, some name, source⟩ p ⟨output ++ [p.terminal], p.next, source'⟩

variable {g}

theorem deriveFrom_of_turn {d d' : Derivation} {p : Production} (h : g.Turn d p d') (budget : ℕ) :
    g.deriveFrom (budget + 1) d.form d.source = g.deriveFrom budget d'.form d'.source := by
  cases h with
  | @mk form before after name p source source' hleft hne hchoose =>
      obtain ⟨first, others, hps⟩ := List.exists_cons_of_ne_nil hne
      rw [hps] at hchoose
      rw [deriveFrom, hleft]
      dsimp only
      rw [hps]
      dsimp only
      rw [hchoose]

theorem deriveFrom_of_run {choices : List Production} {d d' : Derivation}
    (h : Run g.Turn choices d d') (budget : ℕ) :
    g.deriveFrom (choices.length + budget) d.form d.source = g.deriveFrom budget d'.form d'.source :=
  h.countdown (fun budget d => g.deriveFrom budget d.form d.source)
    (fun _ _ _ hturn => deriveFrom_of_turn hturn) budget

theorem turn_iff_pace {w : Walker} {p : Production} {d : Derivation} :
    g.Turn w.derivation p d ↔ ∃ w', d = w'.derivation ∧ g.Pace w p w' := by
  obtain ⟨output, current, source⟩ := w
  constructor
  · intro h
    unfold Walker.derivation at h
    generalize hform : sentential output current = form at h
    cases h with
    | @mk _ before after name p source source' hleft hne hchoose =>
        subst hform
        cases current with
        | none =>
            rw [leftmost?_sentential_none] at hleft
            cases hleft
        | some name' =>
            rw [leftmost?_sentential_some] at hleft
            cases hleft
            refine ⟨⟨output ++ [p.terminal], p.next, source'⟩, ?_, .mk hne hchoose⟩
            rw [sentential_append_elements]
            rfl
  · rintro ⟨w', rfl, h⟩
    cases h with
    | @mk _ name p source source' hne hchoose =>
        have hturn := Turn.mk (leftmost?_sentential_some output name) hne hchoose
        rw [sentential_append_elements] at hturn
        exact hturn

/-- Derivation and walk go in lockstep: the same choices from the same sources. -/
theorem run_turn_iff {choices : List Production} {w : Walker} {d : Derivation} :
    Run g.Turn choices w.derivation d ↔ ∃ w', d = w'.derivation ∧ Run g.Pace choices w w' :=
  Run.image_iff fun _ _ _ => turn_iff_pace

theorem sentential_injective {front front' : List Char} {current current' : Option String}
    (h : sentential front current = sentential front' current') :
    front = front' ∧ current = current' := by
  have hleft := congrArg Element.leftmost? h
  cases current with
  | none =>
      cases current' with
      | none =>
          have hyield := congrArg Element.yield h
          rw [yield_sentential_none, yield_sentential_none] at hyield
          exact ⟨hyield, rfl⟩
      | some name' =>
          rw [leftmost?_sentential_none, leftmost?_sentential_some] at hleft
          cases hleft
  | some name =>
      cases current' with
      | none =>
          rw [leftmost?_sentential_none, leftmost?_sentential_some] at hleft
          cases hleft
      | some name' =>
          have hinj : Function.Injective Element.terminal := fun a b e => by cases e; rfl
          simp only [leftmost?_sentential_some, Option.some.injEq, Prod.mk.injEq, and_true] at hleft
          exact ⟨hinj.list_map hleft.1, congrArg some hleft.2⟩

theorem run_turn_derivation_iff {choices : List Production} {w v : Walker} :
    Run g.Turn choices w.derivation v.derivation ↔ Run g.Pace choices w v := by
  rw [run_turn_iff]
  constructor
  · rintro ⟨u, hu, hrun⟩
    obtain ⟨output, current, source⟩ := v
    obtain ⟨output', current', source'⟩ := u
    obtain ⟨hform, rfl⟩ := Derivation.mk.inj hu
    obtain ⟨rfl, rfl⟩ := sentential_injective hform
    exact hrun
  · intro hrun
    exact ⟨v, rfl, hrun⟩

theorem output_of_run {choices : List Production} {w w' : Walker} (h : Run g.Pace choices w w') :
    w'.output = w.output ++ choices.map Production.terminal := by
  induction h with
  | nil w => simp
  | cons hstep _ ih =>
      cases hstep with
      | mk _ _ => simp [ih]

/-! ### What a walk comes to -/

theorem walk_of_pace {w w' : Walker} {p : Production} (h : g.Pace w p w') (budget : ℕ) :
    g.walk (budget + 1) w.output w.current w.source = g.walk budget w'.output w'.current w'.source := by
  cases h with
  | mk hne hchoose =>
      rw [walk, if_neg hne, hchoose]

theorem walk_of_run {choices : List Production} {w w' : Walker} (h : Run g.Pace choices w w')
    (budget : ℕ) :
    g.walk (choices.length + budget) w.output w.current w.source =
      g.walk budget w'.output w'.current w'.source :=
  h.countdown (fun budget w => g.walk budget w.output w.current w.source)
    (fun _ _ _ hpace => walk_of_pace hpace) budget

theorem walk_of_end {budget : ℕ} {choices : List Production} {w : Walker} {word : List Char}
    {source : Source} (hrun : Run g.Pace choices w ⟨word, none, source⟩)
    (hlength : choices.length ≤ budget) :
    g.walk budget w.output w.current w.source = (some word, source) := by
  obtain ⟨left, rfl⟩ := Nat.exists_eq_add_of_le hlength
  rw [walk_of_run hrun, walk]

theorem walk_of_stuck {budget : ℕ} {choices : List Production} {w : Walker} {output : List Char}
    {name : String} {source : Source} (hrun : Run g.Pace choices w ⟨output, some name, source⟩)
    (hstuck : choices.length = budget ∨ choices.length < budget ∧ g.productionsOf name = []) :
    g.walk budget w.output w.current w.source = (none, source) := by
  rcases hstuck with rfl | ⟨hlt, hps⟩
  · have hspent := walk_of_run hrun 0
    rwa [Nat.add_zero, walk] at hspent
  · obtain ⟨left, rfl⟩ := Nat.exists_eq_add_of_lt hlt
    rw [Nat.add_assoc, walk_of_run hrun, walk, if_pos hps]

theorem exists_run (hg : g.Aligned) (budget : ℕ) (w : Walker) :
    (∃ choices output source, choices.length ≤ budget ∧
      Run g.Pace choices w ⟨output, none, source⟩) ∨
    ∃ choices output name source, Run g.Pace choices w ⟨output, some name, source⟩ ∧
      (choices.length = budget ∨ choices.length < budget ∧ g.productionsOf name = []) := by
  induction budget generalizing w with
  | zero =>
      obtain ⟨output, current, source⟩ := w
      cases current with
      | none => exact .inl ⟨[], output, source, Nat.le_refl 0, .nil _⟩
      | some name => exact .inr ⟨[], output, name, source, .nil _, .inl rfl⟩
  | succ budget ih =>
      obtain ⟨output, current, source⟩ := w
      cases current with
      | none => exact .inl ⟨[], output, source, Nat.zero_le _, .nil _⟩
      | some name =>
          by_cases hps : g.productionsOf name = []
          · exact .inr ⟨[], output, name, source, .nil _, .inr ⟨Nat.succ_pos budget, hps⟩⟩
          · obtain ⟨p, rest, _, hchoose⟩ := hg.chooseChecked_eq hps source
            have hpace : g.Pace ⟨output, some name, source⟩ p ⟨output ++ [p.terminal], p.next, rest⟩ :=
              .mk hps hchoose
            rcases ih ⟨output ++ [p.terminal], p.next, rest⟩ with
              ⟨choices, word, last, hlength, hrun⟩ | ⟨choices, word, name', last, hrun, hstuck⟩
            · exact .inl ⟨p :: choices, word, last, Nat.succ_le_succ hlength, .cons hpace hrun⟩
            · refine .inr ⟨p :: choices, word, name', last, .cons hpace hrun, ?_⟩
              exact hstuck.imp (congrArg (· + 1)) (And.imp_left Nat.succ_lt_succ)

theorem walk_eq_some (hg : g.Aligned) {budget : ℕ} {w : Walker} {word : List Char} {source : Source} :
    g.walk budget w.output w.current w.source = (some word, source) ↔
      ∃ choices, choices.length ≤ budget ∧ Run g.Pace choices w ⟨word, none, source⟩ := by
  constructor
  · intro h
    rcases exists_run hg budget w with
      ⟨choices, output, last, hlength, hrun⟩ | ⟨choices, output, name, last, hrun, hstuck⟩
    · cases h.symm.trans (walk_of_end hrun hlength)
      exact ⟨choices, hlength, hrun⟩
    · cases h.symm.trans (walk_of_stuck hrun hstuck)
  · rintro ⟨choices, hlength, hrun⟩
    exact walk_of_end hrun hlength

/-- A walk is given up exactly where its steps have used up the budget, or have come to a nonterminal
without alternatives before. -/
theorem walk_eq_none (hg : g.Aligned) {budget : ℕ} {w : Walker} {source : Source} :
    g.walk budget w.output w.current w.source = (none, source) ↔
      ∃ choices output name, Run g.Pace choices w ⟨output, some name, source⟩ ∧
        (choices.length = budget ∨ choices.length < budget ∧ g.productionsOf name = []) := by
  constructor
  · intro h
    rcases exists_run hg budget w with
      ⟨choices, output, last, hlength, hrun⟩ | ⟨choices, output, name, last, hrun, hstuck⟩
    · cases h.symm.trans (walk_of_end hrun hlength)
    · cases h.symm.trans (walk_of_stuck hrun hstuck)
      exact ⟨choices, output, name, hrun, hstuck⟩
  · rintro ⟨choices, output, name, hrun, hstuck⟩
    exact walk_of_stuck hrun hstuck

/-- **A derivation is a walk, turn by turn.**  From every source, deriving with the limit `N` comes to
the same word or is given up as the walk from the start symbol in at most `N + 1` steps, with the same
source left over.  The loop goes on from where its turns have led, and these lead exactly to the
sentential forms that the walk stands at, by the same choices from the same sources, one for each step.
It ends in a word exactly if some turns, at most `N + 1`, lead to it, and then they are as many as the
word has characters.  It is given up exactly where `N + 1` turns have not ended it, or fewer have come to
a nonterminal without alternatives, and the source is the one that the last choice has left. -/
theorem derive_iff_turns (hg : g.Built) (limit : UInt64) (source : Source) :
    g.derive limit source = g.walk (limit.toNat + 1) [] (some g.start) source ∧
    (∀ choices d left, Run g.Turn choices ⟨[.nonterminal g.start], source⟩ d →
      choices.length + left = limit.toNat + 1 →
        g.derive limit source = g.deriveFrom left d.form d.source) ∧
    (∀ choices d, Run g.Turn choices ⟨[.nonterminal g.start], source⟩ d ↔
      ∃ w, d = ⟨sentential w.output w.current, w.source⟩ ∧
        Run g.Pace choices ⟨[], some g.start, source⟩ w) ∧
    (∀ word source', g.derive limit source = (some word, source') ↔
      ∃ choices, choices.length ≤ limit.toNat + 1 ∧ choices.length = word.length ∧
        Run g.Turn choices ⟨[.nonterminal g.start], source⟩ ⟨word.map .terminal, source'⟩) ∧
    ∀ source', g.derive limit source = (none, source') ↔
      ∃ choices output name,
        Run g.Turn choices ⟨[.nonterminal g.start], source⟩ ⟨sentential output (some name), source'⟩ ∧
        (choices.length = limit.toNat + 1 ∨
          choices.length < limit.toNat + 1 ∧ g.productionsOf name = []) := by
  have ha := hg.consistent.aligned
  have hstart : (g.walker source).derivation = ⟨[.nonterminal g.start], source⟩ := rfl
  refine ⟨derive_eq_walk limit source, ?_, ?_, ?_, ?_⟩
  · intro choices d left hrun hleft
    rw [derive, ← hleft]
    exact deriveFrom_of_run hrun left
  · intro choices d
    rw [← hstart]
    exact run_turn_iff
  · intro word source'
    have hend : (⟨word.map .terminal, source'⟩ : Derivation) =
        Walker.derivation ⟨word, none, source'⟩ := by simp [Walker.derivation, sentential]
    have hrun : ∀ choices, Run g.Turn choices ⟨[.nonterminal g.start], source⟩
        ⟨word.map .terminal, source'⟩ ↔ Run g.Pace choices (g.walker source) ⟨word, none, source'⟩ := by
      intro choices
      rw [← hstart, hend]
      exact run_turn_derivation_iff
    rw [derive_eq_walk]
    simp only [hrun]
    refine (walk_eq_some ha (w := g.walker source)).trans ?_
    refine exists_congr fun choices => and_congr_right fun _ => ?_
    -- The length follows from the run, as each choice puts out a character.
    refine (and_iff_right_of_imp fun h => ?_).symm
    have houtput := congrArg List.length (output_of_run h)
    simpa [walker] using houtput.symm
  · intro source'
    have hrun : ∀ choices output name, Run g.Turn choices ⟨[.nonterminal g.start], source⟩
        ⟨sentential output (some name), source'⟩ ↔
          Run g.Pace choices (g.walker source) ⟨output, some name, source'⟩ := by
      intro choices output name
      rw [← hstart]
      exact run_turn_derivation_iff (v := ⟨output, some name, source'⟩)
    rw [derive_eq_walk]
    simp only [hrun]
    exact walk_eq_none ha (w := g.walker source)

/-- `D` has no alternatives, so what comes to it is given up. -/
def stranded : Grammar where
  nonterminals := OrdSet.ofList ["S", "D"]
  terminals := OrdSet.ofList ['a', 'b', 'c']
  productions := mergeRules [("S", ["aS", "bD", "c"]), ("D", [])]
  start := "S"
  weights := ∅
  limits := {}
  alternatives := ⟨[("S", [⟨'a', some "S"⟩, ⟨'b', some "D"⟩, ⟨'c', none⟩]), ("D", [])], by decide⟩
  samplers := ∅

theorem stranded_built : stranded.Built := by
  have h : make ["S", "D"] ['a', 'b', 'c'] [("S", ["aS", "bD", "c"]), ("D", [])] "S" = .ok stranded := by
    decide
  exact .make h

/-- The words select the first, the last and the second alternative of `S`; behind `D` the tape is left
as it is. -/
theorem stranded_turns : stranded.Built ∧
    (∃ choices, choices.length ≤ 8 ∧ choices.length = 2 ∧
      Run stranded.Turn choices ⟨[.nonterminal "S"], .ofWords [0, 12297829382473034411, 7]⟩
        ⟨[.terminal 'a', .terminal 'c'], ⟨.tape [7], 2⟩⟩) ∧
    ∃ choices output name,
      Run stranded.Turn choices ⟨[.nonterminal "S"], .ofWords [9223372036854775808, 7]⟩
        ⟨sentential output (some name), ⟨.tape [7], 1⟩⟩ ∧
      (choices.length = 8 ∨ choices.length < 8 ∧ stranded.productionsOf name = []) := by
  have hword := derive_iff_turns stranded_built 7 (.ofWords [0, 12297829382473034411, 7])
  have hstuck := derive_iff_turns stranded_built 7 (.ofWords [9223372036854775808, 7])
  refine ⟨stranded_built, ?_, ?_⟩
  · exact (hword.2.2.2.1 ['a', 'c'] ⟨.tape [7], 2⟩).mp (by decide)
  · exact (hstuck.2.2.2.2 ⟨.tape [7], 1⟩).mp (by decide)

end Grammar
end RightLinear
