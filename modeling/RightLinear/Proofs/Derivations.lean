import RightLinear.Grammar.Generation
import RightLinear.Proofs.Construction

/-! # Derivations

`Rewrite` is one step on sentential forms, read off the productions as they are written: the
right-hand side `t` puts a terminal in the place of a nonterminal, the right-hand side `tX` a terminal
and the nonterminal `X` behind it.  `Rewrites n` is a sequence of `n` steps.

A form that is reached from a single nonterminal has terminals in front and at most one nonterminal,
at its end.  So derivations are walks along the alternatives as read: `Derives a word` says that the
word belongs to the nonterminal, and `rewrites_iff_derives` that a derivation of it takes exactly one
step for each character. -/

namespace RightLinear.Grammar

/-- One step on a sentential form, by a production as written. -/
inductive Rewrite (g : Grammar) : List Element → List Element → Prop
  | last {name text : String} {rule : List String} {t : Char} (before after : List Element) :
      g.productions.get? name = some rule → text ∈ rule → text.toList = [t] →
      Rewrite g (before ++ .nonterminal name :: after) (before ++ .terminal t :: after)
  | more {name text : String} {rule : List String} {t x : Char} (before after : List Element) :
      g.productions.get? name = some rule → text ∈ rule → text.toList = [t, x] →
      Rewrite g (before ++ .nonterminal name :: after)
        (before ++ .terminal t :: .nonterminal (String.singleton x) :: after)

/-- A sequence of steps, with their number. -/
inductive Rewrites (g : Grammar) : ℕ → List Element → List Element → Prop
  | refl (form : List Element) : Rewrites g 0 form form
  | step {n : ℕ} {form next last : List Element} :
      g.Rewrite form next → Rewrites g n next last → Rewrites g (n + 1) form last

/-- The word belongs to the nonterminal, by the alternatives as read. -/
inductive Derives (g : Grammar) : String → List Char → Prop
  | last {name : String} {p : Production} :
      p ∈ g.productionsOf name → p.next = none → Derives g name [p.terminal]
  | more {name next : String} {p : Production} {word : List Char} :
      p ∈ g.productionsOf name → p.next = some next → Derives g next word →
      Derives g name (p.terminal :: word)

variable {g : Grammar}

/-! ### Steps and alternatives -/

theorem rewrite_iff (hg : g.Consistent) {form next : List Element} :
    g.Rewrite form next ↔ ∃ before name after, ∃ p ∈ g.productionsOf name,
      form = before ++ .nonterminal name :: after ∧ next = before ++ p.elements ++ after := by
  constructor
  · intro h
    cases h with
    | @last name text rule t before after hrule htext ht =>
        obtain ⟨⟨s, m⟩, hp, hread⟩ := exists_production hg hrule htext
        refine ⟨before, name, after, _, hp, rfl, ?_⟩
        rcases (readAlternative_eq_ok.mp hread).2 with ⟨hs, hm⟩ | ⟨x, hs, _, _⟩
        · obtain rfl : m = none := hm
          cases ht.symm.trans hs
          simp [Production.elements]
        · cases ht.symm.trans hs
    | @more name text rule t x before after hrule htext ht =>
        obtain ⟨⟨s, m⟩, hp, hread⟩ := exists_production hg hrule htext
        refine ⟨before, name, after, _, hp, rfl, ?_⟩
        rcases (readAlternative_eq_ok.mp hread).2 with ⟨hs, _⟩ | ⟨y, hs, _, hm⟩
        · cases ht.symm.trans hs
        · obtain rfl : m = some (String.singleton y) := hm
          cases ht.symm.trans hs
          simp [Production.elements]
  · rintro ⟨before, name, after, ⟨s, m⟩, hp, rfl, rfl⟩
    obtain ⟨rule, hrule, text, htext, hread⟩ := (mem_productionsOf hg).mp hp
    rcases (readAlternative_eq_ok.mp hread).2 with ⟨hs, hm⟩ | ⟨x, hs, _, hm⟩
    · obtain rfl : m = none := hm
      simpa [Production.elements] using Rewrite.last before after hrule htext hs
    · obtain rfl : m = some (String.singleton x) := hm
      simpa [Production.elements] using Rewrite.more before after hrule htext hs

/-! ### Sentential forms -/

/-- Terminals in front of at most one nonterminal. -/
def sentential (front : List Char) (current : Option String) : List Element :=
  front.map .terminal ++ current.toList.map .nonterminal

theorem eq_of_append_eq_sentential {before after : List Element} {name : String}
    {front : List Char} {current : Option String}
    (h : before ++ .nonterminal name :: after = sentential front current) :
    before = front.map .terminal ∧ current = some name ∧ after = [] := by
  induction front generalizing before with
  | nil =>
      cases current with
      | none => cases before <;> cases h
      | some name' =>
          cases before with
          | nil =>
              cases h
              exact ⟨rfl, rfl, rfl⟩
          | cons e before =>
              obtain ⟨_, h⟩ := List.cons.inj h
              cases before <;> cases h
  | cons t front ih =>
      cases before with
      | nil => cases h
      | cons e before =>
          obtain ⟨he, htail⟩ := List.cons.inj h
          obtain ⟨hb, hc, ha⟩ := ih htail
          exact ⟨congrArg₂ _ he hb, hc, ha⟩

theorem sentential_append_elements (front : List Char) (p : Production) :
    front.map Element.terminal ++ p.elements ++ [] = sentential (front ++ [p.terminal]) p.next := by
  simp [sentential, Production.elements]

/-- A step from a sentential form moves the boundary by one alternative. -/
theorem rewrite_sentential (hg : g.Consistent) {front : List Char} {current : Option String}
    {next : List Element} :
    g.Rewrite (sentential front current) next ↔ ∃ name, current = some name ∧
      ∃ p ∈ g.productionsOf name, next = sentential (front ++ [p.terminal]) p.next := by
  rw [rewrite_iff hg]
  constructor
  · rintro ⟨before, name, after, p, hp, hform, rfl⟩
    obtain ⟨rfl, hc, rfl⟩ := eq_of_append_eq_sentential hform.symm
    exact ⟨name, hc, p, hp, sentential_append_elements front p⟩
  · rintro ⟨name, rfl, p, hp, rfl⟩
    exact ⟨front.map .terminal, name, [], p, hp, rfl, (sentential_append_elements front p).symm⟩

/-! ### Derivations as walks -/

theorem rewrites_terminals (hg : g.Consistent) {n : ℕ} {front word : List Char}
    (h : g.Rewrites n (sentential front none) (sentential word none)) : n = 0 ∧ word = front := by
  generalize hlast : sentential word none = last at h
  cases h with
  | refl =>
      have hinj : Function.Injective Element.terminal := fun a b e => by cases e; rfl
      refine ⟨rfl, hinj.list_map ?_⟩
      simpa [sentential] using hlast
  | step h _ =>
      obtain ⟨name, hc, _⟩ := (rewrite_sentential hg).mp h
      cases hc

/-- A derivation of terminals from a sentential form appends a word of its nonterminal. -/
theorem derives_of_rewrites (hg : g.Consistent) {n : ℕ} {front word : List Char} {name : String}
    (h : g.Rewrites n (sentential front (some name)) (sentential word none)) :
    ∃ tail, word = front ++ tail ∧ g.Derives name tail ∧ n = tail.length := by
  generalize hform : sentential front (some name) = form at h
  generalize hlast : sentential word none = last at h
  induction h generalizing front name with
  | refl form =>
      -- the end of the form would be a nonterminal and a terminal at once
      have hmem : Element.nonterminal name ∈ sentential word none := by
        rw [hlast, ← hform]
        simp [sentential]
      simp [sentential] at hmem
  | @step n form next last hstep hrest ih =>
      subst hform
      subst hlast
      obtain ⟨_, hc, p, hp, rfl⟩ := (rewrite_sentential hg).mp hstep
      cases hc
      cases hnext : p.next with
      | none =>
          rw [hnext] at hrest
          obtain ⟨rfl, rfl⟩ := rewrites_terminals hg hrest
          exact ⟨[p.terminal], rfl, .last hp hnext, rfl⟩
      | some name' =>
          rw [hnext] at ih
          obtain ⟨tail, rfl, hd, rfl⟩ := ih rfl rfl
          exact ⟨p.terminal :: tail, by simp, .more hp hnext hd, rfl⟩

theorem rewrites_of_derives (hg : g.Consistent) {name : String} {word : List Char}
    (h : g.Derives name word) (front : List Char) :
    g.Rewrites word.length (sentential front (some name)) (sentential (front ++ word) none) := by
  induction h generalizing front with
  | @last name p hp hnext =>
      have hstep : g.Rewrite (sentential front (some name)) _ :=
        (rewrite_sentential hg).mpr ⟨name, rfl, p, hp, rfl⟩
      rw [hnext] at hstep
      exact .step hstep (.refl _)
  | @more name next p word hp hnext _ ih =>
      have hstep : g.Rewrite (sentential front (some name)) _ :=
        (rewrite_sentential hg).mpr ⟨name, rfl, p, hp, rfl⟩
      have hrest := ih (front ++ [p.terminal])
      rw [List.append_assoc, List.singleton_append] at hrest
      rw [hnext] at hstep
      exact .step hstep hrest

/-- Derivations of a word from a nonterminal take one step for each character of the word. -/
theorem rewrites_iff_derives (hg : g.Consistent) {n : ℕ} {name : String} {word : List Char} :
    g.Rewrites n [.nonterminal name] (word.map .terminal) ↔
      g.Derives name word ∧ n = word.length := by
  have hlast : word.map Element.terminal = sentential word none := by simp [sentential]
  rw [hlast]
  constructor
  · intro h
    have hform : g.Rewrites n (sentential [] (some name)) (sentential word none) := h
    obtain ⟨tail, rfl, hd, hn⟩ := derives_of_rewrites hg hform
    exact ⟨hd, hn⟩
  · rintro ⟨hd, rfl⟩
    exact rewrites_of_derives hg hd []

/-! ### Words of a nonterminal -/

theorem Derives.ne_nil {name : String} {word : List Char} (h : g.Derives name word) : word ≠ [] := by
  cases h <;> exact List.cons_ne_nil _ _

theorem Derives.mem_terminals (hg : g.Consistent) {name : String} {word : List Char}
    (h : g.Derives name word) : ∀ c ∈ word, c ∈ g.terminals := by
  induction h with
  | last hp _ => simpa using (declared_of_mem_productionsOf hg hp).2.1
  | more hp _ _ ih => simpa using ⟨(declared_of_mem_productionsOf hg hp).2.1, ih⟩

end RightLinear.Grammar
