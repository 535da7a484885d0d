import RightLinear.Command.Run
import RightLinear.Proofs.Generation
import RightLinear.Proofs.Routes

/-! # Lists of generated words

`generate` prints random words one after another, all drawn from one source, until there are as many
as were asked for or generation fails.  `Yields` is that course of events without the printing: the
words that come one after another, and the source that they leave.

* A list of more words goes on where a shorter one ends (`listWords_of_yields`), whatever the draws,
  attempts and rejections in between.
* There are always as many words as were asked for, or generation fails behind some of them
  (`exists_yields`).
* A generated word belongs to the grammar, so the automaton accepts it and the verdict that is printed
  with it is `true` (`entry_eq_acceptedEntry`). -/

namespace RightLinear.Grammar

open RightLinear.Random (Source)

/-- The words are generated one after another from the first source, and leave the last. -/
inductive Yields (g : Grammar) : Source → List (List Char) → Source → Prop
  | nil (source : Source) : Yields g source [] source
  | cons {source next last : Source} {word : List Char} {words : List (List Char)} :
      g.generate g.limits.maxSteps source = (.ok word, next) → Yields g next words last →
      Yields g source (word :: words) last

/-- Generation exhausts its attempts. -/
def Fails (g : Grammar) (source : Source) : Prop :=
  (g.generate g.limits.maxSteps source).1 = .error ⟨g.limits.maxAttempts, g.limits.maxSteps⟩

/-- The words are generated one after another, and the attempts at the next one are exhausted. -/
def FailsAfter (g : Grammar) (source : Source) (words : List (List Char)) : Prop :=
  ∃ last, g.Yields source words last ∧ g.Fails last

variable {g : Grammar}

theorem exists_yields (g : Grammar) (count : ℕ) (source : Source) :
    ∃ words, (words.length = count ∧ ∃ last, g.Yields source words last) ∨
      (words.length < count ∧ g.FailsAfter source words) := by
  induction count generalizing source with
  | zero => exact ⟨[], .inl ⟨rfl, source, .nil source⟩⟩
  | succ count ih =>
      rcases generate_eq_ok_or_error (g := g) g.limits.maxSteps source with ⟨word, hword⟩ | hfails
      · obtain ⟨next, hgenerate⟩ : ∃ next, g.generate g.limits.maxSteps source = (.ok word, next) :=
          ⟨_, Prod.ext hword rfl⟩
        obtain ⟨words, ⟨hlength, last, h⟩ | ⟨hlength, last, h, hfails⟩⟩ := ih next
        · exact ⟨word :: words, .inl ⟨congrArg Nat.succ hlength, last, .cons hgenerate h⟩⟩
        · exact ⟨word :: words, .inr ⟨Nat.succ_lt_succ hlength, last, .cons hgenerate h, hfails⟩⟩
      · exact ⟨[], .inr ⟨Nat.succ_pos count, source, .nil source, hfails⟩⟩

end RightLinear.Grammar

namespace RightLinear.Command

open RightLinear.Random (Source)

/-! ### Entries -/

/-- The line of the `i`-th word, with the verdict that it is accepted. -/
def acceptedEntry (i : ℕ) (word : List Char) : List Char :=
  Nat.toDigits 10 i ++ ['.', ' '] ++ word ++ "  -> true\n".toList

/-- The lines of the words, numbered from `i` on. -/
def acceptedEntries : ℕ → List (List Char) → List Char
  | _, [] => []
  | i, word :: words => acceptedEntry i word ++ acceptedEntries (i + 1) words

theorem entry_eq_acceptedEntry {m : Automaton} {word : List Char} (h : m.accepts word = true) (i : ℕ) :
    entry m i word = acceptedEntry i word := by
  have hverdict : "  -> ".toList ++ ("true".toList ++ ['\n']) = "  -> true\n".toList := by decide
  unfold entry acceptedEntry Text.line verdict
  rw [if_pos h, List.append_assoc, List.append_assoc, hverdict]

/-! ### Lists of words -/

section

variable {g : Grammar} (hg : g.Consistent)
include hg

theorem listWords_of_yields {source last : Source} {words : List (List Char)}
    (h : g.Yields source words last) (count i : ℕ) :
    listWords g g.toAutomaton (words.length + count) i source =
      ⟨acceptedEntries i words ++ (listWords g g.toAutomaton count (i + words.length) last).output,
        (listWords g g.toAutomaton count (i + words.length) last).error⟩ := by
  induction h generalizing i with
  | nil source => rw [List.length_nil, Nat.zero_add, Nat.add_zero, acceptedEntries, List.nil_append]
  | @cons source next last word words hword _ ih =>
      -- The verdict is found by the automaton; that the word was generated says what it will be.
      have hderives := (Grammar.derives_of_generate (congrArg Prod.fst hword)).1
      have haccepts := (Grammar.accepts_iff_derives hg).mpr hderives
      have hcount : (word :: words).length + count = words.length + count + 1 := by
        rw [List.length_cons]
        omega
      have hindex : i + (word :: words).length = i + 1 + words.length := by
        rw [List.length_cons]
        omega
      rw [hcount, hindex, listWords, hword]
      dsimp only
      rw [ih, entry_eq_acceptedEntry haccepts, acceptedEntries, List.append_assoc]

theorem listWords_of_yields_all {source last : Source} {words : List (List Char)}
    (h : g.Yields source words last) (i : ℕ) :
    listWords g g.toAutomaton words.length i source = ⟨acceptedEntries i words, none⟩ := by
  have hall := listWords_of_yields hg h 0 i
  rw [listWords, List.append_nil] at hall
  exact hall

/-- If generation fails, the list ends with the word before, however many were asked for. -/
theorem listWords_of_failsAfter {source : Source} {words : List (List Char)}
    (h : g.FailsAfter source words) {count : ℕ} (hcount : words.length < count) (i : ℕ) :
    listWords g g.toAutomaton count i source = ⟨acceptedEntries i words,
      some (.exhausted ⟨g.limits.maxAttempts, g.limits.maxSteps⟩)⟩ := by
  obtain ⟨last, hyields, hfails⟩ := h
  obtain ⟨rest, rfl⟩ := Nat.exists_eq_add_of_lt hcount
  obtain ⟨next, hnext⟩ : ∃ next, g.generate g.limits.maxSteps last =
      (.error ⟨g.limits.maxAttempts, g.limits.maxSteps⟩, next) := ⟨_, Prod.ext hfails rfl⟩
  rw [Nat.add_assoc, listWords_of_yields hg hyields, listWords, hnext, List.append_nil]

/-- Asking for more words does not change the entries that are there, nor mend an error. -/
theorem listWords_prefix {n m : ℕ} (hle : n ≤ m) (i : ℕ) (source : Source) :
    (listWords g g.toAutomaton n i source).output <+:
        (listWords g g.toAutomaton m i source).output ∧
      ((listWords g g.toAutomaton m i source).error = none →
        (listWords g g.toAutomaton n i source).error = none) := by
  -- Either all `n` words come, and the longer list goes on behind them, or both stop at the same word.
  obtain ⟨words, ⟨rfl, last, h⟩ | ⟨hlength, h⟩⟩ := g.exists_yields n source
  · obtain ⟨rest, rfl⟩ := Nat.exists_eq_add_of_le hle
    rw [listWords_of_yields_all hg h, listWords_of_yields hg h]
    exact ⟨List.prefix_append _ _, fun _ => rfl⟩
  · rw [listWords_of_failsAfter hg h hlength,
      listWords_of_failsAfter hg h (Nat.lt_of_lt_of_le hlength hle)]
    exact ⟨List.prefix_rfl, id⟩

end

/-! ### The command -/

theorem code_eq_zero {r : Report} : r.code = 0 ↔ r.error = none := by
  unfold Report.code
  cases r.error <;> simp

theorem code_eq_one {r : Report} : r.code = 1 ↔ r.error ≠ none := by
  unfold Report.code
  cases r.error <;> simp

/-- What `generate` reports with the given seed and count, whatever seed the system has. -/
def listing (file : String) (contents : Storage.Contents) (maxSteps attempts : Option UInt64)
    (seed systemSeed count : UInt64) : Report :=
  report contents systemSeed (.generate file count maxSteps attempts (some seed))

section

variable {file : String} {contents : Storage.Contents} {g : Grammar}
  (hload : Grammar.ofFile file contents = .ok g) (maxSteps attempts : Option UInt64) (seed : UInt64)
include hload

theorem consistent_limited : (limited g maxSteps attempts).Consistent :=
  (Grammar.constructed_of_ofFile hload).built.consistent.withLimits _

/-- The words come from the seed that is given, not from that of the system. -/
theorem listing_eq (systemSeed count : UInt64) :
    listing file contents maxSteps attempts seed systemSeed count =
      listWords (limited g maxSteps attempts) (limited g maxSteps attempts).toAutomaton count.toNat 1
        (.ofSeed seed) := by
  unfold listing report run
  dsimp only
  rw [hload]
  rfl

theorem listing_of_failsAfter {n : UInt64} {words : List (List Char)}
    (h : (limited g maxSteps attempts).FailsAfter (.ofSeed seed) words)
    (hlength : words.length < n.toNat) (systemSeed : UInt64) :
    (listing file contents maxSteps attempts seed systemSeed n).output = acceptedEntries 1 words ∧
      (listing file contents maxSteps attempts seed systemSeed n).code = 1 := by
  have hg := consistent_limited hload maxSteps attempts
  rw [code_eq_one, listing_eq hload, listWords_of_failsAfter hg h hlength]
  exact ⟨rfl, Option.some_ne_none _⟩

theorem listing_all_or_fails (systemSeed n : UInt64) : ∃ words,
    (listing file contents maxSteps attempts seed systemSeed n).output = acceptedEntries 1 words ∧
      ((listing file contents maxSteps attempts seed systemSeed n).code = 0 ∧
          words.length = n.toNat ∧
          (∃ last, (limited g maxSteps attempts).Yields (.ofSeed seed) words last) ∨
        (listing file contents maxSteps attempts seed systemSeed n).code = 1 ∧
          words.length < n.toNat ∧
          (limited g maxSteps attempts).FailsAfter (.ofSeed seed) words) := by
  have hg := consistent_limited hload maxSteps attempts
  obtain ⟨words, ⟨hlength, last, h⟩ | ⟨hlength, h⟩⟩ :=
    (limited g maxSteps attempts).exists_yields n.toNat (.ofSeed seed)
  · have hall := listWords_of_yields_all hg h 1
    rw [hlength] at hall
    rw [code_eq_zero, listing_eq hload, hall]
    exact ⟨words, rfl, .inl ⟨rfl, hlength, last, h⟩⟩
  · obtain ⟨houtput, hcode⟩ :=
      listing_of_failsAfter hload maxSteps attempts seed h hlength systemSeed
    exact ⟨words, houtput, .inr ⟨hcode, hlength, h⟩⟩

/-- **A list of random words grows with the count and is cut off where generation fails.**  For a file
that is loaded, and with the same seed and limits, the list of fewer words is the beginning of the list
of more, and ends well if that does, even if the system has another seed by then.  A list that ends well
has as many entries as were asked for; if the attempts at some word are exhausted, it has the entries
before that word and the program fails; and there is no third case.  Entries are numbered from one, of
the words that come one after another from the seed that is given, and the verdict is `true` in each. -/
theorem listing_prefix :
    (∀ n m systemSeed systemSeed', n ≤ m →
      (listing file contents maxSteps attempts seed systemSeed n).output <+:
          (listing file contents maxSteps attempts seed systemSeed' m).output ∧
        ((listing file contents maxSteps attempts seed systemSeed' m).code = 0 →
          (listing file contents maxSteps attempts seed systemSeed n).code = 0)) ∧
    (∀ n systemSeed, (listing file contents maxSteps attempts seed systemSeed n).code = 0 →
      ∃ words, words.length = n.toNat ∧
        (∃ last, (limited g maxSteps attempts).Yields (.ofSeed seed) words last) ∧
        (listing file contents maxSteps attempts seed systemSeed n).output =
          acceptedEntries 1 words) ∧
    (∀ n words systemSeed, (limited g maxSteps attempts).FailsAfter (.ofSeed seed) words →
      words.length < n.toNat →
        (listing file contents maxSteps attempts seed systemSeed n).output =
            acceptedEntries 1 words ∧
          (listing file contents maxSteps attempts seed systemSeed n).code = 1) ∧
    ∀ n systemSeed, ∃ words,
      (listing file contents maxSteps attempts seed systemSeed n).output =
          acceptedEntries 1 words ∧
        ((listing file contents maxSteps attempts seed systemSeed n).code = 0 ∧
            words.length = n.toNat ∧
            (∃ last, (limited g maxSteps attempts).Yields (.ofSeed seed) words last) ∨
          (listing file contents maxSteps attempts seed systemSeed n).code = 1 ∧
            words.length < n.toNat ∧
            (limited g maxSteps attempts).FailsAfter (.ofSeed seed) words) := by
  refine ⟨?_, ?_, ?_, fun n systemSeed =>
    listing_all_or_fails hload maxSteps attempts seed systemSeed n⟩
  · intro n m systemSeed systemSeed' hle
    rw [code_eq_zero, code_eq_zero, listing_eq hload, listing_eq hload]
    exact listWords_prefix (consistent_limited hload maxSteps attempts)
      (UInt64.le_iff_toNat_le.mp hle) 1 _
  · intro n systemSeed hcode
    obtain ⟨words, houtput, ⟨_, hlength, hyields⟩ | ⟨hcode', _⟩⟩ :=
      listing_all_or_fails hload maxSteps attempts seed systemSeed n
    · exact ⟨words, hlength, hyields, houtput⟩
    · rw [hcode] at hcode'
      cases hcode'
  · intro n words systemSeed h hlength
    exact listing_of_failsAfter hload maxSteps attempts seed h hlength systemSeed

end

/-- A file with a grammar that ends a word or goes on with it. -/
def coinFile : Storage.Contents := .ok "terminals: a b\nstart: S\nS -> aS | b\n".toUTF8

/-- The grammar of `coinFile`. -/
def coin : Grammar where
  nonterminals := OrdSet.ofList ["S"]
  terminals := OrdSet.ofList ['a', 'b']
  productions := Grammar.mergeRules [("S", ["aS", "b"])]
  start := "S"
  weights := ∅
  limits := {}
  alternatives := ⟨[("S", [⟨'a', some "S"⟩, ⟨'b', none⟩])], by decide⟩
  samplers := ∅

theorem ofFile_coinFile : Grammar.ofFile "coin.txt" coinFile = .ok coin := by decide +kernel

/-- With one attempt of one step, three words come and the fourth does not. -/
theorem coin_listing :
    Grammar.ofFile "coin.txt" coinFile = .ok coin ∧
    (listing "coin.txt" coinFile (some 0) (some 1) 6 0 2).output =
      "1. b  -> true\n2. b  -> true\n".toList ∧
    (listing "coin.txt" coinFile (some 0) (some 1) 6 9 5).output =
      "1. b  -> true\n2. b  -> true\n3. b  -> true\n".toList ∧
    (listing "coin.txt" coinFile (some 0) (some 1) 6 0 2).output <+:
      (listing "coin.txt" coinFile (some 0) (some 1) 6 9 5).output ∧
    (listing "coin.txt" coinFile (some 0) (some 1) 6 0 2).code = 0 ∧
    (listing "coin.txt" coinFile (some 0) (some 1) 6 9 5).code = 1 ∧
    ∃ words, words.length = 2 ∧
      (∃ last, (limited coin (some 0) (some 1)).Yields (.ofSeed 6) words last) ∧
      (listing "coin.txt" coinFile (some 0) (some 1) 6 0 2).output = acceptedEntries 1 words := by
  have hrun (systemSeed n : UInt64) :
      listing "coin.txt" coinFile (some 0) (some 1) 6 systemSeed n =
        listWords (coin.withLimits ⟨0, 1⟩) coin.toAutomaton n.toNat 1 (.ofSeed 6) :=
    listing_eq ofFile_coinFile (some 0) (some 1) 6 systemSeed n
  have hcode : (listing "coin.txt" coinFile (some 0) (some 1) 6 0 2).code = 0 := by
    rw [hrun]
    decide +kernel
  obtain ⟨hgrows, hall, _⟩ := listing_prefix ofFile_coinFile (some 0) (some 1) 6
  refine ⟨ofFile_coinFile, ?_, ?_, (hgrows 2 5 0 9 (by decide)).1, hcode, ?_, hall 2 0 hcode⟩
  all_goals
    rw [hrun]
    decide +kernel

end RightLinear.Command
