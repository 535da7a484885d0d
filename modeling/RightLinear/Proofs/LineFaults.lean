import RightLinear.Error
import RightLinear.Proofs.Drafts
import RightLinear.Proofs.Reading
import RightLinear.Proofs.WeightValues

/-! # Which texts are accepted

A text is read line by line.  A line is `Bad` if it says something and matches no pattern, lists a
terminal that is not one character, or gives a weight that is no ASCII number of 32 bits; `Faulty` says
what is reported about it, and `Says` what other lines say.  None of this depends on the other lines
(`check_eq_error`, `check_eq_ok`, `exists_says`).

Lines that are not bad enter what they say one after another (`readLines_append`), so the first bad line
ends the reading, and what is missing in the end is what no line has said.  `ofText_cases` puts this
together. -/

namespace RightLinear.Lines

open Text

/-! ### What lines say, and what is wrong with them -/

/-- What is wrong with a line. -/
inductive Faulty (s : List Char) : LineFault → Prop
  | unrecognized : ¬ Silent s → ¬ Recognized s → Faulty s (.unrecognized s)
  | longTerminal {body token : List Char} {before after : List (List Char)} :
      Declares "terminals".toList body s → words body = before ++ token :: after →
      (∀ t ∈ before, t.length = 1) → token.length ≠ 1 → Faulty s (.longTerminal token)
  | weight {left alternative digits : List Char} {fault : LineFault} :
      Weighs left alternative digits s → DigitFault 0 digits fault → Faulty s fault

/-- The line says something that cannot be accepted. -/
def Bad (s : List Char) : Prop :=
  (¬ Silent s ∧ ¬ Recognized s) ∨
    (∃ body, Declares "terminals".toList body s ∧ ∃ token ∈ words body, token.length ≠ 1) ∨
    ∃ left alternative digits, Weighs left alternative digits s ∧ ¬ Fits 0 digits

/-- What a line says; a silent line says nothing. -/
inductive Says (s : List Char) : Option Directive → Prop
  | silent : Silent s → Says s none
  | nonterminals {body : List Char} : Declares "nonterminals".toList body s →
      Says s (some (.nonterminals ((words body).map String.ofList)))
  | terminals {body symbols : List Char} : Declares "terminals".toList body s →
      List.Forall₂ (fun token symbol => token = [symbol]) (words body) symbols →
      Says s (some (.terminals symbols))
  | start {name : List Char} : Starts name s → Says s (some (.start (String.ofList name)))
  | weight {left alternative digits : List Char} : LastWeighs left alternative digits s →
      Fits 0 digits → Says s (some (.weight (String.ofList left) (String.ofList alternative)
        (Nat.ofDigitChars 10 digits 0).toUInt32))
  | production {left body : List Char} : HasKind s .production → LastRules left body s →
      Says s (some (.production (String.ofList left)
        (((fields '|' body).map trim).map String.ofList)))

/-- The trimmed lines of a text. -/
def linesOf (text : List Char) : List (List Char) := (fields '\n' text).map trim

/-- What is wrong with a text of the given lines. -/
inductive FirstFault (lines : List (List Char)) : Fault → Prop
  | line {before after : List (List Char)} {s : List Char} {fault : LineFault} :
      lines = before ++ s :: after → (∀ t ∈ before, ¬ Bad t) → Faulty s fault →
      FirstFault lines (.line (before.length + 1) fault)
  | missingStart : (∀ s ∈ lines, ¬ Bad s) → (∀ s ∈ lines, ¬ ∃ name, Starts name s) →
      FirstFault lines .missingStart
  | missingTerminals : (∀ s ∈ lines, ¬ Bad s) → (∃ s ∈ lines, ∃ name, Starts name s) →
      (∀ s ∈ lines, ¬ ∃ body, Declares "terminals".toList body s) →
      FirstFault lines .missingTerminals

/-! ### One line -/

theorem singleChar_eq_ok {token : List Char} {c : Char} : singleChar token = .ok c ↔ token = [c] := by
  cases token with
  | nil => simp [singleChar]
  | cons d token => cases token <;> simp [singleChar]

theorem exists_singleChar {token : List Char} :
    (∃ c, singleChar token = .ok c) ↔ token.length = 1 := by
  simp only [singleChar_eq_ok, List.length_eq_one_iff]

theorem singleChar_eq_error {token : List Char} {fault : LineFault} :
    singleChar token = .error fault ↔ token.length ≠ 1 ∧ fault = .longTerminal token := by
  cases token with
  | nil => simp [singleChar, eq_comm]
  | cons c token => cases token <;> simp [singleChar, eq_comm]

/-- A line is refused for what is wrong with it, whatever the other lines are. -/
theorem check_eq_error {s : List Char} {fault : LineFault} :
    (Form.ofLine s).check = .error fault ↔ Faulty s fault := by
  constructor
  · intro h
    have hform := hasForm_ofLine s
    generalize Form.ofLine s = form at h hform
    cases hform with
    | silent _ => cases h
    | nonterminals _ => cases h
    | terminals hbody =>
        obtain ⟨before, token, after, hwords, hbefore, htoken⟩ := mapM_eq_error.mp (map_eq_error.mp h)
        obtain ⟨hlength, rfl⟩ := singleChar_eq_error.mp htoken
        exact .longTerminal hbody hwords (fun t ht => exists_singleChar.mp (hbefore t ht)) hlength
    | start _ => cases h
    | weight hparts =>
        exact .weight hparts.1 ((weightValue_eq_error (by decide)).mp (map_eq_error.mp h))
    | production _ _ => cases h
    | unknown hs hnone =>
        cases h
        exact .unrecognized hs hnone
  · intro h
    cases h with
    | unrecognized hs hnone => rw [ofLine_of_not_recognized hs hnone, Form.check]
    | longTerminal hbody hwords hbefore htoken =>
        rw [ofLine_of_terminals hbody, Form.check]
        refine map_eq_error.mpr (mapM_eq_error.mpr ⟨_, _, _, hwords, ?_, ?_⟩)
        · exact fun t ht => exists_singleChar.mpr (hbefore t ht)
        · exact singleChar_eq_error.mpr ⟨htoken, rfl⟩
    | weight hparts hfault =>
        obtain ⟨left, alternative, hform⟩ := exists_ofLine_of_weighs hparts
        rw [hform, Form.check]
        exact map_eq_error.mpr ((weightValue_eq_error (by decide)).mpr hfault)

/-- What is bad about a line is that it is refused. -/
theorem exists_faulty {s : List Char} : (∃ fault, Faulty s fault) ↔ Bad s := by
  constructor
  · rintro ⟨fault, h⟩
    cases h with
    | unrecognized hs hnone => exact .inl ⟨hs, hnone⟩
    | @longTerminal body token before after hbody hwords _ htoken =>
        exact .inr (.inl ⟨body, hbody, token, by simp [hwords], htoken⟩)
    | @weight left alternative digits _ hparts hfault =>
        refine .inr (.inr ⟨left, alternative, digits, hparts, fun hfits => ?_⟩)
        obtain ⟨w, hw⟩ := (exists_weightValue (by decide)).mpr hfits
        cases hw.symm.trans ((weightValue_eq_error (by decide)).mpr hfault)
  · rintro (⟨hs, hnone⟩ | ⟨body, hbody, token, htoken, hlength⟩ | ⟨_, _, digits, hparts, hfits⟩)
    · exact ⟨_, .unrecognized hs hnone⟩
    · cases hread : (words body).mapM singleChar with
      | error fault =>
          refine ⟨fault, check_eq_error.mp ?_⟩
          rw [ofLine_of_terminals hbody, Form.check]
          exact map_eq_error.mpr hread
      | ok symbols =>
          exact absurd (exists_singleChar.mp (exists_mapM.mp ⟨_, hread⟩ token htoken)) hlength
    · cases hread : weightValue 0 digits with
      | error fault => exact ⟨fault, .weight hparts ((weightValue_eq_error (by decide)).mp hread)⟩
      | ok w => exact absurd ((exists_weightValue (by decide)).mp ⟨w, hread⟩) hfits

theorem exists_check {s : List Char} : (∃ said, (Form.ofLine s).check = .ok said) ↔ ¬ Bad s := by
  rw [← exists_faulty]
  simp only [← check_eq_error]
  cases (Form.ofLine s).check <;> simp

/-- A line is accepted for what it says. -/
theorem check_eq_ok {s : List Char} {said : Option Directive} :
    (Form.ofLine s).check = .ok said ↔ Says s said := by
  constructor
  · intro h
    have hform := hasForm_ofLine s
    have hkind : ∀ kind, (Form.ofLine s).kind? = some kind → HasKind s kind :=
      fun _ => kindOf?_eq_some.mp
    generalize Form.ofLine s = form at h hform hkind
    cases hform with
    | silent hs =>
        cases h
        exact .silent hs
    | nonterminals hbody =>
        cases h
        exact .nonterminals hbody
    | terminals hbody =>
        obtain ⟨symbols, hread, rfl⟩ := map_eq_ok.mp h
        exact .terminals hbody ((mapM_eq_ok.mp hread).imp fun _ _ => singleChar_eq_ok.mp)
    | start hname =>
        cases h
        exact .start hname
    | weight hparts =>
        obtain ⟨w, hread, rfl⟩ := map_eq_ok.mp h
        have hfits := (exists_weightValue (by decide)).mp ⟨w, hread⟩
        cases hread.symm.trans (weightValue_of_fits hfits)
        exact .weight hparts hfits
    | production _ hparts =>
        cases h
        exact .production (hkind .production rfl) hparts
    | unknown _ _ => cases h
  · intro h
    cases h with
    | silent hs => rw [ofLine_of_silent hs, Form.check]
    | nonterminals hbody => rw [ofLine_of_nonterminals hbody, Form.check]
    | terminals hbody hsymbols =>
        rw [ofLine_of_terminals hbody, Form.check]
        have hread := mapM_eq_ok.mpr (hsymbols.imp fun _ _ => singleChar_eq_ok.mpr)
        exact map_eq_ok.mpr ⟨_, hread, rfl⟩
    | start hname => rw [ofLine_of_starts hname, Form.check]
    | weight hparts hfits =>
        rw [ofLine_of_lastWeighs hparts, Form.check]
        exact map_eq_ok.mpr ⟨_, weightValue_of_fits hfits, rfl⟩
    | production hkind hparts => rw [ofLine_of_lastRules hkind hparts, Form.check]

theorem Says.unique {s : List Char} {said said' : Option Directive} (h : Says s said)
    (h' : Says s said') : said = said' :=
  Except.ok.inj ((check_eq_ok.mpr h).symm.trans (check_eq_ok.mpr h'))

theorem exists_says {s : List Char} : (∃ said, Says s said) ↔ ¬ Bad s := by
  simp only [← check_eq_ok]
  exact exists_check

theorem exists_says_start {s : List Char} :
    (∃ name, Says s (some (.start name))) ↔ ∃ name, Starts name s := by
  constructor
  · rintro ⟨_, h⟩
    cases h with
    | start hname => exact ⟨_, hname⟩
  · rintro ⟨name, h⟩
    exact ⟨_, .start h⟩

theorem exists_says_terminals {s : List Char} (hs : ¬ Bad s) :
    (∃ symbols, Says s (some (.terminals symbols))) ↔
      ∃ body, Declares "terminals".toList body s := by
  constructor
  · rintro ⟨_, h⟩
    cases h with
    | terminals hbody _ => exact ⟨_, hbody⟩
  · rintro ⟨body, h⟩
    have hlengths : ∀ token ∈ words body, ∃ c, singleChar token = .ok c := by
      intro token htoken
      refine exists_singleChar.mpr ?_
      by_contra hlength
      exact hs (.inr (.inl ⟨body, h, token, htoken, hlength⟩))
    obtain ⟨symbols, hread⟩ := exists_mapM.mpr hlengths
    exact ⟨symbols, .terminals h ((mapM_eq_ok.mp hread).imp fun _ _ => singleChar_eq_ok.mp)⟩

/-! ### Texts -/

theorem exists_said {lines : List (List Char)} (h : ∀ s ∈ lines, ¬ Bad s) :
    ∃ said, List.Forall₂ Says lines said := by
  obtain ⟨said, hsaid⟩ := exists_mapM.mpr fun s hs => exists_check.mpr (h s hs)
  exact ⟨said, (mapM_eq_ok.mp hsaid).imp fun _ _ => check_eq_ok.mp⟩

theorem exists_first_bad {lines : List (List Char)} (h : ¬ ∀ s ∈ lines, ¬ Bad s) :
    ∃ before s after fault, lines = before ++ s :: after ∧ (∀ t ∈ before, ¬ Bad t) ∧
      Faulty s fault := by
  cases hread : lines.mapM fun s => (Form.ofLine s).check with
  | ok said => exact absurd (fun s hs => exists_check.mp (exists_mapM.mp ⟨said, hread⟩ s hs)) h
  | error fault =>
      obtain ⟨before, s, after, hlines, hbefore, hs⟩ := mapM_eq_error.mp hread
      exact ⟨before, s, after, fault, hlines, fun t ht => exists_check.mp (hbefore t ht),
        check_eq_error.mp hs⟩

theorem forall₂_readLine {lines : List (List Char)} {said : List (Option Directive)}
    (h : List.Forall₂ Says (lines.map trim) said) :
    List.Forall₂ (fun s x => readLine s = .ok x) lines said :=
  (List.forall₂_map_left_iff.mp h).imp fun _ _ => check_eq_ok.mpr

theorem ofText_of_faulty {text : List Char} {before after : List (List Char)} {s : List Char}
    {fault : LineFault} (hlines : linesOf text = before ++ s :: after)
    (hbefore : ∀ t ∈ before, ¬ Bad t) (hs : Faulty s fault) :
    Definition.ofText text = .error (.line (before.length + 1) fault) := by
  obtain ⟨front, back, htext, hfront, hback⟩ := List.map_eq_append_iff.mp hlines
  obtain ⟨line, rest, rfl, rfl, _⟩ := List.map_eq_cons_iff.mp hback
  obtain ⟨said, hsaid⟩ := exists_said hbefore
  have hread : readLine line = .error fault := check_eq_error.mpr hs
  unfold Definition.ofText
  rw [htext, readLines_append (forall₂_readLine (hfront ▸ hsaid)), readLines, hread, ← hfront,
    List.length_map, Nat.add_comm]

theorem ofText_of_said {text : List Char} {said : List (Option Directive)}
    (h : List.Forall₂ Says (linesOf text) said) :
    Definition.ofText text = (said.reduceOption.foldl Draft.add {}).finish := by
  have hread := readLines_append (forall₂_readLine h) 1 [] {}
  rw [List.append_nil, readLines] at hread
  unfold Definition.ofText
  rw [hread]

variable {lines : List (List Char)} {said : List (Option Directive)}

theorem mem_reduceOption_iff (h : List.Forall₂ Says lines said) {x : Directive} :
    x ∈ said.reduceOption ↔ ∃ s ∈ lines, Says s (some x) := by
  rw [List.reduceOption_mem_iff]
  constructor
  · intro hx
    exact exists_mem_of_forall₂ h.flip hx
  · rintro ⟨s, hs, hx⟩
    obtain ⟨y, hy, hsy⟩ := exists_mem_of_forall₂ h hs
    cases hx.unique hsy
    exact hy

theorem exists_start_iff (h : List.Forall₂ Says lines said) :
    (∃ name, .start name ∈ said.reduceOption) ↔ ∃ s ∈ lines, ∃ name, Starts name s := by
  simp only [mem_reduceOption_iff h, ← exists_says_start]
  exact ⟨fun ⟨name, s, hs, hname⟩ => ⟨s, hs, name, hname⟩,
    fun ⟨s, hs, name, hname⟩ => ⟨name, s, hs, hname⟩⟩

theorem exists_terminals_iff (hlines : ∀ s ∈ lines, ¬ Bad s) (h : List.Forall₂ Says lines said) :
    (∃ symbols, .terminals symbols ∈ said.reduceOption) ↔
      ∃ s ∈ lines, ∃ body, Declares "terminals".toList body s := by
  simp only [mem_reduceOption_iff h]
  constructor
  · rintro ⟨symbols, s, hs, hsymbols⟩
    exact ⟨s, hs, (exists_says_terminals (hlines s hs)).mp ⟨symbols, hsymbols⟩⟩
  · rintro ⟨s, hs, hbody⟩
    obtain ⟨symbols, hsymbols⟩ := (exists_says_terminals (hlines s hs)).mpr hbody
    exact ⟨symbols, s, hs, hsymbols⟩

/-! ### The whole text -/

theorem ofText_of_firstFault {text : List Char} {fault : Fault}
    (h : FirstFault (linesOf text) fault) : Definition.ofText text = .error fault := by
  cases h with
  | line hlines hbefore hs => exact ofText_of_faulty hlines hbefore hs
  | missingStart hlines hstart =>
      obtain ⟨said, hsaid⟩ := exists_said hlines
      rw [ofText_of_said hsaid]
      refine finish_of_missing_start fun name hname => ?_
      obtain ⟨s, hs, h⟩ := (exists_start_iff hsaid).mp ⟨name, hname⟩
      exact hstart s hs h
  | missingTerminals hlines hstart hterminals =>
      obtain ⟨said, hsaid⟩ := exists_said hlines
      rw [ofText_of_said hsaid]
      refine finish_of_missing_terminals ((exists_start_iff hsaid).mpr hstart) fun symbols hsymbols => ?_
      obtain ⟨s, hs, h⟩ := (exists_terminals_iff hlines hsaid).mp ⟨symbols, hsymbols⟩
      exact hterminals s hs h

theorem exists_ofText {text : List Char} (hlines : ∀ s ∈ linesOf text, ¬ Bad s)
    (hstart : ∃ s ∈ linesOf text, ∃ name, Starts name s)
    (hterminals : ∃ s ∈ linesOf text, ∃ body, Declares "terminals".toList body s) :
    ∃ d, Definition.ofText text = .ok d := by
  obtain ⟨said, hsaid⟩ := exists_said hlines
  simp only [ofText_of_said hsaid, finish_foldl_add]
  exact exists_makes ((exists_start_iff hsaid).mpr hstart)
    ((exists_terminals_iff hlines hsaid).mpr hterminals)

/-- Lines without a fault are not bad, and say a start symbol and terminals. -/
theorem firstFault_or (lines : List (List Char)) :
    (∃ fault, FirstFault lines fault) ∨ ((∀ s ∈ lines, ¬ Bad s) ∧
      (∃ s ∈ lines, ∃ name, Starts name s) ∧
      ∃ s ∈ lines, ∃ body, Declares "terminals".toList body s) := by
  by_cases hlines : ∀ s ∈ lines, ¬ Bad s
  · by_cases hstart : ∃ s ∈ lines, ∃ name, Starts name s
    · by_cases hterminals : ∃ s ∈ lines, ∃ body, Declares "terminals".toList body s
      · exact .inr ⟨hlines, hstart, hterminals⟩
      · exact .inl ⟨_, .missingTerminals hlines hstart fun s hs h => hterminals ⟨s, hs, h⟩⟩
    · exact .inl ⟨_, .missingStart hlines fun s hs h => hstart ⟨s, hs, h⟩⟩
  · obtain ⟨before, s, after, fault, heq, hbefore, hs⟩ := exists_first_bad hlines
    exact .inl ⟨_, .line heq hbefore hs⟩

end RightLinear.Lines

namespace RightLinear.Definition

open Lines

theorem ofText_eq_ok {text : List Char} {d : Definition} :
    ofText text = .ok d ↔
      ∃ said, List.Forall₂ Says (linesOf text) said ∧ Makes said.reduceOption d := by
  constructor
  · intro h
    rcases firstFault_or (linesOf text) with ⟨fault, hfault⟩ | ⟨hlines, _, _⟩
    · cases h.symm.trans (ofText_of_firstFault hfault)
    · obtain ⟨said, hsaid⟩ := exists_said hlines
      exact ⟨said, hsaid, finish_foldl_add.mp ((ofText_of_said hsaid).symm.trans h)⟩
  · rintro ⟨said, hsaid, hmakes⟩
    exact (ofText_of_said hsaid).trans (finish_foldl_add.mpr hmakes)

/-- **A text is accepted if it has no bad line and nothing is missing, and the first fault is reported.**
A bad line is one that says something and matches no pattern, lists a terminal that is not one character,
or gives a weight that is no ASCII number of 32 bits.  A text without bad lines that has a start line and
a line of terminals is accepted, as what its lines say makes up when it is entered in order; only blank
lines and comments say nothing.  Otherwise the error is a parse error: it names the number of the first bad
line, all lines counted from one, whatever else is missing; without bad lines a missing start symbol is
reported before missing terminals. -/
theorem ofText_cases (text : List Char) :
    ((∃ d, ofText text = .ok d) ↔ (∀ s ∈ linesOf text, ¬ Bad s) ∧
      (∃ s ∈ linesOf text, ∃ name, Starts name s) ∧
      ∃ s ∈ linesOf text, ∃ body, Declares "terminals".toList body s) ∧
    (∀ d, ofText text = .ok d ↔ ∃ said, List.Forall₂ Says (linesOf text) said ∧
      (said.reduceOption.foldl Draft.add {}).finish = .ok d ∧ Makes said.reduceOption d) ∧
    (∀ fault, ofText text = .error fault ↔ FirstFault (linesOf text) fault) ∧
    ∀ number fault, (Error.lines (.line number fault)).message =
      "Parse error: line " ++ toString number ++ ": " ++ fault.message := by
  refine ⟨⟨?_, fun ⟨hlines, hstart, hterminals⟩ => exists_ofText hlines hstart hterminals⟩, ?_, ?_, ?_⟩
  · rintro ⟨d, hd⟩
    rcases firstFault_or (linesOf text) with ⟨fault, hfault⟩ | hnone
    · cases hd.symm.trans (ofText_of_firstFault hfault)
    · exact hnone
  · intro d
    rw [ofText_eq_ok]
    simp only [finish_foldl_add, and_self]
  · intro fault
    constructor
    · intro h
      rcases firstFault_or (linesOf text) with ⟨first, hfirst⟩ | ⟨hlines, hstart, hterminals⟩
      · cases h.symm.trans (ofText_of_firstFault hfirst)
        exact hfirst
      · obtain ⟨d, hd⟩ := exists_ofText hlines hstart hterminals
        cases h.symm.trans hd
    · exact ofText_of_firstFault
  · intro number fault
    have hlead : "Parse error: line " = "Parse error: " ++ "line " := rfl
    rw [hlead, String.append_assoc, String.append_assoc, String.append_assoc]
    show "Parse error: " ++ ("line " ++ toString number ++ ": " ++ fault.message) = _
    rw [String.append_assoc, String.append_assoc]

/-- A text whose third line is bad; the next is bad as well, and there is no start line. -/
def garbled : List Char := "# rules\n\n S => a\r\nterminals: ab\n".toList

/-- A text with its rule in front of the declarations. -/
def upended : List Char := "S->a\r\n\n# declarations\nterminals: a\nstart: S".toList

theorem garbled_ofText :
    ofText garbled = .error (.line 3 (.unrecognized "S => a".toList)) ∧
    ∃ d said, ofText upended = .ok d ∧ List.Forall₂ Says (linesOf upended) said ∧
      said.reduceOption = [.production "S" ["a"], .terminals ['a'], .start "S"] ∧
      (said.reduceOption.foldl Draft.add {}).finish = .ok d ∧ Makes said.reduceOption d := by
  have hgarbled : linesOf garbled =
      ["# rules".toList, []] ++ "S => a".toList :: ["terminals: ab".toList, []] := by decide
  have hupended : linesOf upended =
      ["S->a".toList, [], "# declarations".toList, "terminals: a".toList, "start: S".toList] := by
    decide
  constructor
  · refine ((ofText_cases garbled).2.2.1 _).mpr (.line hgarbled ?_ (check_eq_error.mp rfl))
    simp only [List.forall_mem_cons, ← exists_says, ← check_eq_ok]
    exact ⟨⟨_, rfl⟩, ⟨_, rfl⟩, by simp⟩
  · have hsaid : List.Forall₂ Says (linesOf upended)
        [some (.production "S" ["a"]), none, none, some (.terminals ['a']), some (.start "S")] := by
      rw [hupended]
      simp only [List.forall₂_cons, ← check_eq_ok]
      exact ⟨rfl, rfl, rfl, rfl, rfl, .nil⟩
    obtain ⟨d, hmakes⟩ : ∃ d, Makes [.production "S" ["a"], .terminals ['a'], .start "S"] d :=
      exists_makes ⟨"S", by decide⟩ ⟨['a'], by decide⟩
    have hfinish := finish_foldl_add.mpr hmakes
    exact ⟨d, _, ((ofText_cases upended).2.1 d).mpr ⟨_, hsaid, hfinish, hmakes⟩, hsaid, rfl, hfinish,
      hmakes⟩

end RightLinear.Definition
