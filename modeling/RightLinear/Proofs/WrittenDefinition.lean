import RightLinear.Definition.Json
import RightLinear.Proofs.WrittenParts

/-! # Definitions are read as they are written

Weights and limits are written as a table of tables and as a record (`Weights.written_json`,
`Limits.written_json`), a definition as a record of all its parts, its weights left out if there are
none (`Definition.written_json`).  A text that holds nothing else is then read whole
(`run_written`). -/

namespace RightLinear

open Json Json.Reader

/-! ### Weights -/

theorem Weights.written_json (style : Style) (depth : Nat) (w : Weights) :
    Written reader (w.json style depth) w := by
  have htable : Written (Json.table (Json.table word32)) (w.json style depth) w.table :=
    written_table (fun row : OrdMap String UInt32 => style.object (depth + 1)
        (row.entries.map fun e => (e.1.toList, natural e.2.toNat)))
      (fun t _ => written_table (fun n : UInt32 => natural n.toNat)
        (fun e _ => written_word32 e.2) style (depth + 1)) style depth
  refine ⟨htable.starts, ?_⟩
  intro blanks rest hblanks hrest
  unfold reader
  rw [bind_ok (htable.read hblanks hrest)]
  rfl

/-! ### Limits -/

theorem Limits.written_json (style : Style) (depth : Nat) (l : Limits) :
    Written reader (l.json style depth) l := by
  have henters : Enters style Fields.add {} [("max_steps".toList, natural l.maxSteps.toNat),
      ("max_attempts".toList, natural l.maxAttempts.toNat)] ⟨l.maxSteps, l.maxAttempts⟩ :=
    enters_field (written_word64 _) rfl rfl <| enters_field (written_word64 _) rfl rfl <| .nil _
  exact written_record henters (fun _ => rfl) _ _ depth

/-! ### Definitions -/

namespace Definition

theorem written_stringsJson (style : Style) (depth : Nat) (l : List String) :
    Written (list string) (stringsJson style depth l) l :=
  written_list (fun s _ => written_string s) style depth

/-- The fields of a definition, with its weights if it has any. -/
def jsonFields (style : Style) (d : Definition) : List (List Char × List Char) :=
  [("nonterminals".toList, stringsJson style 1 d.nonterminals),
    ("terminals".toList, style.array 1 (d.terminals.map fun t => encode [t])),
    ("productions".toList, style.object 1 <| d.productions.entries.map fun e =>
      (e.1.toList, stringsJson style 2 e.2)),
    ("start_symbol".toList, encode d.start.toList)] ++
  (if d.weights.isEmpty then [] else [("weights".toList, d.weights.json style 1)]) ++
  [("config".toList, d.limits.json style 1)]

theorem enters_jsonFields (style : Style) (d : Definition) :
    Enters style Fields.add {} (jsonFields style d)
      ⟨d.nonterminals, d.terminals, d.productions, d.start,
        if d.weights.isEmpty then none else d.weights, d.limits⟩ := by
  have hterminals : Written (list character)
      (style.array 1 (d.terminals.map fun t => encode [t])) d.terminals :=
    written_list (fun t _ => written_character t) style 1
  have hproductions : Written (table (list string)) (style.object 1 <|
      d.productions.entries.map fun e => (e.1.toList, stringsJson style 2 e.2)) d.productions :=
    written_table (stringsJson style 2) (fun e _ => written_stringsJson style 2 e.2) style 1
  refine enters_field (written_stringsJson style 1 _) rfl rfl <| enters_field hterminals rfl rfl <|
    enters_field hproductions rfl rfl <| enters_field (written_string _) rfl rfl ?_
  by_cases hw : d.weights.isEmpty = true
  · rw [if_pos hw, if_pos hw]
    exact enters_field (Limits.written_json style 1 _) rfl rfl <| .nil _
  · rw [if_neg hw, if_neg hw]
    exact enters_field (Weights.written_json style 1 _) rfl rfl <|
      enters_field (Limits.written_json style 1 _) rfl rfl <| .nil _

theorem getD_weights (w : Weights) : (if w.isEmpty then none else some w).getD ∅ = w := by
  by_cases hw : w.isEmpty = true
  · rw [if_pos hw]
    exact (w.isEmpty_eq_true.mp hw).symm
  · rw [if_neg hw]
    rfl

theorem written_json (style : Style) (d : Definition) : Written reader (d.json style) d := by
  refine written_record (enters_jsonFields style d) (fun s => ?_) _ _ 0
  show Except.ok (Definition.mk d.nonterminals d.terminals d.productions d.start
    ((if d.weights.isEmpty then none else some d.weights).getD ∅) d.limits, s) = .ok (d, s)
  rw [getD_weights]

end Definition

/-! ### Whole texts -/

theorem run_written {α : Type} {r : Reader α} {text : List Char} {a : α} (h : Written r text a) :
    run r text = .ok a := by
  have hread := h.read_front ends_nil
  rw [List.append_nil] at hread
  unfold run
  rw [hread]
  rfl

theorem Definition.ofJson_json (d : Definition) (style : Style) : ofJson (d.json style) = .ok d :=
  run_written (d.written_json style)

theorem Weights.ofJson_json (w : Weights) (style : Style) (depth : Nat) :
    ofJson (w.json style depth) = .ok w :=
  run_written (w.written_json style depth)

/-- **Definitions and weights are read back from JSON.**  The text of a definition, with indented
lines, is read as that definition, and the text of weights, without white space, as those weights:
whatever the characters of their names, with all numbers and all orders. -/
theorem ofJson_toJson (d : Definition) (w : Weights) :
    Definition.ofJson d.toJson = .ok d ∧ Weights.ofJson w.toJson = .ok w :=
  ⟨d.ofJson_json .pretty, w.ofJson_json .compact 0⟩

end RightLinear
