import RightLinear.Ordered.Map

/-! # Selection weights

Weights are given for alternatives of a nonterminal.  An alternative without an entry weighs one;
a nonterminal without a table of its own does not choose by weight at all.  A table may be empty,
which still makes its nonterminal a weighted one.  `weightOf_set` and `isWeighted_set` say what
setting a weight changes, `ofEntries_entries` that the entries of a table make it up again. -/

namespace RightLinear

/-- For each weighted nonterminal the weights of its alternatives. -/
structure Weights where
  table : OrdMap String (OrdMap String UInt32)
deriving DecidableEq

namespace Weights

/-- The weight of one alternative of a nonterminal. -/
structure Entry where
  nonterminal : String
  alternative : String
  weight : UInt32
deriving Repr, DecidableEq

instance : EmptyCollection Weights := ⟨⟨∅⟩⟩

instance : Inhabited Weights := ⟨∅⟩

theorem ext {v w : Weights} (h : v.table = w.table) : v = w := by
  cases v
  cases w
  cases h
  rfl

variable (w : Weights)

/-- Sets the weight of an alternative. -/
def set (nonterminal alternative : String) (weight : UInt32) : Weights :=
  ⟨w.table.alter nonterminal ∅ fun row => row.insert alternative weight⟩

/-- Sets the weights of the entries one after another, from nothing. -/
def ofEntries (entries : List Entry) : Weights :=
  entries.foldl (fun w e => w.set e.nonterminal e.alternative e.weight) ∅

/-- The weight of an alternative, one by default. -/
def weightOf (nonterminal alternative : String) : UInt32 :=
  ((w.table.get? nonterminal).bind fun row => row.get? alternative).getD 1

/-- Whether the nonterminal chooses by weight. -/
def isWeighted (nonterminal : String) : Bool := w.table.contains nonterminal

/-- Whether no nonterminal chooses by weight. -/
def isEmpty : Bool := w.table.isEmpty

/-- All weights, nonterminal by nonterminal. -/
def entries : List Entry :=
  w.table.entries.flatMap fun t => t.2.entries.map fun e => ⟨t.1, e.1, e.2⟩

theorem isEmpty_eq_true : w.isEmpty = true ↔ w = ∅ :=
  OrdMap.isEmpty_eq_true.trans ⟨fun h => ext h, fun h => h ▸ rfl⟩

/-- The weight that the table holds for an alternative of a nonterminal. -/
def lookup? (nonterminal alternative : String) : Option UInt32 :=
  (w.table.get? nonterminal).bind fun row => row.get? alternative

/-- Setting a weight replaces what the table holds for its alternative, and nothing else. -/
theorem lookup?_set (a r a' r' : String) (n : UInt32) :
    (w.set a r n).lookup? a' r' = if a' = a ∧ r' = r then some n else w.lookup? a' r' := by
  unfold lookup? set
  rw [OrdMap.get?_alter]
  by_cases ha : a' = a
  · subst ha
    rw [if_pos rfl, Option.bind_some, OrdMap.get?_insert]
    by_cases hr : r' = r
    · simp [hr]
    · cases h : w.table.get? a' <;> simp [hr]
  · simp [ha]

theorem weightOf_set (a r a' r' : String) (n : UInt32) :
    (w.set a r n).weightOf a' r' = if a' = a ∧ r' = r then n else w.weightOf a' r' := by
  show ((w.set a r n).lookup? a' r').getD 1 = _
  rw [lookup?_set]
  split
  · rfl
  · rfl

theorem mem_entries {e : Entry} :
    e ∈ w.entries ↔
      ((w.table.get? e.nonterminal).bind fun row => row.get? e.alternative) = some e.weight := by
  obtain ⟨a, r, n⟩ := e
  simp only [entries, List.mem_flatMap, List.mem_map, Option.bind_eq_some_iff, OrdMap.get?_eq_some,
    Entry.mk.injEq]
  constructor
  · rintro ⟨⟨a, row⟩, ht, ⟨r, n⟩, he, rfl, rfl, rfl⟩
    exact ⟨row, ht, he⟩
  · rintro ⟨row, ht, he⟩
    exact ⟨(a, row), ht, (r, n), he, rfl, rfl, rfl⟩

theorem isWeighted_set (a r a' : String) (n : UInt32) :
    (w.set a r n).isWeighted a' = (a' = a || w.isWeighted a') := by
  unfold isWeighted set OrdMap.contains
  rw [OrdMap.get?_alter]
  by_cases ha : a' = a <;> simp [ha]

theorem table_foldl_set (a : String) {row : List (String × UInt32)} (h : row ≠ []) (w : Weights) :
    ((row.map fun e => Entry.mk a e.1 e.2).foldl
      (fun w e => w.set e.nonterminal e.alternative e.weight) w).table =
      w.table.alter a ∅ fun r => row.foldl (fun r e => r.insert e.1 e.2) r := by
  induction row generalizing w with
  | nil => exact absurd rfl h
  | cons e row ih =>
      cases row with
      | nil => rfl
      | cons e' row =>
          rw [List.map_cons, List.foldl_cons, ih (List.cons_ne_nil _ _)]
          exact OrdMap.alter_alter _ _ _ _ _

/-- Setting the weights of rows that are not empty enters one row after another. -/
theorem table_foldl_rows {l : List (String × OrdMap String UInt32)}
    (h : ∀ t ∈ l, t.2.entries ≠ []) (w : Weights) :
    ((l.flatMap fun t => t.2.entries.map fun e => Entry.mk t.1 e.1 e.2).foldl
      (fun w e => w.set e.nonterminal e.alternative e.weight) w).table =
      l.foldl (fun m t => m.alter t.1 ∅ fun r =>
        t.2.entries.foldl (fun r e => r.insert e.1 e.2) r) w.table := by
  induction l generalizing w with
  | nil => rfl
  | cons t l ih =>
      rw [List.flatMap_cons, List.foldl_append, ih fun t ht => h t (List.mem_cons_of_mem _ ht),
        table_foldl_set t.1 (h t List.mem_cons_self) w, List.foldl_cons]

/-- Setting all weights of a table without empty rows one after another gives the table. -/
theorem ofEntries_entries (h : ∀ t ∈ w.table.entries, t.2.entries ≠ []) :
    ofEntries w.entries = w := by
  have hrow : ∀ r : OrdMap String UInt32, r.entries.foldl (fun r e => r.insert e.1 e.2) ∅ = r :=
    fun r => r.foldl_alter id (fun v _ => v) fun _ => rfl
  apply ext
  unfold ofEntries entries
  rw [table_foldl_rows h]
  exact w.table.foldl_alter (fun _ => ∅) (fun t r => t.entries.foldl (fun r e => r.insert e.1 e.2) r)
    hrow

/-- Both tables give the same weights to the same entries, in whatever order. -/
def same (v w : Weights) : Bool := v.table.sameEntries (OrdMap.sameEntries (· == ·)) w.table

theorem same_refl : w.same w = true :=
  OrdMap.sameEntries_refl (OrdMap.sameEntries_refl fun _ => beq_self_eq_true _) w.table

end Weights
end RightLinear
