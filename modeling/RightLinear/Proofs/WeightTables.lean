import Mathlib.Data.List.Nodup
import Mathlib.Data.Prod.Basic
import RightLinear.Grammar.Weights
import RightLinear.Ordered.Fold

/-! # Tables of weights that are set

Setting a weight replaces what was set for the same nonterminal and alternative and leaves the rest as it
is (`Weights.lookup?_set`).  So after any number of weights the one that was set last for a pair stands in the table,
and only pairs for which one was set stand there (`mem_entries_ofEntries`).

The order is that of the first settings, on both levels: nonterminals stand where each was named first, and in
the row of a nonterminal its alternatives stand where each was given a weight first (`entries_ofEntries`).  No row
is empty, so the entries of the table make it up again (`ofEntries_tabulates`). -/

namespace RightLinear.Weights

/-- The entries for one pair, in order. -/
def setFor (entries : List Entry) (nonterminal alternative : String) : List Entry :=
  entries.filter fun e => e.nonterminal = nonterminal ∧ e.alternative = alternative

variable {entries : List Entry} {w : Weights}

theorem lookup?_foldl_set (entries : List Entry) (w : Weights) (a r : String) :
    (entries.foldl (fun w e => w.set e.nonterminal e.alternative e.weight) w).lookup? a r =
      ((setFor entries a r).getLast?.map (·.weight)).or (w.lookup? a r) := by
  induction entries generalizing w with
  | nil => rfl
  | cons e entries ih =>
      rw [List.foldl_cons, ih, lookup?_set]
      by_cases he : e.nonterminal = a ∧ e.alternative = r
      · have hfirst : setFor (e :: entries) a r = e :: setFor entries a r :=
          List.filter_cons_of_pos (decide_eq_true he)
        rw [if_pos ⟨he.1.symm, he.2.symm⟩, hfirst, List.getLast?_cons]
        cases (setFor entries a r).getLast? <;> rfl
      · have hother : setFor (e :: entries) a r = setFor entries a r :=
          List.filter_cons_of_neg (by simpa using he)
        rw [if_neg fun h => he ⟨h.1.symm, h.2.symm⟩, hother]

theorem lookup?_ofEntries (entries : List Entry) (a r : String) :
    (ofEntries entries).lookup? a r = (setFor entries a r).getLast?.map (·.weight) := by
  rw [ofEntries, lookup?_foldl_set]
  exact Option.or_none

/-- The table holds for every pair the last entry that is set for it. -/
theorem mem_entries_ofEntries {e : Entry} :
    e ∈ (ofEntries entries).entries ↔
      (setFor entries e.nonterminal e.alternative).getLast? = some e := by
  rw [mem_entries, ← lookup?, lookup?_ofEntries, Option.map_eq_some_iff]
  constructor
  · rintro ⟨f, hf, hweight⟩
    have hmem : f ∈ setFor entries e.nonterminal e.alternative := List.mem_of_getLast? hf
    obtain ⟨-, hpair⟩ := List.mem_filter.mp hmem
    obtain ⟨hleft, hright⟩ := of_decide_eq_true hpair
    have hsame : f = e := by
      cases f
      cases e
      cases hleft
      cases hright
      cases hweight
      rfl
    rw [hf, hsame]
  · exact fun he => ⟨e, he, rfl⟩

/-! ### Rows and their order -/

/-- The row that the entries of a nonterminal fill. -/
def rowFor (entries : List Entry) (nonterminal : String) : OrdMap String UInt32 :=
  (entries.filter fun e => e.nonterminal = nonterminal).foldl
    (fun row e => row.insert e.alternative e.weight) ∅

theorem table_ofEntries (entries : List Entry) :
    (ofEntries entries).table = entries.foldl (fun table e =>
      table.alter e.nonterminal ∅ fun row => row.insert e.alternative e.weight) ∅ := by
  have hfold : ∀ w : Weights,
      (entries.foldl (fun w e => w.set e.nonterminal e.alternative e.weight) w).table =
        entries.foldl (fun table e =>
          table.alter e.nonterminal ∅ fun row => row.insert e.alternative e.weight) w.table := by
    induction entries with
    | nil => exact fun w => rfl
    | cons e entries ih => exact fun w => ih (w.set e.nonterminal e.alternative e.weight)
  exact hfold ∅

theorem keys_table_ofEntries (entries : List Entry) :
    (ofEntries entries).table.keys = (entries.map (·.nonterminal)).eraseDups := by
  rw [table_ofEntries]
  exact OrdMap.keys_foldl_alter_empty Entry.nonterminal (fun _ => ∅)
    (fun e row => OrdMap.insert row e.alternative e.weight) entries

theorem get?_table_ofEntries {a : String} (ha : a ∈ entries.map (·.nonterminal)) :
    (ofEntries entries).table.get? a = some (rowFor entries a) := by
  rw [table_ofEntries]
  exact OrdMap.get?_foldl_alter_empty Entry.nonterminal ∅
    (fun e row => OrdMap.insert row e.alternative e.weight) ha

theorem keys_rowFor (entries : List Entry) (a : String) :
    (rowFor entries a).keys =
      ((entries.filter fun e => e.nonterminal = a).map (·.alternative)).eraseDups :=
  OrdMap.keys_foldl_alter_empty Entry.alternative Entry.weight (fun e _ => e.weight) _

/-! ### The table -/

/-- The weight that is set last for an alternative; one if none is set. -/
def lastWeight (entries : List Entry) (nonterminal alternative : String) : UInt32 :=
  ((setFor entries nonterminal alternative).getLast?.map (·.weight)).getD 1

/-- Nonterminal by nonterminal, each where it is named first, and in it alternative by alternative, each
where it is given a weight first, with the last weight of each. -/
def tabulated (entries : List Entry) : List Entry :=
  (entries.map (·.nonterminal)).eraseDups.flatMap fun a =>
    ((entries.filter fun e => e.nonterminal = a).map (·.alternative)).eraseDups.map fun r =>
      ⟨a, r, lastWeight entries a r⟩

theorem weightOf_ofEntries (entries : List Entry) (a r : String) :
    (ofEntries entries).weightOf a r = lastWeight entries a r := by
  show ((ofEntries entries).lookup? a r).getD 1 = _
  rw [lookup?_ofEntries]
  rfl

theorem get?_rowFor {a r : String} (ha : a ∈ entries.map (·.nonterminal))
    (hr : r ∈ (rowFor entries a).keys) :
    (rowFor entries a).get? r = some (lastWeight entries a r) := by
  obtain ⟨n, hn⟩ := OrdMap.mem_keys.mp hr
  have hlookup := lookup?_ofEntries entries a r
  rw [lookup?, get?_table_ofEntries ha, Option.bind_some] at hlookup
  rw [lastWeight, ← hlookup, hn, Option.getD_some]

/-- The entries of a table are grouped and ordered by first settings. -/
theorem entries_ofEntries (entries : List Entry) :
    (ofEntries entries).entries = tabulated entries := by
  have hrow : ∀ a ∈ (ofEntries entries).table.keys,
      (ofEntries entries).table.get? a = some (rowFor entries a) := by
    intro a ha
    rw [keys_table_ofEntries, List.mem_eraseDups] at ha
    exact get?_table_ofEntries ha
  unfold Weights.entries tabulated
  rw [OrdMap.entries_eq_map hrow, List.flatMap_map, keys_table_ofEntries]
  apply List.flatMap_congr
  intro a ha
  rw [List.mem_eraseDups] at ha
  rw [OrdMap.entries_eq_map fun r hr => get?_rowFor ha hr, List.map_map, keys_rowFor]
  rfl

theorem nodup_pairs (w : Weights) :
    (w.entries.map fun e => (e.nonterminal, e.alternative)).Nodup := by
  unfold Weights.entries
  rw [List.map_flatMap, List.nodup_flatMap]
  constructor
  · rintro ⟨a, row⟩ _
    have hpairs : (row.entries.map fun e => Entry.mk a e.1 e.2).map
        (fun e => (e.nonterminal, e.alternative)) = row.keys.map (Prod.mk a) := by
      rw [List.map_map, OrdMap.keys, List.map_map]
      rfl
    rw [hpairs]
    exact row.nodup.map (Prod.mk_right_injective a)
  · -- Entries of different rows differ in the nonterminal.
    have hkeys : w.table.entries.Pairwise fun t u => t.1 ≠ u.1 := List.pairwise_map.mp w.table.nodup
    refine hkeys.imp fun {t u} hne => ?_
    intro pair ht hu
    simp only [List.mem_map] at ht hu
    obtain ⟨_, ⟨_, _, rfl⟩, rfl⟩ := ht
    obtain ⟨_, ⟨_, _, rfl⟩, heq⟩ := hu
    exact hne (congrArg Prod.fst heq).symm

theorem isWeighted_ofEntries {a : String} :
    (ofEntries entries).isWeighted a = true ↔ ∃ e ∈ entries, e.nonterminal = a := by
  unfold isWeighted
  rw [OrdMap.contains_eq_true, keys_table_ofEntries, List.mem_eraseDups, List.mem_map]

theorem isEmpty_ofEntries : (ofEntries entries).isEmpty = true ↔ entries = [] := by
  rw [isEmpty_eq_true]
  constructor
  · intro hempty
    refine List.eq_nil_iff_forall_not_mem.mpr fun e he => ?_
    have hweighted : (ofEntries entries).isWeighted e.nonterminal = true :=
      isWeighted_ofEntries.mpr ⟨e, he, rfl⟩
    rw [hempty] at hweighted
    cases hweighted
  · rintro rfl
    rfl

theorem row_ne_nil : ∀ t ∈ (ofEntries entries).table.entries, t.2.entries ≠ [] := by
  rintro ⟨a, row⟩ ht hnil
  have hrow : (ofEntries entries).table.get? a = some row := OrdMap.get?_eq_some.mpr ht
  have ha : a ∈ (ofEntries entries).table.keys := OrdMap.mem_keys.mpr ⟨row, hrow⟩
  rw [keys_table_ofEntries, List.mem_eraseDups] at ha
  obtain rfl : rowFor entries a = row := Option.some.inj ((get?_table_ofEntries ha).symm.trans hrow)
  obtain ⟨e, he, rfl⟩ := List.mem_map.mp ha
  have hkey : e.alternative ∈ (rowFor entries e.nonterminal).keys := by
    rw [keys_rowFor, List.mem_eraseDups]
    exact List.mem_map_of_mem (List.mem_filter.mpr ⟨he, decide_eq_true rfl⟩)
  have hnone : (rowFor entries e.nonterminal).keys = [] := congrArg (List.map Prod.fst) hnil
  rw [hnone] at hkey
  cases hkey

/-- **A table of weights holds what was set last, in the order in which it was set first.**  After any
sequence of settings an alternative has the weight that was set last for it, or one if none was.  A
nonterminal is weighted exactly if some weight was set for it, and there are no weights at all exactly if none
was set.  The entries are the pairs for which a weight was set, each of them once and with its last weight;
they are grouped by nonterminals, in the order in which these were named first, and in a group they stand in
the order in which the alternatives were given a weight first.  Setting the entries one after another makes the
same table again. -/
theorem ofEntries_tabulates (settings : List Entry) :
    (∀ a r, (ofEntries settings).weightOf a r = lastWeight settings a r) ∧
    (∀ a, (ofEntries settings).isWeighted a = true ↔ ∃ e ∈ settings, e.nonterminal = a) ∧
    ((ofEntries settings).isEmpty = true ↔ settings = []) ∧
    ((ofEntries settings).entries = tabulated settings ∧
      ((ofEntries settings).entries.map fun e => (e.nonterminal, e.alternative)).Nodup ∧
      ∀ e, e ∈ (ofEntries settings).entries ↔
        (setFor settings e.nonterminal e.alternative).getLast? = some e) ∧
    ofEntries (ofEntries settings).entries = ofEntries settings := by
  refine ⟨weightOf_ofEntries settings, fun a => isWeighted_ofEntries, isEmpty_ofEntries, ?_, ?_⟩
  · exact ⟨entries_ofEntries settings, nodup_pairs _, fun e => mem_entries_ofEntries⟩
  · exact ofEntries_entries _ row_ne_nil

/-- A later setting for a pair counts, in the place of the first; `B` is named first and stands first. -/
example : (ofEntries [⟨"B", "b", 2⟩, ⟨"A", "a", 1⟩, ⟨"B", "a", 3⟩, ⟨"B", "b", 0⟩]).entries =
    [⟨"B", "b", 0⟩, ⟨"B", "a", 3⟩, ⟨"A", "a", 1⟩] := by decide

end RightLinear.Weights
