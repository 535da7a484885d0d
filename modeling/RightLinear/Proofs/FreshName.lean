import Mathlib.Data.List.Nodup
import Mathlib.Data.List.Perm.Subperm
import Mathlib.Data.Nat.Find
import Mathlib.Logic.Function.Iterate
import Mathlib.Order.Bounds.Basic
import RightLinear.Grammar.Automaton

/-! # Fresh names

The accepting state of a grammar's automaton is named by putting underscores in front of a name until
it is not a nonterminal.

* `Search` is this search as it goes on, pass by pass.  Nothing stops it but a free name, so it comes to
  the first free one, if any (`search_iff`), and has no other outcome (`Search.unique`).
* The names with different numbers of underscores are all different (`underscored_injective`), so among one
  more of them than there are taken names one is free (`exists_underscored_not_mem`).  Hence the search ends,
  after at most as many passes as names are taken (`exists_search`).
* With as much fuel `freshName` follows it to its end (`Search.freshName_eq`), so the name depends on which
  names are taken and on nothing else (`finalName_congr`). -/

namespace RightLinear.Grammar

/-- The name behind `k` underscores. -/
def underscored (name : String) (k : ℕ) : String := ("_" ++ ·)^[k] name

/-- The search from a name, with the number of its passes and the name it ends at.  A taken name is passed
by putting an underscore in front of it. -/
inductive Search (taken : OrdSet String) : String → ℕ → String → Prop
  | free {name : String} : ¬ name ∈ taken → Search taken name 0 name
  | pass {name result : String} {k : ℕ} : name ∈ taken → Search taken ("_" ++ name) k result →
      Search taken name (k + 1) result

variable {taken taken' : OrdSet String} {name result result' : String} {k k' : ℕ}

/-! ### Names with underscores -/

theorem toList_underscored (name : String) (k : ℕ) :
    (underscored name k).toList = List.replicate k '_' ++ name.toList := by
  induction k with
  | zero => rfl
  | succ k ih =>
      unfold underscored at ih ⊢
      rw [Function.iterate_succ_apply', String.toList_append, ih]
      rfl

theorem underscored_eq (name : String) (k : ℕ) :
    underscored name k = String.ofList (List.replicate k '_' ++ name.toList) := by
  rw [← toList_underscored, String.ofList_toList]

theorem underscored_injective (name : String) : Function.Injective (underscored name) := by
  intro j k h
  have hlength := congrArg (fun s => s.toList.length) h
  simp only [toList_underscored, List.length_append, List.length_replicate] at hlength
  omega

/-- Not all of the names with at most as many underscores as there are taken names are taken. -/
theorem exists_underscored_not_mem (taken : OrdSet String) (name : String) :
    ∃ k ≤ taken.size, ¬ underscored name k ∈ taken := by
  -- Otherwise one more name would be taken than there are taken names.
  by_contra hall
  simp only [not_exists, not_and, not_not] at hall
  have hnodup : ((List.range (taken.size + 1)).map (underscored name)).Nodup :=
    List.nodup_range.map (underscored_injective name)
  have hsub : (List.range (taken.size + 1)).map (underscored name) ⊆ taken.toList := by
    intro s hs
    obtain ⟨k, hk, rfl⟩ := List.mem_map.mp hs
    exact hall k (Nat.le_of_lt_succ (List.mem_range.mp hk))
  have hle := (List.subperm_of_subset hnodup hsub).length_le
  rw [List.length_map, List.length_range] at hle
  exact absurd hle (Nat.not_succ_le_self _)

/-! ### The search -/

theorem search_iff : Search taken name k result ↔
    result = underscored name k ∧ ¬ result ∈ taken ∧ ∀ j < k, underscored name j ∈ taken := by
  constructor
  · intro h
    induction h with
    | free hfree => exact ⟨rfl, hfree, fun j hj => absurd hj (Nat.not_lt_zero j)⟩
    | pass htaken _ ih =>
        obtain ⟨rfl, hfree, hbelow⟩ := ih
        refine ⟨rfl, hfree, fun j hj => ?_⟩
        cases j with
        | zero => exact htaken
        | succ j => exact hbelow j (Nat.lt_of_succ_lt_succ hj)
  · rintro ⟨rfl, hfree, hbelow⟩
    induction k generalizing name with
    | zero => exact .free hfree
    | succ k ih =>
        have hrest : ∀ j < k, underscored ("_" ++ name) j ∈ taken :=
          fun j hj => hbelow (j + 1) (Nat.succ_lt_succ hj)
        exact .pass (hbelow 0 (Nat.succ_pos k)) (ih hfree hrest)

/-- The search looks at which names are taken. -/
theorem search_congr (h : ∀ a, a ∈ taken ↔ a ∈ taken') :
    Search taken name k result ↔ Search taken' name k result := by
  rw [search_iff, search_iff]
  simp only [h]

theorem Search.unique (h : Search taken name k result) (h' : Search taken name k' result') :
    k = k' ∧ result = result' := by
  induction h generalizing k' with
  | free hfree =>
      cases h' with
      | free _ => exact ⟨rfl, rfl⟩
      | pass htaken _ => exact absurd htaken hfree
  | pass htaken _ ih =>
      cases h' with
      | free hfree => exact absurd htaken hfree
      | pass _ hrest =>
          obtain ⟨rfl, rfl⟩ := ih hrest
          exact ⟨rfl, rfl⟩

/-- The search ends, after at most as many passes as names are taken. -/
theorem exists_search (taken : OrdSet String) (name : String) :
    ∃ k ≤ taken.size, Search taken name k (underscored name k) := by
  obtain ⟨n, hn, hfree⟩ := exists_underscored_not_mem taken name
  have hexists : ∃ k, ¬ underscored name k ∈ taken := ⟨n, hfree⟩
  have hle : Nat.find hexists ≤ n := Nat.find_le hfree
  refine ⟨Nat.find hexists, hle.trans hn, search_iff.mpr ⟨rfl, Nat.find_spec hexists, ?_⟩⟩
  intro j hj
  exact not_not.mp (Nat.find_min hexists hj)

theorem Search.freshName_eq (h : Search taken name k result) {fuel : ℕ} (hfuel : k ≤ fuel) :
    freshName taken fuel name = result := by
  induction h generalizing fuel with
  | free hfree =>
      cases fuel with
      | zero => rfl
      | succ fuel => rw [freshName, if_neg hfree]
  | pass htaken _ ih =>
      obtain ⟨fuel, rfl⟩ := Nat.exists_eq_add_of_lt hfuel
      rw [freshName, if_pos htaken]
      exact ih (by omega)

/-! ### The accepting state -/

theorem exists_search_finalName (g : Grammar) :
    ∃ k ≤ g.nonterminals.size, Search g.nonterminals "FINAL" k g.finalName := by
  obtain ⟨k, hk, hsearch⟩ := exists_search g.nonterminals "FINAL"
  have hname : g.finalName = underscored "FINAL" k := hsearch.freshName_eq hk
  exact ⟨k, hk, hname ▸ hsearch⟩

theorem finalName_not_mem (g : Grammar) : ¬ g.finalName ∈ g.nonterminals := by
  obtain ⟨k, _, hsearch⟩ := exists_search_finalName g
  exact (search_iff.mp hsearch).2.1

theorem finalName_congr {g h : Grammar} (hn : ∀ a, a ∈ g.nonterminals ↔ a ∈ h.nonterminals) :
    g.finalName = h.finalName := by
  obtain ⟨k, _, hsearch⟩ := exists_search_finalName g
  obtain ⟨k', _, hsearch'⟩ := exists_search_finalName h
  exact (((search_congr hn).mp hsearch).unique hsearch').2

/-- **The accepting state gets the first free name.**  Whatever the nonterminals are, putting underscores
in front of `FINAL` as long as the name is a nonterminal comes to an end, after at most as many passes as there
are nonterminals.  The name it ends at is that of the accepting state: as many underscores as there were passes,
and then `FINAL`.  With fewer underscores the name is a nonterminal, with these it is none.  The search has no
other outcome, and neither the passes nor the name depend on anything but which names are nonterminals. -/
theorem finalName_search (g : Grammar) :
    (∃ k ≤ g.nonterminals.size, Search g.nonterminals "FINAL" k g.finalName ∧
      g.finalName = String.ofList (List.replicate k '_' ++ "FINAL".toList) ∧
      IsLeast {j | ¬ String.ofList (List.replicate j '_' ++ "FINAL".toList) ∈ g.nonterminals} k ∧
      ∀ j result, Search g.nonterminals "FINAL" j result → j = k ∧ result = g.finalName) ∧
    ∀ h : Grammar, (∀ a, a ∈ h.nonterminals ↔ a ∈ g.nonterminals) →
      h.finalName = g.finalName ∧ ∀ j result,
        Search h.nonterminals "FINAL" j result ↔ Search g.nonterminals "FINAL" j result := by
  obtain ⟨k, hk, hsearch⟩ := exists_search_finalName g
  obtain ⟨hname, hfree, hbelow⟩ := search_iff.mp hsearch
  constructor
  · refine ⟨k, hk, hsearch, hname.trans (underscored_eq "FINAL" k), ⟨?_, ?_⟩, ?_⟩
    · rw [Set.mem_ofPred_eq, ← underscored_eq, ← hname]
      exact hfree
    · intro j hj
      rw [Set.mem_ofPred_eq, ← underscored_eq] at hj
      have hnot : ¬ j < k := fun hlt => hj (hbelow j hlt)
      omega
    · intro j result hother
      exact hother.unique hsearch
  · intro h hn
    exact ⟨finalName_congr hn, fun j result => search_congr hn⟩

/-- The grammar of `S → a` with these nonterminals, in this order. -/
def clashing (nonterminals : List String) : Grammar where
  nonterminals := OrdSet.ofList nonterminals
  terminals := OrdSet.ofList ['a']
  productions := mergeRules [("S", ["a"])]
  start := "S"
  weights := ∅
  limits := {}
  alternatives := ⟨[("S", [⟨'a', none⟩])], List.pairwise_singleton _ _⟩
  samplers := ∅

/-- Where `FINAL` and `_FINAL` are nonterminals, two passes lead to `__FINAL`, in whatever order the
nonterminals are listed. -/
theorem clashing_finalName :
    make ["S", "FINAL", "_FINAL"] ['a'] [("S", ["a"])] "S" =
      .ok (clashing ["S", "FINAL", "_FINAL"]) ∧
    Search (clashing ["S", "FINAL", "_FINAL"]).nonterminals "FINAL" 2 "__FINAL" ∧
    (clashing ["S", "FINAL", "_FINAL"]).finalName = "__FINAL" ∧
    (clashing ["_FINAL", "FINAL", "S"]).finalName =
      (clashing ["S", "FINAL", "_FINAL"]).finalName := by
  obtain ⟨⟨k, _, _, _, _, honly⟩, hsame⟩ := finalName_search (clashing ["S", "FINAL", "_FINAL"])
  have hmake : make ["S", "FINAL", "_FINAL"] ['a'] [("S", ["a"])] "S" =
      .ok (clashing ["S", "FINAL", "_FINAL"]) := by decide
  have hsearch : Search (clashing ["S", "FINAL", "_FINAL"]).nonterminals "FINAL" 2 "__FINAL" :=
    .pass (by decide) (.pass (by decide) (.free (by decide)))
  have hmembers : ∀ a, a ∈ (clashing ["_FINAL", "FINAL", "S"]).nonterminals ↔
      a ∈ (clashing ["S", "FINAL", "_FINAL"]).nonterminals := by
    intro a
    simp only [clashing, OrdSet.mem_ofList, List.mem_cons, List.not_mem_nil, or_false]
    tauto
  exact ⟨hmake, hsearch, (honly 2 "__FINAL" hsearch).2.symm, (hsame _ hmembers).1⟩

end RightLinear.Grammar
