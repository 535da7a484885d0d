import RightLinear.Ordered.Map
import RightLinear.Ordered.Set

/-! # Maps that are filled item by item

A map is filled by a change for each item of a list, at the key of the item.  The keys are then those that
there were and behind them the new ones, each where it stands first (`keys_foldl_alter`), and the value of a
key is what the changes of its own items make of the one it had, in their order (`get?_foldl_alter`). -/

namespace RightLinear.OrdMap

variable {ι κ α : Type} [DecidableEq κ]

theorem keys_foldl_alter (key : ι → κ) (d : ι → α) (f : ι → α → α) (items : List ι)
    (m : OrdMap κ α) :
    (items.foldl (fun m i => m.alter (key i) (d i) (f i)) m).keys =
      ((⟨m.keys, m.nodup⟩ : OrdSet κ).insertAll (items.map key)).toList := by
  induction items generalizing m with
  | nil => rfl
  | cons i items ih =>
      have hkeys : (⟨(m.alter (key i) (d i) (f i)).keys, (m.alter (key i) (d i) (f i)).nodup⟩ :
          OrdSet κ) = (⟨m.keys, m.nodup⟩ : OrdSet κ).insert (key i) := by
        apply OrdSet.ext
        rw [OrdSet.toList_insert]
        exact m.keys_alter (key i) (d i) (f i)
      rw [List.foldl_cons, ih, List.map_cons, hkeys]
      rfl

theorem keys_foldl_alter_empty (key : ι → κ) (d : ι → α) (f : ι → α → α) (items : List ι) :
    (items.foldl (fun m i => m.alter (key i) (d i) (f i)) (∅ : OrdMap κ α)).keys =
      (items.map key).eraseDups :=
  (keys_foldl_alter key d f items ∅).trans (OrdSet.toList_ofList _)

/-- The items of a key change its value one after another. -/
theorem get?_foldl_alter (key : ι → κ) (d : α) (f : ι → α → α) (items : List ι) (m : OrdMap κ α)
    (k : κ) :
    (items.foldl (fun m i => m.alter (key i) d (f i)) m).get? k =
      if k ∈ items.map key then
        some ((items.filter fun i => key i = k).foldl (fun v i => f i v) ((m.get? k).getD d))
      else m.get? k := by
  induction items generalizing m with
  | nil => simp
  | cons i items ih =>
      rw [List.foldl_cons, ih, get?_alter, List.map_cons, List.filter_cons]
      by_cases hk : k = key i
      · subst hk
        rw [if_pos List.mem_cons_self, if_pos rfl, if_pos (decide_eq_true rfl), List.foldl_cons,
          Option.getD_some]
        split
        · rfl
        · next hlater =>
          have hnone : (items.filter fun j => key j = key i) = [] := by
            apply List.filter_eq_nil_iff.mpr
            intro j hj hsame
            exact hlater (List.mem_map.mpr ⟨j, hj, of_decide_eq_true hsame⟩)
          rw [hnone, List.foldl_nil]
      · have hother : ¬ key i = k := fun e => hk e.symm
        simp only [List.mem_cons, hk, hother, false_or, if_false, decide_false, Bool.false_eq_true]

theorem get?_foldl_alter_empty (key : ι → κ) (d : α) (f : ι → α → α) {items : List ι} {k : κ}
    (hk : k ∈ items.map key) :
    (items.foldl (fun m i => m.alter (key i) d (f i)) (∅ : OrdMap κ α)).get? k =
      some ((items.filter fun i => key i = k).foldl (fun v i => f i v) d) := by
  rw [get?_foldl_alter, if_pos hk, get?_empty, Option.getD_none]

end RightLinear.OrdMap
