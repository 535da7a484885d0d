import Mathlib.Data.List.Nodup
import Mathlib.Data.List.Perm.Subperm
import RightLinear.Grammar.Basic
import RightLinear.Proofs.Connections
import RightLinear.Proofs.Paths

/-! # What comparisons see

Sets and maps are compared regardless of order.  The comparison of two sets sees their members
(`OrdSet.sameMembers_iff`), that of two maps what each key is given, if anything
(`OrdMap.sameEntries_iff`).  For weights this is all that is ever asked of them (`Weights.same_iff`),
for transition relations it is which entries there are and where they lead (`Delta.same_iff`), and for
automata it decides which words they accept (`Automaton.accepts_eq_of_same`). -/

namespace RightLinear

/-- Two lists without repetitions, of the same length and one within the other, have the same
elements. -/
theorem mem_iff_of_nodup {α : Type} {l l' : List α} (hl : l.Nodup) (hsub : l ⊆ l')
    (hlength : l'.length ≤ l.length) {a : α} : a ∈ l ↔ a ∈ l' :=
  ((List.subperm_of_subset hl hsub).perm_of_length_le hlength).mem_iff

theorem length_eq_of_nodup {α : Type} {l l' : List α} (hl : l.Nodup) (hl' : l'.Nodup)
    (h : ∀ a, a ∈ l ↔ a ∈ l') : l.length = l'.length :=
  ((List.perm_ext_iff_of_nodup hl hl').mpr h).length_eq

/-! ### Sets -/

namespace OrdSet

variable {α : Type} {s t : OrdSet α}

theorem sameMembers_iff [DecidableEq α] : s.sameMembers t = true ↔ ∀ a, a ∈ s ↔ a ∈ t := by
  simp only [sameMembers, size, Bool.and_eq_true, beq_iff_eq, List.all_eq_true, contains_eq_true]
  constructor
  · rintro ⟨hsize, hsub⟩ a
    exact mem_iff_of_nodup s.nodup hsub (Nat.le_of_eq hsize.symm)
  · intro h
    exact ⟨length_eq_of_nodup s.nodup t.nodup h, fun a ha => (h a).mp ha⟩

theorem isEmpty_eq_of_mem_iff (h : ∀ a, a ∈ s ↔ a ∈ t) : s.isEmpty = t.isEmpty := by
  have hempty : ∀ u : OrdSet α, u.isEmpty = true ↔ ∀ a, ¬ a ∈ u := fun u =>
    List.isEmpty_iff.trans List.eq_nil_iff_forall_not_mem
  rw [Bool.eq_iff_iff, hempty, hempty]
  simp only [h]

end OrdSet

/-! ### Maps -/

namespace OrdMap

variable {κ α : Type} {same : α → α → Bool} {m n : OrdMap κ α}

theorem mem_keys_iff_of_size (hsize : m.size = n.size) (hsub : m.keys ⊆ n.keys) {k : κ} :
    k ∈ m.keys ↔ k ∈ n.keys := by
  have hlength : n.keys.length ≤ m.keys.length := by
    rw [length_keys, length_keys]
    exact Nat.le_of_eq hsize.symm
  exact mem_iff_of_nodup m.nodup hsub hlength

theorem size_eq_of_mem_keys (h : ∀ k, k ∈ m.keys ↔ k ∈ n.keys) : m.size = n.size := by
  rw [← length_keys, ← length_keys]
  exact length_eq_of_nodup m.nodup n.nodup h

variable [DecidableEq κ]

theorem sameEntries_eq_true : m.sameEntries same n = true ↔
    m.size = n.size ∧ ∀ k v, m.get? k = some v → ∃ w, n.get? k = some w ∧ same v w = true := by
  simp [sameEntries, get?_eq_some (m := m), Option.any_eq_true]

/-- The comparison sees what each key is given, if anything. -/
theorem sameEntries_iff : m.sameEntries same n = true ↔
    ∀ k, Option.Rel (fun v w => same v w = true) (m.get? k) (n.get? k) := by
  rw [sameEntries_eq_true]
  constructor
  · rintro ⟨hsize, hvalue⟩ k
    have hsub : m.keys ⊆ n.keys := by
      intro k hk
      obtain ⟨v, hv⟩ := mem_keys.mp hk
      obtain ⟨w, hw, _⟩ := hvalue k v hv
      exact mem_keys.mpr ⟨w, hw⟩
    cases hm : m.get? k with
    | some v =>
        obtain ⟨w, hw, hsame⟩ := hvalue k v hm
        rw [hw]
        exact .some hsame
    | none =>
        cases hn : n.get? k with
        | none => exact .none
        | some w =>
            -- A key of the second map alone would make that the greater one.
            have hk := (mem_keys_iff_of_size hsize hsub).mpr (mem_keys.mpr ⟨w, hn⟩)
            obtain ⟨v, hv⟩ := mem_keys.mp hk
            cases hm.symm.trans hv
  · intro h
    refine ⟨size_eq_of_mem_keys fun k => ?_, fun k v hv => ?_⟩
    · have hk := h k
      rw [mem_keys, mem_keys]
      generalize m.get? k = x, n.get? k = y at hk
      cases hk <;> simp
    · have hk := h k
      rw [hv] at hk
      generalize n.get? k = y at hk
      cases hk with
      | some hsame => exact ⟨_, rfl, hsame⟩

theorem sameEntries_beq_iff [BEq α] [LawfulBEq α] :
    m.sameEntries (· == ·) n = true ↔ ∀ k, m.get? k = n.get? k := by
  rw [sameEntries_iff]
  refine forall_congr' fun k => ?_
  generalize m.get? k = x, n.get? k = y
  constructor
  · intro h
    cases h with
    | none => rfl
    | some hsame => rw [eq_of_beq hsame]
  · rintro rfl
    cases x with
    | none => exact .none
    | some v => exact .some (beq_self_eq_true v)

end OrdMap

/-! ### Weights -/

namespace Weights

variable {v w : Weights}

theorem same_iff : v.same w = true ↔ ∀ a,
    (v.isWeighted a = w.isWeighted a) ∧
      ∀ r, ((v.table.get? a).bind fun row => row.get? r) =
        (w.table.get? a).bind fun row => row.get? r := by
  unfold same isWeighted OrdMap.contains
  rw [OrdMap.sameEntries_iff]
  simp only [OrdMap.sameEntries_beq_iff]
  refine forall_congr' fun a => ?_
  generalize v.table.get? a = x, w.table.get? a = y
  constructor
  · intro h
    cases h with
    | none => exact ⟨rfl, fun _ => rfl⟩
    | some hrow => exact ⟨rfl, hrow⟩
  · rintro ⟨hweighted, hrow⟩
    cases x <;> cases y
    · exact .none
    · cases hweighted
    · cases hweighted
    · exact .some hrow

theorem isWeighted_of_same (h : v.same w = true) (a : String) : v.isWeighted a = w.isWeighted a :=
  (same_iff.mp h a).1

theorem weightOf_of_same (h : v.same w = true) (a r : String) : v.weightOf a r = w.weightOf a r := by
  unfold weightOf
  rw [(same_iff.mp h a).2 r]

end Weights

/-! ### Transition relations -/

namespace Delta

variable {d e : Delta}

theorem row_same_iff {row row' : OrdMap Char (OrdSet String)} :
    row.sameEntries OrdSet.sameMembers row' = true ↔ ∀ c,
      ((row.get? c).isSome = true ↔ (row'.get? c).isSome = true) ∧
        ∀ r, (∃ s, row.get? c = some s ∧ r ∈ s) ↔ ∃ s, row'.get? c = some s ∧ r ∈ s := by
  rw [OrdMap.sameEntries_iff]
  simp only [OrdSet.sameMembers_iff]
  refine forall_congr' fun c => ?_
  generalize row.get? c = x, row'.get? c = y
  constructor
  · intro h
    cases h with
    | none => simp
    | some hmem => simp [hmem]
  · rintro ⟨hsome, hleads⟩
    cases x <;> cases y
    · exact .none
    · simp at hsome
    · simp at hsome
    · exact .some (by simpa using hleads)

theorem same_iff : d.sameEntries (OrdMap.sameEntries OrdSet.sameMembers) e = true ↔
    (∀ q, q ∈ d.keys ↔ q ∈ e.keys) ∧
    (∀ q c, (d.targets? q c).isSome = true ↔ (e.targets? q c).isSome = true) ∧
    ∀ q c r, d.Leads q c r ↔ e.Leads q c r := by
  have hsource : (∀ q, q ∈ d.keys ↔ q ∈ e.keys) ∧
      (∀ q c, (d.targets? q c).isSome = true ↔ (e.targets? q c).isSome = true) ∧
      (∀ q c r, d.Leads q c r ↔ e.Leads q c r) ↔
      ∀ q, ((∃ row, d.get? q = some row) ↔ ∃ row, e.get? q = some row) ∧
        ∀ c, ((d.targets? q c).isSome = true ↔ (e.targets? q c).isSome = true) ∧
          ∀ r, d.Leads q c r ↔ e.Leads q c r := by
    simp only [OrdMap.mem_keys, forall_and]
  rw [hsource, OrdMap.sameEntries_iff]
  simp only [row_same_iff, Leads, targets?]
  refine forall_congr' fun q => ?_
  generalize OrdMap.get? d q = x, OrdMap.get? e q = y
  constructor
  · intro h
    cases h with
    | none => simp
    | some hrow => exact ⟨by simp, hrow⟩
  · rintro ⟨hkeys, hrow⟩
    cases x <;> cases y
    · exact .none
    · simp at hkeys
    · simp at hkeys
    · exact .some hrow

end Delta

/-! ### Automata -/

namespace Automaton

variable {a b : Automaton}

theorem same_iff : a.same b = true ↔
    (∀ q, q ∈ a.states ↔ q ∈ b.states) ∧ (∀ c, c ∈ a.alphabet ↔ c ∈ b.alphabet) ∧
      a.delta.sameEntries (OrdMap.sameEntries OrdSet.sameMembers) b.delta = true ∧
      a.start = b.start ∧ ∀ q, q ∈ a.accepting ↔ q ∈ b.accepting := by
  simp only [same, Bool.and_eq_true, OrdSet.sameMembers_iff, beq_iff_eq, and_assoc]

theorem same_refl (a : Automaton) : a.same a = true :=
  same_iff.mpr ⟨fun _ => Iff.rfl, fun _ => Iff.rfl,
    OrdMap.sameEntries_refl (OrdMap.sameEntries_refl OrdSet.sameMembers_refl) a.delta, rfl,
    fun _ => Iff.rfl⟩

/-- From active sets with the same members, automata that are the same accept the same. -/
theorem acceptsFrom_eq_of_same (h : a.same b = true) {s t : OrdSet String}
    (hst : ∀ q, q ∈ s ↔ q ∈ t) (word : List Char) : a.acceptsFrom s word = b.acceptsFrom t word := by
  obtain ⟨_, halphabet, hdelta, _, haccepting⟩ := same_iff.mp h
  have hleads : ∀ q c r, r ∈ a.targets q c ↔ r ∈ b.targets q c := by
    intro q c r
    rw [mem_targets, mem_targets]
    exact (Delta.same_iff.mp hdelta).2.2 q c r
  induction word generalizing s t with
  | nil =>
      show s.toList.any a.accepting.contains = t.toList.any b.accepting.contains
      rw [Bool.eq_iff_iff, List.any_eq_true, List.any_eq_true]
      simp only [OrdSet.mem_toList, OrdSet.contains_eq_true, hst, haccepting]
  | cons c word ih =>
      have hnext : ∀ r, r ∈ a.advance s c ↔ r ∈ b.advance t c := by
        intro r
        rw [mem_advance, mem_advance]
        simp only [hst, hleads]
      rw [acceptsFrom, acceptsFrom]
      dsimp only
      rw [OrdSet.isEmpty_eq_of_mem_iff hnext, ih hnext]
      simp only [halphabet]

theorem accepts_eq_of_same (h : a.same b = true) (word : List Char) :
    a.accepts word = b.accepts word := by
  unfold accepts
  rw [(same_iff.mp h).2.2.2.1]
  exact acceptsFrom_eq_of_same h (fun _ => Iff.rfl) word

end Automaton

end RightLinear
