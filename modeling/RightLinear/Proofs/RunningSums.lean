import Mathlib.Data.Nat.Notation
import RightLinear.Grammar.Sampler

/-! # Sums of weights in words of 32 bits

The exact sum of a row decides what comes of adding it up in words of 32 bits.  Adding up gives up if and
only if the exact sum is no word (`checkedSum_eq_none`).  A row with a sum that is a word has running sums
if that sum is not zero (`exists_runningSums`), and is refused as all zero if it is and there is a weight
(`runningSums_eq_allZero`). -/

namespace RightLinear.Sampler

theorem total_cons (w : UInt32) (row : List UInt32) :
    total ⟨w :: row⟩ = w.toNat + total ⟨row⟩ := rfl

/-! ### Adding up -/

theorem checkedAdd_of_lt {a b : UInt32} (h : a.toNat + b.toNat < UInt32.size) :
    checkedAdd a b = some (a + b) ∧ (a + b).toNat = a.toNat + b.toNat := by
  refine ⟨if_pos h, ?_⟩
  rw [UInt32.toNat_add]
  exact Nat.mod_eq_of_lt h

theorem checkedAdd_of_le {a b : UInt32} (h : UInt32.size ≤ a.toNat + b.toNat) :
    checkedAdd a b = none :=
  if_neg (Nat.not_lt_of_le h)

/-- Adding a row to a word gives up exactly if the exact sum is no word. -/
theorem foldlM_checkedAdd_eq_none (row : List UInt32) (sum : UInt32) :
    row.foldlM checkedAdd sum = none ↔ UInt32.size ≤ sum.toNat + total ⟨row⟩ := by
  induction row generalizing sum with
  | nil =>
      have hlt := sum.toNat_lt
      have hnil : total ⟨[]⟩ = 0 := rfl
      simp only [List.foldlM_nil, hnil, Nat.add_zero]
      simpa using hlt
  | cons w row ih =>
      rw [List.foldlM_cons, total_cons]
      -- A sum that is no word yet is still none with the words behind it added.
      rcases Nat.lt_or_ge (sum.toNat + w.toNat) UInt32.size with h | h
      · obtain ⟨hadd, htoNat⟩ := checkedAdd_of_lt h
        rw [hadd, Option.bind_eq_bind, Option.bind_some, ih, htoNat, Nat.add_assoc]
      · rw [checkedAdd_of_le h]
        simp only [Option.bind_eq_bind, Option.bind_none, true_iff]
        omega

theorem checkedSum_eq_none {row : List UInt32} :
    checkedSum row = none ↔ UInt32.size ≤ total ⟨row⟩ := by
  have hzero : (0 : UInt32).toNat + total ⟨row⟩ = total ⟨row⟩ := Nat.zero_add _
  rw [checkedSum, foldlM_checkedAdd_eq_none, hzero]

/-! ### Running sums -/

theorem sumsFrom_eq_allZero {row : List UInt32} (hzero : total ⟨row⟩ = 0) :
    sumsFrom 0 row = .error .allZero := by
  induction row with
  | nil => rfl
  | cons w row ih =>
      rw [total_cons] at hzero
      have hw : w = 0 := UInt32.toNat_inj.mp (Nat.eq_zero_of_add_eq_zero_right hzero)
      have hadd : checkedAdd 0 w = some 0 := by
        subst hw
        rfl
      rw [sumsFrom, hadd]
      dsimp only
      rw [ih (Nat.eq_zero_of_add_eq_zero_left hzero)]
      rfl

theorem exists_sumsFrom {sum : UInt32} {row : List UInt32} (hpos : 0 < sum.toNat + total ⟨row⟩)
    (hfits : sum.toNat + total ⟨row⟩ < UInt32.size) :
    ∃ sums last, sumsFrom sum row = .ok (sums, last) ∧ last.toNat = sum.toNat + total ⟨row⟩ := by
  induction row generalizing sum with
  | nil =>
      have hsum : sum ≠ 0 := by
        rintro rfl
        exact absurd hpos (Nat.lt_irrefl 0)
      exact ⟨[], sum, if_neg hsum, rfl⟩
  | cons w row ih =>
      rw [total_cons, ← Nat.add_assoc] at hpos hfits
      -- As the whole sum is a word, so is the next, which is then the exact one.
      obtain ⟨hadd, htoNat⟩ := checkedAdd_of_lt (Nat.lt_of_le_of_lt (Nat.le_add_right _ _) hfits)
      rw [← htoNat] at hpos hfits
      obtain ⟨sums, last, hsums, hlast⟩ := ih hpos hfits
      refine ⟨sum :: sums, last, ?_, ?_⟩
      · rw [sumsFrom, hadd]
        dsimp only
        rw [hsums]
        rfl
      · rw [hlast, htoNat, total_cons, Nat.add_assoc]

theorem runningSums_eq_allZero {row : List UInt32} (hrow : row ≠ []) (hzero : total ⟨row⟩ = 0) :
    runningSums row = .error .allZero := by
  obtain ⟨w, rest, rfl⟩ := List.exists_cons_of_ne_nil hrow
  rw [total_cons] at hzero
  obtain rfl : w = 0 := UInt32.toNat_inj.mp (Nat.eq_zero_of_add_eq_zero_right hzero)
  exact sumsFrom_eq_allZero (Nat.eq_zero_of_add_eq_zero_left hzero)

/-- The last of the running sums is the exact sum. -/
theorem exists_runningSums {row : List UInt32} (hpos : 0 < total ⟨row⟩)
    (hfits : total ⟨row⟩ < UInt32.size) :
    ∃ sums last, runningSums row = .ok (sums, last) ∧ last.toNat = total ⟨row⟩ := by
  cases row with
  | nil => exact absurd hpos (Nat.lt_irrefl 0)
  | cons w rest => exact exists_sumsFrom hpos hfits

theorem total_pos {s : Sampler} (hpos : ∀ w ∈ s.row, w ≠ 0) (hrow : s.row ≠ []) : 0 < s.total := by
  obtain ⟨row⟩ := s
  obtain ⟨w, row, rfl⟩ := List.exists_cons_of_ne_nil hrow
  have hw : w ≠ 0 := hpos w List.mem_cons_self
  have htoNat : w.toNat ≠ 0 := fun h => hw (UInt32.toNat_inj.mp h)
  rw [total_cons]
  omega

end RightLinear.Sampler
