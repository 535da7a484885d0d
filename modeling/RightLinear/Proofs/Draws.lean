import Mathlib.Data.Nat.Notation
import RightLinear.Grammar.Basic

/-! # Every choice can be drawn

A draw is let through if the low part of its product with the count lies in the zone.  The draws that
are least for their answer have the low parts below the count, and the zones of both kinds of choice
reach that far, so every answer has a draw that is let through (`exists_admit`).  On a tape such a draw
is one word in front (`exists_pick`).  Among positive weights every index has a unit
(`exists_locate`). -/

namespace RightLinear.Random

/-! ### Scales -/

namespace Scale

/-- If the zone takes in as many low parts as there are answers, every answer is drawn. -/
theorem exists_admit {s : Scale} (hcount : s.count ≤ s.width.range) (hzone : s.count ≤ s.zone + 1)
    {i : ℕ} (hi : i < s.count) : ∃ v < s.width.range, s.admit? v = some i := by
  have hpos : 0 < s.count := Nat.lt_of_le_of_lt (Nat.zero_le i) hi
  -- the least draw whose product is at least `i` whole ranges
  obtain ⟨v, hv⟩ : ∃ v, v = (i * s.width.range + (s.count - 1)) / s.count := ⟨_, rfl⟩
  have hle : v * s.count ≤ i * s.width.range + (s.count - 1) := hv ▸ Nat.div_mul_le_self _ _
  have hlt : i * s.width.range + (s.count - 1) < v * s.count + s.count :=
    hv ▸ Nat.lt_div_mul_add hpos
  obtain ⟨low, hlow⟩ : ∃ low, v * s.count = i * s.width.range + low :=
    ⟨v * s.count - i * s.width.range, by omega⟩
  have hbound : (i + 1) * s.width.range ≤ s.count * s.width.range := Nat.mul_le_mul_right _ hi
  rw [Nat.succ_mul] at hbound
  have hmod : v * s.count % s.width.range = low := by
    rw [hlow, Nat.mul_add_mod_self_right]
    exact Nat.mod_eq_of_lt (by omega)
  have hdiv : s.answer v = i := by
    unfold answer
    rw [hlow, Nat.mul_comm i, Nat.mul_add_div (by omega), Nat.div_eq_of_lt (by omega), Nat.add_zero]
  refine ⟨v, ?_, ?_⟩
  · have hprod : v * s.count < s.width.range * s.count := by
      rw [Nat.mul_comm s.width.range]
      omega
    exact Nat.lt_of_mul_lt_mul_right hprod
  · unfold admit?
    rw [hmod, if_pos (by omega), hdiv]

theorem count_le_uniform_zone (count : ℕ) :
    (uniform count).count ≤ (uniform count).zone + 1 := by
  have h : count ≤ count <<< (63 - count.log2) := by
    rw [Nat.shiftLeft_eq]
    exact Nat.le_mul_of_pos_right _ (Nat.two_pow_pos _)
  show count ≤ count <<< (63 - count.log2) - 1 + 1
  omega

theorem count_le_weighted_zone {total : ℕ} (h : total ≤ UInt32.size) :
    (weighted total).count ≤ (weighted total).zone + 1 := by
  have hmod : (UInt32.size - total) % total ≤ UInt32.size - total := Nat.mod_le _ _
  show total ≤ UInt32.size - 1 - (UInt32.size - total) % total + 1
  omega

end Scale

/-! ### Tapes -/

theorem exists_word (width : Width) {v : ℕ} (hv : v < width.range) :
    ∃ w, ∀ rest, Supply.next width (.tape (w :: rest)) = (v, .tape rest) := by
  refine ⟨UInt64.ofNat v, fun rest => ?_⟩
  cases width with
  | half =>
      have h : (UInt64.ofNat v).toUInt32.toNat = v := by
        have hsize : v < 4294967296 := hv
        simp only [UInt64.toUInt32_ofNat', UInt32.toNat_ofNat']
        omega
      rw [Supply.next, h]
  | full =>
      have h : (UInt64.ofNat v).toNat = v := UInt64.toNat_ofNat_of_lt hv
      rw [Supply.next, h]

theorem exists_pick {s : Scale} (hcount : s.count ≤ s.width.range)
    (hzone : s.count ≤ s.zone + 1) {i : ℕ} (hi : i < s.count) :
    ∃ w, ∀ rest n, Source.pick s ⟨.tape (w :: rest), n⟩ = (i, ⟨.tape rest, n + 1⟩) := by
  obtain ⟨v, hv, hadmit⟩ := Scale.exists_admit hcount hzone hi
  obtain ⟨w, hw⟩ := exists_word s.width hv
  refine ⟨w, fun rest n => ?_⟩
  show Source.roll s (rest.length + 1) _ = _
  simp only [Source.roll, Source.next, hw, hadmit]

/-! ### Weights -/

/-- Among positive weights every index has a unit of its own. -/
theorem exists_locate {weights : List ℕ} (hpos : ∀ w ∈ weights, 0 < w) {i : ℕ}
    (hi : i < weights.length) : ∃ unit < weights.foldr (· + ·) 0, locate unit weights = i := by
  induction weights generalizing i with
  | nil => cases hi
  | cons w weights ih =>
      rw [List.foldr_cons]
      cases i with
      | zero =>
          have hw : 0 < w := hpos w List.mem_cons_self
          refine ⟨0, by omega, ?_⟩
          rw [locate, if_pos hw]
      | succ i =>
          have hrest : ∀ u ∈ weights, 0 < u := fun u hu => hpos u (List.mem_cons_of_mem _ hu)
          obtain ⟨unit, hunit, hloc⟩ := ih hrest (Nat.lt_of_succ_lt_succ hi)
          refine ⟨w + unit, by omega, ?_⟩
          rw [locate, if_neg (by omega), Nat.add_sub_cancel_left, hloc]

end RightLinear.Random

namespace RightLinear.Sampler

open RightLinear.Random (Source)

variable {s : Sampler}

theorem length_weights : s.weights.length = s.row.length := List.length_map _

theorem pos_of_mem_weights (hpos : ∀ w ∈ s.row, w ≠ 0) {n : ℕ} (hn : n ∈ s.weights) : 0 < n := by
  obtain ⟨w, hw, rfl⟩ := List.mem_map.mp hn
  exact Nat.pos_of_ne_zero fun h => hpos w hw (UInt32.toNat_inj.mp h)

theorem exists_pick_index (hpos : ∀ w ∈ s.row, w ≠ 0) (htotal : s.total < UInt32.size)
    {i : ℕ} (hi : i < s.row.length) :
    ∃ w, ∀ rest n, s.pick ⟨.tape (w :: rest), n⟩ = (i, ⟨.tape rest, n + 1⟩) := by
  have hi' : i < s.weights.length := Nat.lt_of_lt_of_eq hi length_weights.symm
  obtain ⟨unit, hunit, hloc⟩ := Random.exists_locate (fun _ => pos_of_mem_weights hpos) hi'
  have hcount : (Random.Scale.weighted s.total).count ≤ UInt32.size := Nat.le_of_lt htotal
  obtain ⟨w, hw⟩ := Random.exists_pick hcount (Random.Scale.count_le_weighted_zone hcount) hunit
  refine ⟨w, fun rest n => ?_⟩
  simp only [pick, hw, hloc]

end RightLinear.Sampler
