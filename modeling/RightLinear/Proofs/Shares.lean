import Mathlib.Algebra.BigOperators.Group.Finset.Basic
import Mathlib.Algebra.GroupWithZero.Nat
import Mathlib.Order.Interval.Finset.Nat
import RightLinear.Proofs.Bounds

/-! # How many words lead to an answer

`Width.ways f r` counts the words of a width to which `f` gives the result `r`.

* A scale whose zone takes in `share` low parts for each of its answers is `Fair`, and then every answer
  has exactly `share` words (`Scale.Fair.ways_answer`): these are the words whose product with the count
  falls into an interval of `count * share` numbers, and every `count`-th number is a product.  What is
  left of the range is turned down (`Scale.Fair.ways_none`).
* The scale of a choice among `k` equal alternatives is fair with one word for each subset of the leading
  zero bits of `k` (`fair_uniform`), that of a choice among `total` units of weight with
  `2 ^ 32 / total` words (`fair_weighted`).
* A weight owns as many units as it weighs (`card_units`), and a function of the answer has the words of
  all answers that it maps there (`Width.ways_map`). -/

namespace RightLinear.Random

/-- The number of words of the width to which `f` gives the result `r`. -/
def Width.ways (width : Width) (f : ℕ → Option ℕ) (r : Option ℕ) : ℕ :=
  ((Finset.range width.range).filter fun v => f v = r).card

/-! ### Words by their results -/

namespace Width

variable {width : Width} {f : ℕ → Option ℕ} {n share : ℕ}

theorem ways_none_add (hlt : ∀ v < width.range, ∀ i, f v = some i → i < n) :
    width.ways f none + ∑ i ∈ Finset.range n, width.ways f (some i) = width.range := by
  have hsome : ((Finset.range width.range).filter fun v => ¬ f v = none).card =
      ∑ i ∈ Finset.range n, width.ways f (some i) := by
    rw [Finset.card_eq_sum_card_fiberwise (f := fun v => (f v).getD 0) (t := Finset.range n)]
    · refine Finset.sum_congr rfl fun i _ => congrArg Finset.card ?_
      ext v
      simp only [Finset.mem_filter]
      cases f v <;> simp
    · intro v hv
      obtain ⟨hv, hsome⟩ := Finset.mem_filter.mp hv
      obtain ⟨i, hi⟩ := Option.ne_none_iff_exists'.mp hsome
      have hin := hlt v (Finset.mem_range.mp hv) i hi
      simpa [hi] using hin
  rw [← hsome]
  unfold ways
  rw [Finset.card_filter_add_card_filter_not, Finset.card_range]

/-- If every answer below `n` has `share` words, an index has `share` words for each answer that is
mapped to it. -/
theorem ways_map (hlt : ∀ v < width.range, ∀ u, f v = some u → u < n)
    (hshare : ∀ u < n, width.ways f (some u) = share) (h : ℕ → ℕ) (i : ℕ) :
    width.ways (fun v => (f v).map h) (some i) =
      ((Finset.range n).filter fun u => h u = i).card * share := by
  unfold ways
  rw [Finset.card_eq_sum_card_fiberwise (f := fun v => (f v).getD 0)
    (t := (Finset.range n).filter fun u => h u = i)]
  · apply Finset.sum_const_nat
    intro u hunit
    obtain ⟨hu, rfl⟩ := Finset.mem_filter.mp hunit
    rw [← hshare u (Finset.mem_range.mp hu)]
    refine congrArg Finset.card ?_
    ext v
    simp only [Finset.mem_filter]
    cases hv : f v with
    | none => simp
    | some u' =>
        have hmap : u' = u → h u' = h u := fun e => e ▸ rfl
        simp only [Option.map_some, Option.getD_some, Option.some.injEq]
        tauto
  · intro v hword
    obtain ⟨hv, hi⟩ := Finset.mem_filter.mp hword
    obtain ⟨u, hu, rfl⟩ := Option.map_eq_some_iff.mp hi
    have hin := hlt v (Finset.mem_range.mp hv) u hu
    simpa [hu] using hin

end Width

/-! ### Fair scales -/

namespace Scale

/-- The zone takes in `share` low parts for each answer. -/
structure Fair (s : Scale) (share : ℕ) : Prop where
  zone_eq : s.zone + 1 = s.count * share
  fits : s.count * share ≤ s.width.range

variable {s : Scale} {share : ℕ}

/-- An answer is given to the words whose product is that many ranges and a low part of the zone. -/
theorem Fair.admit?_eq_some (hs : s.Fair share) {v i : ℕ} :
    s.admit? v = some i ↔
      i * s.width.range ≤ v * s.count ∧ v * s.count < i * s.width.range + s.count * share := by
  have hzone := hs.zone_eq
  have hfits := hs.fits
  have hsplit := Nat.div_add_mod (v * s.count) s.width.range
  rw [Nat.mul_comm] at hsplit
  unfold admit? answer
  constructor
  · intro h
    split at h
    · next hlow =>
      cases h
      omega
    · cases h
  · rintro ⟨hle, hlt⟩
    have hdiv : v * s.count / s.width.range = i := by
      apply Nat.div_eq_of_lt_le hle
      rw [Nat.succ_mul]
      omega
    rw [hdiv] at hsplit
    rw [hdiv, if_pos (by omega)]

theorem lt_div_up_iff {c n v : ℕ} (hc : 0 < c) : v < (n + (c - 1)) / c ↔ v * c < n := by
  rw [Nat.lt_div_iff_mul_lt hc, Nat.add_sub_cancel]

/-- Every answer has the same number of words. -/
theorem Fair.ways_answer (hs : s.Fair share) {i : ℕ} (hi : i < s.count) :
    s.width.ways s.admit? (some i) = share := by
  have hpos : 0 < s.count := Nat.lt_of_le_of_lt (Nat.zero_le i) hi
  have hfits := hs.fits
  -- The least word of the answer is the quotient rounded up, and the words of it follow on each other.
  obtain ⟨least, hleast⟩ : ∃ least, least = (i * s.width.range + (s.count - 1)) / s.count := ⟨_, rfl⟩
  have hend : (i * s.width.range + s.count * share + (s.count - 1)) / s.count = least + share := by
    have hmove : i * s.width.range + s.count * share + (s.count - 1) =
        i * s.width.range + (s.count - 1) + s.count * share := by omega
    rw [hmove, Nat.add_mul_div_left _ _ hpos, hleast]
  have hwords : ((Finset.range s.width.range).filter fun v => s.admit? v = some i) =
      Finset.Ico least (least + share) := by
    ext v
    have hlow : least ≤ v ↔ i * s.width.range ≤ v * s.count := by
      rw [← Nat.not_lt, ← Nat.not_lt, hleast, lt_div_up_iff hpos]
    have hhigh : v < least + share ↔ v * s.count < i * s.width.range + s.count * share := by
      rw [← hend, lt_div_up_iff hpos]
    simp only [Finset.mem_filter, Finset.mem_range, Finset.mem_Ico, hs.admit?_eq_some, hlow, hhigh,
      and_iff_right_iff_imp]
    rintro ⟨_, hlt⟩
    have hbound : (i + 1) * s.width.range ≤ s.count * s.width.range := Nat.mul_le_mul_right _ hi
    rw [Nat.succ_mul] at hbound
    have hprod : v * s.count < s.width.range * s.count := by
      rw [Nat.mul_comm s.width.range]
      omega
    exact Nat.lt_of_mul_lt_mul_right hprod
  unfold Width.ways
  rw [hwords, Nat.card_Ico, Nat.add_sub_cancel_left]

theorem answer_of_admit? {v i : ℕ} (h : s.admit? v = some i) : s.answer v = i := by
  unfold admit? at h
  split at h
  · exact Option.some.inj h
  · cases h

theorem lt_of_admit? (hpos : 0 < s.count) {v i : ℕ} (hv : v < s.width.range)
    (h : s.admit? v = some i) : i < s.count := by
  rw [← answer_of_admit? h]
  exact answer_lt hv hpos

theorem Fair.ways_none (hs : s.Fair share) (hpos : 0 < s.count) :
    s.width.ways s.admit? none = s.width.range - s.count * share := by
  have hall := Width.ways_none_add (fun v hv i hi => lt_of_admit? hpos (s := s) hv hi)
  have hshares : ∑ i ∈ Finset.range s.count, s.width.ways s.admit? (some i) = s.count * share := by
    rw [Finset.sum_const_nat fun i hi => hs.ways_answer (Finset.mem_range.mp hi), Finset.card_range]
  rw [hshares] at hall
  omega

theorem log2_add_clz {k : ℕ} (hpos : 0 < k) (hk : k < UInt64.size) :
    k.log2 + (BitVec.ofNat 64 k).clz.toNat = 63 := by
  have htoNat : (BitVec.ofNat 64 k).toNat = k := by
    rw [BitVec.toNat_ofNat]
    exact Nat.mod_eq_of_lt hk
  have hne : BitVec.ofNat 64 k ≠ 0#64 := by
    intro h
    rw [h] at htoNat
    exact absurd htoNat (Nat.ne_of_lt hpos)
  have hlow := BitVec.two_pow_sub_clz_le_toNat_of_ne_zero (Nat.succ_pos 63) hne
  have hhigh := BitVec.toNat_lt_two_pow_sub_clz (x := BitVec.ofNat 64 k)
  have hzeros : (BitVec.ofNat 64 k).clz.toNat < 64 := by
    have hlt := BitVec.clz_lt_iff_ne_zero.mpr hne
    rw [BitVec.lt_def] at hlt
    simpa using hlt
  rw [htoNat] at hlow hhigh
  generalize (BitVec.ofNat 64 k).clz.toNat = zeros at *
  have hlog : k.log2 = 63 - zeros := by
    rw [Nat.log2_eq_iff (Nat.ne_of_gt hpos)]
    have hexp : 63 - zeros + 1 = 64 - zeros := by omega
    rw [hexp]
    exact ⟨hlow, hhigh⟩
  omega

/-- Among `k` equal alternatives each has as many words as the leading zero bits of `k` can be set. -/
theorem fair_uniform {k : ℕ} (hpos : 0 < k) (hk : k < UInt64.size) :
    (uniform k).Fair (2 ^ (BitVec.ofNat 64 k).clz.toNat) := by
  have hlog := log2_add_clz hpos hk
  generalize (BitVec.ofNat 64 k).clz.toNat = zeros at *
  obtain rfl : zeros = 63 - k.log2 := by omega
  have hzone : (uniform k).zone = k * 2 ^ (63 - k.log2) - 1 := by
    rw [← Nat.shiftLeft_eq]
    rfl
  have hshares : 0 < k * 2 ^ (63 - k.log2) := Nat.mul_pos hpos (Nat.two_pow_pos _)
  have hfits : k * 2 ^ (63 - k.log2) ≤ UInt64.size := by
    calc
      k * 2 ^ (63 - k.log2) ≤ 2 ^ (k.log2 + 1) * 2 ^ (63 - k.log2) :=
        Nat.mul_le_mul_right _ Nat.lt_log2_self.le
      _ = 2 ^ (k.log2 + 1 + (63 - k.log2)) := (Nat.pow_add _ _ _).symm
      _ = UInt64.size := by
        have hexp : k.log2 + 1 + (63 - k.log2) = 64 := by omega
        rw [hexp]
        rfl
  constructor
  · show (uniform k).zone + 1 = k * 2 ^ (63 - k.log2)
    omega
  · exact hfits

/-- Among `total` units of weight each has the quotient of the number of words. -/
theorem fair_weighted {total : ℕ} (hpos : 0 < total) (htotal : total < UInt32.size) :
    (weighted total).Fair (UInt32.size / total) := by
  have hle : total * (UInt32.size / total) ≤ UInt32.size := Nat.mul_div_le _ _
  have hsplit := Nat.div_add_mod UInt32.size total
  have hmod : UInt32.size % total = (UInt32.size - total) % total := Nat.mod_eq_sub_mod htotal.le
  have hrest : UInt32.size % total < UInt32.size := Nat.lt_of_lt_of_le (Nat.mod_lt _ hpos) htotal.le
  constructor
  · show UInt32.size - 1 - (UInt32.size - total) % total + 1 = total * (UInt32.size / total)
    omega
  · exact hle

end Scale

/-! ### Units of weight -/

theorem locate_eq_iff {weights : List ℕ} {unit i : ℕ} (hi : i < weights.length) :
    locate unit weights = i ↔ (weights.take i).sum ≤ unit ∧ unit < (weights.take i).sum + weights[i] := by
  induction weights generalizing unit i with
  | nil => cases hi
  | cons w weights ih =>
      rw [locate]
      cases i with
      | zero =>
          split <;> simp <;> omega
      | succ i =>
          have hi' : i < weights.length := Nat.lt_of_succ_lt_succ hi
          rw [List.take_succ_cons, List.sum_cons, List.getElem_cons_succ]
          split
          · next h =>
            omega
          · next h =>
            rw [Nat.add_right_cancel_iff, ih hi']
            omega

theorem card_units {weights : List ℕ} {i : ℕ} (hi : i < weights.length) :
    ((Finset.range weights.sum).filter fun unit => locate unit weights = i).card = weights[i] := by
  have hsum : (weights.take i).sum + weights[i] ≤ weights.sum := by
    rw [← List.sum_take_add_sum_drop weights i, List.drop_eq_getElem_cons hi, List.sum_cons]
    omega
  have hunits : ((Finset.range weights.sum).filter fun unit => locate unit weights = i) =
      Finset.Ico (weights.take i).sum ((weights.take i).sum + weights[i]) := by
    ext unit
    simp only [Finset.mem_filter, Finset.mem_range, Finset.mem_Ico, locate_eq_iff hi]
    omega
  rw [hunits, Nat.card_Ico, Nat.add_sub_cancel_left]

end RightLinear.Random
