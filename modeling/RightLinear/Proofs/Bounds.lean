import RightLinear.Grammar.Generation
import RightLinear.Proofs.Draws

/-! # Choices stay within bounds

A word that is drawn is one of its width, so the answer to it is below the count of the scale, however
many draws were turned down before (`Source.pick_lt`).  A unit of weight below the total belongs to one
of the weights (`locate_lt`), and weights that are not zero have a total above zero, so a sampler picks
an index of its row (`Sampler.pick_lt`). -/

namespace RightLinear.Random

theorem Width.range_pos (width : Width) : 0 < width.range := by
  cases width <;> decide

theorem Supply.next_lt (width : Width) (supply : Supply) :
    (supply.next width).1 < width.range := by
  cases supply with
  | tape words =>
      cases words with
      | nil =>
          have hzero : (Supply.next width (.tape [])).1 = 0 := by cases width <;> rfl
          rw [hzero]
          exact width.range_pos
      | cons w rest =>
          cases width with
          | half => exact w.toUInt32.toNat_lt
          | full => exact w.toNat_lt
  | keystream stream =>
      cases width with
      | half => exact stream.next.1.toNat_lt
      | full =>
          have hlow := stream.next.1.toNat_lt
          have hhigh := stream.next.2.next.1.toNat_lt
          show stream.next.1.toNat + stream.next.2.next.1.toNat * 2 ^ 32 < 2 ^ 64
          omega

theorem Source.next_lt (width : Width) (source : Source) : (source.next width).1 < width.range :=
  source.supply.next_lt width

namespace Source

variable {s : Scale}

theorem roll_lt (hcount : 0 < s.count) (patience : ℕ) (source : Source) :
    (source.roll s patience).1 < s.count := by
  induction patience generalizing source with
  | zero => exact Scale.answer_lt (source.next_lt s.width) hcount
  | succ patience ih =>
      rw [roll]
      dsimp only
      split
      · next n hn =>
        unfold Scale.admit? at hn
        split at hn
        · cases hn
          exact Scale.answer_lt (source.next_lt s.width) hcount
        · cases hn
      · exact ih _

theorem pick_lt (hcount : 0 < s.count) (source : Source) : (source.pick s).1 < s.count :=
  roll_lt hcount source.supply.patience source

end Source

/-- A unit below the sum of the weights belongs to one of them. -/
theorem locate_lt {weights : List ℕ} {unit : ℕ} (h : unit < weights.foldr (· + ·) 0) :
    locate unit weights < weights.length := by
  induction weights generalizing unit with
  | nil => exact absurd h (Nat.not_lt_zero unit)
  | cons w weights ih =>
      rw [List.foldr_cons] at h
      rw [locate, List.length_cons]
      split
      · exact Nat.succ_pos _
      · exact Nat.succ_lt_succ (ih (by omega))

end RightLinear.Random

namespace RightLinear.Sampler

open RightLinear.Random (Source)

variable {s : Sampler}

/-- A sampler whose weights are not all zero picks an index of its row. -/
theorem pick_lt (htotal : 0 < s.total) (source : Source) : (s.pick source).1 < s.row.length := by
  have hunit := Source.pick_lt (s := .weighted s.total) htotal source
  rw [← length_weights]
  exact Random.locate_lt hunit

end RightLinear.Sampler
