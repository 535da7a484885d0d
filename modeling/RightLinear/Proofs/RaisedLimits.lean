import RightLinear.Proofs.Interchange
import RightLinear.Proofs.Turns

/-! # Raising the limits

Attempts share one source: what an abandoned attempt has drawn is gone, and the next one starts where it
stopped (`attempt_add_of_none`).  So the first attempt that ends in a word is the same however many more
could have followed it, and more attempts never spoil a success.

A greater limit of steps lets a derivation go further, but one that has ended in a word has left its
source where it is (`derive_of_le`).  An abandoned attempt may go on to draw, which shifts everything
behind it; therefore a greater limit keeps a word only if it was found at the first attempt.

Every choice makes at least one draw (`drawn_add_of_run`), so further attempts can only add to the draws
of those that have failed (`drawn_le_attempt`). -/

namespace RightLinear

open RightLinear.Random (Scale Source)

/-! ### Draws -/

namespace Random.Source

theorem drawn_lt_roll (scale : Scale) (patience : ℕ) (source : Source) :
    source.drawn < (source.roll scale patience).2.drawn := by
  induction patience generalizing source with
  | zero => exact Nat.lt_succ_self source.drawn
  | succ patience ih =>
      have hnext : source.drawn < (source.next scale.width).2.drawn := Nat.lt_succ_self source.drawn
      rw [roll]
      dsimp only
      split
      · exact hnext
      · exact Nat.lt_trans hnext (ih (source.next scale.width).2)

theorem drawn_lt_pick (scale : Scale) (source : Source) :
    source.drawn < (source.pick scale).2.drawn :=
  drawn_lt_roll scale _ source

end Random.Source

namespace Grammar

variable {g : Grammar}

theorem drawn_lt_choose (name : String) (ps : List Production) (source : Source) :
    source.drawn < (g.choose name ps source).2.drawn := by
  show source.drawn < (g.drawIndex name ps.length source).2.drawn
  unfold drawIndex
  cases g.samplers.get? name with
  | none => exact source.drawn_lt_pick _
  | some sampler => exact source.drawn_lt_pick _

theorem drawn_add_of_run {choices : List Production} {w w' : Walker} (h : Run g.Pace choices w w') :
    w.source.drawn + choices.length ≤ w'.source.drawn := by
  induction h with
  | nil w => simp
  | @cons w₁ w₂ w₃ p choices hstep _ ih =>
      cases hstep with
      | @mk output name p source source' _ hchoose =>
          have hdraw := drawn_lt_choose (g := g) name (g.productionsOf name) source
          rw [hchoose] at hdraw
          simp only [List.length_cons] at ih hdraw ⊢
          omega

/-- What a walk leaves of its source is what its choices leave. -/
theorem exists_run_left (hg : g.Aligned) (budget : ℕ) (w : Walker) :
    ∃ choices w', Run g.Pace choices w w' ∧
      (g.walk budget w.output w.current w.source).2 = w'.source := by
  rcases exists_run hg budget w with
    ⟨choices, word, last, hlength, hrun⟩ | ⟨choices, output, name, last, hrun, hstuck⟩
  · exact ⟨choices, _, hrun, by rw [walk_of_end hrun hlength]⟩
  · exact ⟨choices, _, hrun, by rw [walk_of_stuck hrun hstuck]⟩

theorem drawn_le_derive (hg : g.Aligned) (limit : UInt64) (source : Source) :
    source.drawn ≤ (g.derive limit source).2.drawn := by
  obtain ⟨choices, w, hrun, hleft⟩ := exists_run_left hg (limit.toNat + 1) (g.walker source)
  have hdrawn : source.drawn + choices.length ≤ w.source.drawn := drawn_add_of_run hrun
  have hderive : (g.derive limit source).2 = w.source := by
    rw [derive_eq_walk]
    exact hleft
  rw [hderive]
  omega

/-! ### More steps -/

theorem derive_of_le (hg : g.Aligned) {limit limit' : UInt64} (hle : limit ≤ limit')
    {source source' : Source} {word : List Char}
    (h : g.derive limit source = (some word, source')) :
    g.derive limit' source = (some word, source') := by
  rw [derive_eq_walk] at h ⊢
  obtain ⟨choices, hlength, hrun⟩ := (walk_eq_some hg (w := g.walker source)).mp h
  have hlimits := UInt64.le_iff_toNat_le.mp hle
  exact walk_of_end hrun (by omega)

/-! ### More attempts -/

theorem attempt_one (limit : UInt64) (source : Source) :
    g.attempt limit 1 source = g.derive limit source := by
  rw [attempt]
  split
  · next h => rw [h]
  · next h => rw [h, attempt]

section

variable {limit : UInt64} {attempts : ℕ} {source source' : Source}

/-- Further attempts follow those that have failed, on the source that these have left. -/
theorem attempt_add_of_none (h : g.attempt limit attempts source = (none, source')) (more : ℕ) :
    g.attempt limit (attempts + more) source = g.attempt limit more source' := by
  induction attempts generalizing source with
  | zero =>
      cases h
      rw [Nat.zero_add]
  | succ attempts ih =>
      rw [attempt] at h
      rw [Nat.add_right_comm, attempt]
      split at h
      · cases h
      · exact ih h

theorem attempt_of_le {word : List Char} (h : g.attempt limit attempts source = (some word, source'))
    {attempts' : ℕ} (hle : attempts ≤ attempts') :
    g.attempt limit attempts' source = (some word, source') := by
  induction attempts generalizing attempts' source with
  | zero => cases h
  | succ attempts ih =>
      obtain ⟨more, rfl⟩ := Nat.exists_eq_add_of_le' hle
      rw [attempt] at h
      rw [← Nat.add_assoc, attempt]
      split at h
      · exact h
      · exact ih h (Nat.le_add_left attempts more)

end

theorem drawn_le_attempt (hg : g.Aligned) (limit : UInt64) (attempts : ℕ) (source : Source) :
    source.drawn ≤ (g.attempt limit attempts source).2.drawn := by
  induction attempts generalizing source with
  | zero => exact Nat.le_refl source.drawn
  | succ attempts ih =>
      have hfirst := drawn_le_derive hg limit source
      rw [attempt]
      split
      · next hd =>
        rw [hd] at hfirst
        exact hfirst
      · next abandoned hd =>
        rw [hd] at hfirst
        exact Nat.le_trans hfirst (ih abandoned)

/-! ### Generation -/

/-- The grammar with another number of attempts. -/
def withAttempts (g : Grammar) (attempts : UInt64) : Grammar :=
  g.withLimits { g.limits with maxAttempts := attempts }

theorem attempt_withAttempts (attempts limit : UInt64) (n : ℕ) (source : Source) :
    (g.withAttempts attempts).attempt limit n source = g.attempt limit n source :=
  attempt_congr (g := g.withAttempts attempts) (h := g) (fun _ => rfl) (fun _ => rfl) rfl limit n
    source

section

variable {attempts limit : UInt64} {source source' : Source}

theorem withAttempts_eq_ok {word : List Char} :
    (g.withAttempts attempts).generate limit source = (.ok word, source') ↔
      g.attempt limit attempts.toNat source = (some word, source') := by
  have hlimits : (g.withAttempts attempts).limits.maxAttempts = attempts := rfl
  rw [generate, attempt_withAttempts, hlimits]
  split
  · next h => simp [h]
  · next h => simp [h]

theorem attempt_of_withAttempts_eq_error {fault : Exhausted}
    (h : (g.withAttempts attempts).generate limit source = (.error fault, source')) :
    g.attempt limit attempts.toNat source = (none, source') := by
  rw [generate, attempt_withAttempts] at h
  split at h
  · cases h
  · next hattempt =>
    cases h
    exact hattempt

theorem snd_generate_withAttempts :
    ((g.withAttempts attempts).generate limit source).2 =
      (g.attempt limit attempts.toNat source).2 := by
  have hlimits : (g.withAttempts attempts).limits.maxAttempts = attempts := rfl
  rw [generate, attempt_withAttempts, hlimits]
  split
  · next h => rw [h]
  · next h => rw [h]

end

/-- **Raising the limits never spoils a success.**  From every source, a word that is generated in some
number of attempts is generated in any greater number as well, with the same source left over, so after
the same draws.  A word that is generated in a single attempt is generated within every greater limit of
steps, in one attempt or more, again with the same source left over.  And where all attempts fail, a
greater number of them makes at least as many draws, whatever they come to. -/
theorem generate_raised (hg : g.Built) (limit : UInt64) (source : Source) :
    (∀ attempts attempts' word source', attempts ≤ attempts' →
      (g.withAttempts attempts).generate limit source = (.ok word, source') →
        (g.withAttempts attempts').generate limit source = (.ok word, source')) ∧
    (∀ limit' attempts' word source', limit ≤ limit' → 1 ≤ attempts' →
      (g.withAttempts 1).generate limit source = (.ok word, source') →
        (g.withAttempts attempts').generate limit' source = (.ok word, source')) ∧
    ∀ attempts attempts' fault source', attempts ≤ attempts' →
      (g.withAttempts attempts).generate limit source = (.error fault, source') →
        source.drawn ≤ source'.drawn ∧
          source'.drawn ≤ ((g.withAttempts attempts').generate limit source).2.drawn := by
  have ha := hg.consistent.aligned
  refine ⟨?_, ?_, ?_⟩
  · intro attempts attempts' word source' hle h
    rw [withAttempts_eq_ok] at h ⊢
    exact attempt_of_le h (UInt64.le_iff_toNat_le.mp hle)
  · intro limit' attempts' word source' hle hone h
    rw [withAttempts_eq_ok] at h ⊢
    have hfirst : g.derive limit source = (some word, source') := (attempt_one limit source).symm.trans h
    have hfirst' : g.attempt limit' 1 source = (some word, source') :=
      (attempt_one limit' source).trans (derive_of_le ha hle hfirst)
    exact attempt_of_le hfirst' (UInt64.le_iff_toNat_le.mp hone)
  · intro attempts attempts' fault source' hle h
    have hfailed := attempt_of_withAttempts_eq_error h
    have hdrawn := drawn_le_attempt ha limit attempts.toNat source
    rw [hfailed] at hdrawn
    obtain ⟨more, hmore⟩ := Nat.exists_eq_add_of_le (UInt64.le_iff_toNat_le.mp hle)
    refine ⟨hdrawn, ?_⟩
    rw [snd_generate_withAttempts, hmore, attempt_add_of_none hfailed]
    exact drawn_le_attempt ha limit more source'

/-- The first word of the first tape selects `bD`, which is given up, and the second selects `c`, which
the first word of the second tape selects at once. -/
theorem stranded_raised : stranded.Built ∧
    (stranded.withAttempts 2).generate 0 (.ofWords [9223372036854775808, 12297829382473034411]) =
      (.ok ['c'], ⟨.tape [], 2⟩) ∧
    (stranded.withAttempts 4).generate 0 (.ofWords [9223372036854775808, 12297829382473034411]) =
      (.ok ['c'], ⟨.tape [], 2⟩) ∧
    (stranded.withAttempts 1).generate 0 (.ofWords [12297829382473034411, 5]) =
      (.ok ['c'], ⟨.tape [5], 1⟩) ∧
    (stranded.withAttempts 3).generate 7 (.ofWords [12297829382473034411, 5]) =
      (.ok ['c'], ⟨.tape [5], 1⟩) ∧
    (stranded.withAttempts 1).generate 0 (.ofWords [9223372036854775808, 12297829382473034411]) =
      (.error ⟨1, 0⟩, ⟨.tape [12297829382473034411], 1⟩) ∧
    1 ≤ ((stranded.withAttempts 2).generate 0
      (.ofWords [9223372036854775808, 12297829382473034411])).2.drawn := by
  obtain ⟨hattempts, _, hdrawn⟩ := generate_raised stranded_built 0
    (.ofWords [9223372036854775808, 12297829382473034411])
  obtain ⟨_, hsteps, _⟩ := generate_raised stranded_built 0 (.ofWords [12297829382473034411, 5])
  have htwo : (stranded.withAttempts 2).generate 0
      (.ofWords [9223372036854775808, 12297829382473034411]) = (.ok ['c'], ⟨.tape [], 2⟩) := by
    decide
  have hone : (stranded.withAttempts 1).generate 0 (.ofWords [12297829382473034411, 5]) =
      (.ok ['c'], ⟨.tape [5], 1⟩) := by
    decide
  have hfailed : (stranded.withAttempts 1).generate 0
      (.ofWords [9223372036854775808, 12297829382473034411]) =
        (.error ⟨1, 0⟩, ⟨.tape [12297829382473034411], 1⟩) := by
    decide
  exact ⟨stranded_built, htwo, hattempts 2 4 _ _ (by decide) htwo, hone,
    hsteps 7 3 _ _ (by decide) (by decide) hone, hfailed,
    (hdrawn 1 2 _ _ (by decide) hfailed).2⟩

/-- A word that was not found at the first attempt may be lost to a greater limit of steps, as the
abandoned attempt goes on and takes the draw that led to it. -/
example :
    ((stranded.withAttempts 2).generate 0 (.ofWords [0, 12297829382473034411])).1 = .ok ['c'] ∧
    ((stranded.withAttempts 2).generate 1 (.ofWords [0, 12297829382473034411])).1 =
      .ok ['a', 'c'] := by
  decide

end Grammar
end RightLinear
