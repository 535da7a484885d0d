import Mathlib.Data.List.Forall2
import Mathlib.Data.List.ReduceOption
import RightLinear.Lines.Draft
import RightLinear.Proofs.Cutting

/-! # Reading line by line

Lines are read on their own and entered one after another.  Accepted lines in front only change the draft
and the number of the next line (`readLines_append`), and a line only counts for what is read from it
(`readLines_replace`, `ofText_replace`). -/

namespace RightLinear.Lines

open Text

/-- Lines that are accepted enter what they say one after another. -/
theorem readLines_append {before : List (List Char)} {said : List (Option Directive)}
    (h : List.Forall₂ (fun s x => readLine s = .ok x) before said) (number : Nat)
    (rest : List (List Char)) (d : Draft) :
    readLines number (before ++ rest) d =
      readLines (number + before.length) rest (said.reduceOption.foldl Draft.add d) := by
  induction h generalizing number d with
  | nil => rfl
  | @cons s x before said hs _ ih =>
      have hlength : number + (s :: before).length = number + 1 + before.length := by
        rw [List.length_cons]
        omega
      rw [List.cons_append, readLines, hs, hlength]
      cases x with
      | none => exact ih (number + 1) d
      | some directive => exact ih (number + 1) (d.add directive)

theorem readLines_replace {s s' : List Char} (h : readLine s = readLine s')
    (before after : List (List Char)) (number : Nat) (d : Draft) :
    readLines number (before ++ s :: after) d = readLines number (before ++ s' :: after) d := by
  induction before generalizing number d with
  | nil => rw [List.nil_append, List.nil_append, readLines, readLines, h]
  | cons t before ih =>
      rw [List.cons_append, List.cons_append, readLines, readLines]
      cases readLine t with
      | error fault => rfl
      | ok said =>
          cases said with
          | none => exact ih (number + 1) d
          | some directive => exact ih (number + 1) (d.add directive)

theorem ofText_replace {before after : List (List Char)} {s s' : List Char}
    (hlines : ∀ t ∈ before ++ s :: after, ¬ '\n' ∈ t) (hs' : ¬ '\n' ∈ s')
    (hread : readLine s = readLine s') :
    Definition.ofText ((before ++ s :: after).flatMap line) =
      Definition.ofText ((before ++ s' :: after).flatMap line) := by
  have hlines' : ∀ t ∈ before ++ s' :: after, ¬ '\n' ∈ t := by
    simp only [List.forall_mem_append, List.forall_mem_cons] at hlines ⊢
    exact ⟨hlines.1, hs', hlines.2.2⟩
  unfold Definition.ofText
  rw [fields_lines hlines, fields_lines hlines', List.append_assoc, List.append_assoc,
    List.cons_append, List.cons_append, readLines_replace hread]

end RightLinear.Lines
