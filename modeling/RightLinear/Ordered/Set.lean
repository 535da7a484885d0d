/-! # Sets that remember insertion order

`OrdSet α` lists its members once each, in the order in which they were first inserted.
Everything the library prints or iterates follows that order; `sameMembers` is the comparison
that does not look at it.  The view is `toList`: `toList_insert` says what inserting does to it,
`toList_ofList` that a set built from a list lists its elements without later repetitions, and
`ofList_toList` that listing a set and building it again changes nothing. -/

namespace RightLinear

/-- A finite set whose members are kept in order of first insertion. -/
structure OrdSet (α : Type) where
  /-- The members, each once. -/
  toList : List α
  nodup : toList.Nodup
deriving DecidableEq

namespace OrdSet

variable {α : Type}

instance : EmptyCollection (OrdSet α) := ⟨⟨[], List.nodup_nil⟩⟩

instance : Inhabited (OrdSet α) := ⟨∅⟩

instance : Membership α (OrdSet α) := ⟨fun s a => a ∈ s.toList⟩

/-- The set with one member. -/
def singleton (a : α) : OrdSet α := ⟨[a], List.pairwise_singleton _ a⟩

/-- The number of members. -/
def size (s : OrdSet α) : Nat := s.toList.length

/-- Whether there is no member. -/
def isEmpty (s : OrdSet α) : Bool := s.toList.isEmpty

theorem ext {s t : OrdSet α} (h : s.toList = t.toList) : s = t := by
  cases s
  cases t
  cases h
  rfl

@[simp] theorem mem_toList {a : α} {s : OrdSet α} : a ∈ s.toList ↔ a ∈ s := Iff.rfl

@[simp] theorem not_mem_empty (a : α) : ¬ a ∈ (∅ : OrdSet α) := List.not_mem_nil

theorem isEmpty_eq_true {s : OrdSet α} : s.isEmpty = true ↔ s = ∅ :=
  ⟨fun h => ext (List.isEmpty_iff.mp h), fun h => h ▸ rfl⟩

@[simp] theorem mem_singleton {a b : α} : a ∈ singleton b ↔ a = b := List.mem_singleton

theorem size_le_one_iff {s : OrdSet α} : s.size ≤ 1 ↔ ∀ a ∈ s, ∀ b ∈ s, a = b := by
  obtain ⟨l, hl⟩ := s
  show l.length ≤ 1 ↔ ∀ a ∈ l, ∀ b ∈ l, a = b
  match l with
  | [] => simp
  | [c] => simp
  | c :: d :: l =>
    have hne : ¬ c = d := fun e => (List.nodup_cons.mp hl).1 (e ▸ List.mem_cons_self)
    constructor
    · intro h
      simp only [List.length_cons] at h
      omega
    · intro h
      exact absurd (h c List.mem_cons_self d (List.mem_cons_of_mem c List.mem_cons_self)) hne

variable [DecidableEq α]

instance (a : α) (s : OrdSet α) : Decidable (a ∈ s) := inferInstanceAs (Decidable (a ∈ s.toList))

/-- Whether `a` is a member. -/
def contains (s : OrdSet α) (a : α) : Bool := decide (a ∈ s)

/-- Adds `a` behind the other members; a member keeps its place. -/
def insert (s : OrdSet α) (a : α) : OrdSet α :=
  if h : a ∈ s.toList then s
  else ⟨s.toList ++ [a], List.nodup_append.mpr ⟨s.nodup, List.pairwise_singleton _ a, by
    intro b hb c hc e
    rw [List.mem_singleton] at hc
    exact h (hc ▸ e ▸ hb)⟩⟩

/-- Adds the elements of `l` one after another. -/
def insertAll (s : OrdSet α) (l : List α) : OrdSet α := l.foldl insert s

/-- The elements of `l` without later repetitions. -/
def ofList (l : List α) : OrdSet α := insertAll ∅ l

/-- Both sets have the same members, in whatever order. -/
def sameMembers (s t : OrdSet α) : Bool := s.size == t.size && s.toList.all t.contains

/-! ### Members -/

@[simp] theorem contains_eq_true {a : α} {s : OrdSet α} : s.contains a = true ↔ a ∈ s := by
  simp [contains]

theorem toList_insert (s : OrdSet α) (a : α) :
    (s.insert a).toList = if a ∈ s then s.toList else s.toList ++ [a] := by
  unfold insert
  by_cases h : a ∈ s.toList
  · rw [dif_pos h, if_pos (mem_toList.mp h)]
  · rw [dif_neg h, if_neg (mt mem_toList.mpr h)]

@[simp] theorem mem_insert {a b : α} {s : OrdSet α} : a ∈ s.insert b ↔ a ∈ s ∨ a = b := by
  rw [← mem_toList, toList_insert]
  split
  · next h => exact ⟨Or.inl, fun | .inl ha => ha | .inr e => e ▸ h⟩
  · simp

@[simp] theorem mem_insertAll {a : α} {s : OrdSet α} {l : List α} :
    a ∈ s.insertAll l ↔ a ∈ s ∨ a ∈ l := by
  unfold insertAll
  induction l generalizing s with
  | nil => simp
  | cons b l ih => simp [ih, or_assoc]

@[simp] theorem mem_ofList {a : α} {l : List α} : a ∈ ofList l ↔ a ∈ l := by
  simp [ofList]

/-! ### Listing and building -/

/-- Behind the members of the set follow the new elements, each where it first stands. -/
theorem toList_insertAll (s : OrdSet α) (l : List α) :
    (s.insertAll l).toList = s.toList ++ (l.filter fun a => !s.contains a).eraseDups := by
  induction l generalizing s with
  | nil => exact (List.append_nil _).symm
  | cons a l ih =>
      show ((s.insert a).insertAll l).toList = _
      rw [ih, toList_insert, List.filter_cons]
      by_cases ha : a ∈ s
      · have hsame : s.insert a = s := ext ((toList_insert s a).trans (if_pos ha))
        rw [hsame, if_pos ha, if_neg (by simpa using ha)]
      · have hnew : (fun b => !(s.insert a).contains b) = fun b => !s.contains b && !b == a := by
          funext b
          simp [contains, ← Bool.beq_eq_decide_eq]
        rw [if_neg ha, if_pos (by simpa [contains] using ha), List.eraseDups_cons,
          List.filter_filter, hnew, List.append_assoc]
        simp only [List.singleton_append, Bool.and_comm]

theorem insertAll_append (s : OrdSet α) (l l' : List α) :
    s.insertAll (l ++ l') = (s.insertAll l).insertAll l' :=
  List.foldl_append

/-- A set built from a list lists its elements without later repetitions. -/
theorem toList_ofList (l : List α) : (ofList l).toList = l.eraseDups := by
  have hall : (l.filter fun a => !(∅ : OrdSet α).contains a) = l :=
    List.filter_eq_self.mpr fun a _ => by simp [contains]
  rw [ofList, toList_insertAll, hall]
  rfl

theorem eraseDups_of_nodup {l : List α} (h : l.Nodup) : l.eraseDups = l := by
  induction l with
  | nil => rfl
  | cons a l ih =>
      obtain ⟨ha, hl⟩ := List.nodup_cons.mp h
      have hkeep : (l.filter fun b => !b == a) = l :=
        List.filter_eq_self.mpr fun b hb => by simpa using fun e : b = a => ha (e ▸ hb)
      rw [List.eraseDups_cons, hkeep, ih hl]

theorem ofList_toList (s : OrdSet α) : ofList s.toList = s :=
  ext ((toList_ofList s.toList).trans (eraseDups_of_nodup s.nodup))

/-! ### Without later repetitions -/

theorem nodup_eraseDups (l : List α) : l.eraseDups.Nodup := toList_ofList l ▸ (ofList l).nodup

/-- Dropping later repetitions and dropping what fails a test can be done in either order. -/
theorem filter_eraseDups (p : α → Bool) (l : List α) :
    l.eraseDups.filter p = (l.filter p).eraseDups := by
  induction hlength : l.length using Nat.strongRecOn generalizing l with
  | ind n ih =>
      cases l with
      | nil => rfl
      | cons a l =>
          have hshorter : (l.filter fun b => !b == a).length < n := by
            have hle := List.length_filter_le (fun b => !b == a) l
            rw [List.length_cons] at hlength
            omega
          rw [List.eraseDups_cons, List.filter_cons, List.filter_cons, ih _ hshorter _ rfl,
            List.filter_filter]
          cases ha : p a with
          | true =>
              rw [if_pos rfl, if_pos rfl, List.eraseDups_cons, List.filter_filter]
              simp only [Bool.and_comm]
          | false =>
              -- What is left out is equal to `a`, which fails the test.
              have hsame : (fun b => p b && !b == a) = p := by
                funext b
                by_cases hb : b = a
                · simp [hb, ha]
                · simp [hb]
              rw [hsame]
              rfl

theorem head?_eraseDups (l : List α) : l.eraseDups.head? = l.head? := by
  cases l with
  | nil => rfl
  | cons a l => rw [List.eraseDups_cons, List.head?_cons, List.head?_cons]

theorem find?_eraseDups (p : α → Bool) (l : List α) : l.eraseDups.find? p = l.find? p := by
  rw [← List.head?_filter, filter_eraseDups, head?_eraseDups, List.head?_filter]

/-- Behind an element later repetitions may be dropped first. -/
theorem eraseDups_cons_eraseDups (a : α) (l : List α) :
    (a :: l.eraseDups).eraseDups = (a :: l).eraseDups := by
  rw [List.eraseDups_cons, List.eraseDups_cons, filter_eraseDups,
    eraseDups_of_nodup (nodup_eraseDups _)]

theorem sameMembers_refl (s : OrdSet α) : s.sameMembers s = true := by
  simp [sameMembers]

end OrdSet
end RightLinear
