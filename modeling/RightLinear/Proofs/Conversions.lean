import Mathlib.Data.List.Forall2

/-! # Lists that are converted element by element

Right-hand sides and lines are read by a conversion that can fail, one after another, and the first failure
ends the reading.  A converted list corresponds to the given one element by element
(`mapM_eq_ok`); a failure is that of the first element which is not converted
(`mapM_eq_error`).  Where elements that are not converted are left out, the last that is converted counts
(`getLast?_filterMap_cons`). -/

namespace RightLinear

theorem map_eq_ok {ε α β : Type} {result : Except ε α} {f : α → β} {b : β} :
    result.map f = .ok b ↔ ∃ a, result = .ok a ∧ f a = b := by
  cases result <;> simp [Except.map]

theorem map_eq_error {ε α β : Type} {result : Except ε α} {f : α → β} {e : ε} :
    result.map f = .error e ↔ result = .error e := by
  cases result <;> simp [Except.map]

/-- The first element counts if no later one is converted. -/
theorem getLast?_filterMap_cons {α β : Type} (f : α → Option β) (a : α) (l : List α) :
    ((a :: l).filterMap f).getLast? = (l.filterMap f).getLast?.or (f a) := by
  cases h : f a with
  | none => rw [List.filterMap_cons_none h, Option.or_none]
  | some b =>
      rw [List.filterMap_cons_some h, List.getLast?_cons]
      cases (l.filterMap f).getLast? <;> rfl

theorem foldl_filterMap_cons {α β γ : Type} (g : γ → β → γ) (f : α → Option β) (a : α) (l : List α)
    (c : γ) : ((a :: l).filterMap f).foldl g c = (l.filterMap f).foldl g ((f a).toList.foldl g c) := by
  cases h : f a with
  | none => rw [List.filterMap_cons_none h]; rfl
  | some b => rw [List.filterMap_cons_some h]; rfl

theorem mapM_eq_ok {α β ε : Type} {f : α → Except ε β} {l : List α} {l' : List β} :
    l.mapM f = .ok l' ↔ List.Forall₂ (fun a b => f a = .ok b) l l' := by
  induction l generalizing l' with
  | nil => cases l' <;> simp [pure, Except.pure]
  | cons a l ih =>
      rw [List.mapM_cons]
      constructor
      · intro h
        cases hb : f a with
        | error e => rw [hb] at h; cases h
        | ok b =>
            cases hl : l.mapM f with
            | error e => rw [hb, hl] at h; cases h
            | ok bs =>
                rw [hb, hl] at h
                cases h
                exact .cons hb (ih.mp hl)
      · intro h
        cases h with
        | cons hb hl =>
            rw [hb, ih.mpr hl]
            rfl

theorem exists_mem_of_forall₂ {α β : Type} {R : α → β → Prop} {l : List α} {l' : List β}
    (h : List.Forall₂ R l l') {a : α} (ha : a ∈ l) : ∃ b ∈ l', R a b := by
  induction h with
  | nil => cases ha
  | cons hab _ ih =>
      rcases List.mem_cons.mp ha with rfl | ha
      · exact ⟨_, List.mem_cons_self, hab⟩
      · obtain ⟨b, hb, h⟩ := ih ha
        exact ⟨b, List.mem_cons_of_mem _ hb, h⟩

theorem exists_getLast?_of_forall₂ {α β : Type} {R : α → β → Prop} {l : List α} {l' : List β}
    (h : List.Forall₂ R l l') {b : β} (hb : l'.getLast? = some b) :
    ∃ a, l.getLast? = some a ∧ R a b := by
  have hreverse : List.Forall₂ R l.reverse l'.reverse := List.rel_reverse h
  rw [List.getLast?_eq_head?_reverse] at hb ⊢
  generalize l.reverse = r at hreverse ⊢
  generalize l'.reverse = r' at hreverse hb
  cases hreverse with
  | nil => cases hb
  | cons hab _ =>
      cases hb
      exact ⟨_, rfl, hab⟩

theorem exists_mapM {α β ε : Type} {f : α → Except ε β} {l : List α} :
    (∃ l', l.mapM f = .ok l') ↔ ∀ a ∈ l, ∃ b, f a = .ok b := by
  constructor
  · rintro ⟨l', h⟩ a ha
    obtain ⟨b, _, hb⟩ := exists_mem_of_forall₂ (mapM_eq_ok.mp h) ha
    exact ⟨b, hb⟩
  · intro h
    induction l with
    | nil => exact ⟨[], rfl⟩
    | cons a l ih =>
        obtain ⟨⟨b, hb⟩, hrest⟩ := List.forall_mem_cons.mp h
        obtain ⟨l', hl'⟩ := ih hrest
        exact ⟨b :: l', by rw [List.mapM_cons, hb, hl']; rfl⟩

/-- The conversion of a list fails with the first failure, behind elements that are converted. -/
theorem mapM_eq_error {α β ε : Type} {f : α → Except ε β} {l : List α} {e : ε} :
    l.mapM f = .error e ↔ ∃ before a after, l = before ++ a :: after ∧
      (∀ b ∈ before, ∃ c, f b = .ok c) ∧ f a = .error e := by
  induction l with
  | nil =>
      constructor
      · intro h
        cases h
      · rintro ⟨before, a, after, h, _⟩
        cases before <;> cases h
  | cons x l ih =>
      rw [List.mapM_cons]
      constructor
      · intro h
        cases hx : f x with
        | error e' =>
            rw [hx] at h
            cases h
            exact ⟨[], x, l, rfl, fun _ hb => (List.not_mem_nil hb).elim, hx⟩
        | ok b =>
            rw [hx] at h
            cases hl : l.mapM f with
            | error e' =>
                rw [hl] at h
                cases h
                obtain ⟨before, a, after, rfl, hbefore, ha⟩ := ih.mp hl
                exact ⟨x :: before, a, after, rfl, List.forall_mem_cons.mpr ⟨⟨b, hx⟩, hbefore⟩, ha⟩
            | ok l' =>
                rw [hl] at h
                cases h
      · rintro ⟨before, a, after, h, hbefore, ha⟩
        cases before with
        | nil =>
            cases h
            rw [ha]
            rfl
        | cons y before =>
            cases h
            obtain ⟨⟨b, hb⟩, hrest⟩ := List.forall_mem_cons.mp hbefore
            have hl := ih.mpr ⟨before, a, after, rfl, hrest, ha⟩
            rw [hb, hl]
            rfl

end RightLinear
