/-! # Maps that remember insertion order

`OrdMap κ α` lists its entries with pairwise different keys, in the order in which the keys
were first given a value.  A later value for a known key replaces the earlier one in place.
The view is `entries`; `get?` looks a key up, `alter` is the one operation that changes an entry
or appends one, and `sameEntries` compares two maps regardless of order.  `keys_alter` and
`get?_alter` say what `alter` does to the keys and to the values, `get?_traverse` what converting all
values does and `traverse_eq_error` how it fails.  `foldl_alter` is the way back: entering the
entries of a map one after another gives the map. -/

namespace RightLinear

/-- A finite map whose entries are kept in order of the first insertion of their keys. -/
structure OrdMap (κ α : Type) where
  /-- The keys with their values, each key once. -/
  entries : List (κ × α)
  nodup : (entries.map Prod.fst).Nodup
deriving DecidableEq

namespace OrdMap

variable {κ α β ε : Type}

instance : EmptyCollection (OrdMap κ α) := ⟨⟨[], List.nodup_nil⟩⟩

instance : Inhabited (OrdMap κ α) := ⟨∅⟩

/-- The keys, in order. -/
def keys (m : OrdMap κ α) : List κ := m.entries.map Prod.fst

/-- The values, in the order of their keys. -/
def values (m : OrdMap κ α) : List α := m.entries.map Prod.snd

/-- Whether there is no entry. -/
def isEmpty (m : OrdMap κ α) : Bool := m.entries.isEmpty

/-- The number of entries. -/
def size (m : OrdMap κ α) : Nat := m.entries.length

theorem length_keys (m : OrdMap κ α) : m.keys.length = m.size := List.length_map Prod.fst

theorem ext {m n : OrdMap κ α} (h : m.entries = n.entries) : m = n := by
  cases m
  cases n
  cases h
  rfl

theorem isEmpty_eq_true {m : OrdMap κ α} : m.isEmpty = true ↔ m = ∅ :=
  ⟨fun h => ext (List.isEmpty_iff.mp h), fun h => h ▸ rfl⟩

/-! ### Filtering and converting all entries -/

/-- The entries whose key and value pass the test. -/
def filter (p : κ → α → Bool) (m : OrdMap κ α) : OrdMap κ α :=
  ⟨m.entries.filter fun e => p e.1 e.2, m.nodup.sublist (List.filter_sublist.map Prod.fst)⟩

/-- Conversion of a list of entries, for `traverse`. -/
def traverseEntries (f : κ → α → Except ε β) : List (κ × α) → Except ε (List (κ × β))
  | [] => .ok []
  | (k, v) :: rest =>
    match f k v with
    | .error e => .error e
    | .ok w =>
      match traverseEntries f rest with
      | .error e => .error e
      | .ok ws => .ok ((k, w) :: ws)

theorem keys_traverseEntries {f : κ → α → Except ε β} {l : List (κ × α)} {l' : List (κ × β)}
    (h : traverseEntries f l = .ok l') : l'.map Prod.fst = l.map Prod.fst := by
  induction l generalizing l' with
  | nil => cases h; rfl
  | cons e l ih =>
    obtain ⟨k, v⟩ := e
    rw [traverseEntries] at h
    split at h
    · cases h
    · split at h
      · cases h
      · next hl => cases h; simp [ih hl]

/-- Converts the values one after another and keeps the keys; the first failure wins. -/
def traverse (f : κ → α → Except ε β) (m : OrdMap κ α) : Except ε (OrdMap κ β) :=
  match h : traverseEntries f m.entries with
  | .error e => .error e
  | .ok l => .ok ⟨l, keys_traverseEntries h ▸ m.nodup⟩

theorem traverse_eq_ok {f : κ → α → Except ε β} {m : OrdMap κ α} {n : OrdMap κ β} :
    m.traverse f = .ok n ↔ traverseEntries f m.entries = .ok n.entries := by
  unfold traverse
  split
  · next h => simp [h]
  · next l h =>
    constructor
    · intro e
      cases e
      exact h
    · intro e
      exact congrArg Except.ok (ext (Except.ok.inj (h.symm.trans e)))

/-- A conversion of entries fails with the first failure, behind entries that are converted. -/
theorem traverseEntries_eq_error {f : κ → α → Except ε β} {l : List (κ × α)} {e : ε} :
    traverseEntries f l = .error e ↔ ∃ before k v after, l = before ++ (k, v) :: after ∧
      (∀ x ∈ before, ∃ w, f x.1 x.2 = .ok w) ∧ f k v = .error e := by
  induction l with
  | nil =>
    constructor
    · intro h
      cases h
    · rintro ⟨before, k, v, after, h, _⟩
      cases before <;> cases h
  | cons entry l ih =>
    obtain ⟨a, u⟩ := entry
    rw [traverseEntries]
    constructor
    · intro h
      split at h
      · next e' hu =>
        cases h
        exact ⟨[], a, u, l, rfl, fun _ hx => (List.not_mem_nil hx).elim, hu⟩
      · next w hw =>
        split at h
        · next e' hl =>
          cases h
          obtain ⟨before, k, v, after, rfl, hbefore, hv⟩ := ih.mp hl
          exact ⟨(a, u) :: before, k, v, after, rfl,
            List.forall_mem_cons.mpr ⟨⟨w, hw⟩, hbefore⟩, hv⟩
        · cases h
    · rintro ⟨before, k, v, after, h, hbefore, hv⟩
      cases before with
      | nil =>
        cases h
        rw [hv]
      | cons x before =>
        cases h
        obtain ⟨⟨w, hw⟩, hrest⟩ := List.forall_mem_cons.mp hbefore
        have hl := ih.mpr ⟨before, k, v, after, rfl, hrest, hv⟩
        rw [hl, hw]

theorem traverse_eq_error {f : κ → α → Except ε β} {m : OrdMap κ α} {e : ε} :
    m.traverse f = .error e ↔ ∃ before k v after, m.entries = before ++ (k, v) :: after ∧
      (∀ x ∈ before, ∃ w, f x.1 x.2 = .ok w) ∧ f k v = .error e := by
  rw [← traverseEntries_eq_error]
  unfold traverse
  split
  · next h => simp [h]
  · next h => simp [h]

theorem keys_traverse {f : κ → α → Except ε β} {m : OrdMap κ α} {n : OrdMap κ β}
    (h : m.traverse f = .ok n) : n.keys = m.keys :=
  keys_traverseEntries (traverse_eq_ok.mp h)

/-! ### Looking up and changing one entry -/

variable [DecidableEq κ]

/-- The value that a list of entries gives to `k` first. -/
def lookupEntries (k : κ) : List (κ × α) → Option α
  | [] => none
  | (k', v) :: rest => if k' = k then some v else lookupEntries k rest

/-- The value of the key `k`. -/
def get? (m : OrdMap κ α) (k : κ) : Option α := lookupEntries k m.entries

/-- Whether the key `k` has a value. -/
def contains (m : OrdMap κ α) (k : κ) : Bool := (m.get? k).isSome

/-- Change of one entry in a list of entries, for `alter`. -/
def alterEntries (k : κ) (d : α) (f : α → α) : List (κ × α) → List (κ × α)
  | [] => [(k, f d)]
  | (k', v) :: rest => if k' = k then (k', f v) :: rest else (k', v) :: alterEntries k d f rest

theorem keys_alterEntries (k : κ) (d : α) (f : α → α) (l : List (κ × α)) :
    (alterEntries k d f l).map Prod.fst =
      if k ∈ l.map Prod.fst then l.map Prod.fst else l.map Prod.fst ++ [k] := by
  induction l with
  | nil => simp [alterEntries]
  | cons e l ih =>
    obtain ⟨k', v⟩ := e
    by_cases h : k' = k
    · simp [alterEntries, h]
    · have h' : ¬ k = k' := fun e => h e.symm
      simp only [alterEntries, h, if_false, List.map_cons, List.mem_cons, h', false_or, ih]
      split <;> simp

/-- Applies `f` to the value of `k` in place; a new key is appended with the value `f d`. -/
def alter (m : OrdMap κ α) (k : κ) (d : α) (f : α → α) : OrdMap κ α :=
  ⟨alterEntries k d f m.entries, by
    rw [keys_alterEntries]
    split
    · exact m.nodup
    · next h =>
      refine List.nodup_append.mpr ⟨m.nodup, List.pairwise_singleton _ k, fun a ha b hb e => h ?_⟩
      rw [List.mem_singleton] at hb
      exact hb ▸ e ▸ ha⟩

/-- Gives `k` the value `v`; a known key keeps its place. -/
def insert (m : OrdMap κ α) (k : κ) (v : α) : OrdMap κ α := m.alter k v fun _ => v

/-! ### Comparing -/

/-- Both maps have the same keys, in whatever order, with values that `same` identifies. -/
def sameEntries (same : α → α → Bool) (m n : OrdMap κ α) : Bool :=
  m.size == n.size && m.entries.all fun e => (n.get? e.1).any (same e.2)

/-! ### Looking up after a change -/

@[simp] theorem get?_empty (k : κ) : (∅ : OrdMap κ α).get? k = none := rfl

theorem lookupEntries_alterEntries (k k' : κ) (d : α) (f : α → α) (l : List (κ × α)) :
    lookupEntries k' (alterEntries k d f l) =
      if k' = k then some (f ((lookupEntries k l).getD d)) else lookupEntries k' l := by
  induction l with
  | nil => simp [alterEntries, lookupEntries, eq_comm]
  | cons e l ih =>
    obtain ⟨a, v⟩ := e
    by_cases ha : a = k
    · subst ha
      by_cases h : a = k'
      · subst h; simp [alterEntries, lookupEntries]
      · have h' : ¬ k' = a := fun e => h e.symm
        simp [alterEntries, lookupEntries, h, h']
    · by_cases h : a = k'
      · subst h; simp [alterEntries, lookupEntries, ha]
      · simp [alterEntries, lookupEntries, ha, h, ih]

theorem get?_alter (m : OrdMap κ α) (k k' : κ) (d : α) (f : α → α) :
    (m.alter k d f).get? k' = if k' = k then some (f ((m.get? k).getD d)) else m.get? k' :=
  lookupEntries_alterEntries k k' d f m.entries

theorem get?_insert (m : OrdMap κ α) (k k' : κ) (v : α) :
    (m.insert k v).get? k' = if k' = k then some v else m.get? k' :=
  get?_alter m k k' v fun _ => v

theorem isSome_get? {m : OrdMap κ α} {k : κ} : (m.get? k).isSome = true ↔ k ∈ m.keys := by
  unfold get? keys
  induction m.entries with
  | nil => simp [lookupEntries]
  | cons e l ih =>
    obtain ⟨a, v⟩ := e
    by_cases h : a = k
    · simp [lookupEntries, h]
    · have h' : ¬ k = a := fun e => h e.symm
      simp only [lookupEntries, h, if_false, ih, List.map_cons, List.mem_cons, h', false_or]

theorem mem_keys {m : OrdMap κ α} {k : κ} : k ∈ m.keys ↔ ∃ v, m.get? k = some v := by
  rw [← isSome_get?, Option.isSome_iff_exists]

@[simp] theorem contains_eq_true {m : OrdMap κ α} {k : κ} : m.contains k = true ↔ k ∈ m.keys :=
  isSome_get?

theorem keys_alter (m : OrdMap κ α) (k : κ) (d : α) (f : α → α) :
    (m.alter k d f).keys = if k ∈ m.keys then m.keys else m.keys ++ [k] :=
  keys_alterEntries k d f m.entries

/-! ### Values and entries -/

theorem lookupEntries_eq_some {l : List (κ × α)} (hl : (l.map Prod.fst).Nodup) {k : κ} {v : α} :
    lookupEntries k l = some v ↔ (k, v) ∈ l := by
  induction l with
  | nil => simp [lookupEntries]
  | cons e l ih =>
      obtain ⟨a, u⟩ := e
      rw [List.map_cons, List.nodup_cons] at hl
      obtain ⟨ha, hl⟩ := hl
      by_cases h : a = k
      · subst h
        have hn : ¬ (a, v) ∈ l := fun hm => ha (List.mem_map.mpr ⟨(a, v), hm, rfl⟩)
        simp [lookupEntries, hn, eq_comm]
      · have h' : ¬ k = a := fun e => h e.symm
        simp [lookupEntries, h, h', ih hl]

theorem get?_eq_some {m : OrdMap κ α} {k : κ} {v : α} :
    m.get? k = some v ↔ (k, v) ∈ m.entries :=
  lookupEntries_eq_some m.nodup

theorem entries_eq_map {m : OrdMap κ α} {f : κ → α} (h : ∀ k ∈ m.keys, m.get? k = some (f k)) :
    m.entries = m.keys.map fun k => (k, f k) := by
  have hentry : ∀ e ∈ m.entries, e = (e.1, f e.1) := by
    intro e he
    have hvalue := h e.1 (List.mem_map_of_mem he)
    rw [get?_eq_some.mpr he, Option.some.injEq] at hvalue
    exact Prod.ext rfl hvalue
  unfold keys
  rw [List.map_map]
  calc
    m.entries = m.entries.map id := (List.map_id _).symm
    _ = m.entries.map _ := List.map_congr_left hentry

theorem get?_filter {p : κ → α → Bool} {m : OrdMap κ α} {k : κ} :
    (m.filter p).get? k = (m.get? k).filter (p k) := by
  have h : ∀ v, (m.filter p).get? k = some v ↔ (m.get? k).filter (p k) = some v := by
    intro v
    rw [get?_eq_some, Option.filter_eq_some_iff, get?_eq_some]
    exact List.mem_filter
  exact Option.ext h

theorem lookupEntries_traverseEntries {f : κ → α → Except ε β} {l : List (κ × α)}
    {l' : List (κ × β)} (h : traverseEntries f l = .ok l') {k : κ} {w : β} :
    lookupEntries k l' = some w ↔ ∃ v, lookupEntries k l = some v ∧ f k v = .ok w := by
  induction l generalizing l' with
  | nil =>
      cases h
      simp [lookupEntries]
  | cons e l ih =>
      obtain ⟨a, u⟩ := e
      rw [traverseEntries] at h
      split at h
      · cases h
      · next x hx =>
        split at h
        · cases h
        · next xs hxs =>
          cases h
          by_cases hak : a = k
          · subst hak
            simp [lookupEntries, hx]
          · simp only [lookupEntries, hak, if_false, ih hxs]

/-- Converting all values converts the value of each key. -/
theorem get?_traverse {f : κ → α → Except ε β} {m : OrdMap κ α} {n : OrdMap κ β}
    (h : m.traverse f = .ok n) {k : κ} {w : β} :
    n.get? k = some w ↔ ∃ v, m.get? k = some v ∧ f k v = .ok w :=
  lookupEntries_traverseEntries (traverse_eq_ok.mp h)

theorem exists_traverse {f : κ → α → Except ε β} {m : OrdMap κ α} :
    (∃ n, m.traverse f = .ok n) ↔ ∀ k v, m.get? k = some v → ∃ w, f k v = .ok w := by
  constructor
  · rintro ⟨n, hn⟩ k v hv
    have hk : k ∈ n.keys := keys_traverse hn ▸ mem_keys.mpr ⟨v, hv⟩
    obtain ⟨w, hw⟩ := mem_keys.mp hk
    obtain ⟨u, hu, hf⟩ := (get?_traverse hn).mp hw
    cases hv.symm.trans hu
    exact ⟨w, hf⟩
  · intro h
    cases ht : m.traverse f with
    | ok n => exact ⟨n, rfl⟩
    | error e =>
      obtain ⟨before, k, v, after, hm, _, hf⟩ := traverse_eq_error.mp ht
      have hv : m.get? k = some v :=
        get?_eq_some.mpr (hm ▸ List.mem_append_right _ List.mem_cons_self)
      obtain ⟨w, hw⟩ := h k v hv
      cases hf.symm.trans hw

/-! ### Entering entries one after another -/

theorem alterEntries_of_not_mem {k : κ} (d : α) (f : α → α) {l : List (κ × α)}
    (h : ¬ k ∈ l.map Prod.fst) : alterEntries k d f l = l ++ [(k, f d)] := by
  induction l with
  | nil => rfl
  | cons e l ih =>
      obtain ⟨a, v⟩ := e
      rw [List.map_cons, List.mem_cons, not_or] at h
      have ha : ¬ a = k := fun e => h.1 e.symm
      simp [alterEntries, ha, ih h.2]

theorem entries_alter_of_not_mem {m : OrdMap κ α} {k : κ} (d : α) (f : α → α)
    (h : ¬ k ∈ m.keys) : (m.alter k d f).entries = m.entries ++ [(k, f d)] :=
  alterEntries_of_not_mem d f h

/-- Two changes of the same entry are one. -/
theorem alter_alter (m : OrdMap κ α) (k : κ) (d : α) (f g : α → α) :
    (m.alter k d f).alter k d g = m.alter k d (g ∘ f) := by
  apply ext
  show alterEntries k d g (alterEntries k d f m.entries) = alterEntries k d (g ∘ f) m.entries
  induction m.entries with
  | nil => simp [alterEntries]
  | cons e l ih =>
      obtain ⟨a, v⟩ := e
      by_cases h : a = k
      · simp [alterEntries, h]
      · simp [alterEntries, h, ih]

theorem entries_foldl_alter (d : α → α) (f : α → α → α) (hf : ∀ v, f v (d v) = v)
    {l : List (κ × α)} (hl : (l.map Prod.fst).Nodup) :
    ∀ {m : OrdMap κ α}, (∀ k ∈ l.map Prod.fst, ¬ k ∈ m.keys) →
      (l.foldl (fun m e => m.alter e.1 (d e.2) (f e.2)) m).entries = m.entries ++ l := by
  induction l with
  | nil => intro m _; exact (List.append_nil _).symm
  | cons e l ih =>
      intro m hm
      obtain ⟨a, v⟩ := e
      rw [List.map_cons, List.nodup_cons] at hl
      have ha : ¬ a ∈ m.keys := hm a List.mem_cons_self
      have hrest : ∀ k ∈ l.map Prod.fst, ¬ k ∈ (m.alter a (d v) (f v)).keys := by
        intro k hk
        have hka : ¬ k = a := fun e => hl.1 (e ▸ hk)
        rw [keys_alter, if_neg ha, List.mem_append, List.mem_singleton, not_or]
        exact ⟨hm k (List.mem_cons_of_mem _ hk), hka⟩
      rw [List.foldl_cons, ih hl.2 hrest, entries_alter_of_not_mem _ _ ha, hf, List.append_assoc]
      rfl

/-- Entering the entries of a map one after another gives the map. -/
theorem foldl_alter (m : OrdMap κ α) (d : α → α) (f : α → α → α) (hf : ∀ v, f v (d v) = v) :
    m.entries.foldl (fun m e => m.alter e.1 (d e.2) (f e.2)) ∅ = m :=
  ext ((entries_foldl_alter d f hf m.nodup fun _ _ => List.not_mem_nil).trans (List.nil_append _))

theorem sameEntries_refl {same : α → α → Bool} (h : ∀ v, same v v = true) (m : OrdMap κ α) :
    m.sameEntries same m = true := by
  simp only [sameEntries, beq_self_eq_true, Bool.true_and, List.all_eq_true]
  intro e he
  rw [get?_eq_some.mpr he, Option.any_some, h]

end OrdMap
end RightLinear
