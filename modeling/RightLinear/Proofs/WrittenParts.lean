import RightLinear.Proofs.Cutting
import RightLinear.Proofs.WrittenValues

/-! # Lists and objects are read as they are written

The parts of a list or an object stand in a row, set apart by commas and blanks (`sequence`).  Each
part is read where the one before it has ended, and takes a character at least, so the bound on their
number that the readers keep is never reached.

* The elements of a list are read back in their order (`written_list`).
* The entries of an object are entered one after another; `Enters` says what they lead to, entry by
  entry.  A table enters its entries into itself (`written_table`), a record its fields
  (`written_record`). -/

namespace RightLinear.Json

open Reader Text

variable {α σ : Type}

/-! ### Parts of a value -/

/-- Parts with commas between them, and one in front unless they are the first. -/
def sequence (indent : List Char) : Bool → List (List Char) → List Char
  | _, [] => []
  | first, p :: parts =>
    (if first then [] else [',']) ++ (indent ++ (p ++ sequence indent false parts))

theorem joined_eq_sequence (indent : List Char) (parts : List (List Char)) :
    joined [','] (parts.map (indent ++ ·)) = sequence indent true parts := by
  have hrest : ∀ p parts, joined [','] ((p :: parts).map (indent ++ ·)) =
      indent ++ (p ++ sequence indent false parts) := by
    intro p parts
    induction parts generalizing p with
    | nil => rw [List.map_singleton, joined_singleton, sequence, List.append_nil]
    | cons q parts ih =>
        rw [List.map_cons, List.map_cons, joined_cons_cons, ← List.map_cons, ih, sequence,
          List.append_assoc]
        rfl
  cases parts with
  | nil => rfl
  | cons p parts => exact hrest p parts

theorem exists_enclosed (style : Style) (opening closing : Char) (depth : Nat)
    (parts : List (List Char)) : ∃ blanks, IsSpaces blanks ∧ ∀ rest,
      style.enclosed opening closing depth parts ++ rest =
        opening :: (sequence (style.indent (depth + 1)) true parts ++ (blanks ++ closing :: rest)) := by
  unfold Style.enclosed
  cases parts with
  | nil => exact ⟨[], isSpaces_nil, fun _ => rfl⟩
  | cons p parts =>
      refine ⟨style.indent depth, isSpaces_indent style depth, fun rest => ?_⟩
      rw [if_neg (by simp), joined_eq_sequence]
      simp

theorem starts_enclosed (style : Style) {opening : Char} (hspace : isSpace opening = false)
    (hclose : opening ≠ ']') (closing : Char) (depth : Nat) (parts : List (List Char)) :
    Starts (style.enclosed opening closing depth parts) := by
  obtain ⟨blanks, _, h⟩ := exists_enclosed style opening closing depth parts
  exact ⟨opening, _, (List.append_nil _).symm.trans (h []), hspace, hclose⟩

theorem ends_sequence {closing : Char} (hclosing : closing = ']' ∨ closing = '\x7d')
    (indent : List Char) (parts : List (List Char)) {blanks : List Char} (hblanks : IsSpaces blanks)
    (rest : List Char) : Ends (sequence indent false parts ++ (blanks ++ closing :: rest)) := by
  cases parts with
  | nil =>
      rw [sequence, List.nil_append]
      exact ends_append hblanks (ends_cons (.inr (.inr hclosing)) rest)
  | cons p parts => exact ends_cons (.inr (.inl rfl)) _

theorem length_le_sequence (indent : List Char) (first : Bool) {parts : List (List Char)}
    (h : ∀ p ∈ parts, p ≠ []) : parts.length ≤ (sequence indent first parts).length := by
  induction parts generalizing first with
  | nil => exact Nat.zero_le _
  | cons p parts ih =>
      have hp : 0 < p.length := List.length_pos_iff.mpr (h p List.mem_cons_self)
      have hrest := ih false fun q hq => h q (List.mem_cons_of_mem _ hq)
      simp only [sequence, List.length_cons, List.length_append]
      omega

/-! ### Lists -/

theorem moreElements_part {part : List Char} (hpart : Starts part) (first : Bool)
    {indent : List Char} (hindent : IsSpaces indent) (rest : List Char) :
    moreElements first ((if first then [] else [',']) ++ (indent ++ (part ++ rest))) =
      .ok (true, part ++ rest) := by
  obtain ⟨c, t, rfl, hspace, hclose⟩ := hpart
  unfold moreElements
  cases first with
  | true =>
      rw [if_pos rfl, List.nil_append, List.cons_append, bind_ok (upcoming_blanks hindent hspace _),
        if_neg hclose]
      rfl
  | false =>
      have hcomma : upcoming (',' :: (indent ++ (c :: (t ++ rest)))) =
          .ok (',', ',' :: (indent ++ (c :: (t ++ rest)))) :=
        upcoming_blanks isSpaces_nil rfl _
      rw [if_neg Bool.false_ne_true, List.singleton_append, List.cons_append, bind_ok hcomma,
        if_neg (by decide), if_neg Bool.false_ne_true, if_pos rfl, bind_ok (drop_cons _ _),
        bind_ok (upcoming_blanks hindent hspace _), if_neg hclose]
      rfl

theorem moreElements_close (first : Bool) {blanks : List Char} (hblanks : IsSpaces blanks)
    (rest : List Char) : moreElements first (blanks ++ ']' :: rest) = .ok (false, ']' :: rest) := by
  unfold moreElements
  rw [bind_ok (upcoming_blanks hblanks rfl _), if_pos rfl]
  rfl

theorem elementsFrom_parts {item : Reader α} {text : α → List Char} {l : List α}
    (h : ∀ a ∈ l, Written item (text a) a) {indent blanks : List Char} (hindent : IsSpaces indent)
    (hblanks : IsSpaces blanks) (rest : List Char) {fuel : Nat} (hfuel : l.length < fuel)
    (first : Bool) :
    elementsFrom item fuel first
      (sequence indent first (l.map text) ++ (blanks ++ ']' :: rest)) = .ok (l, ']' :: rest) := by
  induction l generalizing fuel first with
  | nil =>
      obtain ⟨fuel, rfl⟩ := Nat.exists_eq_add_one_of_ne_zero (Nat.ne_of_gt hfuel)
      have helement : element? first item (blanks ++ ']' :: rest) = .ok (none, ']' :: rest) := by
        unfold element?
        rw [bind_ok (moreElements_close first hblanks rest)]
        rfl
      rw [elementsFrom, List.map_nil, sequence, List.nil_append, bind_ok helement]
      rfl
  | cons a l ih =>
      obtain ⟨fuel, rfl⟩ := Nat.exists_eq_add_one_of_ne_zero (Nat.ne_zero_of_lt hfuel)
      have ha := h a List.mem_cons_self
      have hrest := ends_sequence (.inl rfl) indent (l.map text) hblanks rest
      have helement : element? first item
          ((if first then [] else [',']) ++ (indent ++ (text a ++ (sequence indent false
            (l.map text) ++ (blanks ++ ']' :: rest))))) =
          .ok (some a, sequence indent false (l.map text) ++ (blanks ++ ']' :: rest)) := by
        unfold element?
        rw [bind_ok (moreElements_part ha.starts first hindent _), if_pos rfl,
          bind_ok (ha.read_front hrest)]
        rfl
      have htail := ih (fun b hb => h b (List.mem_cons_of_mem _ hb))
        (Nat.lt_of_succ_lt_succ hfuel) false
      rw [List.map_cons, sequence, List.append_assoc, List.append_assoc, List.append_assoc,
        elementsFrom, bind_ok helement]
      dsimp only
      rw [bind_ok htail]
      rfl

/-- A list of values is read back in its order. -/
theorem written_list {item : Reader α} {text : α → List Char} {l : List α}
    (h : ∀ a ∈ l, Written item (text a) a) (style : Style) (depth : Nat) :
    Written (list item) (style.array depth (l.map text)) l where
  starts := starts_enclosed style rfl (by decide) _ _ _
  read := by
    intro blanks rest hblanks _
    obtain ⟨inner, hinner, henclosed⟩ := exists_enclosed style '[' ']' depth (l.map text)
    have hparts : ∀ p ∈ l.map text, p ≠ [] := by
      intro p hp
      obtain ⟨a, ha, rfl⟩ := List.mem_map.mp hp
      obtain ⟨c, t, hct, _⟩ := (h a ha).starts
      rw [hct]
      exact List.cons_ne_nil _ _
    have hlength := length_le_sequence (style.indent (depth + 1)) true hparts
    rw [List.length_map] at hlength
    unfold list Style.array
    rw [henclosed, bind_ok (upcoming_blanks hblanks rfl _), if_pos rfl, bind_ok (drop_cons _ _)]
    have helements : elements item (sequence (style.indent (depth + 1)) true (l.map text) ++
        (inner ++ ']' :: rest)) = .ok (l, ']' :: rest) := by
      refine elementsFrom_parts h (isSpaces_indent _ _) hinner rest ?_ true
      rw [List.length_append]
      omega
    rw [bind_ok helements, bind_ok (symbol_cons rfl _)]
    rfl

/-! ### Objects -/

/-- The key and the value of an entry. -/
def entryText (style : Style) (e : List Char × List Char) : List Char :=
  encode e.1 ++ style.colon ++ e.2

theorem symbol_colon (style : Style) : ∃ blanks, IsSpaces blanks ∧
    ∀ s, symbol ':' (style.colon ++ s) = .ok ((), blanks ++ s) := by
  cases style with
  | compact => exact ⟨[], isSpaces_nil, fun s => symbol_cons rfl s⟩
  | pretty => exact ⟨[' '], List.forall_mem_singleton.mpr rfl, fun s => symbol_cons rfl (' ' :: s)⟩

/-- Read one after another, the entries lead from the first state to the last. -/
inductive Enters (style : Style) (entry : σ → Reader σ) : σ → List (List Char × List Char) → σ → Prop
  | nil (a : σ) : Enters style entry a [] a
  | cons {a b c : σ} {e : List Char × List Char} {l : List (List Char × List Char)} :
      (∀ {rest}, Ends rest → entry a (entryText style e ++ rest) = .ok (b, rest)) →
      Enters style entry b l c → Enters style entry a (e :: l) c

theorem exists_entryText (style : Style) (e : List Char × List Char) :
    ∃ t, entryText style e = '"' :: t :=
  ⟨_, by rw [entryText, List.append_assoc, encode_append]⟩

theorem moreEntries_part (style : Style) (e : List Char × List Char) (first : Bool)
    {indent : List Char} (hindent : IsSpaces indent) (rest : List Char) :
    moreEntries first ((if first then [] else [',']) ++ (indent ++ (entryText style e ++ rest))) =
      .ok (true, entryText style e ++ rest) := by
  obtain ⟨t, ht⟩ := exists_entryText style e
  have hquote : upcoming (indent ++ '"' :: (t ++ rest)) = .ok ('"', '"' :: (t ++ rest)) :=
    upcoming_blanks hindent rfl _
  rw [ht, List.cons_append]
  unfold moreEntries
  cases first with
  | true =>
      rw [if_pos rfl, List.nil_append, bind_ok hquote, if_neg (by decide), if_pos rfl, if_pos rfl]
      rfl
  | false =>
      have hcomma : upcoming (',' :: (indent ++ '"' :: (t ++ rest))) =
          .ok (',', ',' :: (indent ++ '"' :: (t ++ rest))) :=
        upcoming_blanks isSpaces_nil rfl _
      rw [if_neg Bool.false_ne_true, List.singleton_append, bind_ok hcomma, if_neg (by decide),
        if_neg Bool.false_ne_true, if_pos rfl, bind_ok (drop_cons _ _), bind_ok hquote, if_pos rfl]
      rfl

theorem moreEntries_close (first : Bool) {blanks : List Char} (hblanks : IsSpaces blanks)
    (rest : List Char) :
    moreEntries first (blanks ++ '\x7d' :: rest) = .ok (false, '\x7d' :: rest) := by
  unfold moreEntries
  rw [bind_ok (upcoming_blanks hblanks rfl _), if_pos rfl]
  rfl

theorem entriesFrom_parts {style : Style} {entry : σ → Reader σ} {a b : σ}
    {l : List (List Char × List Char)} (h : Enters style entry a l b) {indent blanks : List Char}
    (hindent : IsSpaces indent) (hblanks : IsSpaces blanks) (rest : List Char) {fuel : Nat}
    (hfuel : l.length < fuel) (first : Bool) :
    entriesFrom entry fuel first a
      (sequence indent first (l.map (entryText style)) ++ (blanks ++ '\x7d' :: rest)) =
      .ok (b, '\x7d' :: rest) := by
  induction h generalizing fuel first with
  | nil a =>
      obtain ⟨fuel, rfl⟩ := Nat.exists_eq_add_one_of_ne_zero (Nat.ne_of_gt hfuel)
      rw [entriesFrom, List.map_nil, sequence, List.nil_append,
        bind_ok (moreEntries_close first hblanks rest)]
      rfl
  | @cons a b c e l hentry _ ih =>
      obtain ⟨fuel, rfl⟩ := Nat.exists_eq_add_one_of_ne_zero (Nat.ne_zero_of_lt hfuel)
      have hrest := ends_sequence (.inr rfl) indent (l.map (entryText style)) hblanks rest
      rw [List.map_cons, sequence, List.append_assoc, List.append_assoc, List.append_assoc,
        entriesFrom, bind_ok (moreEntries_part style e first hindent _), if_pos rfl,
        bind_ok (hentry hrest)]
      exact ih (Nat.lt_of_succ_lt_succ hfuel) false

theorem entries_object {style : Style} {entry : σ → Reader σ} {a b : σ}
    {l : List (List Char × List Char)} (h : Enters style entry a l b) (depth : Nat)
    (rest : List Char) : ∃ s, style.object depth l ++ rest = '\x7b' :: s ∧
      entries entry a s = .ok (b, '\x7d' :: rest) := by
  obtain ⟨blanks, hblanks, henclosed⟩ :=
    exists_enclosed style '\x7b' '\x7d' depth (l.map (entryText style))
  refine ⟨_, henclosed rest, entriesFrom_parts h (isSpaces_indent _ _) hblanks rest ?_ true⟩
  have hparts : ∀ p ∈ l.map (entryText style), p ≠ [] := by
    intro p hp
    obtain ⟨e, _, rfl⟩ := List.mem_map.mp hp
    obtain ⟨t, ht⟩ := exists_entryText style e
    rw [ht]
    exact List.cons_ne_nil _ _
  have hlength := length_le_sequence (style.indent (depth + 1)) true hparts
  rw [List.length_map] at hlength
  rw [List.length_append]
  omega

theorem starts_object (style : Style) (depth : Nat) (l : List (List Char × List Char)) :
    Starts (style.object depth l) :=
  starts_enclosed style rfl (by decide) _ _ _

/-! ### Tables -/

theorem enters_table {item : Reader α} {text : α → List Char} (style : Style)
    {l : List (String × α)} (h : ∀ e ∈ l, Written item (text e.2) e.2) (m : OrdMap String α) :
    Enters style (fun m => do
        let k ← key
        symbol ':'
        return m.insert k (← item)) m
      (l.map fun e => (e.1.toList, text e.2)) (l.foldl (fun m e => m.insert e.1 e.2) m) := by
  induction l generalizing m with
  | nil => exact .nil m
  | cons e l ih =>
      refine .cons ?_ (ih (fun e he => h e (List.mem_cons_of_mem _ he)) (m.insert e.1 e.2))
      intro rest hrest
      obtain ⟨blanks, hblanks, hcolon⟩ := symbol_colon style
      rw [entryText, List.append_assoc, List.append_assoc, bind_ok (key_encode _ _),
        bind_ok (hcolon _), bind_ok ((h e List.mem_cons_self).read hblanks hrest)]
      rfl

/-- A table is read back with its keys in their order. -/
theorem written_table {item : Reader α} (text : α → List Char) {m : OrdMap String α}
    (h : ∀ e ∈ m.entries, Written item (text e.2) e.2) (style : Style) (depth : Nat) :
    Written (table item) (style.object depth (m.entries.map fun e => (e.1.toList, text e.2))) m where
  starts := starts_object _ _ _
  read := by
    intro blanks rest hblanks _
    have hm : m.entries.foldl (fun m e => m.insert e.1 e.2) ∅ = m :=
      m.foldl_alter id (fun v _ => v) fun _ => rfl
    have henters := enters_table style h ∅
    rw [hm] at henters
    obtain ⟨s, hs, hentries⟩ := entries_object henters depth rest
    unfold table
    rw [hs, bind_ok (upcoming_blanks hblanks rfl _), if_pos rfl, bind_ok (drop_cons _ _),
      bind_ok hentries, bind_ok (symbol_cons rfl _)]
    rfl

/-! ### Records -/

/-- A record is read back from the object of its fields. -/
theorem written_record {entry : σ → Reader σ} {style : Style} {l : List (List Char × List Char)}
    {init final : σ} {finish : σ → Reader α} {a : α} (h : Enters style entry init l final)
    (hfinish : ∀ s, finish final s = .ok (a, s)) (expected : String) (ofElements : Reader α)
    (depth : Nat) :
    Written (record expected (do finish (← entries entry init)) ofElements) (style.object depth l)
      a where
  starts := starts_object _ _ _
  read := by
    intro blanks rest hblanks _
    obtain ⟨s, hs, hentries⟩ := entries_object h depth rest
    have hfields : (entries entry init >>= finish) s = .ok (a, '\x7d' :: rest) := by
      rw [bind_ok hentries]
      exact hfinish _
    unfold record
    rw [hs, bind_ok (upcoming_blanks hblanks rfl _), if_pos rfl, bind_ok (drop_cons _ _),
      bind_ok hfields, bind_ok (symbol_cons rfl _)]
    rfl

theorem enters_field {item : Reader α} {text : List Char} {a : α} (hitem : Written item text a)
    {style : Style} {entry : σ → Reader σ} {next : String → Reader σ} {name : String}
    {set : Option α → σ} {init final : σ} {l : List (List Char × List Char)}
    (hentry : entry init = key >>= next)
    (hnext : next name = field name none item >>= fun value => pure (set value))
    (h : Enters style entry (set (some a)) l final) :
    Enters style entry init ((name.toList, text) :: l) final := by
  refine .cons ?_ h
  intro rest hrest
  obtain ⟨blanks, hblanks, hcolon⟩ := symbol_colon style
  have hfield : field name none item (style.colon ++ (text ++ rest)) = .ok (some a, rest) := by
    unfold field
    rw [if_neg (by simp), bind_ok (hcolon _), bind_ok (hitem.read hblanks hrest)]
    rfl
  rw [entryText, List.append_assoc, List.append_assoc, hentry, bind_ok (key_encode _ _), hnext,
    bind_ok hfield]
  rfl

end RightLinear.Json
