import TreeSketch.Proofs.Declarative.Words

/-!
# Matching parentheses

The lexer follows parentheses with a count of those that are open. What it finds can be said without a count
that is carried along: the parenthesis that closes another one is the one with a balanced text between the two
(`splitClose_eq_some_iff`), and a parenthesis that closes nothing is one with a balanced text before it
(`strayClose_eq`).
-/

namespace TreeSketch.Declarative

/-- Nowhere does the text close more parentheses than are open, when `depth` are open before it. -/
def Covered (depth : Nat) (text : List Char) : Prop :=
  ∀ start, start <+: text → start.count ')' ≤ depth + start.count '('

/-- The text closes the parentheses that are open before it and those that it opens, all of them and no
more. -/
structure Closes (depth : Nat) (text : List Char) : Prop where
  covered : Covered depth text
  total : text.count ')' = depth + text.count '('

/-- Every parenthesis of the text has its match in the text. -/
abbrev Balanced (text : List Char) : Prop :=
  Closes 0 text

/-- How one more character changes the counts of a text. -/
theorem count_cons_parentheses {depth : Nat} {c : Char} (hc : c = ')' → depth ≠ 0) (text : List Char) :
    (c :: text).count ')' + openAfter depth c + text.count '(' =
      text.count ')' + depth + (c :: text).count '(' := by
  rw [openAfter]
  by_cases hopen : c = '('
  · subst hopen
    simp
    omega
  · by_cases hclose : c = ')'
    · have := hc hclose
      subst hclose
      simp
      omega
    · simp [hopen, hclose]

theorem covered_nil (depth : Nat) : Covered depth [] := fun start hstart => by
  simp [List.prefix_nil.mp hstart]

theorem covered_cons_iff {depth : Nat} {c : Char} {text : List Char} :
    Covered depth (c :: text) ↔ (c = ')' → depth ≠ 0) ∧ Covered (openAfter depth c) text := by
  constructor
  · intro h
    have hfirst : c = ')' → depth ≠ 0 := by
      rintro rfl hzero
      have hone := h [')'] (List.prefix_append [')'] text)
      simp [hzero] at hone
    refine ⟨hfirst, fun start hstart => ?_⟩
    have hcovered := h (c :: start) (List.cons_prefix_cons.mpr ⟨rfl, hstart⟩)
    have := count_cons_parentheses hfirst start
    omega
  · rintro ⟨hfirst, hrest⟩ start hstart
    rcases List.prefix_cons_iff.mp hstart with rfl | ⟨more, rfl, hmore⟩
    · simp
    · have hcovered := hrest more hmore
      have := count_cons_parentheses hfirst more
      omega

theorem closes_nil_iff {depth : Nat} : Closes depth [] ↔ depth = 0 := by
  constructor
  · intro h
    exact h.total.symm
  · rintro rfl
    exact ⟨covered_nil 0, rfl⟩

/-- A text closes what is open if its first character closes no more than that, and the rest closes what is
open then. -/
theorem closes_cons_iff {depth : Nat} {c : Char} {text : List Char} :
    Closes depth (c :: text) ↔ (c = ')' → depth ≠ 0) ∧ Closes (openAfter depth c) text := by
  constructor
  · rintro ⟨hcovered, htotal⟩
    obtain ⟨hfirst, hrest⟩ := covered_cons_iff.mp hcovered
    have := count_cons_parentheses hfirst text
    exact ⟨hfirst, hrest, by omega⟩
  · rintro ⟨hfirst, hcovered, htotal⟩
    have := count_cons_parentheses hfirst text
    exact ⟨covered_cons_iff.mpr ⟨hfirst, hcovered⟩, by omega⟩

/-- The cut is at the parenthesis that closes the open one. -/
theorem splitClose_eq_some_iff {depth : Nat} {text inner rest : List Char} :
    splitClose depth text = some (inner, rest) ↔ text = inner ++ ')' :: rest ∧ Closes depth inner := by
  induction text generalizing depth inner with
  | nil => simp [splitClose]
  | cons c text ih =>
    rw [splitClose]
    by_cases hstop : c = ')' ∧ depth = 0
    · obtain ⟨rfl, rfl⟩ := hstop
      cases inner with
      | nil => simp [closes_nil_iff]
      | cons d inner =>
        simp only [decide_true, Bool.and_self, if_true, Option.some.injEq, Prod.mk.injEq,
          List.cons_append, List.cons.injEq, closes_cons_iff]
        constructor
        · rintro ⟨⟨⟩, -⟩
        · rintro ⟨⟨rfl, -⟩, hfirst, -⟩
          exact absurd rfl (hfirst rfl)
    · have hgoes : ¬ (decide (c = ')') && decide (depth = 0)) = true := by simpa using hstop
      rw [if_neg hgoes, Option.map_eq_some_iff]
      constructor
      · rintro ⟨⟨before, after⟩, hsplit, heq⟩
        obtain ⟨rfl, rfl⟩ : c :: before = inner ∧ after = rest := by simpa using heq
        obtain ⟨rfl, hbefore⟩ := ih.mp hsplit
        exact ⟨rfl, closes_cons_iff.mpr ⟨fun hc hzero => hstop ⟨hc, hzero⟩, hbefore⟩⟩
      · rintro ⟨heq, hinner⟩
        cases inner with
        | nil =>
          -- Nothing is left open, or the first character would be part of what is cut off.
          obtain ⟨rfl, -⟩ := List.cons.inj heq
          exact absurd ⟨rfl, closes_nil_iff.mp hinner⟩ hstop
        | cons d before =>
          obtain ⟨rfl, htext⟩ := List.cons.inj heq
          exact ⟨(before, rest), ih.mpr ⟨htext, (closes_cons_iff.mp hinner).2⟩, rfl⟩

theorem splitClose_eq_none_iff {depth : Nat} {text : List Char} :
    splitClose depth text = none ↔ ∀ inner rest, text = inner ++ ')' :: rest → ¬ Closes depth inner := by
  rw [Option.eq_none_iff_forall_ne_some]
  constructor
  · intro h inner rest heq hinner
    exact h (inner, rest) (splitClose_eq_some_iff.mpr ⟨heq, hinner⟩)
  · rintro h ⟨inner, rest⟩ hsplit
    obtain ⟨heq, hinner⟩ := splitClose_eq_some_iff.mp hsplit
    exact h inner rest heq hinner

/-- The parenthesis that closes nothing is the one at which the text would be cut. -/
theorem strayClose_eq (depth offset : Nat) (text : List Char) :
    strayClose depth offset text =
      (splitClose depth text).map fun (inner, _) => offset + Text.byteSize inner := by
  induction text generalizing depth offset with
  | nil => rfl
  | cons c text ih =>
    rw [strayClose, splitClose]
    split
    · simp
    · rw [ih, Option.map_map]
      simp [Function.comp_def, Nat.add_assoc]

/-- No parenthesis closes nothing where the text never closes more than are open. -/
theorem strayClose_eq_none_iff_covered {depth offset : Nat} {text : List Char} :
    strayClose depth offset text = none ↔ Covered depth text := by
  induction text generalizing depth offset with
  | nil => simp [strayClose, covered_nil]
  | cons c text ih =>
    rw [strayClose, covered_cons_iff]
    by_cases hstray : c = ')' ∧ depth = 0
    · simp [hstray]
    · have hgoes : ¬ (decide (c = ')') && decide (depth = 0)) = true := by simpa using hstray
      rw [if_neg hgoes, ih]
      exact ⟨fun h => ⟨fun hc hzero => hstray ⟨hc, hzero⟩, h⟩, And.right⟩

/-- A text without the match of an open parenthesis has none for one that is open before it either. -/
theorem splitClose_succ_eq_none {depth : Nat} {text : List Char} (h : splitClose depth text = none) :
    splitClose (depth + 1) text = none := by
  induction text generalizing depth with
  | nil => rfl
  | cons c text ih =>
    rw [splitClose] at h ⊢
    by_cases hclose : c = ')'
    · subst hclose
      cases depth with
      | zero => cases h
      | succ depth =>
        rw [if_neg (by simp), Option.map_eq_none_iff] at h ⊢
        exact ih h
    · have hgoes (other : Nat) : ¬ (decide (c = ')') && decide (other = 0)) = true := by simp [hclose]
      have hdepth (other : Nat) : openAfter (other + 1) c = openAfter other c + 1 := by
        rw [openAfter, openAfter, if_neg hclose, if_neg hclose]
        split <;> rfl
      rw [if_neg (hgoes _), Option.map_eq_none_iff] at h ⊢
      rw [hdepth]
      exact ih h

/-- What is found is the first character of its kind. -/
theorem findFrom_eq_some_iff {p : Char → Bool} {start offset : Nat} {c : Char} {text : List Char} :
    findFrom p start text = some (offset, c) ↔
      ∃ before after, text = before ++ c :: after ∧ (∀ d ∈ before, p d = false) ∧ p c = true ∧
        offset = start + Text.byteSize before := by
  induction text generalizing start with
  | nil => simp [findFrom]
  | cons d text ih =>
    rw [findFrom]
    by_cases hd : p d = true
    · rw [if_pos hd]
      constructor
      · rintro ⟨⟩
        exact ⟨[], text, rfl, List.forall_mem_nil _, hd, rfl⟩
      · rintro ⟨before, after, heq, hbefore, hc, rfl⟩
        cases before with
        | nil =>
          obtain ⟨rfl, -⟩ := List.cons.inj heq
          rfl
        | cons e before =>
          obtain ⟨rfl, -⟩ := List.cons.inj heq
          rw [hbefore d List.mem_cons_self] at hd
          cases hd
    · rw [if_neg hd, ih]
      constructor
      · rintro ⟨before, after, rfl, hbefore, hc, rfl⟩
        refine ⟨d :: before, after, rfl, List.forall_mem_cons.mpr ⟨by simpa using hd, hbefore⟩, hc, ?_⟩
        rw [Text.byteSize_cons, Nat.add_assoc]
      · rintro ⟨before, after, heq, hbefore, hc, rfl⟩
        cases before with
        | nil =>
          obtain ⟨rfl, -⟩ := List.cons.inj heq
          exact absurd hc hd
        | cons e before =>
          obtain ⟨rfl, rfl⟩ := List.cons.inj heq
          refine ⟨before, after, rfl, (List.forall_mem_cons.mp hbefore).2, hc, ?_⟩
          rw [Text.byteSize_cons, Nat.add_assoc]

end TreeSketch.Declarative
