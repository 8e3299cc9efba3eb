import Mathlib.Data.List.TakeWhile
import TreeSketch.Diagram.Margin

/-!
# The end of a margin

`Margin.restOf` cuts the margin off a line. Three things are said about the cut.

* It loses nothing: a line is its margin and what follows it (`ofLine_append_restOf`), and what follows starts with no
  padding (`flush_restOf`).
* Columns and a connector are found (`splitConnector?_of_columns`), and so are blanks and a bullet
  (`splitBullet?_of_blanks`).
* It stays where it is when a text without a margin is put behind the line (`restOf_append`). A slash is such a text
  (`restOf_concat_slash`), which is how a directory is shown.
-/

namespace TreeSketch.Diagram

/-! ## Characters -/

theorem isBlank_of_isPadding {c : Char} (h : isPadding c = true) : Text.isBlank c = true := by
  simp only [isPadding, Bool.or_eq_true, decide_eq_true_eq] at h
  rcases h with (rfl | rfl) | rfl <;> decide

theorem isColumn_of_isBlank {c : Char} (h : Text.isBlank c = true) : isColumn c = true := by
  rw [isColumn, h, Bool.or_true]

theorem isCorner_of_isBlank {c : Char} (h : Text.isBlank c = true) : isCorner c = false := by
  by_contra hcorner
  rw [Bool.not_eq_false] at hcorner
  simp only [isCorner, Bool.or_eq_true, decide_eq_true_eq] at hcorner
  rcases hcorner with ((((rfl | rfl) | rfl) | rfl) | rfl) | rfl <;> cases h

theorem isStroke_of_isCorner {c : Char} (h : isCorner c = true) : isStroke c = false := by
  simp only [isCorner, Bool.or_eq_true, decide_eq_true_eq] at h
  rcases h with ((((rfl | rfl) | rfl) | rfl) | rfl) | rfl <;> rfl

theorem isStroke_of_isColumn {c : Char} (h : isColumn c = true) : isStroke c = false := by
  by_contra hstroke
  rw [Bool.not_eq_false] at hstroke
  simp only [isStroke, Bool.or_eq_true, decide_eq_true_eq] at hstroke
  rcases hstroke with rfl | rfl <;> cases h

theorem isColumn_of_isBullet {c : Char} (h : isBullet c = true) : isColumn c = false := by
  simp only [isBullet, Bool.or_eq_true, decide_eq_true_eq] at h
  rcases h with (rfl | rfl) | rfl <;> rfl

theorem isBlank_of_isBullet {c : Char} (h : isBullet c = true) : Text.isBlank c = false := by
  by_contra hblank
  rw [Bool.not_eq_false] at hblank
  exact absurd ((isColumn_of_isBullet h).symm.trans (isColumn_of_isBlank hblank)) Bool.false_ne_true

namespace Margin

/-- The text does not start with padding. -/
def Flush (cs : List Char) : Prop :=
  ∀ c ∈ cs.head?, isPadding c = false

/-- A text from which a class of characters is dropped that padding belongs to starts with no padding. -/
theorem flush_dropWhile {p : Char → Bool} (hp : ∀ c, isPadding c = true → p c = true)
    (cs : List Char) : Flush (cs.dropWhile p) := by
  intro c hc
  have hhead := List.head?_dropWhile_not p cs
  rw [Option.mem_def.mp hc] at hhead
  by_contra hpad
  exact absurd (hp c (by simpa using hpad)) (by simpa using hhead)

theorem Flush.dropWhile_eq {cs : List Char} (h : Flush cs) : cs.dropWhile isPadding = cs := by
  cases cs with
  | nil => rfl
  | cons c cs => rw [List.dropWhile_cons_of_neg (by simp [h c rfl])]

theorem flush_nil : Flush [] :=
  fun _ hc => nomatch hc

/-! ## Nothing is lost -/

theorem eq_append_of_afterConnector? {cs rest : List Char} (h : afterConnector? cs = some rest) :
    ∃ connector, connector ≠ [] ∧ cs = connector ++ rest ∧ Flush rest := by
  match cs with
  | [] => cases h
  | [_] => cases h
  | corner :: stroke :: more =>
    have hmore : more.takeWhile (· = stroke) ++ more.dropWhile (· = stroke) = more :=
      List.takeWhile_append_dropWhile
    simp only [afterConnector?] at h
    split at h
    · split at h
      · rename_i hnil
        obtain rfl : [] = rest := by simpa using h
        exact ⟨corner :: stroke :: more, by simp, by simp, fun c hc => nomatch hc⟩
      · rename_i c after hafter
        split at h
        · obtain rfl : (more.dropWhile (· = stroke)).dropWhile isPadding = rest := by
            simpa [hafter] using h
          refine ⟨corner :: stroke :: (more.takeWhile (· = stroke) ++
            (more.dropWhile (· = stroke)).takeWhile isPadding), by simp, ?_,
            flush_dropWhile (fun c hc => hc) _⟩
          rw [List.cons_append, List.cons_append, List.append_assoc,
            List.takeWhile_append_dropWhile, hmore]
        · cases h
    · cases h

theorem eq_append_of_splitConnector? {cs lead rest : List Char}
    (h : splitConnector? cs = some (lead, rest)) :
    ∃ connector, connector ≠ [] ∧ cs = lead ++ (connector ++ rest) ∧ Flush rest := by
  induction cs generalizing lead with
  | nil => cases h
  | cons c cs ih =>
    rw [splitConnector?] at h
    split at h
    · rename_i after hafter
      obtain ⟨rfl, rfl⟩ : [] = lead ∧ after = rest := by simpa using h
      exact eq_append_of_afterConnector? hafter
    · split at h
      · obtain ⟨⟨before, after⟩, hsplit, heq⟩ := Option.map_eq_some_iff.mp h
        obtain ⟨rfl, rfl⟩ : c :: before = lead ∧ after = rest := by simpa using heq
        obtain ⟨connector, hne, rfl, hflush⟩ := ih hsplit
        exact ⟨connector, hne, rfl, hflush⟩
      · cases h

theorem eq_append_of_splitBullet? {cs lead rest : List Char}
    (h : splitBullet? cs = some (lead, rest)) :
    ∃ bullet, bullet ≠ [] ∧ cs = lead ++ (bullet ++ rest) ∧ Flush rest := by
  rw [splitBullet?] at h
  split at h
  · rename_i bullet blank after hafter
    split at h
    · obtain ⟨rfl, rfl⟩ : cs.takeWhile Text.isBlank = lead ∧
          after.dropWhile Text.isBlank = rest := by simpa using h
      refine ⟨bullet :: blank :: after.takeWhile Text.isBlank, by simp, ?_,
        flush_dropWhile (fun c => isBlank_of_isPadding) _⟩
      rw [List.cons_append, List.cons_append, List.takeWhile_append_dropWhile, ← hafter,
        List.takeWhile_append_dropWhile]
    · cases h
  · cases h

/-- What follows the margin starts with no padding, and ends the line. It is shorter than the line if there
is a connector or a bullet. -/
private theorem restOf_cases (line : List Char) :
    Flush (restOf line) ∧ restOf line <:+ line ∧
      (restOf line = line →
        splitConnector? line = none ∧ splitBullet? line = none) := by
  unfold restOf
  split
  · rename_i lead rest hsplit
    obtain ⟨connector, hne, hline, hflush⟩ := eq_append_of_splitConnector? hsplit
    refine ⟨hflush, ⟨lead ++ connector, by rw [hline, List.append_assoc]⟩, fun heq => ?_⟩
    have hlength := congrArg List.length hline
    have hpos := List.length_pos_iff.mpr hne
    simp only [heq, List.length_append] at hlength
    omega
  · rename_i hnone
    split
    · rename_i lead rest hsplit
      obtain ⟨bullet, hne, hline, hflush⟩ := eq_append_of_splitBullet? hsplit
      refine ⟨hflush, ⟨lead ++ bullet, by rw [hline, List.append_assoc]⟩, fun heq => ?_⟩
      have hlength := congrArg List.length hline
      have hpos := List.length_pos_iff.mpr hne
      simp only [heq, List.length_append] at hlength
      omega
    · rename_i hbullet
      exact ⟨flush_dropWhile (fun c => isBlank_of_isPadding) line, List.dropWhile_suffix _,
        fun _ => ⟨hnone, hbullet⟩⟩

/-- What follows the margin starts with no padding. -/
theorem flush_restOf (line : List Char) : Flush (restOf line) :=
  (restOf_cases line).1

/-- What follows the margin is the end of the line. -/
theorem restOf_isSuffix (line : List Char) : restOf line <:+ line :=
  (restOf_cases line).2.1

/-- The margin is what stands before the rest of its line. -/
theorem ofLine_append {margin rest : List Char} (h : restOf (margin ++ rest) = rest) :
    ofLine (margin ++ rest) = margin := by
  rw [ofLine, h, List.length_append, Nat.add_sub_cancel, List.take_left]

/-- A line is its margin and what follows. -/
theorem ofLine_append_restOf (line : List Char) : ofLine line ++ restOf line = line := by
  obtain ⟨margin, hline⟩ := restOf_isSuffix line
  have hmargin : ofLine (margin ++ restOf line) = margin := ofLine_append (by rw [hline])
  rw [hline] at hmargin
  rw [hmargin, hline]

/-! ## Columns -/

theorem splitConnector?_of_afterConnector? {cs rest : List Char}
    (h : afterConnector? cs = some rest) : splitConnector? cs = some ([], rest) := by
  cases cs with
  | nil => cases h
  | cons c cs => rw [splitConnector?, h]

theorem afterConnector?_of_not_isCorner {c : Char} (h : isCorner c = false) (cs : List Char) :
    afterConnector? (c :: cs) = none := by
  cases cs with
  | nil => rfl
  | cons stroke cs => rw [afterConnector?, h, Bool.false_and, if_neg Bool.false_ne_true]

theorem afterConnector?_of_not_isStroke {c : Char} {cs : List Char}
    (h : ∀ d ∈ cs.head?, isStroke d = false) : afterConnector? (c :: cs) = none := by
  cases cs with
  | nil => rfl
  | cons stroke cs =>
    rw [afterConnector?, h stroke rfl, Bool.and_false, if_neg Bool.false_ne_true]

/-- A corner, strokes of one kind and padding are a connector, and without padding they are one at the end. -/
theorem afterConnector?_of_padding {corner stroke : Char} (hcorner : isCorner corner = true)
    (hstroke : isStroke stroke = true) (strokes : Nat) {padding rest : List Char}
    (hpadding : ∀ c ∈ padding, isPadding c = true) (hne : padding ≠ [] ∨ rest = [])
    (hrest : Flush rest) :
    afterConnector? (corner :: stroke :: (List.replicate strokes stroke ++ (padding ++ rest))) =
      some rest := by
  have hstrokes (cs : List Char) (hcs : ∀ c ∈ cs.head?, isPadding c = true) :
      (List.replicate strokes stroke ++ cs).dropWhile (· = stroke) = cs := by
    rw [List.dropWhile_append_of_pos fun c hc => decide_eq_true (List.eq_of_mem_replicate hc)]
    cases cs with
    | nil => rfl
    | cons c cs =>
      refine List.dropWhile_cons_of_neg ?_
      rw [decide_eq_true_eq]
      rintro rfl
      -- Strokes are no padding.
      have hcolumn := isColumn_of_isBlank (isBlank_of_isPadding (hcs c rfl))
      rw [isStroke_of_isColumn hcolumn] at hstroke
      cases hstroke
  rw [afterConnector?, hcorner, hstroke, Bool.and_self, if_pos rfl]
  cases padding with
  | nil =>
    obtain rfl := hne.resolve_left (absurd rfl)
    simp only [List.nil_append, hstrokes [] nofun]
  | cons c padding =>
    have hblank : isPadding c = true := hpadding c List.mem_cons_self
    have hdrop : (c :: (padding ++ rest)).dropWhile isPadding = rest := by
      rw [← List.cons_append, List.dropWhile_append_of_pos hpadding, hrest.dropWhile_eq]
    rw [List.cons_append, hstrokes (c :: (padding ++ rest)) (by rintro _ ⟨⟩; exact hblank)]
    simp only [hblank, if_true, hdrop]

/-- Where no connector starts, a column is passed. -/
theorem splitConnector?_cons_of_none {c : Char} {cs : List Char}
    (hnone : afterConnector? (c :: cs) = none) (hcolumn : isColumn c = true) :
    splitConnector? (c :: cs) =
      (splitConnector? cs).map fun split => (c :: split.1, split.2) := by
  rw [splitConnector?, hnone, if_pos hcolumn]

/-- The search for a connector goes past the text, whatever follows it. -/
def Passed (lead : List Char) : Prop :=
  ∀ cs, splitConnector? (lead ++ cs) =
    (splitConnector? cs).map fun split => (lead ++ split.1, split.2)

theorem passed_nil : Passed [] := by
  intro cs
  rw [List.nil_append]
  cases splitConnector? cs <;> rfl

theorem Passed.append {lead more : List Char} (hlead : Passed lead) (hmore : Passed more) :
    Passed (lead ++ more) := by
  intro cs
  rw [List.append_assoc, hlead, hmore, Option.map_map]
  exact congrArg (Option.map · _) (funext fun split => by rw [Function.comp_apply, List.append_assoc])

theorem passed_flatten {columns : List (List Char)} (h : ∀ column ∈ columns, Passed column) :
    Passed columns.flatten := by
  induction columns with
  | nil => exact passed_nil
  | cons column columns ih =>
    rw [List.forall_mem_cons] at h
    exact h.1.append (ih h.2)

/-- Columns that no connector can start with are passed. -/
theorem passed_of_not_isCorner {lead : List Char}
    (h : ∀ c ∈ lead, isColumn c = true ∧ isCorner c = false) : Passed lead := by
  induction lead with
  | nil => exact passed_nil
  | cons c lead ih =>
    rw [List.forall_mem_cons] at h
    intro cs
    rw [List.cons_append, splitConnector?_cons_of_none (afterConnector?_of_not_isCorner h.1.2 _) h.1.1,
      ih h.2, Option.map_map]
    rfl

/-- Columns are passed where no stroke follows them. -/
theorem splitConnector?_columns {columns cs : List Char} (hcolumns : ∀ c ∈ columns, isColumn c = true)
    (hcs : ∀ c ∈ cs.head?, isStroke c = false) :
    splitConnector? (columns ++ cs) =
      (splitConnector? cs).map fun split => (columns ++ split.1, split.2) := by
  induction columns with
  | nil => exact passed_nil cs
  | cons column columns ih =>
    rw [List.forall_mem_cons] at hcolumns
    have hnext : ∀ c ∈ (columns ++ cs).head?, isStroke c = false := by
      intro c hc
      cases columns with
      | nil => exact hcs c hc
      | cons next columns =>
        obtain rfl : next = c := by simpa using hc
        exact isStroke_of_isColumn (hcolumns.2 next List.mem_cons_self)
    rw [List.cons_append, splitConnector?_cons_of_none (afterConnector?_of_not_isStroke hnext) hcolumns.1,
      ih hcolumns.2, Option.map_map]
    rfl

/-- Blanks are passed, whatever follows them. -/
theorem passed_of_isBlank {blanks : List Char} (h : ∀ c ∈ blanks, Text.isBlank c = true) :
    Passed blanks :=
  passed_of_not_isCorner fun c hc => ⟨isColumn_of_isBlank (h c hc), isCorner_of_isBlank (h c hc)⟩

/-- The connector behind columns is found, with its padding. -/
theorem splitConnector?_of_columns {columns : List Char} (hcolumns : ∀ c ∈ columns, isColumn c = true)
    {corner stroke : Char} (hcorner : isCorner corner = true) (hstroke : isStroke stroke = true)
    (strokes : Nat) {padding rest : List Char} (hpadding : ∀ c ∈ padding, isPadding c = true)
    (hne : padding ≠ [] ∨ rest = []) (hrest : Flush rest) :
    splitConnector? (columns ++ corner :: stroke :: (List.replicate strokes stroke ++
      (padding ++ rest))) = some (columns, rest) := by
  have hafter := afterConnector?_of_padding hcorner hstroke strokes hpadding hne hrest
  rw [splitConnector?_columns hcolumns (by rintro _ ⟨⟩; exact isStroke_of_isCorner hcorner),
    splitConnector?_of_afterConnector? hafter, Option.map_some, List.append_nil]

/-! ## Bullets -/

section Bullet

variable {blanks rest : List Char} {bullet : Char}

/-- No connector starts at a bullet that no stroke follows. -/
theorem splitConnector?_of_bullet (hblanks : ∀ c ∈ blanks, Text.isBlank c = true)
    (hbullet : isBullet bullet = true) (hrest : ∀ c ∈ rest.head?, isStroke c = false) :
    splitConnector? (blanks ++ bullet :: rest) = none := by
  rw [passed_of_isBlank hblanks, splitConnector?, afterConnector?_of_not_isStroke hrest]
  simp only [isColumn_of_isBullet hbullet, Bool.false_eq_true, if_false, Option.map_none]

/-- The bullet behind blanks is found, with the blanks behind it. -/
theorem splitBullet?_of_blanks (hblanks : ∀ c ∈ blanks, Text.isBlank c = true)
    (hbullet : isBullet bullet = true) {padding : List Char}
    (hpadding : ∀ c ∈ padding, Text.isBlank c = true) (hne : padding ≠ [])
    (hrest : Text.trimStart rest = rest) :
    splitBullet? (blanks ++ bullet :: (padding ++ rest)) = some (blanks, rest) := by
  obtain ⟨blank, padding, rfl⟩ := List.exists_cons_of_ne_nil hne
  rw [List.forall_mem_cons] at hpadding
  have hsolid : ¬ Text.isBlank bullet = true := by
    rw [isBlank_of_isBullet hbullet]
    exact Bool.false_ne_true
  have hdrop : (blanks ++ bullet :: (blank :: padding ++ rest)).dropWhile Text.isBlank =
      bullet :: blank :: (padding ++ rest) := by
    rw [List.dropWhile_append_of_pos hblanks, List.dropWhile_cons_of_neg hsolid, List.cons_append]
  have htake : (blanks ++ bullet :: (blank :: padding ++ rest)).takeWhile Text.isBlank = blanks := by
    rw [List.takeWhile_append_of_pos hblanks, List.takeWhile_cons_of_neg hsolid, List.append_nil]
  have htrim : (padding ++ rest).dropWhile Text.isBlank = rest := by
    rw [List.dropWhile_append_of_pos hpadding.2]
    exact hrest
  rw [splitBullet?, hdrop]
  simp only [hbullet, hpadding.1, Bool.and_self, if_true, htake, htrim]

end Bullet

/-! ## More text behind a line -/

/-- Where a text goes on behind a class of characters, dropping them leaves what stands behind the text alone, -/
theorem dropWhile_append_of_ne_nil {p : Char → Bool} {cs : List Char} (h : cs.dropWhile p ≠ [])
    (tail : List Char) : (cs ++ tail).dropWhile p = cs.dropWhile p ++ tail := by
  rw [List.dropWhile_append, if_neg (by simpa only [List.isEmpty_iff] using h)]

/-- and taking them takes what it took. -/
theorem takeWhile_append_of_ne_nil {p : Char → Bool} {cs : List Char} (h : cs.dropWhile p ≠ [])
    (tail : List Char) : (cs ++ tail).takeWhile p = cs.takeWhile p := by
  have hsplit : cs.takeWhile p ++ cs.dropWhile p = cs := List.takeWhile_append_dropWhile
  have hlength := congrArg List.length hsplit
  have hpos := List.length_pos_iff.mpr h
  rw [List.length_append] at hlength
  rw [List.takeWhile_append, if_neg (by omega)]

/-- No connector starts or goes on with the text. -/
def Detached (tail : List Char) : Prop :=
  ∀ c ∈ tail.head?, isCorner c = false ∧ isStroke c = false

theorem detached_cons {c : Char} (hcorner : isCorner c = false) (hstroke : isStroke c = false)
    (cs : List Char) : Detached (c :: cs) := by
  rintro _ ⟨⟩
  exact ⟨hcorner, hstroke⟩

section Append

variable {cs tail : List Char}

/-- A text behind a connector is no part of it, unless the connector was all there was. -/
theorem afterConnector?_append_of_detached (hcs : afterConnector? cs ≠ some [])
    (htail : Detached tail) : afterConnector? (cs ++ tail) = (afterConnector? cs).map (· ++ tail) := by
  match cs with
  | [] =>
    cases tail with
    | nil => rfl
    | cons c tail => exact afterConnector?_of_not_isCorner (htail c rfl).1 tail
  | [corner] => exact afterConnector?_of_not_isStroke fun c hc => (htail c hc).2
  | corner :: stroke :: more =>
    rw [afterConnector?] at hcs
    rw [List.cons_append, List.cons_append, afterConnector?, afterConnector?]
    by_cases hstart : (isCorner corner && isStroke stroke) = true
    · rw [if_pos hstart] at hcs
      rw [if_pos hstart, if_pos hstart]
      -- The strokes run into the same character as before.
      cases hafter : more.dropWhile (· = stroke) with
      | nil =>
        rw [hafter] at hcs
        exact absurd rfl hcs
      | cons c after =>
        rw [hafter] at hcs
        rw [dropWhile_append_of_ne_nil (by simp [hafter]), hafter, List.cons_append]
        simp only [] at hcs ⊢
        by_cases hpadding : isPadding c = true
        · rw [if_pos hpadding] at hcs
          have hrest : (c :: after).dropWhile isPadding ≠ [] := fun hnil => hcs (congrArg some hnil)
          rw [if_pos hpadding, if_pos hpadding, ← List.cons_append, dropWhile_append_of_ne_nil hrest,
            Option.map_some]
        · rw [if_neg hpadding, if_neg hpadding, Option.map_none]
    · rw [if_neg hstart, if_neg hstart, Option.map_none]

/-- A text behind a line makes no connector and moves none, unless the connector ended the line. -/
theorem splitConnector?_append_of_detached (hcs : ∀ lead, splitConnector? cs ≠ some (lead, []))
    (htail : Detached tail) (hnone : splitConnector? tail = none) :
    splitConnector? (cs ++ tail) =
      (splitConnector? cs).map fun split => (split.1, split.2 ++ tail) := by
  induction cs with
  | nil => exact hnone
  | cons c cs ih =>
    cases hafter : afterConnector? (c :: cs) with
    | some rest =>
      have hsplit := splitConnector?_of_afterConnector? hafter
      have hne : afterConnector? (c :: cs) ≠ some [] := by
        rw [hafter]
        rintro ⟨⟩
        exact hcs [] hsplit
      have happend := afterConnector?_append_of_detached hne htail
      rw [hafter, Option.map_some] at happend
      rw [hsplit, splitConnector?_of_afterConnector? happend, Option.map_some]
    | none =>
      have hne : afterConnector? (c :: cs) ≠ some [] := by
        rw [hafter]
        exact (Option.some_ne_none _).symm
      have happend := afterConnector?_append_of_detached hne htail
      rw [hafter, Option.map_none, List.cons_append] at happend
      by_cases hcolumn : isColumn c = true
      · rw [splitConnector?_cons_of_none hafter hcolumn] at hcs ⊢
        have hrest : ∀ lead, splitConnector? cs ≠ some (lead, []) := by
          intro lead hlead
          rw [hlead] at hcs
          exact hcs (c :: lead) rfl
        rw [List.cons_append, splitConnector?_cons_of_none happend hcolumn, ih hrest, Option.map_map,
          Option.map_map]
        rfl
      · rw [List.cons_append, splitConnector?, splitConnector?, happend, hafter]
        simp only [if_neg hcolumn, Option.map_none]

/-- A text holds no bullet unless one stands behind its first blanks and before another. -/
theorem splitBullet?_eq_none_iff :
    splitBullet? cs = none ↔ ∀ bullet blank rest,
      cs.dropWhile Text.isBlank = bullet :: blank :: rest →
        (isBullet bullet && Text.isBlank blank) = false := by
  rw [splitBullet?]
  constructor
  · intro h bullet blank rest hstart
    rw [hstart] at h
    simp only [] at h
    split at h
    · cases h
    · rename_i hbullet
      exact Bool.eq_false_iff.mpr hbullet
  · intro h
    split
    · rename_i hstart
      rw [if_neg (Bool.eq_false_iff.mp (h _ _ _ hstart))]
    · rfl

/-- A text behind a line makes no bullet and moves none, unless a bullet, with blanks or without, ended the line. -/
theorem splitBullet?_append (hcs : ∀ lead, splitBullet? cs ≠ some (lead, []))
    (hnone : splitBullet? tail = none)
    (hlone : ∀ bullet, cs.dropWhile Text.isBlank = [bullet] → isBullet bullet = true →
      ∀ c ∈ tail.head?, Text.isBlank c = false) :
    splitBullet? (cs ++ tail) = (splitBullet? cs).map fun split => (split.1, split.2 ++ tail) := by
  match hstart : cs.dropWhile Text.isBlank with
  | [] =>
    have hsplit : splitBullet? cs = none := by rw [splitBullet?, hstart]
    have hdrop : (cs ++ tail).dropWhile Text.isBlank = tail.dropWhile Text.isBlank := by
      rw [List.dropWhile_append, hstart]
      rfl
    rw [hsplit, Option.map_none, splitBullet?_eq_none_iff, hdrop]
    exact splitBullet?_eq_none_iff.mp hnone
  | [bullet] =>
    have hsplit : splitBullet? cs = none := by rw [splitBullet?, hstart]
    rw [hsplit, Option.map_none, splitBullet?_eq_none_iff]
    intro other blank rest hdrop
    rw [dropWhile_append_of_ne_nil (by simp [hstart]), hstart] at hdrop
    obtain ⟨rfl, rfl⟩ := List.cons.inj hdrop
    rw [Bool.and_eq_false_imp]
    exact fun hbullet => hlone bullet hstart hbullet blank rfl
  | bullet :: blank :: more =>
    have hne : cs.dropWhile Text.isBlank ≠ [] := by simp [hstart]
    rw [splitBullet?, hstart] at hcs
    rw [splitBullet?, splitBullet?, dropWhile_append_of_ne_nil hne, takeWhile_append_of_ne_nil hne,
      hstart, List.cons_append, List.cons_append]
    simp only [] at hcs ⊢
    by_cases hbullet : (isBullet bullet && Text.isBlank blank) = true
    · rw [if_pos hbullet] at hcs
      have hmore : more.dropWhile Text.isBlank ≠ [] := by
        intro hnil
        rw [hnil] at hcs
        exact hcs _ rfl
      rw [if_pos hbullet, if_pos hbullet, dropWhile_append_of_ne_nil hmore, Option.map_some]
    · rw [if_neg hbullet, if_neg hbullet, Option.map_none]

/-- A text that holds no margin follows a line that goes on behind its margin, and no margin is moved, unless the line
holds only a bullet and the text starts with a blank. -/
theorem restOf_append (hrest : restOf cs ≠ []) (htail : Detached tail)
    (hconnector : splitConnector? tail = none) (hbullet : splitBullet? tail = none)
    (hlone : ∀ bullet, cs.dropWhile Text.isBlank = [bullet] → isBullet bullet = true →
      ∀ c ∈ tail.head?, Text.isBlank c = false) :
    restOf (cs ++ tail) = restOf cs ++ tail := by
  have hconnected : ∀ lead, splitConnector? cs ≠ some (lead, []) := by
    intro lead hsplit
    rw [restOf, hsplit] at hrest
    exact hrest rfl
  have hsplit := splitConnector?_append_of_detached hconnected htail hconnector
  cases hcs : splitConnector? cs with
  | some split => rw [restOf, restOf, hsplit, hcs, Option.map_some]
  | none =>
    have hbulleted : ∀ lead, splitBullet? cs ≠ some (lead, []) := by
      intro lead hbulleted
      rw [restOf, hcs, hbulleted] at hrest
      exact hrest rfl
    rw [restOf, hcs] at hrest
    rw [restOf, restOf, hsplit, hcs, Option.map_none, splitBullet?_append hbulleted hbullet hlone]
    cases hblanks : splitBullet? cs with
    | some split => rfl
    | none =>
      rw [hblanks] at hrest
      exact dropWhile_append_of_ne_nil hrest tail

end Append

/-! ## Lines without a margin -/

/-- A line has no margin if it holds neither a connector nor a bullet and starts with no blank. -/
theorem restOf_eq_self_iff {line : List Char} :
    restOf line = line ↔
      splitConnector? line = none ∧ splitBullet? line = none ∧ Text.trimStart line = line := by
  constructor
  · intro h
    obtain ⟨hconnector, hbullet⟩ := (restOf_cases line).2.2 h
    refine ⟨hconnector, hbullet, ?_⟩
    rwa [restOf, hconnector, hbullet] at h
  · rintro ⟨hconnector, hbullet, htrim⟩
    rw [restOf, hconnector, hbullet]
    exact htrim

theorem isBlank_slash : Text.isBlank '/' = false := rfl

/-- A slash at the end of a line gives it no margin. -/
theorem restOf_concat_slash {line : List Char} (h : restOf line = line) :
    restOf (line ++ ['/']) = line ++ ['/'] := by
  by_cases hnil : line = []
  · rw [hnil]
    rfl
  · have hsolid : ∀ c ∈ ['/'].head?, Text.isBlank c = false := by
      rintro _ ⟨⟩
      rfl
    have hrest : restOf line ≠ [] := by rwa [h]
    rw [restOf_append hrest (detached_cons rfl rfl []) rfl rfl fun _ _ _ => hsolid, h]

end Margin

end TreeSketch.Diagram
