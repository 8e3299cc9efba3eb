import TreeSketch.Proofs.Fence

/-!
# The reading of fences

A document is read line by line, with at most one open fence. `Reads ends` says how: a line that starts with a
fence opens it, `ends` says which lines close an open fence, and what is not closed runs to the end of the
document. Whatever `ends` is, every document has exactly one reading (`existsUnique_reads`).

A closing line is meant to hold the fence alone, as a run of its character that may be longer (`Closes`). The
library closes fences at some other lines as well, on which marks stand behind the run that start with the other one
(`ClosesMixed`, `closedBy_iff`). So it extracts the parts of the reading in which both kinds of lines close a
fence, and these are the parts that are meant exactly when no line of the second kind stands in one of them
(`extract_eq_unfenced_iff`).
-/

namespace TreeSketch.Fence

/-! ## Readings -/

/-- A fenced part of a document: the fence that opens it, and the lines up to the one that closes it. -/
structure Part where
  fence : Fence
  body : List (List Char)

/-- How lines are read, where `ends` says which lines close an open fence. -/
inductive Reads (ends : Fence → List Char → Prop) : List (List Char) → List Part → Prop
  /-- There are no lines. -/
  | nil : Reads ends [] []
  /-- A line outside of fences that starts with none is prose. -/
  | prose {line rest parts} (hquiet : IsQuiet line) (hrest : Reads ends rest parts) :
    Reads ends (line :: rest) parts
  /-- A fence is open up to the first line that closes it. -/
  | closed {part : Part} {opening closing rest parts} (hopens : part.fence.Opens opening)
    (hbody : ∀ line ∈ part.body, ¬ ends part.fence line) (hends : ends part.fence closing)
    (hrest : Reads ends rest parts) :
    Reads ends (opening :: (part.body ++ closing :: rest)) (part :: parts)
  /-- A fence that no line closes is open up to the end. -/
  | unclosed {part : Part} {opening} (hopens : part.fence.Opens opening)
    (hbody : ∀ line ∈ part.body, ¬ ends part.fence line) : Reads ends (opening :: part.body) [part]

/-- The text of a document whose fenced parts are given: their bodies with an empty line between them, or the
document itself if there are none. -/
def unfenced (document : String) (parts : List Part) : String :=
  if parts.isEmpty then document
  else "\n\n".intercalate (parts.map fun part => "\n".intercalate (part.body.map String.ofList)) ++ "\n"

variable {fence : Fence} {line opening : List Char} {lines rest : List (List Char)}
  {ends : Fence → List Char → Prop} {part : Part} {parts others : List Part}

/-- A line opens one fence at most. -/
theorem Opens.unique {other : Fence} (h : fence.Opens line) (hother : other.Opens line) : other = fence := by
  apply Option.some.inj
  rw [← ofLine?_eq_some_iff.mpr h, ← ofLine?_eq_some_iff.mpr hother]

/-- A list falls into two parts at the first of its elements with a property in one way only. -/
theorem eq_of_append_cons_eq {α : Type} {p : α → Prop} {xs ys as bs : List α} {x y : α}
    (hxs : ∀ z ∈ xs, ¬ p z) (hx : p x) (hys : ∀ z ∈ ys, ¬ p z) (hy : p y)
    (h : xs ++ x :: as = ys ++ y :: bs) : xs = ys ∧ as = bs := by
  induction xs generalizing ys with
  | nil =>
    cases ys with
    | nil => exact ⟨rfl, (List.cons.inj h).2⟩
    | cons z ys =>
      obtain rfl : x = z := (List.cons.inj h).1
      exact absurd hx (hys x List.mem_cons_self)
  | cons z xs ih =>
    rw [List.forall_mem_cons] at hxs
    cases ys with
    | nil =>
      obtain rfl : z = y := (List.cons.inj h).1
      exact absurd hy hxs.1
    | cons w ys =>
      rw [List.forall_mem_cons] at hys
      obtain ⟨rfl, htail⟩ := List.cons.inj h
      obtain ⟨rfl, hrest⟩ := ih hxs.2 hys.2 htail
      exact ⟨rfl, hrest⟩

/-- What a line outside of fences is to a reading: prose, or the opening of the first part. -/
theorem Reads.cons_cases (h : Reads ends (line :: rest) parts) :
    (IsQuiet line ∧ Reads ends rest parts) ∨
    ∃ part later, parts = part :: later ∧ part.fence.Opens line ∧
      (∀ inner ∈ part.body, ¬ ends part.fence inner) ∧
      ((∃ closing behind, rest = part.body ++ closing :: behind ∧ ends part.fence closing ∧
          Reads ends behind later) ∨
        (rest = part.body ∧ later = [])) := by
  cases h with
  | prose hquiet hrest => exact .inl ⟨hquiet, hrest⟩
  | closed hopens hbody hends hrest =>
    exact .inr ⟨_, _, rfl, hopens, hbody, .inl ⟨_, _, rfl, hends, hrest⟩⟩
  | unclosed hopens hbody => exact .inr ⟨_, _, rfl, hopens, hbody, .inr ⟨rfl, rfl⟩⟩

/-- Lines have one reading at most. -/
theorem Reads.unique (h : Reads ends lines parts) (hothers : Reads ends lines others) :
    others = parts := by
  induction h generalizing others with
  | nil =>
    cases hothers
    rfl
  | prose hquiet _ ih =>
    rcases hothers.cons_cases with ⟨-, hrest⟩ | ⟨other, -, -, hopens, -⟩
    · exact ih hrest
    · exact absurd hopens (hquiet other.fence)
  | @closed part opening closing rest parts hopens hbody hends _ ih =>
    rcases hothers.cons_cases with ⟨hquiet, -⟩ | ⟨⟨fence, body⟩, later, rfl, hopened, hinner, hclosed⟩
    · exact absurd hopens (hquiet part.fence)
    · obtain rfl : fence = part.fence := hopens.unique hopened
      rcases hclosed with ⟨closed, behind, hlines, hend, hrest⟩ | ⟨hlines, -⟩
      · obtain ⟨rfl, rfl⟩ := eq_of_append_cons_eq hbody hends hinner hend hlines
        rw [ih hrest]
      · -- The line that closes the fence would be one of its lines.
        exact absurd hends (hinner closing (hlines ▸ List.mem_append_right _ List.mem_cons_self))
  | @unclosed part opening hopens hbody =>
    rcases hothers.cons_cases with ⟨hquiet, -⟩ | ⟨⟨fence, body⟩, later, rfl, hopened, hinner, hclosed⟩
    · exact absurd hopens (hquiet part.fence)
    · obtain rfl : fence = part.fence := hopens.unique hopened
      rcases hclosed with ⟨closed, behind, hlines, hend, -⟩ | ⟨hlines, rfl⟩
      · exact absurd hend (hbody closed (hlines ▸ List.mem_append_right _ List.mem_cons_self))
      · obtain rfl : part.body = body := hlines
        rfl

/-- All lines have a reading. -/
theorem exists_reads (ends : Fence → List Char → Prop) (lines : List (List Char)) :
    ∃ parts, Reads ends lines parts := by
  classical
  -- After a line that closes a fence, fewer lines are left.
  induction hlength : lines.length using Nat.strong_induction_on generalizing lines with
  | h length ih =>
    subst hlength
    cases lines with
    | nil => exact ⟨[], .nil⟩
    | cons line rest =>
      by_cases hquiet : IsQuiet line
      · obtain ⟨parts, hrest⟩ := ih rest.length (Nat.lt_succ_self _) rest rfl
        exact ⟨parts, .prose hquiet hrest⟩
      · obtain ⟨fence, hopens⟩ : ∃ fence : Fence, fence.Opens line := by
          rwa [IsQuiet, not_forall_not] at hquiet
        cases hfind : rest.find? (fun inner => decide (ends fence inner)) with
        | none =>
          have hbody : ∀ inner ∈ rest, ¬ ends fence inner := by
            intro inner hinner
            simpa using List.find?_eq_none.mp hfind inner hinner
          exact ⟨[⟨fence, rest⟩], @Reads.unclosed ends ⟨fence, rest⟩ line hopens hbody⟩
        | some closing =>
          obtain ⟨hends, body, behind, rfl, hbody⟩ := List.find?_eq_some_iff_append.mp hfind
          have hshort : behind.length < (line :: (body ++ closing :: behind)).length := by
            simp only [List.length_cons, List.length_append]
            omega
          obtain ⟨parts, hrest⟩ := ih behind.length hshort behind rfl
          have hkept : ∀ inner ∈ body, ¬ ends fence inner := by
            intro inner hinner
            simpa using hbody inner hinner
          exact ⟨⟨fence, body⟩ :: parts, @Reads.closed ends ⟨fence, body⟩ line closing behind parts hopens
            hkept (of_decide_eq_true hends) hrest⟩

/-- Lines have exactly one reading. -/
theorem existsUnique_reads (ends : Fence → List Char → Prop) (lines : List (List Char)) :
    ∃ parts, ∀ others, Reads ends lines others ↔ others = parts := by
  obtain ⟨parts, hreads⟩ := exists_reads ends lines
  refine ⟨parts, fun others => ⟨hreads.unique, ?_⟩⟩
  rintro rfl
  exact hreads

/-! ## Closing lines -/

/-- The line, blanks apart, is a run of the fence's character that is at least as long as the fence. -/
def Closes (fence : Fence) (line : List Char) : Prop :=
  ∃ length, fence.length ≤ length ∧ Text.trim line = List.replicate length fence.character

/-- Behind such a run, marks stand on the line of which the first is another one. -/
def ClosesMixed (fence : Fence) (line : List Char) : Prop :=
  ∃ length marks, fence.length ≤ length ∧ marks ≠ [] ∧ marks.head? ≠ some fence.character ∧
    (∀ c ∈ marks, isMark c = true) ∧
    Text.trim line = List.replicate length fence.character ++ marks

/-- Nothing but the fence's character is left of the line, as often as in the fence or more often. -/
theorem closes_iff : fence.Closes line ↔ fence.length ≤ (Text.trim line).length ∧
    (Text.trim line).all (fun c => decide (c = fence.character)) = true := by
  rw [List.all_eq_true]
  constructor
  · rintro ⟨length, hlength, htrim⟩
    rw [htrim, List.length_replicate]
    exact ⟨hlength, fun c hc => decide_eq_true (List.eq_of_mem_replicate hc)⟩
  · rintro ⟨hlength, hall⟩
    exact ⟨_, hlength, List.eq_replicate_of_mem fun c hc => of_decide_eq_true (hall c hc)⟩

instance (fence : Fence) (line : List Char) : Decidable (fence.Closes line) :=
  decidable_of_iff _ closes_iff.symm

/-- A run of marks at the start of a line stays there when the line is trimmed. -/
theorem trim_of_run {blanks info : List Char} {length : Nat} (hmark : isMark fence.character = true)
    (hlength : 0 < length) (hblanks : ∀ c ∈ blanks, Text.isBlank c = true) :
    Text.trim (blanks ++ List.replicate length fence.character ++ info) =
      List.replicate length fence.character ++ Text.trimEnd info := by
  rw [Text.trim, trimStart_of_run hmark hlength hblanks]
  refine Text.dropEndWhile_append (fun c hc => ?_) info
  rw [List.eq_of_mem_replicate (List.mem_of_getLast? hc)]
  exact isBlank_of_isMark hmark

/-- The library closes a fence at a run of its character with any marks behind it. -/
theorem closedBy_iff_exists (hmark : isMark fence.character = true) (hthree : 3 ≤ fence.length) :
    fence.closedBy line = true ↔ ∃ length marks, fence.length ≤ length ∧
      marks.head? ≠ some fence.character ∧ (∀ c ∈ marks, isMark c = true) ∧
      Text.trim line = List.replicate length fence.character ++ marks := by
  constructor
  · intro h
    rw [closedBy] at h
    split at h
    · cases h
    · rename_i closing hclosing
      rw [Bool.and_eq_true, Bool.and_eq_true, decide_eq_true_eq, decide_eq_true_eq, List.all_eq_true] at h
      obtain ⟨⟨hcharacter, hlength⟩, hmarks⟩ := h
      obtain ⟨-, -, blanks, info, hblanks, hinfo, rfl⟩ := ofLine?_eq_some_iff.mp hclosing
      rw [hcharacter] at hinfo hmarks ⊢
      have htrim : Text.trim (blanks ++ List.replicate closing.length fence.character ++ info) =
          List.replicate closing.length fence.character ++ Text.trimEnd info :=
        trim_of_run hmark (by omega) hblanks
      rw [htrim] at hmarks
      refine ⟨closing.length, Text.trimEnd info, hlength, fun hhead => hinfo ?_, fun c hc => ?_, htrim⟩
      · have hprefix : Text.trimEnd info <+: info := Text.dropEndWhile_isPrefix Text.isBlank info
        obtain ⟨behind, hbehind⟩ := hprefix
        rw [← hbehind, List.head?_append, hhead]
        rfl
      · exact hmarks c (List.mem_append_right _ hc)
  · rintro ⟨length, marks, hlength, hhead, hmarks, htrim⟩
    obtain ⟨before, after, hbefore, hafter, hline⟩ := Text.exists_trim_eq line
    rw [htrim, ← List.append_assoc, List.append_assoc _ marks] at hline
    have hinfo : (marks ++ after).head? ≠ some fence.character := by
      cases marks with
      | cons c marks => exact hhead
      | nil =>
        intro hblank
        rw [List.nil_append] at hblank
        have hsolid := isBlank_of_isMark hmark
        rw [hafter _ (List.mem_of_head? hblank)] at hsolid
        cases hsolid
    have hopens : Opens ⟨fence.character, length⟩ line :=
      ⟨hmark, Nat.le_trans hthree hlength, before, marks ++ after, hbefore, hinfo, hline⟩
    have hall : (Text.trim line).all isMark = true := by
      rw [htrim, List.all_append, Bool.and_eq_true]
      refine ⟨List.all_eq_true.mpr fun c hc => ?_, List.all_eq_true.mpr hmarks⟩
      rw [List.eq_of_mem_replicate hc]
      exact hmark
    rw [closedBy, ofLine?_of_opens hopens]
    simp only [hall, decide_true, decide_eq_true hlength, Bool.and_self]

/-- These are the lines that hold the fence alone, and those on which another mark follows. -/
theorem closedBy_iff (hopens : fence.Opens opening) :
    fence.closedBy line = true ↔ fence.Closes line ∨ fence.ClosesMixed line := by
  rw [closedBy_iff_exists hopens.1 hopens.2.1]
  constructor
  · rintro ⟨length, marks, hlength, hhead, hmarks, htrim⟩
    by_cases hnil : marks = []
    · subst hnil
      exact .inl ⟨length, hlength, by rw [htrim, List.append_nil]⟩
    · exact .inr ⟨length, marks, hlength, hnil, hhead, hmarks, htrim⟩
  · rintro (⟨length, hlength, htrim⟩ | ⟨length, marks, hlength, -, hhead, hmarks, htrim⟩)
    · exact ⟨length, [], hlength, nofun, nofun, by rw [htrim, List.append_nil]⟩
    · exact ⟨length, marks, hlength, hhead, hmarks, htrim⟩

theorem closedBy_eq_false (hopens : fence.Opens opening) (hcloses : ¬ fence.Closes line)
    (hmixed : ¬ fence.ClosesMixed line) : fence.closedBy line = false := by
  rw [Bool.eq_false_iff, Ne, closedBy_iff hopens]
  exact not_or_intro hcloses hmixed

/-! ## What is extracted -/

/-- The library finds the bodies of the reading by its own rule. -/
theorem blocks_of_reads (h : Reads (fun fence line => fence.closedBy line = true) lines parts) :
    blocks none lines = parts.map Part.body := by
  induction h with
  | nil => rfl
  | prose hquiet _ ih =>
    rw [blocks, isQuiet_iff.mp hquiet]
    exact ih
  | @closed part opening closing rest parts hopens hbody hends _ ih =>
    have hkept : ∀ line ∈ part.body, part.fence.closedBy line = false :=
      fun line hline => Bool.eq_false_iff.mpr (hbody line hline)
    rw [blocks_of_opens hopens, blocks_of_closedBy hkept hends, ih]
    rfl
  | @unclosed part opening hopens hbody =>
    have hkept : ∀ line ∈ part.body, part.fence.closedBy line = false :=
      fun line hline => Bool.eq_false_iff.mpr (hbody line hline)
    rw [blocks_of_opens hopens, blocks_unclosed hkept]
    rfl

/-- Readings by two rules are the same if the rules agree on the lines that were read. -/
theorem Reads.mono {other : Fence → List Char → Prop} (h : Reads ends lines parts)
    (hends : ∀ fence opening line, fence.Opens opening → ends fence line → other fence line)
    (hbody : ∀ part ∈ parts, ∀ opening line, part.fence.Opens opening → line ∈ part.body →
      ¬ ends part.fence line → ¬ other part.fence line) :
    Reads other lines parts := by
  induction h with
  | nil => exact .nil
  | prose hquiet _ ih => exact .prose hquiet (ih hbody)
  | closed hopens hkept hclosed _ ih =>
    rw [List.forall_mem_cons] at hbody
    exact .closed hopens (fun line hline => hbody.1 _ line hopens hline (hkept line hline))
      (hends _ _ _ hopens hclosed) (ih hbody.2)
  | unclosed hopens hkept =>
    rw [List.forall_mem_singleton] at hbody
    exact .unclosed hopens fun line hline => hbody _ line hopens hline (hkept line hline)

/-- The bodies of fenced parts, as the library joins them. -/
def joined (bodies : List (List (List Char))) : List Char :=
  joinBlocks (bodies.map Text.joinLines)

theorem joinLines_eq_toList_intercalate (body : List (List Char)) :
    Text.joinLines body = ("\n".intercalate (body.map String.ofList)).toList := by
  induction body with
  | nil => rfl
  | cons line body ih =>
    cases body with
    | nil => simp [Text.joinLines]
    | cons next body =>
      have hjoin : Text.joinLines (line :: next :: body) = line ++ '\n' :: Text.joinLines (next :: body) :=
        rfl
      rw [hjoin, ih, List.map_cons, List.map_cons, List.map_cons, String.intercalate_cons_cons]
      simp

theorem joined_eq_toList_intercalate (bodies : List (List (List Char))) :
    joined bodies =
      ("\n\n".intercalate (bodies.map fun body => "\n".intercalate (body.map String.ofList))).toList := by
  induction bodies with
  | nil => rfl
  | cons body bodies ih =>
    cases bodies with
    | nil => simp [joined, joinBlocks, joinLines_eq_toList_intercalate]
    | cons next bodies =>
      have hjoin : joined (body :: next :: bodies) =
          Text.joinLines body ++ '\n' :: '\n' :: joined (next :: bodies) := rfl
      rw [hjoin, ih, joinLines_eq_toList_intercalate, List.map_cons, List.map_cons, List.map_cons,
        String.intercalate_cons_cons]
      simp

theorem toList_unfenced (hne : parts ≠ []) (document : String) :
    (unfenced document parts).toList = joined (parts.map Part.body) ++ ['\n'] := by
  have hjoined := joined_eq_toList_intercalate (parts.map Part.body)
  rw [List.map_map] at hjoined
  rw [unfenced, if_neg (by simpa using hne), String.toList_append, hjoined]
  rfl

/-- What is extracted are the bodies of the reading by the library's own rule. -/
theorem extract_eq_unfenced_of_closedBy {document : String}
    (h : Reads (fun fence line => fence.closedBy line = true) (Text.textLines document.toList) parts) :
    extract document = unfenced document parts := by
  rw [extract, blocks_of_reads h]
  cases parts with
  | nil => rfl
  | cons part parts =>
    rw [← String.toList_inj, toList_unfenced (List.cons_ne_nil _ _)]
    exact String.toList_ofList

/-! ## Where the two rules differ -/

/-- A line on which another mark follows is not empty. -/
theorem ClosesMixed.ne_nil (h : fence.ClosesMixed line) : line ≠ [] := by
  rintro rfl
  obtain ⟨length, marks, -, hne, -, -, htrim⟩ := h
  exact hne (List.append_eq_nil_iff.mp htrim.symm).2

theorem joinLines_append_cons (before : List (List Char)) (line : List Char) (behind : List (List Char)) :
    Text.joinLines (before ++ line :: behind) =
      (if before.isEmpty then [] else Text.joinLines before ++ ['\n']) ++ Text.joinLines (line :: behind) := by
  induction before with
  | nil => rfl
  | cons first before ih =>
    cases before with
    | nil => simp [Text.joinLines]
    | cons second before =>
      have hjoin (more : List (List Char)) : Text.joinLines (first :: second :: more) =
          first ++ '\n' :: Text.joinLines (second :: more) := rfl
      rw [List.cons_append, List.cons_append, hjoin, ← List.cons_append, ih, hjoin]
      simp

theorem joined_cons (body : List (List Char)) (bodies : List (List (List Char))) :
    joined (body :: bodies) = Text.joinLines body ++
      if bodies.isEmpty then [] else '\n' :: '\n' :: joined bodies := by
  cases bodies with
  | nil => exact (List.append_nil _).symm
  | cons next bodies => rfl

/-- A body that is cut before a line of it makes another text: where the line stands in the one, the other ends
or goes on with a line feed. -/
theorem joined_ne_of_cut {before behind : List (List Char)} (hne : line ≠ []) (hfeed : '\n' ∉ line)
    (bodies others : List (List (List Char))) :
    joined (before :: others) ≠ joined ((before ++ line :: behind) :: bodies) := by
  intro h
  obtain ⟨c, line, rfl⟩ := List.exists_cons_of_ne_nil hne
  have hc : c ≠ '\n' := fun heq => hfeed (heq ▸ List.mem_cons_self)
  obtain ⟨rest, hrest⟩ : ∃ rest, Text.joinLines ((c :: line) :: behind) = c :: rest := by
    cases behind with
    | nil => exact ⟨line, rfl⟩
    | cons next behind => exact ⟨line ++ '\n' :: Text.joinLines (next :: behind), rfl⟩
  rw [joined_cons, joined_cons, joinLines_append_cons, hrest, List.append_assoc] at h
  cases before with
  | nil =>
    cases others with
    | nil => cases h
    | cons other others => exact hc (List.cons.inj h).1.symm
  | cons first before =>
    have htail := List.append_cancel_left (h.trans (List.append_assoc _ _ _))
    cases others with
    | nil => cases htail
    | cons other others => exact hc (List.cons.inj (List.cons.inj htail).2).1.symm

/-- A different rest makes a different text. -/
theorem joined_cons_ne {bodies others : List (List (List Char))} (hne : bodies ≠ [])
    (h : joined others ≠ joined bodies) (body : List (List Char)) :
    joined (body :: others) ≠ joined (body :: bodies) := by
  intro heq
  rw [joined_cons, joined_cons] at heq
  have htail := List.append_cancel_left heq
  rw [if_neg (by simpa using hne : ¬ bodies.isEmpty = true)] at htail
  cases others with
  | nil => cases htail
  | cons other others => exact h (List.cons.inj (List.cons.inj htail).2).2

/-- The library cuts a body that is meant at the first line of it on which another mark follows. -/
theorem exists_cut (hopens : fence.Opens opening) {body : List (List Char)}
    (hbody : ∀ line ∈ body, ¬ fence.Closes line) (hmixed : ∃ line ∈ body, fence.ClosesMixed line)
    (rest : List (List Char)) : ∃ before line behind others, body = before ++ line :: behind ∧
      fence.ClosesMixed line ∧ blocks (some fence) (body ++ rest) = before :: others := by
  obtain ⟨mixed, hmem, hmixed⟩ := hmixed
  cases hfind : body.find? fence.closedBy with
  | none =>
    exact absurd ((closedBy_iff hopens).mpr (.inr hmixed)) (List.find?_eq_none.mp hfind mixed hmem)
  | some line =>
    obtain ⟨hclosed, before, behind, rfl, hbefore⟩ := List.find?_eq_some_iff_append.mp hfind
    have hline : line ∈ before ++ line :: behind := List.mem_append_right _ List.mem_cons_self
    refine ⟨before, line, behind, blocks none (behind ++ rest), rfl,
      ((closedBy_iff hopens).mp hclosed).resolve_left (hbody line hline), ?_⟩
    rw [List.append_assoc, List.cons_append]
    exact blocks_of_closedBy (fun first hfirst => by simpa using hbefore first hfirst) hclosed _

/-- So it finds another text than is meant, whatever comes behind the body. -/
theorem joined_blocks_ne_of_mem (hopens : fence.Opens opening) {body : List (List Char)}
    (hbody : ∀ line ∈ body, ¬ fence.Closes line) (hmixed : ∃ line ∈ body, fence.ClosesMixed line)
    (hfeed : ∀ line ∈ body, '\n' ∉ line) (rest : List (List Char)) (bodies : List (List (List Char))) :
    joined (blocks (some fence) (body ++ rest)) ≠ joined (body :: bodies) := by
  obtain ⟨before, line, behind, others, rfl, hline, hblocks⟩ := exists_cut hopens hbody hmixed rest
  rw [hblocks]
  exact joined_ne_of_cut hline.ne_nil (hfeed line (List.mem_append_right _ List.mem_cons_self)) bodies others

/-- If such a line stands in any part that is meant, the library finds another text. -/
theorem joined_blocks_ne (h : Reads Closes lines parts) (hfeed : ∀ line ∈ lines, '\n' ∉ line)
    (hmixed : ∃ part ∈ parts, ∃ line ∈ part.body, part.fence.ClosesMixed line) :
    joined (blocks none lines) ≠ joined (parts.map Part.body) := by
  -- Up to the first part with such a line, the library finds what is meant.
  induction h with
  | nil =>
    obtain ⟨part, hpart, -⟩ := hmixed
    cases hpart
  | prose hquiet _ ih =>
    rw [blocks, isQuiet_iff.mp hquiet]
    exact ih (List.forall_mem_cons.mp hfeed).2 hmixed
  | @closed part opening closing rest parts hopens hbody hcloses hrest ih =>
    rw [List.forall_mem_cons, List.forall_mem_append, List.forall_mem_cons] at hfeed
    rw [blocks_of_opens hopens, List.map_cons]
    by_cases hhere : ∃ line ∈ part.body, part.fence.ClosesMixed line
    · exact joined_blocks_ne_of_mem hopens hbody hhere hfeed.2.1 _ _
    · have hlater := ((List.exists_mem_cons_iff _ _ _).mp hmixed).resolve_left hhere
      have hkept : ∀ line ∈ part.body, part.fence.closedBy line = false :=
        fun line hline => closedBy_eq_false hopens (hbody line hline) fun h => hhere ⟨line, hline, h⟩
      rw [blocks_of_closedBy hkept ((closedBy_iff hopens).mpr (.inl hcloses))]
      refine joined_cons_ne ?_ (ih hfeed.2.2.2 hlater) _
      obtain ⟨later, hpart, -⟩ := hlater
      exact List.ne_nil_of_mem (List.mem_map_of_mem hpart)
  | @unclosed part opening hopens hbody =>
    have hhere := ((List.exists_mem_cons_iff _ _ _).mp hmixed).resolve_right (by simp)
    have hne := joined_blocks_ne_of_mem hopens hbody hhere (List.forall_mem_cons.mp hfeed).2 [] []
    rw [List.append_nil] at hne
    rw [blocks_of_opens hopens]
    exact hne

/-- There are no fenced parts exactly when all lines are prose. -/
theorem Reads.eq_nil_iff (h : Reads ends lines parts) : parts = [] ↔ ∀ line ∈ lines, IsQuiet line := by
  induction h with
  | nil => exact ⟨fun _ => List.forall_mem_nil _, fun _ => rfl⟩
  | prose hquiet _ ih => rw [ih, List.forall_mem_cons, and_iff_right hquiet]
  | @closed part _ _ _ _ hopens _ _ _ _ =>
    exact ⟨nofun, fun hall => absurd hopens ((List.forall_mem_cons.mp hall).1 part.fence)⟩
  | @unclosed part _ hopens _ =>
    exact ⟨nofun, fun hall => absurd hopens ((List.forall_mem_cons.mp hall).1 part.fence)⟩

/-- The rule that the library follows: a fence is closed by the lines that are meant to close it, and by those
on which another mark follows. -/
def Ends (fence : Fence) (line : List Char) : Prop :=
  fence.Closes line ∨ fence.ClosesMixed line

theorem Reads.closedBy_of_ends (h : Reads Ends lines parts) :
    Reads (fun fence line => fence.closedBy line = true) lines parts :=
  h.mono (fun _ _ _ hopens hends => (closedBy_iff hopens).mpr hends)
    fun _ _ _ _ hopens _ hkept hclosed => hkept ((closedBy_iff hopens).mp hclosed)

/-- The fenced parts of a document are extracted by the library's rule, and this gives the parts that are meant
exactly when no line that closes a fence by that rule alone stands in one of them. -/
theorem extract_eq_unfenced_iff (document : String) :
    (∃ parts, Reads Ends (Text.textLines document.toList) parts ∧
      extract document = unfenced document parts) ∧
    ∃ parts, (∀ others, Reads Closes (Text.textLines document.toList) others ↔ others = parts) ∧
      (extract document = unfenced document parts ↔
        ∀ part ∈ parts, ∀ line ∈ part.body, ¬ part.fence.ClosesMixed line) := by
  obtain ⟨found, hends⟩ := exists_reads Ends (Text.textLines document.toList)
  have hfound := hends.closedBy_of_ends
  have hextract := extract_eq_unfenced_of_closedBy hfound
  obtain ⟨parts, hparts⟩ := existsUnique_reads Closes (Text.textLines document.toList)
  have hreads := (hparts parts).mpr rfl
  refine ⟨⟨found, hends, hextract⟩, parts, hparts, fun htext => ?_, fun hnone => ?_⟩
  · intro part hpart line hline hmixed
    have hne := joined_blocks_ne hreads (fun _ => Text.lineFeed_not_mem_textLines)
      ⟨part, hpart, line, hline, hmixed⟩
    rw [blocks_of_reads hfound] at hne
    have hpresent : parts ≠ [] := List.ne_nil_of_mem hpart
    have hopened : found ≠ [] := by
      rwa [Ne, hfound.eq_nil_iff, ← hreads.eq_nil_iff]
    rw [hextract, ← String.toList_inj, toList_unfenced hopened, toList_unfenced hpresent] at htext
    exact hne (List.append_cancel_right htext)
  · -- The reading that is meant is one by the library's rule, too.
    refine extract_eq_unfenced_of_closedBy (hreads.mono (fun _ _ _ hopens hcloses => ?_) ?_)
    · exact (closedBy_iff hopens).mpr (.inl hcloses)
    · intro part hpart opening line hopens hline hkept
      exact Bool.eq_false_iff.mp (closedBy_eq_false hopens hkept (hnone part hpart line hline))

/-- A fence of backticks is closed by three backticks with three tildes behind them, although this line is meant
to stand in the body. -/
theorem not_forall_extract_eq_unfenced : ¬ ∀ (document : String) (parts : List Part),
    Reads Closes (Text.textLines document.toList) parts → extract document = unfenced document parts := by
  intro h
  let document := "\x60\x60\x60\na\n\x60\x60\x60~~~\nb\n\x60\x60\x60\n"
  let part : Part := ⟨⟨'\x60', 3⟩, ["a".toList, "\x60\x60\x60~~~".toList, "b".toList]⟩
  have hlines : Text.textLines document.toList =
      "\x60\x60\x60".toList :: (part.body ++ "\x60\x60\x60".toList :: []) := by decide +kernel
  have hreads : Reads Closes (Text.textLines document.toList) [part] := by
    rw [hlines]
    exact .closed (by decide +kernel) (by decide +kernel) (by decide +kernel) .nil
  exact absurd (h document [part] hreads) (by decide +kernel)

end TreeSketch.Fence
