import Mathlib.Logic.Relation
import TreeSketch.Diagram.Parser
import TreeSketch.Proofs.Declarative.Script
import TreeSketch.Proofs.Declarative.Twins
import TreeSketch.Proofs.Text.LineEnds

/-!
# Layout that does not matter

The separators of a declarative source keep words apart, and that is all. How many there are, which ones, and whether
any stand at the ends or beside an operator makes no difference to the tree, nor to what a fault says besides its place
(`parse_relaid`). For texts that differ in this way have the same `wording`: the words and operators without their
places.

Carriage returns before the line feeds make no difference either. A diagram has the same lines, and a declarative source
has the same words at the same lines and columns, so its faults keep these.
-/

namespace TreeSketch

/-- The place by its line and column alone. -/
def Place.onLine (place : Place) : Place :=
  ⟨0, place.position⟩

namespace Declarative

/-! ## Words and operators without their places -/

/-- The word or operator without the offset where it starts. -/
def Chunk.unplaced : Chunk → Chunk
  | word _ text => word 0 text
  | operator _ c => operator 0 c

/-- The words and operators of a text, wherever it stands. -/
def wording (text : List Char) : List Chunk :=
  (chunks 0 text).map Chunk.unplaced

theorem map_unplaced_chunks (offset : Nat) (text : List Char) :
    (chunks offset text).map Chunk.unplaced = wording text := by
  suffices hsame : ∀ start begin : Nat,
      (chunks start text).map Chunk.unplaced = (chunks begin text).map Chunk.unplaced from
    hsame offset 0
  induction text using word_induction with
  | nil => exact fun _ _ => rfl
  | separator c rest hc ih =>
    intro start begin
    rw [chunks_separator hc, chunks_separator hc]
    exact ih _ _
  | operator c rest hseparator hc ih =>
    intro start begin
    rw [chunks_operator hseparator hc, chunks_operator hseparator hc, List.map_cons, List.map_cons,
      ih _ (begin + c.utf8Size)]
    rfl
  | word word rest hne hword hrest ih =>
    intro start begin
    rw [chunks_append hne hword hrest, chunks_append hne hword hrest, List.map_cons, List.map_cons,
      ih _ (begin + Text.byteSize word)]
    rfl

theorem wording_separator {c : Char} (hc : isSeparator c = true) (text : List Char) :
    wording (c :: text) = wording text := by
  rw [wording, chunks_separator hc, map_unplaced_chunks]

theorem wording_operator {c : Char} (hseparator : isSeparator c = false) (hc : isOperator c = true)
    (text : List Char) : wording (c :: text) = .operator 0 c :: wording text := by
  rw [wording, chunks_operator hseparator hc, List.map_cons, map_unplaced_chunks]
  rfl

theorem wording_word {word rest : List Char} (hne : word ≠ [])
    (hword : ∀ c ∈ word, isWordChar c = true) (hrest : Bounds rest) :
    wording (word ++ rest) = .word 0 word :: wording rest := by
  rw [wording, chunks_append hne hword hrest, List.map_cons, map_unplaced_chunks]
  rfl

/-- No word goes on from one text into the other. -/
def Apart (before after : List Char) : Prop :=
  (∀ c ∈ before.getLast?, isWordChar c = false) ∨ Bounds after

theorem apart_nil_left (after : List Char) : Apart [] after :=
  Or.inl fun c hc => absurd hc (Option.not_mem_none c)

theorem apart_nil_right (before : List Char) : Apart before [] :=
  Or.inr bounds_nil

theorem Apart.of_append (lead : List Char) {before after : List Char}
    (h : Apart (lead ++ before) after) : Apart before after := by
  by_cases hnil : before = []
  · rw [hnil]
    exact apart_nil_left after
  · rw [Apart, List.getLast?_append_of_ne_nil _ hnil] at h
    exact h

/-- A word that ends where the other text starts is not gone on with. -/
theorem Apart.bounds {word after : List Char} (h : Apart word after) (hne : word ≠ [])
    (hword : ∀ c ∈ word, isWordChar c = true) : Bounds after := by
  refine h.resolve_left fun hlast => ?_
  have hend := hlast _ (List.getLast?_eq_some_getLast hne)
  rw [hword _ (List.getLast_mem hne)] at hend
  cases hend

/-- Texts between which no word goes on are read one after the other. -/
theorem wording_append {before after : List Char} (h : Apart before after) :
    wording (before ++ after) = wording before ++ wording after := by
  induction before using word_induction with
  | nil => rfl
  | separator c rest hc ih =>
    have hrest : Apart rest after := h.of_append [c]
    rw [List.cons_append, wording_separator hc, wording_separator hc, ih hrest]
  | operator c rest hseparator hc ih =>
    have hrest : Apart rest after := h.of_append [c]
    rw [List.cons_append, wording_operator hseparator hc, wording_operator hseparator hc, ih hrest,
      List.cons_append]
  | word word rest hne hword hbounds ih =>
    have hnext : Bounds (rest ++ after) := by
      cases rest with
      | nil =>
        rw [List.append_nil] at h
        exact h.bounds hne hword
      | cons c rest => exact hbounds
    rw [List.append_assoc, wording_word hne hword hnext, wording_word hne hword hbounds,
      ih (h.of_append word), List.cons_append]

theorem wording_of_separators {run : List Char} (h : ∀ c ∈ run, isSeparator c = true) :
    wording run = [] := by
  induction run with
  | nil => rfl
  | cons c run ih =>
    rw [List.forall_mem_cons] at h
    rw [wording_separator h.1, ih h.2]

/-- Separators between two texts are not read, if there are some or none are needed. -/
theorem wording_gap {before run after : List Char} (hrun : ∀ c ∈ run, isSeparator c = true)
    (h : run ≠ [] ∨ Apart before after) :
    wording (before ++ run ++ after) = wording before ++ wording after := by
  have hword : ∀ c ∈ run, isWordChar c = false := by
    intro c hc
    rw [isWordChar, hrun c hc]
    rfl
  by_cases hne : run = []
  · rw [hne, List.append_nil]
    exact wording_append (h.resolve_left (absurd hne))
  · have hbehind : Apart run after := Or.inl fun c hc => hword c (List.mem_of_getLast? hc)
    have hbefore : Apart before (run ++ after) := by
      refine Or.inr fun c hc => hword c (List.mem_of_head? ?_)
      rwa [List.head?_append_of_ne_nil _ hne] at hc
    rw [List.append_assoc, wording_append hbefore, wording_append hbehind, wording_of_separators hrun,
      List.nil_append]

/-! ## Texts that differ in their layout -/

/-- The texts differ in one run of separators: another run stands in its place, or none at an end of the text or beside
an operator. -/
inductive Relaid : List Char → List Char → Prop
  | replace {before run other after : List Char} (hrun : ∀ c ∈ run, isSeparator c = true)
    (hother : ∀ c ∈ other, isSeparator c = true) (hne : run ≠ []) (hothers : other ≠ []) :
    Relaid (before ++ run ++ after) (before ++ other ++ after)
  | remove {before run after : List Char} (hrun : ∀ c ∈ run, isSeparator c = true)
    (h : before = [] ∨ after = [] ∨ (∃ c ∈ before.getLast?, isOperator c = true) ∨
      ∃ c ∈ after.head?, isOperator c = true) :
    Relaid (before ++ run ++ after) (before ++ after)

namespace Relaid

variable {text other : List Char}

theorem wording_eq (h : Relaid text other) : wording text = wording other := by
  cases h with
  | replace hrun hother hne hothers =>
    rw [wording_gap hrun (Or.inl hne), wording_gap hother (Or.inl hothers)]
  | @remove before run after hrun h =>
    have hsign {c : Char} (hc : isOperator c = true) : isWordChar c = false := by
      rw [isWordChar, hc]
      exact Bool.and_false _
    have hapart : Apart before after := by
      rcases h with rfl | rfl | ⟨sign, hlast, hc⟩ | ⟨sign, hhead, hc⟩
      · exact apart_nil_left after
      · exact apart_nil_right before
      · refine Or.inl fun c hmem => ?_
        obtain rfl := Option.mem_unique hlast hmem
        exact hsign hc
      · refine Or.inr fun c hmem => ?_
        obtain rfl := Option.mem_unique hhead hmem
        exact hsign hc
    rw [wording_gap hrun (Or.inr hapart), wording_append hapart]

theorem allBlank_eq (h : Relaid text other) : Text.allBlank text = Text.allBlank other := by
  have hblank {run : List Char} (hrun : ∀ c ∈ run, isSeparator c = true) :
      run.all Text.isBlank = true := by
    rw [List.all_eq_true]
    intro c hc
    have hseparator := hrun c hc
    simp only [isSeparator, Bool.or_eq_true, decide_eq_true_eq] at hseparator
    rcases hseparator with ((rfl | rfl) | rfl) | rfl <;> rfl
  cases h with
  | replace hrun hother _ _ =>
    simp only [Text.allBlank, List.all_append, hblank hrun, hblank hother]
  | remove hrun _ =>
    simp only [Text.allBlank, List.all_append, hblank hrun, Bool.and_true]

/-- What is the same for texts that differ in one run is the same however many runs they differ in. -/
theorem eqvGen_congr {α : Type} {f : List Char → α} (hf : ∀ {text other}, Relaid text other → f text = f other)
    (h : Relation.EqvGen Relaid text other) : f text = f other := by
  induction h with
  | rel _ _ h => exact hf h
  | refl _ => rfl
  | symm _ _ _ ih => exact ih.symm
  | trans _ _ _ _ _ ih ih' => exact ih.trans ih'

end Relaid

/-- Texts with the same words and operators have them alike, if their places do not matter. -/
theorem forall₂_alike_of_wording {text other : List Char} (h : wording text = wording other)
    (index twin : Text.LineIndex) :
    List.Forall₂ (Chunk.Alike (fun _ => nowhere) index twin) (chunks 0 text) (chunks 0 other) := by
  have hsame : List.Forall₂ (fun chunk same => chunk.unplaced = same.unplaced) (chunks 0 text)
      (chunks 0 other) := by
    have heq : List.Forall₂ Eq (wording text) (wording other) := by
      rw [h]
      exact List.forall₂_refl _
    exact List.forall₂_map_right_iff.mp (List.forall₂_map_left_iff.mp heq)
  have hboth := (List.forall₂_and_left _ _).mpr ⟨standsIn_of_mem_chunks, hsame⟩
  refine hboth.imp fun chunk same hchunk => ?_
  obtain ⟨hstands, hunplaced⟩ := hchunk
  cases chunk with
  | word start word =>
    cases same with
    | word begin _ =>
      cases hunplaced
      exact .word fun _ _ => rfl
    | operator begin c => cases hunplaced
  | operator start c =>
    cases same with
    | word begin word => cases hunplaced
    | operator begin _ =>
      cases hunplaced
      exact .operator hstands.1 rfl

/-! ## Carriage returns -/

theorem bounds_withReturns {rest : List Char} (h : Bounds rest) : Bounds (Text.withReturns rest) := by
  cases rest with
  | nil => exact h
  | cons c rest =>
    by_cases hc : c = '\n'
    · subst hc
      rintro _ ⟨⟩
      rfl
    · rw [Text.withReturns_cons hc]
      exact h

/-- With carriage returns before its line feeds, a source has its words and operators where it had them, by line and
column. -/
theorem forall₂_alike_withReturns (source : List Char) :
    List.Forall₂ (Chunk.Alike Place.onLine (Text.LineIndex.ofText source)
      (Text.LineIndex.ofText (Text.withReturns source))) (chunks 0 source)
      (chunks 0 (Text.withReturns source)) := by
  -- The text is read from the offset of a part at its end.
  suffices hpart : ∀ rest before, source = before ++ rest →
      List.Forall₂ (Chunk.Alike Place.onLine (Text.LineIndex.ofText source)
        (Text.LineIndex.ofText (Text.withReturns source))) (chunks (Text.byteSize before) rest)
        (chunks (Text.byteSize (Text.withReturns before)) (Text.withReturns rest)) from
    hpart source [] rfl
  have hview {before after : List Char} (htext : source = before ++ after) :
      (placeAt (Text.LineIndex.ofText source) (Text.byteSize before)).onLine =
        (placeAt (Text.LineIndex.ofText (Text.withReturns source))
          (Text.byteSize (Text.withReturns before))).onLine := by
    have hposition := Text.ofOffset_withReturns before after
    rw [← htext] at hposition
    exact congrArg (Place.mk 0) hposition.symm
  intro rest
  induction rest using word_induction with
  | nil => exact fun _ _ => .nil
  | separator c rest hc ih =>
    intro before htext
    have hrest := ih (before ++ [c]) (by rw [htext, List.append_assoc, List.singleton_append])
    rw [Text.byteSize_append, Text.withReturns_append, Text.byteSize_append] at hrest
    rw [chunks_separator hc]
    by_cases hfeed : c = '\n'
    · subst hfeed
      rw [Text.withReturns_lineFeed, chunks_separator rfl, chunks_separator rfl, Nat.add_assoc]
      exact hrest
    · rw [Text.withReturns_cons hfeed] at hrest ⊢
      rw [chunks_separator hc]
      exact hrest
  | operator c rest hseparator hc ih =>
    intro before htext
    have hfeed : c ≠ '\n' := by
      rintro rfl
      cases hseparator
    have hrest := ih (before ++ [c]) (by rw [htext, List.append_assoc, List.singleton_append])
    rw [Text.byteSize_append, Text.withReturns_append, Text.byteSize_append,
      Text.withReturns_cons hfeed] at hrest
    rw [Text.withReturns_cons hfeed, chunks_operator hseparator hc, chunks_operator hseparator hc]
    exact .cons (.operator hc (hview htext)) hrest
  | word word rest hne hword hbounds ih =>
    intro before htext
    have hkept {piece : List Char} (hpiece : piece <+: word) : Text.withReturns piece = piece := by
      refine Text.withReturns_of_not_mem fun hfeed => ?_
      have hchar := hword _ (hpiece.subset hfeed)
      cases hchar
    have hrest := ih (before ++ word) (by rw [htext, List.append_assoc])
    rw [Text.byteSize_append, Text.withReturns_append, Text.byteSize_append,
      hkept List.prefix_rfl] at hrest
    rw [Text.withReturns_append, hkept List.prefix_rfl, chunks_append hne hword hbounds,
      chunks_append hne hword (bounds_withReturns hbounds)]
    refine .cons (.word fun piece hpiece => ?_) hrest
    obtain ⟨more, rfl⟩ := hpiece
    have hplace : source = (before ++ piece) ++ (more ++ rest) := by
      rw [htext, List.append_assoc, List.append_assoc]
    have hlook := hview hplace
    rwa [Text.byteSize_append, Text.withReturns_append, Text.byteSize_append,
      hkept (List.prefix_append piece more)] at hlook

/-! ## Sources -/

end Declarative

namespace Diagram

/-- With carriage returns before its line feeds, a diagram has the same blocks. -/
theorem readBlocks_withReturns {source : List Char} (h : '\r' ∉ source) :
    readBlocks (Text.withReturns source) = readBlocks source := by
  rw [readBlocks, readBlocks, Text.allBlank_withReturns, rows, rows, Text.bareLines_withReturns h]

end Diagram

namespace Declarative

/-- Layout does not matter where it should not.

* Declarative sources that differ only in runs of separators have the same tree, or the same fault at other places.
* With carriage returns before its line feeds, a source has the same trees or the same fault as a diagram; as a
  declarative source it has the same tree, or the same fault at the same line and column. -/
theorem parse_relaid :
    (∀ source other : String, Relation.EqvGen Relaid source.toList other.toList →
      (parse source).mapError (SourceError.mapPlace fun _ => nowhere) =
        (parse other).mapError (SourceError.mapPlace fun _ => nowhere)) ∧
    ∀ source : String, '\r' ∉ source.toList →
      let returned := String.ofList (Text.withReturns source.toList)
      Diagram.parse returned = Diagram.parse source ∧
        Diagram.parseAll returned = Diagram.parseAll source ∧
        (parse returned).mapError (SourceError.mapPlace Place.onLine) =
          (parse source).mapError (SourceError.mapPlace Place.onLine) := by
  constructor
  · intro source other h
    have hwording : wording source.toList = wording other.toList :=
      Relaid.eqvGen_congr Relaid.wording_eq h
    have hblank : Text.allBlank source.toList = Text.allBlank other.toList :=
      Relaid.eqvGen_congr Relaid.allBlank_eq h
    exact parse_alike hblank (forall₂_alike_of_wording hwording _ _)
  · intro source hreturn returned
    have htext : returned.toList = Text.withReturns source.toList := String.toList_ofList
    have hblocks := Diagram.readBlocks_withReturns hreturn
    rw [← htext] at hblocks
    refine ⟨?_, ?_, ?_⟩
    · rw [Diagram.parse, Diagram.parse, hblocks]
    · rw [Diagram.parseAll, Diagram.parseAll, hblocks]
    · refine (parse_alike ?_ ?_).symm
      · rw [htext, Text.allBlank_withReturns]
      · rw [htext]
        exact forall₂_alike_withReturns source.toList

/-- A line break for the blank before a greater-than sign and no blank behind it make no other tree, and the second of
two roots is on the second line whether a carriage return ends the first or not. -/
theorem parse_relaid_two :
    Relation.EqvGen Relaid "a > b".toList "a\n>b".toList ∧ '\r' ∉ "a\nb".toList ∧
      (parse "a\n>b").mapError (SourceError.mapPlace fun _ => nowhere) =
        .ok (.directory "a" [.file "b"]) ∧
      Diagram.parseAll "a\r\nb" = .ok [.file "a", .file "b"] ∧
      (parse "a\r\nb").mapError (SourceError.mapPlace Place.onLine) =
        .error (.parse (.secondRoot "b" ⟨0, ⟨1, 0⟩⟩)) := by
  have hseparator {c : Char} (hc : isSeparator c = true) : ∀ d ∈ [c], isSeparator d = true :=
    List.forall_mem_singleton.mpr hc
  have hbreak : Relaid ("a".toList ++ [' '] ++ "> b".toList) ("a".toList ++ ['\n'] ++ "> b".toList) :=
    .replace (hseparator rfl) (hseparator rfl) (List.cons_ne_nil _ _) (List.cons_ne_nil _ _)
  have hblank : Relaid ("a\n>".toList ++ [' '] ++ "b".toList) ("a\n>".toList ++ "b".toList) :=
    .remove (hseparator rfl) (Or.inr (Or.inr (Or.inl ⟨'>', rfl, rfl⟩)))
  have hlayout : Relation.EqvGen Relaid "a > b".toList "a\n>b".toList :=
    .trans _ _ _ (.rel _ _ hbreak) (.rel _ _ hblank)
  have hreturn : '\r' ∉ "a\nb".toList := by decide +kernel
  have hreturned : String.ofList (Text.withReturns "a\nb".toList) = "a\r\nb" := by decide +kernel
  obtain ⟨-, hforest, hfault⟩ := parse_relaid.2 _ hreturn
  rw [hreturned] at hforest hfault
  refine ⟨hlayout, hreturn, ?_, ?_, ?_⟩
  · rw [← parse_relaid.1 _ _ hlayout]
    decide +kernel
  · rw [hforest]
    decide +kernel
  · rw [hfault]
    decide +kernel

end Declarative

end TreeSketch
