import TreeSketch.Proofs.Diagram.Reading

/-!
# Names from a diagram

A name that is read from a diagram is never empty, ends in no slash and holds no line feed. It starts with no
blank and ends in none either, but for two kinds of lines (`names_readFrom`), and on these it does
(`not_forall_isClean`).

* Padding is what `isPadding` says, and less than what is blank. So a wider blank behind a connector is the start of
  the name; behind a bullet, and where there is no connector, every blank is dropped.
* The slashes are dropped from a content that has been trimmed. So a blank before them is the end of the name.
-/

namespace TreeSketch

namespace Text

/-- The text starts with a blank. -/
def startsBlank (cs : List Char) : Bool :=
  cs.head?.any isBlank

/-- The text ends in a blank. -/
def endsBlank (cs : List Char) : Bool :=
  cs.getLast?.any isBlank

theorem startsBlank_dropWhile (cs : List Char) : startsBlank (cs.dropWhile isBlank) = false := by
  have hhead := List.head?_dropWhile_not isBlank cs
  rw [startsBlank]
  cases hfirst : (cs.dropWhile isBlank).head? with
  | none => rfl
  | some c =>
    rw [hfirst] at hhead
    exact hhead

/-- A text starts like any part at its start. -/
theorem startsBlank_eq_of_isPrefix {piece cs : List Char} (h : piece <+: cs) (hne : piece ≠ []) :
    startsBlank piece = startsBlank cs := by
  obtain ⟨more, rfl⟩ := h
  rw [startsBlank, startsBlank, List.head?_append_of_ne_nil _ hne]

theorem endsBlank_concat (cs : List Char) (c : Char) : endsBlank (cs ++ [c]) = isBlank c := by
  rw [endsBlank, List.getLast?_concat, Option.any_some]

end Text

namespace Diagram

/-- A name as one would write it: it is not empty, has no blanks around it and no slash behind it, and stands on
one line. -/
structure IsClean (name : List Char) : Prop where
  ne_nil : name ≠ []
  starts : Text.startsBlank name = false
  ends : Text.endsBlank name = false
  unmarked : name.getLast? ≠ some '/'
  unbroken : '\n' ∉ name

/-! ## Lines with blanks around the name -/

/-- Behind the connector of the line and its padding stands another blank. -/
def BlankAhead (line : List Char) : Prop :=
  ∃ columns rest, Margin.splitConnector? line = some (columns, rest) ∧ Text.startsBlank rest = true

/-- The content of the line has a blank before the slashes at its end. -/
def BlankBehind (line : List Char) : Prop :=
  ∃ text blank slashes, Row.content (Margin.restOf line) =
    text ++ [blank] ++ List.replicate (slashes + 1) '/' ∧ Text.isBlank blank = true

/-- All blanks behind a bullet belong to the margin. -/
theorem startsBlank_of_splitBullet? {cs lead rest : List Char}
    (h : Margin.splitBullet? cs = some (lead, rest)) : Text.startsBlank rest = false := by
  rw [Margin.splitBullet?] at h
  split at h
  · split at h
    · cases h
      exact Text.startsBlank_dropWhile _
    · cases h
  · cases h

theorem startsBlank_restOf_iff (line : List Char) :
    Text.startsBlank (Margin.restOf line) = true ↔ BlankAhead line := by
  rw [Margin.restOf]
  cases hconnector : Margin.splitConnector? line with
  | some split =>
    obtain ⟨columns, rest⟩ := split
    constructor
    · exact fun hblank => ⟨columns, rest, hconnector, hblank⟩
    · rintro ⟨_, _, hsplit, hblank⟩
      rw [hconnector] at hsplit
      cases hsplit
      exact hblank
  | none =>
    have hahead : ¬ BlankAhead line := by
      rintro ⟨_, _, hsplit, -⟩
      rw [hconnector] at hsplit
      cases hsplit
    refine iff_of_false (Bool.not_eq_true _ ▸ ?_) hahead
    cases hbullet : Margin.splitBullet? line with
    | some split => exact startsBlank_of_splitBullet? hbullet
    | none => exact Text.startsBlank_dropWhile line

section Entries

variable {line margin name : List Char} {slashes : Nat}

/-- The content of a line is the name and its slashes. -/
theorem content_eq_of_ofLine (h : Row.ofLine line = .entry margin name slashes) (hname : name ≠ []) :
    Row.content (Margin.restOf line) = name ++ List.replicate slashes '/' := by
  obtain ⟨-, hdrop, hslashes, -, -⟩ := Row.ofLine_eq_entry h hname
  have hsplit := Text.dropEndWhile_append_replicate '/' (Row.content (Margin.restOf line))
  rw [hdrop, ← hslashes] at hsplit
  exact hsplit.symm

/-- A name starts with a blank if padding does not reach up to it. -/
theorem startsBlank_name_iff (h : Row.ofLine line = .entry margin name slashes) (hname : name ≠ []) :
    Text.startsBlank name = true ↔ BlankAhead line := by
  have hcontent := content_eq_of_ofLine h hname
  have hstart : name <+: Margin.restOf line := by
    refine List.IsPrefix.trans ?_ (Row.content_isPrefix (Margin.restOf line))
    exact ⟨_, hcontent.symm⟩
  rw [Text.startsBlank_eq_of_isPrefix hstart hname, startsBlank_restOf_iff]

/-- A name ends in a blank if slashes stand behind it. -/
theorem endsBlank_name_iff (h : Row.ofLine line = .entry margin name slashes) (hname : name ≠ []) :
    Text.endsBlank name = true ↔ BlankBehind line := by
  have hcontent := content_eq_of_ofLine h hname
  constructor
  · intro hblank
    obtain ⟨text, blank, rfl⟩ := List.eq_nil_or_concat' name |>.resolve_left hname
    rw [Text.endsBlank_concat] at hblank
    cases slashes with
    | zero =>
      -- Without slashes the name is the whole content, and that is trimmed.
      have hlast : (Row.content (Margin.restOf line)).getLast? = some blank := by
        rw [hcontent, List.replicate_zero, List.append_nil, List.getLast?_concat]
      rw [Row.not_isBlank_of_getLast?_content hlast] at hblank
      cases hblank
    | succ slashes => exact ⟨text, blank, slashes, hcontent, hblank⟩
  · rintro ⟨text, blank, count, hsplit, hblank⟩
    have hsolid : ∀ c, (text ++ [blank]).getLast? = some c → decide (c = '/') = false := by
      rintro c hc
      rw [List.getLast?_concat, Option.some.injEq] at hc
      refine decide_eq_false ?_
      rintro rfl
      rw [hc] at hblank
      cases hblank
    obtain ⟨-, hdrop, -⟩ := Row.ofLine_eq_entry h hname
    rw [hsplit, Text.dropEndWhile_append_run (by decide), Text.dropEndWhile_eq_self hsolid] at hdrop
    rw [← hdrop, Text.endsBlank_concat]
    exact hblank

end Entries

/-- The name is one that is read from the line: it is not empty, no slash stands behind it and it stands on one
line, and it is clean unless the line has blanks around it. -/
structure ReadFrom (line name : List Char) : Prop where
  ne_nil : name ≠ []
  unmarked : name.getLast? ≠ some '/'
  unbroken : '\n' ∉ name
  isClean_iff : IsClean name ↔ ¬ BlankAhead line ∧ ¬ BlankBehind line

theorem readFrom_of_ofLine {line margin name : List Char} {slashes : Nat} (hline : '\n' ∉ line)
    (h : Row.ofLine line = .entry margin name slashes) (hname : name ≠ []) : ReadFrom line name := by
  have hunmarked : name.getLast? ≠ some '/' := by
    intro hlast
    obtain ⟨-, hdrop, -⟩ := Row.ofLine_eq_entry h hname
    rw [← hdrop] at hlast
    cases Text.not_of_getLast?_dropEndWhile hlast
  have hunbroken : '\n' ∉ name := fun hmem =>
    hline ((Row.isPrefix_of_ofLine h).subset
      (List.mem_append_right _ (List.mem_append_left _ hmem)))
  refine ⟨hname, hunmarked, hunbroken, ?_⟩
  rw [← startsBlank_name_iff h hname, ← endsBlank_name_iff h hname, Bool.not_eq_true,
    Bool.not_eq_true]
  exact ⟨fun hclean => ⟨hclean.starts, hclean.ends⟩,
    fun ⟨hstarts, hends⟩ => ⟨hname, hstarts, hends, hunmarked, hunbroken⟩⟩

/-! ## Trees -/

/-- The lines of a source that hold an entry. -/
def entryLines (source : List Char) : List (List Char) :=
  (Text.bareLines source).filter fun line => (Row.ofLine line).hasName

/-- The entries of a diagram and the lines that hold them. -/
theorem forall₂_entryLines {source : List Char} {blocks : List (List Entry)}
    (h : readBlocks source = .ok blocks) :
    List.Forall₂ (fun line entry => ReadFrom line entry.name.toList) (entryLines source)
      blocks.flatten := by
  have hrows : List.Forall₂ (fun entry line => entry.OfRow (Row.ofLine line)) blocks.flatten
      (entryLines source) := by
    have hrows := forall₂_readBlocks h
    rw [rows, List.filter_map] at hrows
    exact List.forall₂_map_right_iff.mp hrows
  have hunbroken : ∀ line ∈ entryLines source, '\n' ∉ line := fun line hline =>
    Text.lineFeed_not_mem_bareLines (List.mem_of_mem_filter hline)
  have hpairs := (List.forall₂_and_left _ _).mpr ⟨hunbroken, hrows.flip⟩
  refine hpairs.imp fun line entry hpair => ?_
  obtain ⟨hline, hname, slashes, hrow, -⟩ := hpair
  exact readFrom_of_ofLine hline hrow hname

/-- Where entries are closed, their names stay the same. -/
theorem forall₂_readFrom_of_close {lines : List (List Char)} {entries : List Entry}
    {shown : List (Nat × Node)}
    (hlines : List.Forall₂ (fun line entry => ReadFrom line entry.name.toList) lines entries)
    (hshown : List.Forall₂ (fun entry shown => entry.label.close shown.2.children = shown.2) entries
      shown) :
    List.Forall₂ (fun line shown => ReadFrom line shown.2.name.toList) lines shown := by
  induction hlines generalizing shown with
  | nil =>
    cases hshown
    exact List.Forall₂.nil
  | cons hline _ ih =>
    obtain ⟨first, rest, hclose, hrest, rfl⟩ := List.forall₂_cons_left_iff.mp hshown
    refine List.Forall₂.cons ?_ (ih hrest)
    rw [← hclose, Label.name_close]
    exact hline

/-- The names of all trees of a diagram are read from its lines with entries, one by one, and those of its first
tree from the first of these lines. -/
theorem names_readFrom (source : String) :
    (∀ trees, parseAll source = .ok trees →
      List.Forall₂ (fun line shown => ReadFrom line shown.2.name.toList) (entryLines source.toList)
        (trees.flatMap Node.walk)) ∧
      ∀ tree, parse source = .ok tree →
        List.Forall₂ (fun line shown => ReadFrom line shown.2.name.toList)
          ((entryLines source.toList).take tree.size) tree.walk := by
  constructor
  · intro trees h
    rw [parseAll] at h
    obtain ⟨blocks, hblocks, h⟩ := bind_eq_ok_iff.mp h
    obtain ⟨forests, hforests, h⟩ := bind_eq_ok_iff.mp h
    cases h
    exact forall₂_readFrom_of_close (forall₂_entryLines hblocks)
      (Block.forall₂_forests (mapM_eq_ok_iff.mp hforests))
  · intro tree h
    obtain ⟨block, blocks, more, hblocks, htrees⟩ := exists_block_of_parse h
    have hsize : tree.walk.length = tree.size := by
      rw [Node.walk_eq_preorder, Node.length_preorder]
    have hclose := Block.forall₂_trees htrees
    rw [Node.preorderAll, ← Node.walk_eq_preorder] at hclose
    have hlength : tree.size ≤ block.length := by
      rw [hclose.length_eq, List.length_append, hsize]
      exact Nat.le_add_right _ _
    have hlines := List.forall₂_take tree.size (forall₂_entryLines hblocks)
    rw [List.flatten_cons, List.take_append_of_le_length hlength] at hlines
    have hshown := List.forall₂_take tree.size hclose
    rw [List.take_left' hsize] at hshown
    exact forall₂_readFrom_of_close hlines hshown

/-- Below a clean root stand a file whose name starts with a wide blank and a directory whose name ends in a
blank. -/
theorem names_readFrom_three :
    let source := "r\n├── \u2003x\n└── y /\n"
    let tree : Node := .directory "r" [.file "\u2003x", .directory "y " []]
    parse source = .ok tree ∧
      List.Forall₂ (fun line shown => ReadFrom line shown.2.name.toList)
        ["r".toList, "├── \u2003x".toList, "└── y /".toList] tree.walk := by
  intro source tree
  have hparse : parse source = .ok tree := by decide +kernel
  have hlines : (entryLines source.toList).take tree.size =
      ["r".toList, "├── \u2003x".toList, "└── y /".toList] := by decide +kernel
  rw [← hlines]
  exact ⟨hparse, (names_readFrom source).2 tree hparse⟩

/-- Not every name that is read from a diagram is clean: a blank before the slash of a directory, or behind the
padding of a connector, is part of the name. -/
theorem not_forall_isClean :
    (¬ ∀ source tree, parse source = .ok tree → ∀ shown ∈ tree.walk, IsClean shown.2.name.toList) ∧
      parse "x /\n" = .ok (.directory "x " []) ∧ parse "├── \u2003x\n" = .ok (.file "\u2003x") := by
  have hslash : parse "x /\n" = .ok (.directory "x " []) := by decide +kernel
  refine ⟨fun hall => ?_, hslash, by decide +kernel⟩
  have hclean := hall _ _ hslash _ (Node.mem_walk_self _)
  exact absurd hclean.ends (by decide)

end Diagram

end TreeSketch
