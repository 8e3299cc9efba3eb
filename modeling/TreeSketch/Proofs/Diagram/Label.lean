import TreeSketch.Diagram.Lexer
import TreeSketch.Diagram.Render
import TreeSketch.Proofs.Diagram.Row
import TreeSketch.Proofs.Text.Lines
import TreeSketch.Tree.Outline

/-!
# Labels that read back

A diagram shows an entry by its label: the name, and a slash behind the name of a directory. Two conditions
decide whether the label is read back as the entry.

* `Node.Legible`: behind a margin, the label is the whole content of its line, and the name comes out of it.
  Every name that was read from a diagram is legible (`legible_of_ofLine`).
* `Node.StandsBare`: without a margin, the label is not taken for a margin of its own, a report or a
  decoration.

A name that `Diagram.readsAsName` accepts has both (`legible_of_readsAsName`, `standsBare_of_readsAsName`),
for the file and for the directory of that name.
-/

namespace TreeSketch

open Diagram

/-- The tokens of a text of one line. -/
theorem Diagram.tokenize_of_not_mem {line : List Char} (hfeed : '\n' ∉ line) (hreturn : '\r' ∉ line)
    (hne : line ≠ []) :
    tokenize line = (Row.ofLine line).tokens 0 (Text.byteSize line) ++
      [Token.mark .endOfInput (Text.byteSize line)] := by
  have hdrop : Text.dropReturn line = line :=
    Text.dropReturn_eq_self fun hlast => hreturn (List.mem_of_getLast? hlast)
  rw [tokenize, Text.rawLines_of_not_mem hfeed hne, tokensFrom, tokensFrom, hdrop, List.append_nil]

namespace Node

/-- The slashes that a diagram puts behind the name. -/
def slashes (node : Node) : Nat :=
  if node.isDirectory then 1 else 0

theorem toList_diagramLabel (node : Node) :
    node.diagramLabel.toList = node.name.toList ++ List.replicate node.slashes '/' := by
  cases node with
  | file name => simp [diagramLabel, Node.name, slashes, isDirectory, kind]
  | directory name children => simp [diagramLabel, Node.name, slashes, isDirectory, kind]

/-- A file is shown by its name. -/
theorem toList_diagramLabel_of_isFile {node : Node} (h : node.isFile = true) :
    node.diagramLabel.toList = node.name.toList := by
  cases node with
  | file name => rfl
  | directory name children => cases h

/-- A directory is shown by its name and a slash. -/
theorem toList_diagramLabel_of_not_isFile {node : Node} (h : node.isFile = false) :
    node.diagramLabel.toList = node.name.toList ++ ['/'] := by
  cases node with
  | file name => cases h
  | directory name children => exact String.toList_append

/-- A slash marks a directory. -/
theorem decide_slashes_ne (node : Node) : decide (node.slashes ≠ 0) = node.isDirectory := by
  rw [slashes]
  cases node.isDirectory <;> rfl

/-- What a diagram says about an entry of a tree. -/
def sketchLabel (node : Node) : Label :=
  ⟨node.name, if node.isDirectory then some ⟨.directory, .marker⟩ else none⟩

theorem close_sketchLabel (node : Node) : node.sketchLabel.close node.children = node := by
  cases node with
  | file name =>
    have hkind : ((Node.file name).sketchLabel.verdict []).kind = .file :=
      Verdict.infer_kind name false
    rw [Node.children, Label.close, hkind]
    rfl
  | directory name children => rfl

/-- Behind a margin, the label of the entry is read as the entry. -/
structure Legible (node : Node) : Prop where
  unbroken : '\n' ∉ node.diagramLabel.toList
  flush : Margin.Flush node.diagramLabel.toList
  content_eq : Row.content node.diagramLabel.toList = node.diagramLabel.toList
  name_eq : Text.dropEndWhile (· = '/') node.diagramLabel.toList = node.name.toList
  name_ne : node.name.toList ≠ []

/-- Without a margin, the label of the entry has none, and is neither a report nor a decoration. -/
structure StandsBare (node : Node) : Prop where
  restOf_eq : Margin.restOf node.diagramLabel.toList = node.diagramLabel.toList
  isReport_eq : Row.isReport node.diagramLabel.toList = false
  isDecoration_eq : Row.isDecoration node.diagramLabel.toList = false

namespace Legible

variable {node : Node}

theorem label_ne (h : node.Legible) : node.diagramLabel.toList ≠ [] := by
  rw [toList_diagramLabel]
  exact List.append_ne_nil_of_left_ne_nil h.name_ne _

/-- The label does not end in a blank, so a carriage return does not end it either. -/
theorem getLast?_ne_return (h : node.Legible) : node.diagramLabel.toList.getLast? ≠ some '\r' := by
  intro hlast
  rw [← h.content_eq] at hlast
  have hblank := Row.not_isBlank_of_getLast?_content hlast
  rw [show Text.isBlank '\r' = true from rfl] at hblank
  exact Bool.noConfusion hblank

theorem length_label_sub (node : Node) :
    node.diagramLabel.toList.length - node.name.toList.length = node.slashes := by
  rw [toList_diagramLabel, List.length_append, List.length_replicate, Nat.add_sub_cancel_left]

/-- Where a margin ends before the label, and the line stands for nothing else, the line holds the entry. -/
theorem ofLine_append (h : node.Legible) (margin : List Char)
    (hrest : Margin.restOf (margin ++ node.diagramLabel.toList) = node.diagramLabel.toList)
    (hreport : Row.isReport (margin ++ node.diagramLabel.toList) = false)
    (hdecoration : Row.isDecoration (margin ++ node.diagramLabel.toList) = false) :
    Row.ofLine (margin ++ node.diagramLabel.toList) =
      .entry margin node.name.toList node.slashes := by
  rw [Row.ofLine_append hrest hreport hdecoration h.content_eq h.label_ne h.name_eq,
    length_label_sub]

/-- A label that stands bare is a line that holds the entry. -/
theorem ofLine_label (h : node.Legible) (hbare : node.StandsBare) :
    Row.ofLine node.diagramLabel.toList = .entry [] node.name.toList node.slashes := by
  have hline := h.ofLine_append []
  rw [List.nil_append] at hline
  exact hline hbare.restOf_eq hbare.isReport_eq hbare.isDecoration_eq

/-- The name does not end in a slash. -/
theorem getLast?_name_ne_slash (h : node.Legible) : node.name.toList.getLast? ≠ some '/' := by
  intro hlast
  rw [← h.name_eq] at hlast
  cases Text.not_of_getLast?_dropEndWhile hlast

/-- A label stands bare if its name is read from it, with whatever margin. -/
theorem standsBare_of_ofLine (h : node.Legible) {margin : List Char} {slashes : Nat}
    (hline : Row.ofLine node.diagramLabel.toList = .entry margin node.name.toList slashes) :
    node.StandsBare := by
  obtain ⟨-, hdrop, -, hreport, hdecoration⟩ := Row.ofLine_eq_entry hline h.name_ne
  refine ⟨?_, hreport, hdecoration⟩
  have hsuffix := Margin.restOf_isSuffix node.diagramLabel.toList
  generalize Margin.restOf node.diagramLabel.toList = rest at *
  have hstart : node.name.toList <+: rest := by
    refine List.IsPrefix.trans ?_ (Row.content_isPrefix rest)
    rw [← hdrop]
    exact Text.dropEndWhile_isPrefix _ _
  cases hkind : node.isFile with
  | true =>
    rw [toList_diagramLabel_of_isFile hkind] at hsuffix ⊢
    exact hsuffix.eq_of_length_le hstart.length_le
  | false =>
    rw [toList_diagramLabel_of_not_isFile hkind] at hsuffix ⊢
    refine hsuffix.eq_of_length_le ?_
    rw [List.length_append, List.length_singleton]
    by_contra hshort
    -- Without the first character, the rest would be the name, and the name would end in the slash.
    have hname : node.name.toList = rest := hstart.eq_of_length_le (by omega)
    obtain ⟨before, hbefore⟩ := hsuffix
    refine h.getLast?_name_ne_slash ?_
    rw [← List.getLast?_append_of_ne_nil before h.name_ne, hname, hbefore, List.getLast?_concat]

end Legible

/-! ## Names that come from a line -/

/-- An entry is legible under a name that was read from a line, as a directory, or as a file if the line
shows no slash. -/
theorem legible_of_ofLine {line margin name : List Char} {slashes : Nat} {node : Node}
    (hline : '\n' ∉ line) (h : Row.ofLine line = .entry margin name slashes) (hname : name ≠ [])
    (hnode : node.name.toList = name) (hfile : node.isFile = true → slashes = 0) :
    node.Legible := by
  obtain ⟨-, hdrop, hslashes, -, -⟩ := Row.ofLine_eq_entry h hname
  have hflush := Margin.flush_restOf line
  have hsuffix := Margin.restOf_isSuffix line
  generalize Margin.restOf line = rest at *
  subst hnode
  have hstart : node.name.toList <+: Row.content rest := by
    rw [← hdrop]
    exact Text.dropEndWhile_isPrefix _ _
  have hrest := Row.content_isPrefix rest
  have hfirst : Margin.Flush node.name.toList := by
    obtain ⟨more, hmore⟩ := hstart.trans hrest
    intro c hc
    refine hflush c ?_
    rw [← hmore, Option.mem_def, List.head?_append, Option.mem_def.mp hc, Option.some_or]
  have hbreak : '\n' ∉ node.name.toList := fun hmem =>
    hline (hsuffix.subset (hrest.subset (hstart.subset hmem)))
  have hend : Text.dropEndWhile (· = '/') node.name.toList = node.name.toList := by
    refine Text.dropEndWhile_eq_self fun c hc => ?_
    rw [← hdrop] at hc
    exact Text.not_of_getLast?_dropEndWhile hc
  cases hkind : node.isFile with
  | true =>
    -- Without slashes, the name is the whole content.
    have hwhole : Row.content rest = node.name.toList := by
      refine (hstart.eq_of_length_le ?_).symm
      have hzero := hfile hkind
      omega
    have hlabel := toList_diagramLabel_of_isFile hkind
    refine ⟨?_, ?_, ?_, ?_, hname⟩ <;> rw [hlabel]
    · exact hbreak
    · exact hfirst
    · rw [← hwhole, Row.content_content]
    · exact hend
  | false =>
    have hlabel := toList_diagramLabel_of_not_isFile hkind
    refine ⟨?_, ?_, ?_, ?_, hname⟩ <;> rw [hlabel]
    · simpa using hbreak
    · intro c hc
      rw [Option.mem_def, List.head?_append_of_ne_nil _ hname] at hc
      exact hfirst c hc
    · exact Row.content_name_concat_slash hdrop hname
    · rw [Text.dropEndWhile_concat (by decide), hend]

/-! ## Names that come back -/

/-- A line of two tokens, a name and the end of the line, holds nothing else. -/
theorem eq_entry_of_kinds {row : Row} {start width : Nat}
    (h : (row.tokens start width).map (·.kind) = [.name, .newline]) :
    ∃ name, name ≠ [] ∧ row = .entry [] name 0 := by
  cases row with
  | blank => simp [Row.tokens] at h
  | entry margin name slashes =>
    by_cases hmargin : margin = []
    · by_cases hname : name = []
      · simp [Row.tokens, Token.mark, hmargin, hname] at h
      · by_cases hslashes : slashes = 0
        · exact ⟨name, hname, by rw [hmargin, hslashes]⟩
        · simp [Row.tokens, Token.ofText, Token.mark, hmargin, hname, hslashes] at h
    · simp [Row.tokens, Token.ofText, hmargin] at h

/-- A name that comes back stands alone on a line without a margin. -/
theorem ofLine_of_readsAsName {name : List Char} (h : readsAsName name = true) :
    '\n' ∉ name ∧ name ≠ [] ∧ Row.ofLine name = .entry [] name 0 := by
  simp only [readsAsName, Bool.and_eq_true, Bool.not_eq_true'] at h
  obtain ⟨⟨⟨hfeed, hreturn⟩, hbare⟩, -⟩ := h
  have hfeed : '\n' ∉ name := by simpa using hfeed
  have hreturn : '\r' ∉ name := by simpa using hreturn
  have hne : name ≠ [] := by
    rintro rfl
    cases hbare
  rw [readsAs, Bool.and_eq_true, decide_eq_true_eq, tokenize_of_not_mem hfeed hreturn hne,
    List.map_append] at hbare
  obtain ⟨hkinds, hread⟩ := hbare
  have hkinds : _ ++ [TokenKind.endOfInput] = [.name, .newline] ++ [.endOfInput] := hkinds
  obtain ⟨read, hread_ne, hrow⟩ := eq_entry_of_kinds (List.append_cancel_right hkinds)
  -- The only name among the tokens is the one asked for.
  have hsame : String.ofList read = String.ofList name := by
    simpa [hrow, Row.tokens, hread_ne, Token.ofText, Token.mark, Token.isName] using hread
  refine ⟨hfeed, hne, ?_⟩
  rw [hrow, String.ofList_injective hsame]

theorem legible_of_readsAsName {node : Node} (h : readsAsName node.name.toList = true) :
    node.Legible := by
  obtain ⟨hfeed, hne, hline⟩ := ofLine_of_readsAsName h
  exact legible_of_ofLine hfeed hline hne rfl fun _ => rfl

theorem standsBare_of_readsAsName {node : Node} (h : readsAsName node.name.toList = true) :
    node.StandsBare := by
  obtain ⟨-, hne, hline⟩ := ofLine_of_readsAsName h
  obtain ⟨hmargin, -, -, hreport, hdecoration⟩ := Row.ofLine_eq_entry hline hne
  have hrest : Margin.restOf node.name.toList = node.name.toList := by
    have hwhole := Margin.ofLine_append_restOf node.name.toList
    rwa [← hmargin, List.nil_append] at hwhole
  cases hkind : node.isFile with
  | true =>
    have hlabel := toList_diagramLabel_of_isFile hkind
    refine ⟨?_, ?_, ?_⟩ <;> rw [hlabel]
    · exact hrest
    · exact hreport
    · exact hdecoration
  | false =>
    -- No report and no decoration holds a slash.
    have hlabel := toList_diagramLabel_of_not_isFile hkind
    refine ⟨?_, ?_, ?_⟩ <;> rw [hlabel]
    · exact Margin.restOf_concat_slash hrest
    · exact Row.isReport_eq_false (List.mem_append_right _ (List.mem_singleton_self '/')) (by decide)
    · simp [Row.isDecoration, isColumn, Margin.isBlank_slash]

end Node

end TreeSketch
