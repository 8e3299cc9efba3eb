import TreeSketch.Diagram.Row
import TreeSketch.Proofs.Diagram.Margin
import TreeSketch.Proofs.Text.Trim

/-!
# What stands on a diagram line

Facts about the parts of a line that hold no margin:

* a report line holds only characters of reports (`isReportChar_of_isReport`), so no graphics and no slash;
* what is read as the content of a line, is read as itself when it stands alone, and so is the name in it
  with one slash behind it (`content_content`, `content_name_concat_slash`);
* a line that is no report, no decoration and not blank is an entry (`ofLine_append`).
-/

namespace TreeSketch.Diagram.Row

/-! ## Reports -/

/-- The characters of a report line. -/
def isReportChar (c : Char) : Bool :=
  Text.isBlank c || Text.isDigit c || "directoryiesfiles,".toList.contains c

theorem all_isReportChar_of_allBlank {cs : List Char} (h : Text.allBlank cs = true) :
    cs.all isReportChar = true := by
  rw [Text.allBlank, List.all_eq_true] at h
  rw [List.all_eq_true]
  intro c hc
  rw [isReportChar, h c hc, Bool.true_or, Bool.true_or]

theorem all_isReportChar_of_afterNumber? {cs rest : List Char} (h : afterNumber? cs = some rest)
    (hrest : rest.all isReportChar = true) : cs.all isReportChar = true := by
  simp only [afterNumber?] at h
  split at h
  · obtain rfl : cs.dropWhile Text.isDigit = rest := by simpa using h
    rw [← List.takeWhile_append_dropWhile (p := Text.isDigit) (l := cs), List.all_append, hrest,
      Bool.and_true, List.all_eq_true]
    intro c hc
    rw [isReportChar, List.mem_takeWhile_imp hc, Bool.or_true, Bool.true_or]
  · cases h

theorem all_isReportChar_of_dropLead? {lead cs rest : List Char}
    (hlead : lead.all isReportChar = true) (h : Text.dropLead? lead cs = some rest)
    (hrest : rest.all isReportChar = true) : cs.all isReportChar = true := by
  rw [Text.dropLead?_eq_some_iff.mp h, List.all_append, hlead, hrest, Bool.and_self]

theorem all_isReportChar_of_isFileReport {cs : List Char} (h : isFileReport cs = true) :
    cs.all isReportChar = true := by
  rw [isFileReport, Bool.or_eq_true] at h
  rcases h with hblank | hfiles
  · exact all_isReportChar_of_allBlank hblank
  · split at hfiles
    · cases hfiles
    · rename_i counted hcounted
      obtain ⟨number, hlead, hnumber⟩ := Option.bind_eq_some_iff.mp hcounted
      refine all_isReportChar_of_dropLead? (by decide) hlead
        (all_isReportChar_of_afterNumber? hnumber ?_)
      split at hfiles
      · cases hfiles
      · rename_i rest hfile
        refine all_isReportChar_of_dropLead? (by decide) hfile ?_
        rw [List.all_cons, all_isReportChar_of_allBlank hfiles]
        rfl
      · rename_i rest _ hfile
        exact all_isReportChar_of_dropLead? (by decide) hfile (all_isReportChar_of_allBlank hfiles)

/-- A count of directories is followed by the end of their word and a count of files. -/
theorem all_isReportChar_of_counted {cs tail rest : List Char} (htail : tail.all isReportChar = true)
    (hcounted : (afterNumber? cs).bind (Text.dropLead? " director".toList) = some (tail ++ rest))
    (hfiles : isFileReport rest = true) : cs.all isReportChar = true := by
  obtain ⟨number, hnumber, hlead⟩ := Option.bind_eq_some_iff.mp hcounted
  refine all_isReportChar_of_afterNumber? hnumber
    (all_isReportChar_of_dropLead? (by decide) hlead ?_)
  rw [List.all_append, htail, all_isReportChar_of_isFileReport hfiles, Bool.and_self]

/-- A report holds only characters of reports. -/
theorem isReportChar_of_isReport {line : List Char} (h : isReport line = true) :
    ∀ c ∈ line, isReportChar c = true := by
  suffices hall : line.all isReportChar = true from List.all_eq_true.mp hall
  have htrim : (Text.trimStart line).all isReportChar = true := by
    unfold isReport at h
    split at h
    · rename_i rest hcounted
      have hsingular : ['y'].all isReportChar = true := by decide
      exact all_isReportChar_of_counted hsingular hcounted h
    · rename_i rest hcounted
      have hplural : ['i', 'e', 's'].all isReportChar = true := by decide
      exact all_isReportChar_of_counted hplural hcounted h
    · cases h
  rw [← List.takeWhile_append_dropWhile (p := Text.isBlank) (l := line), List.all_append,
    Bool.and_eq_true]
  refine ⟨?_, htrim⟩
  rw [List.all_eq_true]
  intro c hc
  rw [isReportChar, List.mem_takeWhile_imp hc, Bool.true_or, Bool.true_or]

/-- A line with a character that no report holds is no report. -/
theorem isReport_eq_false {line : List Char} {c : Char} (hmem : c ∈ line)
    (hc : isReportChar c = false) : isReport line = false := by
  by_contra hreport
  have hchar := isReportChar_of_isReport (by simpa using hreport) c hmem
  rw [hc] at hchar
  cases hchar

/-! ## Comments -/

/-- A comment is cut off at the end. -/
theorem cutComment_isPrefix (cs : List Char) : cutComment cs <+: cs := by
  induction cs with
  | nil => exact List.prefix_rfl
  | cons c cs ih =>
    rw [cutComment]
    split
    · exact List.nil_prefix
    · exact (List.prefix_cons_inj c).mpr ih

/-- The first character behind blanks stays the same when more text follows. -/
theorem head?_trimStart_append {cs : List Char} {c : Char} (more : List Char)
    (h : (Text.trimStart cs).head? = some c) : (Text.trimStart (cs ++ more)).head? = some c := by
  rw [Text.trimStart] at h ⊢
  rw [List.dropWhile_append]
  split
  · rename_i hempty
    rw [List.isEmpty_iff.mp hempty] at h
    cases h
  · rw [List.head?_append, h, Option.some_or]

/-- A text that a comment has been cut off holds no further comment, nor does the start of one. -/
theorem cutComment_of_isPrefix {cs piece : List Char} (h : piece <+: cutComment cs) :
    cutComment piece = piece := by
  induction cs generalizing piece with
  | nil =>
    obtain rfl : piece = [] := List.prefix_nil.mp h
    rfl
  | cons c cs ih =>
    rw [cutComment] at h
    split at h
    · obtain rfl : piece = [] := List.prefix_nil.mp h
      rfl
    · rename_i hcut
      cases piece with
      | nil => rfl
      | cons d piece =>
        obtain ⟨rfl, hpiece⟩ := List.cons_prefix_cons.mp h
        obtain ⟨more, hmore⟩ := hpiece.trans (cutComment_isPrefix cs)
        rw [cutComment, if_neg, ih hpiece]
        intro hcomment
        rw [Bool.and_eq_true, decide_eq_true_eq] at hcomment hcut
        refine hcut ⟨hcomment.1, ?_⟩
        rw [← hmore, ← List.cons_append]
        exact head?_trimStart_append more hcomment.2

/-- A slash behind a text begins no comment. -/
theorem cutComment_concat_slash {cs : List Char} (h : cutComment cs = cs) :
    cutComment (cs ++ ['/']) = cs ++ ['/'] := by
  induction cs with
  | nil => rfl
  | cons c cs ih =>
    rw [cutComment] at h
    split at h
    · cases h
    · rename_i hcut
      rw [List.cons_append, cutComment, if_neg, ih (List.cons.inj h).2]
      intro hcomment
      rw [Bool.and_eq_true, decide_eq_true_eq] at hcomment hcut
      refine hcut ⟨hcomment.1, ?_⟩
      have hhead := hcomment.2
      rw [Text.trimStart, ← List.cons_append, List.dropWhile_append] at hhead
      split at hhead
      · rw [List.dropWhile_cons_of_neg (by decide)] at hhead
        cases hhead
      · rename_i hsome
        rw [List.head?_append] at hhead
        cases hdrop : (c :: cs).dropWhile Text.isBlank with
        | nil => simp [hdrop] at hsome
        | cons d ds =>
          rw [hdrop] at hhead
          rw [Text.trimStart, hdrop]
          exact hhead

/-- What follows a comment as a whole is part of it, if it starts with a blank. -/
theorem isComment_append {cs tail : List Char} (h : isComment cs = true)
    (htail : ∀ c ∈ tail.head?, Text.isBlank c = true) : isComment (cs ++ tail) = true := by
  match cs with
  | [] => cases h
  | c :: cs =>
    by_cases hc : c = '#'
    · subst hc
      rw [isComment] at h
      rw [List.cons_append, isComment, List.dropWhile_append]
      cases hdrop : cs.dropWhile (· = '#') with
      | cons d ds =>
        rw [hdrop] at h
        exact h
      | nil =>
        cases tail with
        | nil => rfl
        | cons b bs =>
          have hblank : Text.isBlank b = true := htail b rfl
          have hsharp : decide (b = '#') = false := by
            refine decide_eq_false ?_
            rintro rfl
            cases hblank
          rw [List.dropWhile_cons_of_neg (by simp [hsharp])]
          exact hblank
    · simp [isComment, hc] at h

/-- A name before a slash is only then a comment when it is one before anything else. -/
theorem isComment_append_of_concat_slash {name : List Char} (hname : name ≠ [])
    (h : isComment (name ++ ['/']) = true) (more : List Char) :
    isComment (name ++ more) = true := by
  match name with
  | [] => exact absurd rfl hname
  | c :: cs =>
    by_cases hc : c = '#'
    · subst hc
      rw [List.cons_append, isComment, List.dropWhile_append] at h
      rw [List.cons_append, isComment, List.dropWhile_append]
      cases hdrop : cs.dropWhile (· = '#') with
      | nil =>
        rw [hdrop] at h
        cases h
      | cons d ds =>
        rw [hdrop] at h
        exact h
    · simp [isComment, hc] at h

/-- A text that is no comment does not become one by what follows it. -/
theorem isComment_append_eq_false {cs : List Char} (h : isComment cs = false) (hne : cs ≠ [])
    (tail : List Char) : isComment (cs ++ tail) = false := by
  match cs with
  | [] => exact absurd rfl hne
  | c :: cs =>
    by_cases hc : c = '#'
    · subst hc
      rw [isComment] at h
      rw [List.cons_append, isComment]
      cases hdrop : cs.dropWhile (· = '#') with
      | nil =>
        rw [hdrop] at h
        cases h
      | cons d ds =>
        rw [Margin.dropWhile_append_of_ne_nil (by simp [hdrop]), hdrop]
        rw [hdrop] at h
        exact h
    · simp [isComment, hc]

/-- A comment behind a text is cut off with the blanks before it. -/
theorem trimEnd_cutComment_append (cs text : List Char) :
    Text.trimEnd (cutComment (cs ++ ' ' :: '#' :: text)) = Text.trimEnd (cutComment cs) := by
  induction cs with
  | nil => rfl
  | cons c cs ih =>
    rw [List.cons_append, cutComment, cutComment, ← List.cons_append]
    by_cases hblank : ∀ d ∈ c :: cs, Text.isBlank d = true
    · -- The comment is the first that stands on the line.
      have htrim : Text.trimStart (c :: cs ++ ' ' :: '#' :: text) = '#' :: text := by
        rw [Text.trimStart, List.dropWhile_append_of_pos hblank]
        rfl
      have hnil : Text.trimStart (c :: cs) = [] := by
        rw [Text.trimStart, List.dropWhile_eq_nil_iff]
        exact hblank
      have hcut : Text.trimEnd (c :: cutComment cs) = [] := by
        refine Text.dropEndWhile_eq_nil fun d hd => hblank d ?_
        exact (List.prefix_cons_inj c).mpr (cutComment_isPrefix cs) |>.subset hd
      rw [htrim, hnil, hblank c List.mem_cons_self]
      exact hcut.symm
    · have hne : Text.trimStart (c :: cs) ≠ [] := by
        rw [Text.trimStart, Ne, List.dropWhile_eq_nil_iff]
        exact hblank
      have hhead : (Text.trimStart (c :: cs ++ ' ' :: '#' :: text)).head? =
          (Text.trimStart (c :: cs)).head? := by
        rw [Text.trimStart, Margin.dropWhile_append_of_ne_nil hne]
        exact List.head?_append_of_ne_nil _ hne
      rw [hhead]
      split
      · rfl
      · exact Text.dropEndWhile_cons_congr ih c

/-- What a cut comment starts with is blank. -/
theorem exists_cutComment_append (cs : List Char) :
    ∃ cut, cutComment cs ++ cut = cs ∧ ∀ c ∈ cut.head?, Text.isBlank c = true := by
  induction cs with
  | nil => exact ⟨[], rfl, fun c hc => nomatch hc⟩
  | cons c cs ih =>
    rw [cutComment]
    split
    · rename_i hcut
      rw [Bool.and_eq_true] at hcut
      refine ⟨c :: cs, rfl, fun d hd => ?_⟩
      obtain rfl : c = d := by simpa using hd
      exact hcut.1
    · obtain ⟨cut, hcs, hblank⟩ := ih
      exact ⟨cut, by rw [List.cons_append, hcs], hblank⟩

/-! ## Contents -/

@[simp] theorem content_nil : content [] = [] := rfl

theorem content_of_not_comment {rest : List Char} (h : isComment rest = false) :
    content rest = Text.trimEnd (cutComment rest) := by
  rw [content, if_neg (by simp [h])]

/-- Text with a content is no comment as a whole. -/
theorem isComment_eq_false_of_content {rest : List Char} (h : content rest ≠ []) :
    isComment rest = false := by
  by_contra hcomment
  rw [content, if_pos (by simpa using hcomment)] at h
  exact h rfl

theorem content_isPrefix_cutComment {rest : List Char} (h : isComment rest = false) :
    content rest <+: cutComment rest := by
  rw [content_of_not_comment h]
  exact Text.dropEndWhile_isPrefix _ _

/-- What stands behind the content starts with a blank. -/
theorem exists_content_append {rest : List Char} (h : isComment rest = false) :
    ∃ tail, content rest ++ tail = rest ∧ ∀ c ∈ tail.head?, Text.isBlank c = true := by
  obtain ⟨cut, hcut, hblank⟩ := exists_cutComment_append rest
  have htrimmed : content rest ++ (cutComment rest).rtakeWhile Text.isBlank = cutComment rest := by
    rw [content_of_not_comment h]
    exact List.rdropWhile_append_rtakeWhile
  refine ⟨(cutComment rest).rtakeWhile Text.isBlank ++ cut, ?_, ?_⟩
  · rw [← List.append_assoc, htrimmed, hcut]
  · intro c hc
    cases htrim : (cutComment rest).rtakeWhile Text.isBlank with
    | nil =>
      rw [htrim] at hc
      exact hblank c hc
    | cons d ds =>
      rw [htrim] at hc
      obtain rfl : d = c := by simpa using hc
      exact List.mem_rtakeWhile_imp (by rw [htrim]; exact List.mem_cons_self)

theorem content_isPrefix (rest : List Char) : content rest <+: rest := by
  by_cases hnil : content rest = []
  · rw [hnil]
    exact List.nil_prefix
  · obtain ⟨tail, htail, -⟩ := exists_content_append (isComment_eq_false_of_content hnil)
    exact ⟨tail, htail⟩

/-- The content does not end in a blank. -/
theorem not_isBlank_of_getLast?_content {rest : List Char} {c : Char}
    (h : (content rest).getLast? = some c) : Text.isBlank c = false := by
  have hcomment : isComment rest = false :=
    isComment_eq_false_of_content fun hnil => by simp [hnil] at h
  rw [content_of_not_comment hcomment] at h
  exact Text.not_of_getLast?_dropEndWhile h

/-- Contents are their own contents. -/
theorem content_content (rest : List Char) : content (content rest) = content rest := by
  by_cases hnil : content rest = []
  · rw [hnil, content_nil]
  have hcomment := isComment_eq_false_of_content hnil
  obtain ⟨tail, htail, hblank⟩ := exists_content_append hcomment
  have hown : isComment (content rest) = false := by
    by_contra hown
    have hall := isComment_append (by simpa using hown) hblank
    rw [htail, hcomment] at hall
    cases hall
  have hcut : cutComment (content rest) = content rest :=
    cutComment_of_isPrefix (content_isPrefix_cutComment hcomment)
  rw [content_of_not_comment hown, hcut]
  exact Text.dropEndWhile_eq_self fun c hc => not_isBlank_of_getLast?_content hc

/-- A comment behind a content leaves it as it is. -/
theorem content_append_comment {rest : List Char} (h : content rest ≠ []) (text : List Char) :
    content (rest ++ ' ' :: '#' :: text) = content rest := by
  have hcomment := isComment_eq_false_of_content h
  have hne : rest ≠ [] := by
    rintro rfl
    exact h rfl
  rw [content_of_not_comment (isComment_append_eq_false hcomment hne _),
    content_of_not_comment hcomment, trimEnd_cutComment_append]

/-- The name in a content makes a content with one slash behind it. -/
theorem content_name_concat_slash {rest name : List Char}
    (h : Text.dropEndWhile (· = '/') (content rest) = name) (hname : name ≠ []) :
    content (name ++ ['/']) = name ++ ['/'] := by
  have hstart : name <+: content rest := by
    rw [← h]
    exact Text.dropEndWhile_isPrefix _ _
  have hcomment : isComment rest = false := by
    refine isComment_eq_false_of_content fun hnil => hname ?_
    rwa [hnil, List.prefix_nil] at hstart
  obtain ⟨more, hmore⟩ : name <+: rest := hstart.trans (content_isPrefix rest)
  have hown : isComment (name ++ ['/']) = false := by
    by_contra hown
    have hall := isComment_append_of_concat_slash hname (by simpa using hown) more
    rw [hmore, hcomment] at hall
    cases hall
  have hcut : cutComment name = name :=
    cutComment_of_isPrefix (hstart.trans (content_isPrefix_cutComment hcomment))
  rw [content_of_not_comment hown, cutComment_concat_slash hcut]
  refine Text.dropEndWhile_eq_self fun c hc => ?_
  obtain rfl : '/' = c := by simpa using hc
  exact Margin.isBlank_slash

/-- What is its own content is not blank. -/
theorem exists_not_isBlank {label : List Char} (hcontent : content label = label)
    (hne : label ≠ []) : ∃ c ∈ label, Text.isBlank c = false := by
  have hlast : (content label).getLast? = some (label.getLast hne) := by
    rw [hcontent, List.getLast?_eq_some_getLast hne]
  exact ⟨label.getLast hne, List.getLast_mem hne, not_isBlank_of_getLast?_content hlast⟩

/-! ## Entries -/

/-- A line with a character that neither a report nor a column holds is a margin and what follows it. -/
theorem ofLine_of_mem {line : List Char} {c : Char} (hmem : c ∈ line)
    (hreport : isReportChar c = false) (hcolumn : isColumn c = false) :
    ofLine line = .entry (Margin.ofLine line)
      (Text.dropEndWhile (· = '/') (content (Margin.restOf line)))
      ((content (Margin.restOf line)).length -
        (Text.dropEndWhile (· = '/') (content (Margin.restOf line))).length) := by
  have hsolid : Text.isBlank c = false := by
    rw [isColumn, Bool.or_eq_false_iff] at hcolumn
    exact hcolumn.2
  have hblank : Text.allBlank line = false := List.all_eq_false.mpr ⟨c, hmem, by simp [hsolid]⟩
  have hdecoration : isDecoration line = false := by
    rw [isDecoration, Bool.and_eq_false_iff]
    exact Or.inr (List.all_eq_false.mpr ⟨c, hmem, by simp [hcolumn]⟩)
  rw [ofLine, hblank, isReport_eq_false hmem hreport, hdecoration]
  rfl

/-- A line is read as an entry, when its parts are told apart and nothing in it stands for something else. -/
theorem ofLine_append {margin label name : List Char}
    (hrest : Margin.restOf (margin ++ label) = label)
    (hreport : isReport (margin ++ label) = false)
    (hdecoration : isDecoration (margin ++ label) = false)
    (hcontent : content label = label) (hne : label ≠ [])
    (hname : Text.dropEndWhile (· = '/') label = name) :
    ofLine (margin ++ label) = .entry margin name (label.length - name.length) := by
  have hblank : Text.allBlank (margin ++ label) = false := by
    obtain ⟨c, hc, hsolid⟩ := exists_not_isBlank hcontent hne
    rw [Text.allBlank, List.all_append, Bool.and_eq_false_iff]
    exact Or.inr (List.all_eq_false.mpr ⟨c, hc, by simp [hsolid]⟩)
  rw [ofLine, hblank, hreport, hdecoration]
  simp only [Bool.or_self, Bool.false_eq_true, if_false, hrest, hcontent, hname,
    Margin.ofLine_append hrest]

/-- Where a line holds an entry, its margin and its name are the parts that the line falls into, and the
line is neither a report nor a decoration. -/
theorem ofLine_eq_entry {line margin name : List Char} {slashes : Nat}
    (h : ofLine line = .entry margin name slashes) (hname : name ≠ []) :
    margin = Margin.ofLine line ∧
      Text.dropEndWhile (· = '/') (content (Margin.restOf line)) = name ∧
      slashes = (content (Margin.restOf line)).length - name.length ∧
      isReport line = false ∧ isDecoration line = false := by
  rw [ofLine] at h
  split at h
  · cases h
  · rename_i hseparator
    rw [Bool.or_eq_true, not_or, Bool.not_eq_true, Bool.not_eq_true] at hseparator
    split at h
    · cases h
      exact absurd rfl hname
    · rename_i hdecoration
      rw [Bool.not_eq_true] at hdecoration
      cases h
      exact ⟨rfl, rfl, rfl, hseparator.2, hdecoration⟩

/-- The margin, the name and its slashes stand at the start of their line. -/
theorem isPrefix_of_ofLine {line margin name : List Char} {slashes : Nat}
    (h : ofLine line = .entry margin name slashes) :
    margin ++ (name ++ List.replicate slashes '/') <+: line := by
  rw [ofLine] at h
  split at h
  · cases h
  · split at h
    · cases h
      exact ⟨[], by simp⟩
    · cases h
      rw [Text.dropEndWhile_append_replicate]
      conv_rhs => rw [← Margin.ofLine_append_restOf line]
      exact List.prefix_append_right_inj _ |>.mpr (content_isPrefix (Margin.restOf line))

end TreeSketch.Diagram.Row
