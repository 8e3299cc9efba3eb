import TreeSketch.Proofs.Checked.Position
import TreeSketch.Proofs.Declarative.Words

/-!
# The scan of a declarative source

A scan by longest match: of the kinds of pieces that fit at an offset, the one that takes the most
characters is the next piece. Parentheses are pieces of their own, and `d(` and `f(` are one piece where a
word or a part of it starts with them, so that a hint is known by its first piece.

`Begins` says which piece a text starts with, and `scan_of_begins` that the scan finds it. Every character
starts some piece (`exists_begins`). What `splitClose` and `strayClose` find by counting parentheses is
found piece by piece (`matchingClose_scan`, `checkBalanced_scan`), since a piece changes the count by one
at most.
-/

namespace TreeSketch.Declarative.Checked

open TreeSketch.Checked (refuse minus place place_ofText minus_of_le)

/-- The kinds of pieces. -/
inductive Raw where
  | descend
  | ascend
  | separators
  | openDirectory
  | openFile
  | openParenthesis
  | closeParenthesis
  | plain
deriving Repr, DecidableEq

/-- The characters of plain pieces. -/
def isPlain (c : Char) : Bool :=
  isWordChar c && c ≠ '(' && c ≠ ')'

namespace Raw

/-- All the kinds. -/
def all : List Raw :=
  [descend, ascend, separators, openDirectory, openFile, openParenthesis, closeParenthesis, plain]

/-- The number of characters that a piece of the kind takes at the start of a text, if it fits there. -/
def extent (text : List Char) : Raw → Nat
  | descend => if text.take 1 = ['>'] then 1 else 0
  | ascend => if text.take 1 = ['|'] then 1 else 0
  | separators => (text.takeWhile isSeparator).length
  | openDirectory => if text.take 2 = ['d', '('] then 2 else 0
  | openFile => if text.take 2 = ['f', '('] then 2 else 0
  | openParenthesis => if text.take 1 = ['('] then 1 else 0
  | closeParenthesis => if text.take 1 = [')'] then 1 else 0
  | plain => (text.takeWhile isPlain).length

/-- The kind opens a parenthesis. -/
def opens : Raw → Bool
  | openDirectory | openFile | openParenthesis => true
  | _ => false

/-- The kind is part of a word. -/
def inWord : Raw → Bool
  | descend | ascend | separators => false
  | _ => true

/-- The kind of entry that a word with such a first piece hints at. -/
def hint? : Raw → Option Kind
  | openDirectory => some .directory
  | openFile => some .file
  | _ => none

end Raw

/-- The kind that takes the most characters at the start of a text, if there is one that takes any. -/
def longest (text : List Char) : Option (Raw × Nat) :=
  Raw.all.foldl (fun best raw =>
    if (best.map (·.2)).getD 0 < raw.extent text then some (raw, raw.extent text) else best) none

/-- A piece of a source from the offset `start` up to `stop`; of no kind, if none fits. -/
structure Piece where
  raw : Option Raw
  start : Nat
  stop : Nat
deriving Repr, DecidableEq

/-- The pieces of a text that starts at `offset`. -/
def scan (offset : Nat) : List Char → List Piece
  | [] => []
  | c :: cs =>
    let best := longest (c :: cs)
    let count := (best.map (·.2)).getD 1
    let stop := offset + Text.byteSize ((c :: cs).take count)
    ⟨best.map (·.1), offset, stop⟩ :: scan stop (cs.drop (count - 1))
termination_by text => text.length

/-- The index of the piece that closes the first of the pieces, when `depth` parentheses are open and the
first piece has the index `i`. -/
def matchingClose (depth i : Nat) : List Piece → Option Nat
  | [] => none
  | piece :: rest =>
    match piece.raw with
    | some .openDirectory | some .openFile | some .openParenthesis =>
      matchingClose (depth + 1) (i + 1) rest
    | some .closeParenthesis =>
      if depth - 1 = 0 then some i else matchingClose (depth - 1) (i + 1) rest
    | _ => matchingClose depth (i + 1) rest

/-- Refuses a parenthesis that closes nothing, when `depth` are open. -/
def checkBalanced (index : Text.LineIndex) (depth : Nat) : List Piece → TreeSketch.Checked LexError Unit
  | [] => .ok ()
  | piece :: rest =>
    match piece.raw with
    | some .openDirectory | some .openFile | some .openParenthesis =>
      checkBalanced index (depth + 1) rest
    | some .closeParenthesis =>
      if depth = 0 then do
        let place ← place index piece.start
        refuse (.unmatchedClose place)
      else do
        let depth ← minus depth 1
        checkBalanced index depth rest
    | _ => checkBalanced index depth rest

/-! ## The first piece -/

/-- A text that is `taken` and `rest` starts with a piece of the kind, which takes just `taken`. -/
inductive Begins : Raw → List Char → List Char → Prop
  | descend (rest : List Char) : Begins .descend ['>'] rest
  | ascend (rest : List Char) : Begins .ascend ['|'] rest
  | separators {run rest : List Char} (hne : run ≠ []) (hrun : ∀ c ∈ run, isSeparator c = true)
    (hrest : ∀ c ∈ rest.head?, isSeparator c = false) : Begins .separators run rest
  | openDirectory (rest : List Char) : Begins .openDirectory ['d', '('] rest
  | openFile (rest : List Char) : Begins .openFile ['f', '('] rest
  | openParenthesis (rest : List Char) : Begins .openParenthesis ['('] rest
  | closeParenthesis (rest : List Char) : Begins .closeParenthesis [')'] rest
  | plain {run rest : List Char} (hne : run ≠ []) (hrun : ∀ c ∈ run, isPlain c = true)
    (hrest : ∀ c ∈ rest.head?, isPlain c = false) (hhint : hint? (run ++ rest) = none) :
    Begins .plain run rest

theorem isPlain_eq_true_iff {c : Char} :
    isPlain c = true ↔ isSeparator c = false ∧ isOperator c = false ∧ c ≠ '(' ∧ c ≠ ')' := by
  simp [isPlain, isWordChar, and_assoc]

/-- A run of characters of a kind, and a rest that does not go on with it. -/
theorem exists_run {p : Char → Bool} {c : Char} (hc : p c = true) (cs : List Char) :
    ∃ run rest, c :: cs = run ++ rest ∧ run ≠ [] ∧ (∀ d ∈ run, p d = true) ∧
      ∀ d ∈ rest.head?, p d = false := by
  refine ⟨(c :: cs).takeWhile p, (c :: cs).dropWhile p, List.takeWhile_append_dropWhile.symm, ?_,
    fun d hd => List.mem_takeWhile_imp hd, fun d hd => ?_⟩
  · rw [List.takeWhile_cons_of_pos hc]
    exact List.cons_ne_nil _ _
  · have hnot := List.head?_dropWhile_not p (c :: cs)
    rw [Option.mem_def.mp hd] at hnot
    simpa using hnot

/-- Every text that is not empty starts with a piece. -/
theorem exists_begins {text : List Char} (hne : text ≠ []) :
    ∃ raw taken rest, text = taken ++ rest ∧ Begins raw taken rest := by
  obtain ⟨c, cs, rfl⟩ := List.exists_cons_of_ne_nil hne
  by_cases hseparator : isSeparator c = true
  · obtain ⟨run, rest, heq, hne, hrun, hrest⟩ := exists_run hseparator cs
    exact ⟨_, run, rest, heq, .separators hne hrun hrest⟩
  · by_cases hoperator : isOperator c = true
    · rcases (by simpa [isOperator] using hoperator : c = '>' ∨ c = '|') with rfl | rfl
      · exact ⟨_, _, cs, rfl, .descend cs⟩
      · exact ⟨_, _, cs, rfl, .ascend cs⟩
    · by_cases hopen : c = '('
      · subst hopen
        exact ⟨_, _, cs, rfl, .openParenthesis cs⟩
      · by_cases hclose : c = ')'
        · subst hclose
          exact ⟨_, _, cs, rfl, .closeParenthesis cs⟩
        · have hplain : isPlain c = true := by
            rw [isPlain_eq_true_iff]
            exact ⟨by simpa using hseparator, by simpa using hoperator, hopen, hclose⟩
          cases hhint : hint? (c :: cs) with
          | none =>
            obtain ⟨run, rest, heq, hne, hrun, hrest⟩ := exists_run hplain cs
            rw [heq] at hhint
            exact ⟨_, run, rest, heq, .plain hne hrun hrest hhint⟩
          | some hint =>
            obtain ⟨kind, opened⟩ := hint
            rw [eq_of_hint?_eq_some hhint]
            cases kind with
            | directory => exact ⟨_, _, _, rfl, .openDirectory opened⟩
            | file => exact ⟨_, _, _, rfl, .openFile opened⟩

theorem takeWhile_append_of_head {p : Char → Bool} {run rest : List Char}
    (hrun : ∀ c ∈ run, p c = true) (hrest : ∀ c ∈ rest.head?, p c = false) :
    (run ++ rest).takeWhile p = run := by
  rw [List.takeWhile_append_of_pos hrun]
  cases rest with
  | nil => simp
  | cons c rest => rw [List.takeWhile_cons_of_neg (by simp [hrest c rfl]), List.append_nil]

/-- A kind that takes more characters than all others wins. -/
theorem longest_eq {text : List Char} {raw : Raw} (hpos : 0 < raw.extent text)
    (hless : ∀ other, other ≠ raw → other.extent text < raw.extent text) :
    longest text = some (raw, raw.extent text) := by
  suffices hfold : ∀ (kinds : List Raw) (best : Option (Raw × Nat)),
      raw ∈ kinds ∧ (best.map (·.2)).getD 0 < raw.extent text ∨
        best = some (raw, raw.extent text) →
      kinds.foldl (fun best raw =>
        if (best.map (·.2)).getD 0 < raw.extent text then some (raw, raw.extent text) else best)
        best = some (raw, raw.extent text) from
    hfold Raw.all none (Or.inl ⟨by cases raw <;> decide, hpos⟩)
  intro kinds
  induction kinds with
  | nil =>
    rintro best (⟨hmem, -⟩ | hbest)
    · cases hmem
    · exact hbest
  | cons kind kinds ih =>
    intro best h
    rw [List.foldl_cons]
    apply ih
    by_cases hkind : kind = raw
    · subst hkind
      refine Or.inr ?_
      rcases h with ⟨-, hbest⟩ | rfl
      · exact if_pos hbest
      · exact if_neg (Nat.lt_irrefl _)
    · have hlt := hless kind hkind
      rcases h with ⟨hmem, hbest⟩ | rfl
      · refine Or.inl ⟨(List.mem_cons.mp hmem).resolve_left (Ne.symm hkind), ?_⟩
        split
        · exact hlt
        · exact hbest
      · exact Or.inr (if_neg (Nat.lt_asymm hlt))

/-- The kind fits at the start of a text by its first characters. -/
def Raw.Fits (c : Char) (cs : List Char) : Raw → Prop
  | .descend => c = '>'
  | .ascend => c = '|'
  | .separators => isSeparator c = true
  | .openDirectory => c = 'd' ∧ cs.head? = some '('
  | .openFile => c = 'f' ∧ cs.head? = some '('
  | .openParenthesis => c = '('
  | .closeParenthesis => c = ')'
  | .plain => isPlain c = true

theorem Raw.fits_of_extent_pos {raw : Raw} {c : Char} {cs : List Char}
    (h : 0 < raw.extent (c :: cs)) : raw.Fits c cs := by
  have hrun {p : Char → Bool} (hp : 0 < ((c :: cs).takeWhile p).length) : p c = true := by
    by_contra hc
    rw [List.takeWhile_cons_of_neg hc] at hp
    exact Nat.lt_irrefl 0 hp
  have hsign {d : Char} (hd : 0 < if (c :: cs).take 1 = [d] then 1 else 0) : c = d := by
    by_contra hc
    simp [hc] at hd
  have hopening {d : Char} (hd : 0 < if (c :: cs).take 2 = [d, '('] then 2 else 0) :
      c = d ∧ cs.head? = some '(' := by
    by_contra hc
    have htake : (c :: cs).take 2 ≠ [d, '('] := by
      cases cs with
      | nil => simp
      | cons e cs => simpa using hc
    rw [if_neg htake] at hd
    exact Nat.lt_irrefl 0 hd
  cases raw with
  | separators | plain => exact hrun h
  | descend | ascend | openParenthesis | closeParenthesis => exact hsign h
  | openDirectory | openFile => exact hopening h

theorem head?_ne_of_hint?_eq_none {c : Char} {cs : List Char} (h : hint? (c :: cs) = none)
    (hc : c = 'd' ∨ c = 'f') : cs.head? ≠ some '(' := by
  intro hopen
  obtain ⟨cs, rfl⟩ := List.head?_eq_some_iff.mp hopen
  rcases hc with rfl | rfl
  · cases h
  · cases h

theorem longest_of_begins {raw : Raw} {taken rest : List Char} (h : Begins raw taken rest) :
    longest (taken ++ rest) = some (raw, taken.length) := by
  have hextent : raw.extent (taken ++ rest) = taken.length := by
    cases h with
    | separators hne hrun hrest => exact congrArg _ (takeWhile_append_of_head hrun hrest)
    | plain hne hrun hrest hhint => exact congrArg _ (takeWhile_append_of_head hrun hrest)
    | _ => simp [Raw.extent]
  have hpos : 0 < taken.length := by
    cases h with
    | separators hne hrun hrest => exact List.length_pos_iff.mpr hne
    | plain hne hrun hrest hhint => exact List.length_pos_iff.mpr hne
    | _ => simp
  rw [← hextent] at hpos ⊢
  refine longest_eq hpos fun other hother => ?_
  cases h with
  | separators hne hrun hrest =>
    obtain ⟨c, run, rfl⟩ := List.exists_cons_of_ne_nil hne
    have hc := hrun c List.mem_cons_self
    refine Nat.lt_of_not_le fun hle => ?_
    have hfits := Raw.fits_of_extent_pos (Nat.lt_of_lt_of_le hpos hle)
    clear hpos hle hextent
    cases other <;> simp_all [Raw.Fits, isPlain, isWordChar, isSeparator]
  | plain hne hrun hrest hhint =>
    obtain ⟨c, run, rfl⟩ := List.exists_cons_of_ne_nil hne
    have hc := hrun c List.mem_cons_self
    refine Nat.lt_of_not_le fun hle => ?_
    have hfits := Raw.fits_of_extent_pos (Nat.lt_of_lt_of_le hpos hle)
    clear hpos hle hextent
    cases other with
    | openDirectory => exact head?_ne_of_hint?_eq_none hhint (Or.inl hfits.1) hfits.2
    | openFile => exact head?_ne_of_hint?_eq_none hhint (Or.inr hfits.1) hfits.2
    | _ => simp_all [Raw.Fits, isPlain, isWordChar, isOperator]
  | _ => cases other <;> simp_all [Raw.extent, isPlain, isWordChar, isSeparator, isOperator]

theorem Begins.taken_ne_nil {raw : Raw} {taken rest : List Char} (h : Begins raw taken rest) :
    taken ≠ [] := by
  cases h with
  | separators hne _ _ => exact hne
  | plain hne _ _ _ => exact hne
  | _ => exact List.cons_ne_nil _ _

/-- The scan finds the piece that a text starts with. -/
theorem scan_of_begins {raw : Raw} {taken rest : List Char} (h : Begins raw taken rest) (offset : Nat) :
    scan offset (taken ++ rest) =
      ⟨some raw, offset, offset + Text.byteSize taken⟩ ::
        scan (offset + Text.byteSize taken) rest := by
  have hlongest := longest_of_begins h
  obtain ⟨c, run, rfl⟩ := List.exists_cons_of_ne_nil h.taken_ne_nil
  rw [List.cons_append] at hlongest ⊢
  have htake : (c :: (run ++ rest)).take (c :: run).length = c :: run := List.take_left
  have hdrop : (run ++ rest).drop ((c :: run).length - 1) = rest := List.drop_left
  rw [scan]
  simp only [hlongest, Option.map_some, Option.getD_some, htake, hdrop]

/-- To prove something about every text, it is enough to put pieces before texts of which it holds. -/
theorem piece_induction {P : List Char → Prop} (nil : P [])
    (piece : ∀ raw taken rest, Begins raw taken rest → P rest → P (taken ++ rest))
    (text : List Char) : P text := by
  induction hlength : text.length using Nat.strong_induction_on generalizing text with
  | h length ih =>
    by_cases hne : text = []
    · rw [hne]
      exact nil
    · obtain ⟨raw, taken, rest, rfl, h⟩ := exists_begins hne
      have hpos := List.length_pos_iff.mpr h.taken_ne_nil
      rw [List.length_append] at hlength
      exact piece raw taken rest h (ih rest.length (by omega) rest rfl)

/-! ## Parentheses -/

/-- No parentheses are in the text. -/
def Unparenthesized (text : List Char) : Prop :=
  ∀ c ∈ text, c ≠ '(' ∧ c ≠ ')'

/-- A piece opens one parenthesis, or closes one, or has none. -/
theorem Begins.cases_parentheses {raw : Raw} {taken rest : List Char} (h : Begins raw taken rest) :
    (raw.opens = true ∧ ∃ run, Unparenthesized run ∧ taken = run ++ ['(']) ∨
      (raw = .closeParenthesis ∧ taken = [')']) ∨
      (raw.opens = false ∧ raw ≠ .closeParenthesis ∧ Unparenthesized taken) := by
  cases h with
  | openDirectory => exact Or.inl ⟨rfl, ['d'], by simp [Unparenthesized], rfl⟩
  | openFile => exact Or.inl ⟨rfl, ['f'], by simp [Unparenthesized], rfl⟩
  | openParenthesis => exact Or.inl ⟨rfl, [], by simp [Unparenthesized], rfl⟩
  | closeParenthesis => exact Or.inr (Or.inl ⟨rfl, rfl⟩)
  | descend | ascend => exact Or.inr (Or.inr ⟨rfl, nofun, by simp [Unparenthesized]⟩)
  | separators hne hrun hrest =>
    refine Or.inr (Or.inr ⟨rfl, nofun, fun c hc => ⟨?_, ?_⟩⟩)
    · rintro rfl
      cases hrun _ hc
    · rintro rfl
      cases hrun _ hc
  | plain hne hrun hrest hhint =>
    exact Or.inr (Or.inr ⟨rfl, nofun, fun c hc => (isPlain_eq_true_iff.mp (hrun c hc)).2.2⟩)

theorem openAfter_of_ne {c : Char} (h : c ≠ '(' ∧ c ≠ ')') (depth : Nat) : openAfter depth c = depth := by
  rw [openAfter, if_neg h.1, if_neg h.2]

theorem splitClose_append {run : List Char} (h : Unparenthesized run) (depth : Nat)
    (rest : List Char) :
    splitClose depth (run ++ rest) =
      (splitClose depth rest).map fun (inner, after) => (run ++ inner, after) := by
  induction run with
  | nil => simp
  | cons c run ih =>
    obtain ⟨hc, hrun⟩ := List.forall_mem_cons.mp h
    rw [List.cons_append, splitClose, if_neg (by simp [hc.2]), openAfter_of_ne hc, ih hrun,
      Option.map_map]
    rfl

theorem strayClose_append {run : List Char} (h : Unparenthesized run) (depth offset : Nat)
    (rest : List Char) :
    strayClose depth offset (run ++ rest) =
      strayClose depth (offset + Text.byteSize run) rest := by
  induction run generalizing offset with
  | nil => rfl
  | cons c run ih =>
    obtain ⟨hc, hrun⟩ := List.forall_mem_cons.mp h
    rw [List.cons_append, strayClose, if_neg (by simp [hc.2]), openAfter_of_ne hc, ih hrun,
      Text.byteSize_cons, Nat.add_assoc]

theorem matchingClose_opens {raw : Raw} (h : raw.opens = true) (depth i start stop : Nat)
    (rest : List Piece) :
    matchingClose depth i (⟨some raw, start, stop⟩ :: rest) =
      matchingClose (depth + 1) (i + 1) rest := by
  cases raw with
  | openDirectory | openFile | openParenthesis => rfl
  | descend | ascend | separators | closeParenthesis | plain => cases h

theorem matchingClose_passes {raw : Raw} (hopens : raw.opens = false)
    (hcloses : raw ≠ .closeParenthesis) (depth i start stop : Nat) (rest : List Piece) :
    matchingClose depth i (⟨some raw, start, stop⟩ :: rest) = matchingClose depth (i + 1) rest := by
  cases raw with
  | closeParenthesis => exact absurd rfl hcloses
  | openDirectory | openFile | openParenthesis => cases hopens
  | descend | ascend | separators | plain => rfl

/-- A search among pieces, of which the first has the index `i`, ends as the cut of their text at a
parenthesis: nowhere, or at the piece of this parenthesis. -/
def EndsAs (found : Option Nat) (i offset : Nat) (pieces : List Piece) :
    Option (List Char × List Char) → Prop
  | none => found = none
  | some (inner, rest) =>
    ∃ before, pieces = before ++
        ⟨some .closeParenthesis, offset + Text.byteSize inner, offset + Text.byteSize inner + 1⟩ ::
          scan (offset + Text.byteSize inner + 1) rest ∧
      found = some (i + before.length)

theorem EndsAs.cons {found : Option Nat} {i offset : Nat} {pieces : List Piece} {taken : List Char}
    {cut : Option (List Char × List Char)}
    (h : EndsAs found (i + 1) (offset + Text.byteSize taken) pieces cut) (piece : Piece) :
    EndsAs found i offset (piece :: pieces)
      (cut.map fun (inner, rest) => (taken ++ inner, rest)) := by
  cases cut with
  | none => exact h
  | some cut =>
    obtain ⟨inner, rest⟩ := cut
    obtain ⟨before, rfl, rfl⟩ := h
    refine ⟨piece :: before, ?_, ?_⟩
    · rw [List.cons_append, Text.byteSize_append, ← Nat.add_assoc]
    · rw [List.length_cons, Nat.add_assoc, Nat.add_comm 1]

/-- The piece that closes the first one stands where the text is cut. -/
theorem matchingClose_scan (text : List Char) (depth i offset : Nat) :
    EndsAs (matchingClose (depth + 1) i (scan offset text)) i offset (scan offset text)
      (splitClose depth text) := by
  induction text using piece_induction generalizing depth i offset with
  | nil =>
    rw [scan]
    rfl
  | piece raw taken rest h ih =>
    rw [scan_of_begins h]
    rcases h.cases_parentheses with ⟨hopens, run, hrun, rfl⟩ | ⟨rfl, rfl⟩ | ⟨hopens, hcloses, hfree⟩
    · have hsplit : splitClose depth (run ++ ['('] ++ rest) =
          (splitClose (depth + 1) rest).map fun (inner, after) => (run ++ ['('] ++ inner, after) := by
        rw [List.append_assoc, splitClose_append hrun, List.singleton_append, splitClose,
          if_neg (by simp), openAfter, if_pos rfl, Option.map_map]
        simp [Function.comp_def]
      rw [matchingClose_opens hopens, hsplit]
      exact (ih (depth + 1) (i + 1) _).cons _
    · cases depth with
      | zero => exact ⟨[], rfl, rfl⟩
      | succ depth =>
        have hsplit : splitClose (depth + 1) ([')'] ++ rest) =
            (splitClose depth rest).map fun (inner, after) => ([')'] ++ inner, after) := by
          rw [List.singleton_append, splitClose, if_neg (by simp), openAfter, if_neg (by decide),
            if_pos rfl]
          rfl
        rw [hsplit]
        exact (ih depth (i + 1) _).cons _
    · rw [matchingClose_passes hopens hcloses, splitClose_append hfree]
      exact (ih depth (i + 1) _).cons _

theorem checkBalanced_opens {raw : Raw} (h : raw.opens = true) (index : Text.LineIndex)
    (depth start stop : Nat) (rest : List Piece) :
    checkBalanced index depth (⟨some raw, start, stop⟩ :: rest) =
      checkBalanced index (depth + 1) rest := by
  cases raw with
  | openDirectory | openFile | openParenthesis => rfl
  | descend | ascend | separators | closeParenthesis | plain => cases h

theorem checkBalanced_passes {raw : Raw} (hopens : raw.opens = false)
    (hcloses : raw ≠ .closeParenthesis) (index : Text.LineIndex) (depth start stop : Nat)
    (rest : List Piece) :
    checkBalanced index depth (⟨some raw, start, stop⟩ :: rest) = checkBalanced index depth rest := by
  cases raw with
  | closeParenthesis => exact absurd rfl hcloses
  | openDirectory | openFile | openParenthesis => cases hopens
  | descend | ascend | separators | plain => rfl

/-- A piece is refused where the text closes a parenthesis that is not open. -/
theorem checkBalanced_scan (source text : List Char) (depth offset : Nat) :
    checkBalanced (Text.LineIndex.ofText source) depth (scan offset text) =
      match strayClose depth offset text with
      | none => .ok ()
      | some stray => refuse (.unmatchedClose (placeAt (Text.LineIndex.ofText source) stray)) := by
  induction text using piece_induction generalizing depth offset with
  | nil =>
    rw [scan]
    rfl
  | piece raw taken rest h ih =>
    rw [scan_of_begins h]
    rcases h.cases_parentheses with ⟨hopens, run, hrun, rfl⟩ | ⟨rfl, rfl⟩ | ⟨hopens, hcloses, hfree⟩
    · rw [checkBalanced_opens hopens, ih, List.append_assoc, strayClose_append hrun,
        List.singleton_append, strayClose, if_neg (by simp), openAfter, if_pos rfl,
        Text.byteSize_append, ← Nat.add_assoc]
      rfl
    · rw [List.singleton_append, strayClose, checkBalanced]
      cases depth with
      | zero =>
        rw [if_pos rfl, if_pos (by decide), place_ofText]
        rfl
      | succ depth =>
        rw [if_neg (Nat.succ_ne_zero depth), if_neg (by simp), minus_of_le (Nat.succ_pos depth)]
        exact ih depth _
    · rw [checkBalanced_passes hopens hcloses, ih, strayClose_append hfree]

end TreeSketch.Declarative.Checked
