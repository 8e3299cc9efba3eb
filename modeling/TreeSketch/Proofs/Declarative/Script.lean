import TreeSketch.Proofs.Declarative.Language

/-!
# Trees as declarative sources

`Node.declarative` writes a tree in the declarative language, and `parse_declarative` says that the source is
read as the tree, provided that its names can be written at all: each has to be read back as the name of a
directory, of a file and of an empty directory (`Writable`).

A source is a text of words and signs, and `Recites` says which moves are read from it; the source of a tree
recites its moves (`recites_declarative`). The moves of a tree come back to the depth where they start
(`admits_moves`), and their entries are the entries of the tree (`entries_moves`). All three hold whatever
follows the tree, which is what the induction over the tree needs.
-/

namespace TreeSketch

namespace Node

mutual

/-- The source of a tree: a slash stands behind a directory without entries, and any other directory is
entered and left. -/
def declarative : Node → String
  | file name => name
  | directory name children =>
    if children.isEmpty then name ++ "/" else name ++ " > " ++ declarativeAll children ++ " |"

/-- The sources of several trees, one space between them. -/
def declarativeAll : List Node → String
  | [] => ""
  | node :: rest =>
    if rest.isEmpty then declarative node else declarative node ++ " " ++ declarativeAll rest

end

/-- The entries of a directory are joined by one space. -/
theorem declarativeAll_eq_intercalate (nodes : List Node) :
    declarativeAll nodes = " ".intercalate (nodes.map declarative) := by
  induction nodes with
  | nil => rfl
  | cons node rest ih =>
    cases rest with
    | nil => rfl
    | cons next rest =>
      rw [declarativeAll, ih, List.map_cons, List.map_cons, List.map_cons]
      rw [String.intercalate_cons_cons]
      rfl

/-- What the source says about an entry of a tree. -/
def declaredLabel (node : Node) : Label :=
  ⟨node.name, if node.isDirectory && node.children.isEmpty then some ⟨.directory, .marker⟩ else none⟩

@[simp] theorem declaredLabel_file (name : String) : (file name).declaredLabel = ⟨name, none⟩ := rfl

@[simp] theorem declaredLabel_empty (name : String) :
    (directory name []).declaredLabel = ⟨name, some ⟨.directory, .marker⟩⟩ := rfl

@[simp] theorem declaredLabel_cons (name : String) (child : Node) (more : List Node) :
    (directory name (child :: more)).declaredLabel = ⟨name, none⟩ := rfl

theorem close_declaredLabel (node : Node) : node.declaredLabel.close node.children = node := by
  cases node with
  | file name =>
    have hkind : ((Node.file name).declaredLabel.verdict []).kind = .file :=
      Verdict.infer_kind name false
    rw [Node.children, Label.close, hkind]
    rfl
  | directory name children =>
    cases children with
    | nil => rfl
    | cons child rest =>
      have hkind : ((Node.directory name (child :: rest)).declaredLabel.verdict
          (child :: rest)).kind = .directory := Verdict.infer_kind name true
      rw [Node.children, Label.close, hkind]
      rfl

end Node

namespace Declarative

/-! ## Moves -/

/-- The place of moves of which the place does not matter. -/
def nowhere : Place :=
  ⟨0, ⟨0, 0⟩⟩

/-- The move at no place in particular. -/
def Item.unplaced : Item → Item
  | .entry label _ => .entry label nowhere
  | .descend _ => .descend nowhere
  | .ascend _ => .ascend nowhere

theorem startsWithEntry_unplaced (moves : List Item) :
    startsWithEntry (moves.map Item.unplaced) = startsWithEntry moves := by
  cases moves with
  | nil => rfl
  | cons move rest => cases move <;> rfl

/-- The places of moves do not matter to what follows what. -/
theorem admits_unplaced {seen : List (Int × Label)} {depth : Int} {moves : List Item} :
    Admits seen depth (moves.map Item.unplaced) ↔ Admits seen depth moves := by
  induction moves generalizing seen depth with
  | nil => rfl
  | cons move rest ih =>
    cases move with
    | entry label place => rw [List.map_cons, Item.unplaced, Admits, Admits, ih]
    | descend place =>
      rw [List.map_cons, Item.unplaced, Admits, Admits, ih, startsWithEntry_unplaced]
    | ascend place => rw [List.map_cons, Item.unplaced, Admits, Admits, ih]

theorem entries_unplaced (depth : Int) (moves : List Item) :
    entries depth (moves.map Item.unplaced) = entries depth moves := by
  induction moves generalizing depth with
  | nil => rfl
  | cons move rest ih =>
    cases move with
    | entry label place => rw [List.map_cons, Item.unplaced, entries, entries, ih]
    | descend place => rw [List.map_cons, Item.unplaced, entries, entries, ih]
    | ascend place => rw [List.map_cons, Item.unplaced, entries, entries, ih]

end Declarative

namespace Node

open Declarative

mutual

/-- The moves that the source of a tree stands for. -/
def moves : Node → List Item
  | file name => [.entry (file name).declaredLabel nowhere]
  | directory name children =>
    .entry (directory name children).declaredLabel nowhere ::
      if children.isEmpty then [] else .descend nowhere :: (movesAll children ++ [.ascend nowhere])

/-- The moves of several trees. -/
def movesAll : List Node → List Item
  | [] => []
  | node :: rest => moves node ++ movesAll rest

end

/-- An entry of a tree as the source declares it. -/
def declaredEntry (entry : Nat × Node) : Int × Label :=
  (entry.1, entry.2.declaredLabel)

theorem startsWithEntry_movesAll (node : Node) (more : List Node) (rest : List Item) :
    startsWithEntry (movesAll (node :: more) ++ rest) = true := by
  cases node <;> rfl

mutual

/-- The moves of a tree make its entries, and come back to the depth where they start. -/
theorem entries_moves (depth : Nat) (rest : List Item) : (node : Node) →
    entries depth (node.moves ++ rest) =
      (node.preorder depth).map declaredEntry ++ entries depth rest
  | file name => rfl
  | directory name [] => rfl
  | directory name (child :: more) => by
    have hbelow := entries_movesAll (depth + 1) (.ascend nowhere :: rest) (child :: more)
    have hback : ((depth + 1 : Nat) : Int) - 1 = depth := by omega
    rw [entries, hback] at hbelow
    have hlevel : (depth : Int) + 1 = (depth + 1 : Nat) := by omega
    simp only [moves, List.isEmpty_cons, Bool.false_eq_true, if_false, List.cons_append,
      List.append_assoc, List.nil_append, entries, hlevel, hbelow, preorder, List.map_cons,
      declaredEntry]

theorem entries_movesAll (depth : Nat) (rest : List Item) : (nodes : List Node) →
    entries depth (movesAll nodes ++ rest) =
      (preorderAll depth nodes).map declaredEntry ++ entries depth rest
  | [] => rfl
  | node :: more => by
    rw [movesAll, List.append_assoc, entries_moves depth _ node, entries_movesAll depth rest more,
      preorderAll, List.map_append, List.append_assoc]

end

mutual

/-- A tree can be written where there is room for its root, and leaves the depth as it was. -/
theorem admits_moves (depth : Nat) {seen : List (Int × Label)} {rest : List Item}
    (hroom : seen ≠ [] → depth ≠ 0) : (node : Node) →
    (hreads : ∀ entry ∈ node.preorder depth, Diagram.readsAsName entry.2.name.toList = true) →
    (hrest : Admits (((node.preorder depth).map declaredEntry).reverse ++ seen) depth rest) →
    Admits seen depth (node.moves ++ rest)
  | file name, hreads, hrest => by
    rw [preorder] at hreads hrest
    have hroot : Diagram.readsAsName (file name).name.toList = true :=
      hreads (depth, file name) List.mem_cons_self
    rw [moves, List.singleton_append, Admits]
    exact ⟨hroot, fun h => by simpa using hroom h, hrest⟩
  | directory name [], hreads, hrest => by
    rw [preorder, preorderAll] at hreads hrest
    have hroot : Diagram.readsAsName (directory name []).name.toList = true :=
      hreads (depth, directory name []) List.mem_cons_self
    simp only [moves, List.isEmpty_nil, if_true, List.singleton_append, Admits]
    exact ⟨hroot, fun h => by simpa using hroom h, hrest⟩
  | directory name (child :: more), hreads, hrest => by
    rw [preorder] at hreads hrest
    have hroot : Diagram.readsAsName (directory name (child :: more)).name.toList = true :=
      hreads (depth, directory name (child :: more)) List.mem_cons_self
    have hback : ((depth + 1 : Nat) : Int) - 1 = depth := by omega
    have hlevel : (depth : Int) + 1 = (depth + 1 : Nat) := by omega
    rw [List.map_cons, List.reverse_cons, List.append_assoc] at hrest
    have hascend : Admits (((preorderAll (depth + 1) (child :: more)).map declaredEntry).reverse ++
        declaredEntry (depth, directory name (child :: more)) :: seen) ((depth + 1 : Nat) : Int)
        (.ascend nowhere :: rest) := by
      rw [Admits, hback]
      exact ⟨by omega, hrest⟩
    have hbelow := admits_movesAll (depth + 1) (Nat.succ_ne_zero depth) (child :: more)
      (fun entry hentry => hreads entry (List.mem_cons_of_mem _ hentry)) hascend
    rw [moves, List.cons_append, Admits]
    refine ⟨hroot, fun h => by simpa using hroom h, ?_⟩
    simp only [List.isEmpty_cons, Bool.false_eq_true, if_false, List.cons_append,
      List.append_assoc, List.nil_append, Admits, hlevel]
    refine ⟨startsWithEntry_movesAll child more _, ?_, hbelow⟩
    rw [youngest_cons_self]
    rintro _ ⟨⟩
    exact nofun

theorem admits_movesAll (depth : Nat) {seen : List (Int × Label)} {rest : List Item}
    (hdeep : depth ≠ 0) : (nodes : List Node) →
    (hreads : ∀ entry ∈ preorderAll depth nodes, Diagram.readsAsName entry.2.name.toList = true) →
    (hrest : Admits (((preorderAll depth nodes).map declaredEntry).reverse ++ seen) depth rest) →
    Admits seen depth (movesAll nodes ++ rest)
  | [], hreads, hrest => hrest
  | node :: more, hreads, hrest => by
    rw [preorderAll, List.map_append, List.reverse_append, List.append_assoc] at hrest
    rw [movesAll, List.append_assoc]
    refine admits_moves depth (fun _ => hdeep) node
      (fun entry hentry => hreads entry (List.mem_append_left _ hentry)) ?_
    exact admits_movesAll depth hdeep more
      (fun entry hentry => hreads entry (List.mem_append_right _ hentry)) hrest

end

end Node

namespace Declarative

open Diagram (readsAsName)

/-! ## Text -/

/-- The word is a name wherever it stands, and the name of a directory with a slash behind it. -/
structure IsName (word : List Char) : Prop where
  ne : word ≠ []
  chars : ∀ c ∈ word, isWordChar c = true
  reads : readsAsName word = true
  plain : ∀ index start, wordTokens index start word = .ok [.ofText .name word start]
  marked : ∀ index start,
    wordTokens index start (word ++ ['/']) = .ok [.ofText .name (word ++ ['/']) start]

theorem bounds_nil : Bounds [] := by
  rintro _ ⟨⟩

/-- The moves are read from the text, wherever it stands and whatever ends the input. -/
def Recites (text : List Char) (moves : List Item) : Prop :=
  ∀ (index : Text.LineIndex) (offset stop : Nat), ∃ groups read,
    (chunks offset text).mapM (chunkTokens index) = .ok groups ∧
      items index (groups.flatten ++ [Token.mark .endOfInput stop]) = .ok read ∧
      read.map Item.unplaced = moves

namespace Recites

variable {text : List Char} {moves : List Item}

theorem nil : Recites [] [] := by
  intro index offset stop
  exact ⟨[], [], rfl, rfl, rfl⟩

theorem separator {c : Char} (hc : isSeparator c = true) (h : Recites text moves) :
    Recites (c :: text) moves := by
  intro index offset stop
  rw [chunks, if_pos hc]
  exact h index (offset + c.utf8Size) stop

/-- A chunk with one token, which is read as one move, comes before what follows. -/
theorem cons {lead : List Char} {move : Item}
    (hlead : ∀ (index : Text.LineIndex) (offset : Nat), ∃ chunk token item next,
      chunks offset (lead ++ text) = chunk :: chunks next text ∧
        chunkTokens index chunk = .ok [token] ∧
        (∀ rest, items index (token :: rest) = (items index rest).map (item :: ·)) ∧
        item.unplaced = move)
    (h : Recites text moves) : Recites (lead ++ text) (move :: moves) := by
  intro index offset stop
  obtain ⟨chunk, token, item, next, hchunks, htoken, hitem, rfl⟩ := hlead index offset
  obtain ⟨groups, read, hgroups, hread, rfl⟩ := h index next stop
  refine ⟨[token] :: groups, item :: read, ?_, ?_, rfl⟩
  · rw [hchunks]
    exact mapM_eq_ok_iff.mpr (.cons htoken (mapM_eq_ok_iff.mp hgroups))
  · rw [List.flatten_cons, List.singleton_append, List.cons_append, hitem, hread]
    rfl

theorem descend (h : Recites text moves) : Recites ('>' :: text) (.descend nowhere :: moves) :=
  show Recites (['>'] ++ text) _ from cons (fun index offset => ⟨.operator offset '>', .ofText .descend ['>'] offset,
    .descend (placeAt index offset), offset + '>'.utf8Size, rfl, rfl, fun _ => rfl, rfl⟩) h

theorem ascend (h : Recites text moves) : Recites ('|' :: text) (.ascend nowhere :: moves) :=
  show Recites (['|'] ++ text) _ from cons (fun index offset => ⟨.operator offset '|', .ofText .ascend ['|'] offset,
    .ascend (placeAt index offset), offset + '|'.utf8Size, rfl, rfl, fun _ => rfl, rfl⟩) h

/-- A word that is a name is read as an entry. -/
theorem word {word : List Char} (hne : word ≠ []) (hchars : ∀ c ∈ word, isWordChar c = true)
    (htokens : ∀ index start, wordTokens index start word = .ok [.ofText .name word start])
    (hbounds : Bounds text) (h : Recites text moves) :
    Recites (word ++ text) (.entry (wordLabel (String.ofList word)) nowhere :: moves) :=
  cons (fun index offset => ⟨.word offset word, .ofText .name word offset,
    .entry (wordLabel (String.ofList word)) (placeAt index offset), offset + Text.byteSize word,
    chunks_append hne hchars hbounds offset, htokens index offset, fun _ => rfl, rfl⟩) h

end Recites

namespace IsName

variable {word text : List Char} {moves : List Item}

theorem getLast?_ne_slash (h : IsName word) : word.getLast? ≠ some '/' := by
  have hlast : (String.ofList word).toList.getLast? ≠ some '/' :=
    getLast?_ne_slash_of_readsAsName (by simpa using h.reads)
  simpa using hlast

theorem dropEndWhile_eq (h : IsName word) : Text.dropEndWhile (· = '/') word = word := by
  refine Text.dropEndWhile_eq_self fun c hc => decide_eq_false ?_
  rintro rfl
  exact h.getLast?_ne_slash hc

theorem wordLabel_plain (h : IsName word) :
    wordLabel (String.ofList word) = ⟨String.ofList word, none⟩ := by
  simp [wordLabel, h.dropEndWhile_eq]

theorem wordLabel_marked (h : IsName word) :
    wordLabel (String.ofList (word ++ ['/'])) =
      ⟨String.ofList word, some ⟨.directory, .marker⟩⟩ := by
  have hdrop : Text.dropEndWhile (· = '/') (word ++ ['/']) = word := by
    rw [Text.dropEndWhile_concat (by decide), h.dropEndWhile_eq]
  simp [wordLabel, hdrop, h.ne]

/-- A name is read as an entry of which nothing more is said. -/
theorem recites_plain (h : IsName word) (hbounds : Bounds text) (hrest : Recites text moves) :
    Recites (word ++ text) (.entry ⟨String.ofList word, none⟩ nowhere :: moves) := by
  rw [← h.wordLabel_plain]
  exact Recites.word h.ne h.chars h.plain hbounds hrest

/-- A name with a slash behind it is read as a directory. -/
theorem recites_marked (h : IsName word) (hbounds : Bounds text) (hrest : Recites text moves) :
    Recites (word ++ '/' :: text)
      (.entry ⟨String.ofList word, some ⟨.directory, .marker⟩⟩ nowhere :: moves) := by
  have hchars : ∀ c ∈ word ++ ['/'], isWordChar c = true := by
    intro c hc
    rcases List.mem_append.mp hc with hc | hc
    · exact h.chars c hc
    · obtain rfl := List.mem_singleton.mp hc
      decide
  rw [← h.wordLabel_marked, List.append_cons]
  exact Recites.word (by simp) hchars h.marked hbounds hrest

end IsName

mutual

/-- The source of a tree recites its moves, before whatever does not go on with its last word. -/
theorem recites_declarative (depth : Nat) {text : List Char} {moves : List Item}
    (hbounds : Bounds text) (hrest : Recites text moves) : (node : Node) →
    (hnames : ∀ entry ∈ node.preorder depth, IsName entry.2.name.toList) →
    Recites (node.declarative.toList ++ text) (node.moves ++ moves)
  | .file name, hnames => by
    have hname : IsName name.toList := hnames (depth, .file name) (by simp [Node.preorder])
    have hread := hname.recites_plain hbounds hrest
    rwa [String.ofList_toList] at hread
  | .directory name [], hnames => by
    have hname : IsName name.toList := hnames (depth, .directory name []) (by simp [Node.preorder])
    have hread := hname.recites_marked hbounds hrest
    rw [String.ofList_toList] at hread
    simpa [Node.declarative, Node.moves] using hread
  | .directory name (child :: more), hnames => by
    have hname : IsName name.toList :=
      hnames (depth, .directory name (child :: more)) (by simp [Node.preorder])
    have hspace : Bounds (' ' :: '|' :: text) := by
      rintro _ ⟨⟩
      decide
    have hbelow := recites_declarativeAll (depth + 1) hspace
      (hrest.ascend.separator (by decide)) (child :: more)
      (fun entry hentry => hnames entry (by simp [Node.preorder, hentry]))
    have hopened : Recites (' ' :: '>' :: ' ' :: _) _ :=
      (hbelow.separator (by decide)).descend.separator (by decide)
    have hread := hname.recites_plain (by rintro _ ⟨⟩; decide) hopened
    rw [String.ofList_toList] at hread
    simpa [Node.declarative, Node.moves] using hread

theorem recites_declarativeAll (depth : Nat) {text : List Char} {moves : List Item}
    (hbounds : Bounds text) (hrest : Recites text moves) : (nodes : List Node) →
    (hnames : ∀ entry ∈ Node.preorderAll depth nodes, IsName entry.2.name.toList) →
    Recites ((Node.declarativeAll nodes).toList ++ text) (Node.movesAll nodes ++ moves)
  | [], hnames => hrest
  | [node], hnames => by
    have hread := recites_declarative depth hbounds hrest node
      (fun entry hentry => hnames entry (by simp [Node.preorderAll, hentry]))
    simpa [Node.declarativeAll, Node.movesAll] using hread
  | node :: next :: more, hnames => by
    have hmore := recites_declarativeAll depth hbounds hrest (next :: more)
      (fun entry hentry => hnames entry (List.mem_append_right _ hentry))
    have hspaced : Recites (' ' :: _) _ := hmore.separator (by decide)
    have hread := recites_declarative depth (by rintro _ ⟨⟩; decide) hspaced node
      (fun entry hentry => hnames entry (List.mem_append_left _ hentry))
    rw [Node.movesAll, List.append_assoc]
    simpa [Node.declarativeAll] using hread

end

/-! ## Names that can be written -/

/-- The name is read as the name of a directory, of a file in it, and of an empty directory in it. -/
def Writable (name : String) : Prop :=
  parse (name ++ " > " ++ name ++ " " ++ name ++ "/") =
    .ok (.directory name [.file name, .directory name []])

instance (name : String) : Decidable (Writable name) :=
  inferInstanceAs (Decidable (_ = _))

/-- The name of an entry is part of the text of its token. -/
theorem name_label_isPrefix (occurrence : Occurrence) :
    occurrence.label.name.toList <+: occurrence.token.text.toList := by
  rw [Occurrence.label]
  cases occurrence.hint with
  | some kind => exact List.prefix_rfl
  | none =>
    simp only [wordLabel]
    split
    · exact List.prefix_rfl
    · rw [String.toList_ofList]
      exact Text.dropEndWhile_isPrefix _ _

/-- A hint around a name is three characters longer than the name, so a word that is no longer than the names
in its tokens is a name as a whole. -/
theorem wordTokens_eq_name_of_length_le {index : Text.LineIndex} {start : Nat} {word : List Char}
    {tokens : List Token} (h : wordTokens index start word = .ok tokens)
    (hlength : ∀ token ∈ tokens, token.kind = .name → word.length ≤ token.text.toList.length + 2) :
    tokens = [.ofText .name word start] := by
  rcases wordTokens_cases h with hname | ⟨kind, inner, opening, closing, rfl, -, -, hparts⟩
  · exact hname
  · have hinner := hlength (.ofText .name inner (start + 2)) (by simp) rfl
    have hsum := congrArg List.length hparts
    simp only [List.length_append, List.length_take, List.length_singleton] at hsum
    rw [Token.ofText, String.toList_ofList] at hinner
    omega

/-- A word, entered, with itself below it as a file and as a directory. -/
def trial (word : List Char) : List Char :=
  word ++ ' ' :: '>' :: ' ' :: (word ++ ' ' :: (word ++ ['/']))

theorem mem_chunks_trial {word : List Char} (hne : word ≠ [])
    (hword : ∀ c ∈ word, isWordChar c = true) :
    .word 0 word ∈ chunks 0 (trial word) ∧
      ∃ start, .word start (word ++ ['/']) ∈ chunks 0 (trial word) := by
  have hspace (rest : List Char) : Bounds (' ' :: rest) := by
    rintro _ ⟨⟩
    decide
  have hmarked : ∀ c ∈ word ++ ['/'], isWordChar c = true := by
    simpa [or_imp, forall_and] using And.intro hword (show isWordChar '/' = true by decide)
  have hskip (offset : Nat) (rest : List Char) :
      chunks offset (' ' :: rest) = chunks (offset + 1) rest := rfl
  have hsign (offset : Nat) (rest : List Char) :
      chunks offset ('>' :: rest) = .operator offset '>' :: chunks (offset + 1) rest := rfl
  have hlast (offset : Nat) : chunks offset (word ++ ['/']) = [.word offset (word ++ ['/'])] := by
    have hall : chunks offset (word ++ ['/'] ++ []) = _ :=
      chunks_append (by simp) hmarked bounds_nil offset
    rwa [List.append_nil, chunks] at hall
  rw [trial, chunks_append hne hword (hspace _), hskip, hsign, hskip,
    chunks_append hne hword (hspace _), hskip, hlast]
  exact ⟨List.mem_cons_self, _, List.mem_of_getLast? rfl⟩

/-- Where every entry of a tree has the same name, every name of the source starts with it. -/
theorem name_isPrefix_of_forall₂ {tokens : List Token} {tree : Node} {name : String}
    (h : List.Forall₂ (fun occurrence shown => (shown.1 : Int) = occurrence.depth ∧
      readsAsName occurrence.label.name.toList = true ∧
      occurrence.label.close shown.2.children = shown.2) (occurrences tokens) tree.walk)
    (hname : ∀ shown ∈ tree.walk, shown.2.name = name) :
    ∀ token ∈ tokens, token.kind = .name → name.toList <+: token.text.toList := by
  intro token hmem hkind
  have htoken : token ∈ (occurrences tokens).map (·.token) := by
    rw [map_token_occurrences]
    exact List.mem_filter.mpr ⟨hmem, decide_eq_true hkind⟩
  obtain ⟨occurrence, hoccurrence, rfl⟩ := List.mem_map.mp htoken
  obtain ⟨shown, hshown, -, -, hclose⟩ := exists_mem_of_forall₂ h.flip hoccurrence
  have hlabel : occurrence.label.name = name := by
    rw [← hname shown hshown, ← hclose, Label.name_close]
  rw [← hlabel]
  exact name_label_isPrefix occurrence

/-- In the source that tries a name, every name starts with it. -/
theorem Writable.exists_tokens {name : String} (h : Writable name) :
    ∃ tokens, tokenize (trial name.toList) = .ok tokens ∧ readsAsName name.toList = true ∧
      (∃ token ∈ tokens, token.kind = .name) ∧
      ∀ token ∈ tokens, token.kind = .name → name.toList <+: token.text.toList := by
  have hsource : (name ++ " > " ++ name ++ " " ++ name ++ "/").toList = trial name.toList := by
    simp [trial]
  obtain ⟨tokens, htokens, hclosed⟩ := forall₂_close_walk h
  have hwalk : ∀ entry ∈ (Node.directory name [.file name, .directory name []]).walk,
      entry.2.name = name := by
    simp [Node.walk_eq_preorder, Node.preorder, Node.preorderAll, Node.name]
  obtain ⟨root, hroot, -, hreads, hclose⟩ := exists_mem_of_forall₂ hclosed (Node.mem_walk_self _)
  have hname : root.label.name = name := by
    rw [← Label.name_close root.label, hclose]
    rfl
  rw [hname] at hreads
  have htoken : root.token ∈ tokens.filter (·.isName) := by
    rw [← map_token_occurrences]
    exact List.mem_map_of_mem hroot
  rw [List.mem_filter, Token.isName, decide_eq_true_eq] at htoken
  rw [hsource] at htokens
  exact ⟨tokens, htokens, hreads, ⟨root.token, htoken⟩, name_isPrefix_of_forall₂ hclosed hwalk⟩

/-- A name that can be written is a word. -/
theorem Writable.isName {name : String} (h : Writable name) : IsName name.toList := by
  obtain ⟨tokens, htokens, hreads, ⟨root, hroot, hkind⟩, hstarts⟩ := h.exists_tokens
  have hne : name.toList ≠ [] := (Node.ofLine_of_readsAsName hreads).2.1
  have hchars : ∀ c ∈ name.toList, isWordChar c = true := fun c hc =>
    (mem_of_mem_tokenize htokens hroot hkind c ((hstarts root hroot hkind).subset hc)).2
  obtain ⟨hfirst, start, hlast⟩ := mem_chunks_trial hne hchars
  obtain ⟨group, hgroup, hsubset⟩ := exists_tokens_of_mem_chunks htokens hfirst
  obtain ⟨more, hmore, hsubset_more⟩ := exists_tokens_of_mem_chunks htokens hlast
  -- No token of a name is shorter than the name, so no word of the source is a hint.
  have hplain := wordTokens_eq_name_of_length_le hgroup fun token hmem hkind =>
    Nat.le_add_right_of_le (hstarts token (hsubset token hmem) hkind).length_le
  have hmarked := wordTokens_eq_name_of_length_le hmore fun token hmem hkind => by
    have hle := (hstarts token (hsubset_more token hmem) hkind).length_le
    rw [List.length_append, List.length_singleton]
    omega
  subst hplain hmarked
  exact ⟨hne, hchars, hreads, fun index place => wordTokens_eq_name hgroup index place,
    fun index place => wordTokens_eq_name hmore index place⟩

/-! ## Round trip -/

/-- Moves whose entries are those of a tree build the tree. -/
theorem trees_of_entries {moves : List Item} {outline : Outline} {tree : Node}
    (houtline : outlineFrom .start moves = .ok outline)
    (hentries : entries 0 moves = (tree.preorder 0).map Node.declaredEntry) :
    outline.trees = [tree] := by
  have hmap : outline.map (fun entry => ((entry.1 : Int), entry.2)) = entries 0 moves :=
    map_eq_entries (runs_of_outlineFrom houtline)
  rw [hentries, ← List.forall₂_eq_eq_eq, List.forall₂_map_left_iff, List.forall₂_map_right_iff]
    at hmap
  refine Outline.trees_of_shows ?_
  rw [Node.preorderAll, Node.preorderAll, List.append_nil]
  refine hmap.imp fun entry shown hentry => ?_
  obtain ⟨hdepth, hlabel⟩ := Prod.mk.inj hentry
  exact ⟨by omega, by rw [hlabel, Node.close_declaredLabel]⟩

/-- The moves of a tree build the tree, wherever they stand in a source. -/
theorem exists_outline_of_moves {moves : List Item} {tree : Node}
    (hsame : moves.map Item.unplaced = tree.moves)
    (hreads : ∀ entry ∈ tree.preorder 0, readsAsName entry.2.name.toList = true) :
    ∃ outline, outlineFrom .start moves = .ok outline ∧ outline.trees = [tree] := by
  have hadmits : Admits [] 0 (tree.moves ++ []) :=
    Node.admits_moves 0 (fun hseen => absurd rfl hseen) tree hreads trivial
  have hentries := Node.entries_moves 0 [] tree
  rw [List.append_nil, ← hsame] at hadmits hentries
  rw [admits_unplaced] at hadmits
  rw [entries_unplaced, entries, List.append_nil] at hentries
  have hstarts : startsWithEntry moves = true := by
    rw [← startsWithEntry_unplaced, hsame]
    cases tree <;> rfl
  have hruns : (∃ outline, outlineFrom .start moves = .ok outline) ↔ _ :=
    exists_outlineFrom_iff (Or.inr ⟨Frames.awaits_start, hstarts⟩)
  obtain ⟨outline, houtline⟩ := hruns.mpr hadmits
  exact ⟨outline, houtline, trees_of_entries houtline hentries⟩

/-- A tree of names that can be written is read back from its source. -/
theorem parse_declarative {tree : Node} (h : ∀ entry ∈ tree.walk, Writable entry.2.name) :
    parse tree.declarative = .ok tree := by
  have hnames : ∀ entry ∈ tree.preorder 0, IsName entry.2.name.toList := by
    rw [← tree.walk_eq_preorder]
    exact fun entry hentry => (h entry hentry).isName
  have hrecites := recites_declarative 0 bounds_nil Recites.nil tree hnames
  rw [List.append_nil, List.append_nil] at hrecites
  obtain ⟨groups, moves, hgroups, hmoves, hsame⟩ :=
    hrecites (Text.LineIndex.ofText tree.declarative.toList) 0 (Text.byteSize tree.declarative.toList)
  obtain ⟨outline, houtline, htrees⟩ :=
    exists_outline_of_moves hsame fun entry hentry => (hnames entry hentry).reads
  have htokens : tokenize tree.declarative.toList = .ok (groups.flatten ++
      [Token.mark .endOfInput (Text.byteSize tree.declarative.toList)]) :=
    bind_eq_ok_iff.mpr ⟨groups, hgroups, rfl⟩
  exact parse_eq_ok_iff.mpr ⟨_, moves, outline, htokens, hmoves, houtline, by rw [htrees]; rfl⟩

/-- A hint-like name, a name with open parentheses and an empty directory, below each other. -/
theorem parse_declarative_raft :
    let tree : Node :=
      .directory "d(raft).txt" [.directory "build(1" [.file "f", .directory "a#b" []], .file "f"]
    parse tree.declarative = .ok tree :=
  parse_declarative (by decide +kernel)

end Declarative

end TreeSketch
