import TreeSketch.Proofs.Checked.Arena
import TreeSketch.Proofs.Checked.Rows
import TreeSketch.Proofs.Checked.Words
import TreeSketch.Proofs.Declarative.Language

/-!
# Declarative trees by entry numbers

The tree of a declarative source, grown in an arena. A stack holds the entries that are entered, innermost
first and down to the level of the root, which is in no entry; a name goes below the top of the stack, `>`
puts the youngest entry below the top on the stack and `|` takes the top away. Tokens that the lexer does
not make are traps.

`Builder.Tracks` relates the stack and the arena to `Frames`: the entries on the stack are the start of
the spine of the arena. Every move keeps this, so the entries that are asked for exist (`run_eq`), and the
tree is the tree of the outline (`parse_eq`).
-/

namespace TreeSketch.Declarative.Checked

open TreeSketch.Checked

/-- A tree that grows. -/
structure Builder where
  arena : Arena
  /-- The entries that are entered, innermost first; the level of the root is in none. -/
  stack : List (Option Nat)
  root : Option Nat

namespace Builder

/-- Nothing has been read. -/
def start : Builder :=
  ⟨.empty, [none], none⟩

/-- The entry that was entered last. -/
def top (builder : Builder) : Option Nat :=
  builder.stack.head?.join

/-- Adds an entry below the one that was entered last, or as the root. -/
def put (builder : Builder) (index : Text.LineIndex) (label : Label) (token : Token) :
    TreeSketch.Checked ParseError Builder :=
  match builder.top with
  | some parent => do
    let arena ← addChild builder.arena parent label.name label.fixed
    return { builder with arena := arena }
  | none =>
    if builder.root.isSome then do
      let place ← place index token.start
      refuse (.secondRoot label.name place)
    else
      .ok { builder with
        arena := builder.arena.addRoot label.name label.fixed
        root := some builder.arena.size }

/-- Adds an entry with the name that a token holds. -/
def attach (builder : Builder) (index : Text.LineIndex) (label : Label) (token : Token) :
    TreeSketch.Checked ParseError Builder := do
  let reads ← Diagram.Checked.readsAsName label.name.toList
  if !reads then
    let place ← place index token.start
    refuse (.unfitName label.name place)
  else
    builder.put index label token

/-- The youngest entry below the one that was entered last, or the root. -/
def target (builder : Builder) : TreeSketch.Checked ParseError (Option Nat) :=
  match builder.top with
  | some frame => lastChild builder.arena frame
  | none => .ok builder.root

/-- Enters the youngest entry, when a token of the kind `next` follows. -/
def enter (builder : Builder) (index : Text.LineIndex) (token : Token) (next : TokenKind) :
    TreeSketch.Checked ParseError Builder :=
  if next = .endOfInput || next.isOperator then do
    let place ← place index token.start
    refuse (.danglingOperator place)
  else do
    let target ← builder.target
    match target with
    | none =>
      let place ← place index token.start
      refuse (.danglingOperator place)
    | some target =>
      let entry ← slot builder.arena target
      if entry.verdict.map (·.kind) = some .file then
        let place ← place index token.start
        refuse (.childrenUnderFile entry.name place)
      else
        return { builder with stack := some target :: builder.stack }

/-- The kind of the first token; behind the last one is the end of the input. -/
def peekKind (tokens : List Token) : TokenKind :=
  (tokens.head?.map (·.kind)).getD .endOfInput

/-- Leaves the entry that was entered last. -/
def leave (builder : Builder) (index : Text.LineIndex) (token : Token) :
    TreeSketch.Checked ParseError Builder :=
  if builder.stack.length = 1 then do
    let place ← place index token.start
    refuse (.aboveRoot place)
  else
    .ok { builder with stack := builder.stack.tail }

/-- Reads tokens. -/
def run (builder : Builder) (index : Text.LineIndex) : List Token →
    TreeSketch.Checked ParseError Builder
  | [] => .ok builder
  | token :: rest =>
    match token.kind with
    | .endOfInput => .ok builder
    | .name => do
      let next ← builder.attach index (wordLabel token.text) token
      next.run index rest
    | .descend => do
      let next ← builder.enter index token (peekKind rest)
      next.run index rest
    | .ascend => do
      let next ← builder.leave index token
      next.run index rest
    | kind =>
      match hintOf kind, rest with
      | some hinted, name :: close :: rest =>
        if name.kind = .name ∧ close.kind = (hintTokens hinted).2 then do
          let next ← builder.attach index ⟨name.text, some ⟨hinted, .hint⟩⟩ name
          next.run index rest
        else
          fail .token
      | _, _ => fail .token

/-- The tree that has been read. -/
def finish (builder : Builder) : TreeSketch.Checked ParseError Node :=
  match builder.root with
  | some root => intoTree builder.arena root
  | none => refuse .noRoot

end Builder

/-- The tree of a list of tokens. -/
def treeOfTokens (index : Text.LineIndex) (tokens : List Token) : TreeSketch.Checked ParseError Node :=
  if !tokens.any (·.isName) then refuse .noRoot
  else do
    let builder ← Builder.start.run index tokens
    builder.finish

/-- The tree of a declarative source. -/
def parse (source : String) : TreeSketch.Checked SourceError Node :=
  let text := source.toList
  if Text.allBlank text then refuse (.parse .emptyInput)
  else do
    let tokens ← rename .lex (tokenize text)
    rename .parse (treeOfTokens (Text.LineIndex.ofText text) tokens)

namespace Builder

/-- The label of the entry of a number in an outline. -/
def labelIn (outline : Outline) (id : Nat) : Option Label :=
  outline[id]?.map (·.2)

/-- The stack holds the start of the spine of a grown arena, and the frames know the labels of these
entries. -/
structure Stands (builder : Builder) (frames : Frames) (outline : Outline) (spine : List Nat) :
    Prop where
  grown : builder.arena.Grown outline spine
  root_eq : builder.root = some 0
  outline_ne : outline ≠ []
  depth_le : frames.depth ≤ spine.length
  stack_eq : builder.stack = (spine.take frames.depth).reverse.map some ++ [none]
  outer_eq : frames.outer = (spine.take frames.depth).reverse.map (labelIn outline)

/-- What the builder and the frames hold when the entries of the outline have been read. Behind a `>` the
innermost level is taken for empty, whatever it holds, since a name has to follow; otherwise its youngest
entry is known. -/
inductive Tracks : Bool → Builder → Frames → Outline → Prop
  | start : Tracks true .start .start []
  | settled {builder : Builder} {frames : Frames} {outline : Outline} {spine : List Nat}
    (h : builder.Stands frames outline spine)
    (hlatest : frames.latest = spine[frames.depth]?.bind (labelIn outline)) :
    Tracks true builder frames outline
  | entered {builder : Builder} {frames : Frames} {outline : Outline} {spine : List Nat}
    (h : builder.Stands frames outline spine) (hpos : 0 < frames.depth) :
    Tracks false builder frames outline

/-- A move of the builder ends as the move of the frames does. -/
inductive Matches (settled : Bool) (outline : Outline) :
    TreeSketch.Checked ParseError Builder → Except ParseError Frames → Prop
  | refused (fault : ParseError) : Matches settled outline (refuse fault) (.error fault)
  | moved {builder : Builder} {frames : Frames} (h : Tracks settled builder frames outline) :
    Matches settled outline (.ok builder) (.ok frames)

variable {builder : Builder} {frames : Frames} {outline : Outline} {spine : List Nat}
  {source : List Char}

theorem labelIn_append {id : Nat} (h : id < outline.length) (more : Outline) :
    labelIn (outline ++ more) id = labelIn outline id := by
  rw [labelIn, labelIn, List.getElem?_append_left h]

theorem top_eq_of_succ (h : builder.Stands frames outline spine) {depth : Nat}
    (hdepth : frames.depth = depth + 1) : builder.top = spine[depth]? := by
  have hlt : depth < spine.length := by
    have := h.depth_le
    omega
  rw [top, h.stack_eq, hdepth, List.take_succ_eq_append_getElem hlt, List.reverse_append,
    List.getElem?_eq_getElem hlt]
  rfl

theorem top_eq_none (h : builder.Stands frames outline spine) (hdepth : frames.depth = 0) :
    builder.top = none := by
  rw [top, h.stack_eq, hdepth]
  rfl

theorem lt_of_mem_spine (h : builder.Stands frames outline spine) {id : Nat} (hid : id ∈ spine) :
    id < outline.length := by
  obtain ⟨level, hlevel, rfl⟩ := List.mem_iff_getElem.mp hid
  exact (h.grown.spine_depth level _ (List.getElem?_eq_getElem hlevel)).1

/-- On the level of the root, the youngest entry is the root. -/
theorem isSome_latest (h : builder.Stands frames outline spine) :
    ∃ label, spine[0]?.bind (labelIn outline) = some label := by
  rw [h.grown.spine_zero h.outline_ne, Option.bind_some, labelIn,
    List.getElem?_eq_getElem (List.length_pos_iff.mpr h.outline_ne)]
  exact ⟨_, rfl⟩

/-- Below the root, a name is put below the top of the stack. -/
theorem put_of_depth (h : builder.Stands frames outline spine) (hpos : 0 < frames.depth)
    (index : Text.LineIndex) (label : Label) (token : Token) :
    ∃ next, builder.put index label token = .ok next ∧
      Tracks true next { frames with latest := some label } (outline ++ [(frames.depth, label)]) := by
  obtain ⟨depth, hdepth⟩ : ∃ depth, frames.depth = depth + 1 := ⟨frames.depth - 1, by omega⟩
  have hstack := h.stack_eq
  have houter := h.outer_eq
  have hle := h.depth_le
  rw [hdepth] at hstack houter hle
  have hlt : depth < spine.length := hle
  have hparent := List.getElem?_eq_getElem hlt
  obtain ⟨next, hnext, hgrown⟩ := h.grown.child hparent label
  have hput : builder.put index label token = .ok { builder with arena := next } := by
    rw [put, top_eq_of_succ h hdepth, hparent]
    simp only [addChild, hnext]
    rfl
  refine ⟨_, hput, ?_⟩
  have htake : (spine.take (depth + 1)).length = depth + 1 := by
    rw [List.length_take]
    omega
  have hlevels : (spine.take (depth + 1) ++ [builder.arena.size]).take (depth + 1) =
      spine.take (depth + 1) := List.take_left' htake
  have hsame : ({ frames with latest := some label } : Frames).depth = depth + 1 := hdepth
  rw [hdepth]
  refine .settled ⟨hgrown, h.root_eq, List.concat_ne_nil _ _, ?_, ?_, ?_⟩ ?_
  · rw [hsame, List.length_append, htake]
    exact Nat.le_succ _
  · rw [hsame, hlevels]
    exact hstack
  · rw [hsame, hlevels]
    refine houter.trans (List.map_congr_left fun id hid => ?_)
    rw [List.mem_reverse] at hid
    exact (labelIn_append (lt_of_mem_spine h (List.mem_of_mem_take hid)) _).symm
  · rw [hsame, List.getElem?_append_right (Nat.le_of_eq htake), htake, Nat.sub_self,
      List.getElem?_cons_zero, Option.bind_some, labelIn, h.grown.size_eq,
      List.getElem?_concat_length]
    rfl

theorem tracks_root (label : Label) :
    Tracks true ⟨Arena.empty.addRoot label.name label.fixed, [none], some 0⟩ ⟨some label, []⟩
      [(0, label)] :=
  .settled ⟨Arena.grown_root label, rfl, List.cons_ne_nil _ _, Nat.zero_le _, rfl, rfl⟩ rfl

/-- A name is written in both. -/
theorem matches_write {settled : Bool} (h : Tracks settled builder frames outline) (label : Label)
    (token : Token) :
    Matches true (outline ++ [(frames.depth, label)])
      (builder.attach (Text.LineIndex.ofText source) label token)
      (frames.write label (placeAt (Text.LineIndex.ofText source) token.start)) := by
  rw [attach, Diagram.Checked.readsAsName_eq, ok_bind, Frames.write]
  by_cases hreads : (!Diagram.readsAsName label.name.toList) = true
  · rw [if_pos hreads, if_pos hreads, place_ofText]
    exact .refused _
  · rw [if_neg hreads, if_neg hreads]
    by_cases hpos : 0 < frames.depth
    · have houter : ¬ (frames.outer = [] && frames.latest.isSome) = true := by
        simp [List.length_pos_iff.mp hpos]
      obtain ⟨spine, hstands⟩ : ∃ spine, builder.Stands frames outline spine := by
        cases h with
        | start => exact absurd hpos (Nat.lt_irrefl 0)
        | settled hstands _ => exact ⟨_, hstands⟩
        | entered hstands _ => exact ⟨_, hstands⟩
      obtain ⟨next, hput, htracks⟩ :=
        put_of_depth hstands hpos (Text.LineIndex.ofText source) label token
      rw [if_neg houter, hput]
      exact .moved htracks
    · cases h with
      | start =>
        rw [if_neg (by simp [Frames.start])]
        exact .moved (tracks_root label)
      | settled hstands hlatest =>
        have hzero : frames.depth = 0 := Nat.eq_zero_of_not_pos hpos
        have houter : frames.outer = [] := List.eq_nil_of_length_eq_zero hzero
        obtain ⟨root, hroot⟩ := isSome_latest hstands
        rw [hzero, hroot] at hlatest
        rw [if_pos (by simp [houter, hlatest]), put, top_eq_none hstands hzero, hstands.root_eq]
        simp only [Option.isSome_some, if_true, place_ofText]
        exact .refused _
      | entered hstands hdeep => exact absurd hdeep hpos

/-- The youngest entry of the innermost level is on the spine. -/
theorem target_eq (h : builder.Stands frames outline spine) :
    builder.target = .ok spine[frames.depth]? := by
  rw [target]
  by_cases hzero : frames.depth = 0
  · rw [top_eq_none h hzero, hzero, h.root_eq, h.grown.spine_zero h.outline_ne]
  · obtain ⟨depth, hdepth⟩ : ∃ depth, frames.depth = depth + 1 := ⟨frames.depth - 1, by omega⟩
    have hle := h.depth_le
    rw [hdepth] at hle
    have hframe := List.getElem?_eq_getElem (Nat.lt_of_succ_le hle)
    have hlt := (h.grown.spine_depth depth _ hframe).1
    rw [top_eq_of_succ h hdepth, hframe, hdepth]
    exact (lastChild_of_lt (h.grown.size_eq ▸ hlt)).trans
      (congrArg Except.ok (h.grown.youngest depth _ hframe))

/-- The youngest entry is entered in both, if a name follows. -/
theorem matches_enter (h : Tracks true builder frames outline) (token : Token) {next : TokenKind}
    (hnext : (next = .endOfInput || next.isOperator) = false) :
    Matches false outline (builder.enter (Text.LineIndex.ofText source) token next)
      (frames.enter (placeAt (Text.LineIndex.ofText source) token.start)) := by
  rw [enter, if_neg (by simp [hnext]), Frames.enter]
  cases h with
  | start =>
    simp only [target, top, Builder.start, place_ofText]
    exact .refused _
  | @settled _ _ _ spine hstands hlatest =>
    rw [target_eq hstands, hlatest]
    cases hid : spine[frames.depth]? with
    | none =>
      simp only [ok_bind, place_ofText]
      exact .refused _
    | some id =>
      obtain ⟨hlt, -⟩ := hstands.grown.spine_depth _ _ hid
      obtain ⟨parent, hslot⟩ := hstands.grown.label id outline[id] (List.getElem?_eq_getElem hlt)
      have hlabel : labelIn outline id = some outline[id].2 := by
        rw [labelIn, List.getElem?_eq_getElem hlt, Option.map_some]
      simp only [ok_bind, slot_of_get? hslot, Option.bind_some, hlabel]
      split
      · rw [place_ofText]
        exact .refused _
      · have hdepth : frames.depth < spine.length := (List.getElem?_eq_some_iff.mp hid).1
        have htake : (spine.take (frames.depth + 1)).reverse =
            id :: (spine.take frames.depth).reverse := by
          rw [List.take_add_one, hid]
          simp
        refine .moved (.entered ⟨hstands.grown, hstands.root_eq, hstands.outline_ne, hdepth, ?_, ?_⟩
          (Nat.succ_pos _))
        · show some id :: builder.stack = (spine.take (frames.depth + 1)).reverse.map some ++ [none]
          rw [htake, hstands.stack_eq]
          rfl
        · show some outline[id].2 :: frames.outer =
            (spine.take (frames.depth + 1)).reverse.map (labelIn outline)
          rw [htake, hstands.outer_eq, List.map_cons, hlabel]

theorem matches_leave (h : Tracks true builder frames outline) (token : Token) :
    Matches true outline (builder.leave (Text.LineIndex.ofText source) token)
      (frames.leave (placeAt (Text.LineIndex.ofText source) token.start)) := by
  rw [leave, Frames.leave]
  cases h with
  | start =>
    simp only [Builder.start, place_ofText]
    exact .refused _
  | @settled _ _ _ spine hstands hlatest =>
    by_cases hzero : frames.depth = 0
    · have houter : frames.outer = [] := List.eq_nil_of_length_eq_zero hzero
      have hstack : builder.stack.length = 1 := by
        rw [hstands.stack_eq, hzero]
        rfl
      rw [if_pos hstack, houter, place_ofText]
      exact .refused _
    · obtain ⟨depth, hdepth⟩ : ∃ depth, frames.depth = depth + 1 := ⟨frames.depth - 1, by omega⟩
      have hle := hstands.depth_le
      have hstack := hstands.stack_eq
      have houter := hstands.outer_eq
      have hlt : depth < spine.length := by omega
      have htake : (spine.take (depth + 1)).reverse =
          spine[depth] :: (spine.take depth).reverse := by
        rw [List.take_succ_eq_append_getElem hlt, List.reverse_append]
        rfl
      have hlength : (spine.take depth).length = depth := by
        rw [List.length_take]
        omega
      rw [hdepth, htake] at hstack houter
      have hmore : builder.stack.length ≠ 1 := by
        rw [hstack, List.map_cons, List.cons_append, List.length_cons, List.length_append]
        simp
      rw [if_neg hmore, hstack, houter]
      have hnext : (⟨labelIn outline spine[depth],
          (spine.take depth).reverse.map (labelIn outline)⟩ : Frames).depth = depth := by
        rw [Frames.depth, List.length_map, List.length_reverse, hlength]
      refine .moved (.settled ⟨hstands.grown, hstands.root_eq, hstands.outline_ne, ?_, ?_, ?_⟩ ?_)
      · rw [hnext]
        exact Nat.le_of_lt hlt
      · rw [hnext]
        rfl
      · rw [hnext]
      · rw [hnext, List.getElem?_eq_getElem hlt]
        rfl

/-! ## Runs -/

/-- A name follows unless the next token moves or ends the source. -/
theorem startsWithEntry_eq {index : Text.LineIndex} {tokens : List Token} {moves : List Item}
    (h : items index tokens = .ok moves) :
    startsWithEntry moves = !(peekKind tokens = .endOfInput || (peekKind tokens).isOperator) := by
  cases reads_of_items h with
  | nil => rfl
  | stop hkind | word hkind _ | descend hkind _ | ascend hkind _ =>
    simp [startsWithEntry, peekKind, hkind, TokenKind.isOperator]
  | @hint kind _ _ _ _ _ _ hopen _ _ _ =>
    have hkind := hintOf_eq_some hopen
    cases kind <;> simp [startsWithEntry, peekKind, hkind, hintTokens, TokenKind.isOperator]

/-- The first tree of an outline. -/
def firstTree (outline : Outline) : Except ParseError Node :=
  match outline.trees with
  | tree :: _ => .ok tree
  | [] => .error .noRoot

theorem finish_eq (h : Tracks true builder frames outline) :
    builder.finish = lift (firstTree outline) := by
  cases h with
  | start => rfl
  | settled hstands _ =>
    have hpos := List.length_pos_iff.mpr hstands.outline_ne
    rw [finish, hstands.root_eq, firstTree, hstands.grown.trees_eq hstands.outline_ne]
    exact intoTree_eq (hstands.grown.size_eq ▸ hpos)

/-- The tree of the moves that are left, when the outline has been read. -/
def treeOfMoves (outline : Outline) (frames : Frames) (moves : List Item) : Except ParseError Node :=
  outlineFrom frames moves >>= fun below => firstTree (outline ++ below)

theorem finish_of_nil {settled : Bool} (h : Tracks settled builder frames outline)
    (hsettled : settled = true ∨ startsWithEntry [] = true) :
    builder.finish = lift (treeOfMoves outline frames []) := by
  obtain rfl : settled = true := hsettled.resolve_right Bool.false_ne_true
  have hnil : treeOfMoves outline frames [] = firstTree outline :=
    congrArg firstTree (List.append_nil outline)
  rw [finish_eq h, hnil]

theorem treeOfMoves_entry (outline : Outline) (frames : Frames) (label : Label) (place : Place)
    (moves : List Item) :
    treeOfMoves outline frames (.entry label place :: moves) =
      frames.write label place >>= fun next =>
        treeOfMoves (outline ++ [(frames.depth, label)]) next moves := by
  simp only [treeOfMoves, outlineFrom]
  cases frames.write label place with
  | error fault => rfl
  | ok next => cases houtline : outlineFrom next moves <;> simp [houtline, bind, Except.bind]

/-- After a move that both make, the tokens and the moves that are left have the same tree if they have
after every such move. -/
theorem run_move {settled : Bool} {moved : TreeSketch.Checked ParseError Builder}
    {framed : Except ParseError Frames} (h : Matches settled outline moved framed)
    {rest : List Token} {moves : List Item}
    (hrest : ∀ {next : Builder} {frames : Frames}, Tracks settled next frames outline →
      (next.run (Text.LineIndex.ofText source) rest >>= finish) =
        lift (treeOfMoves outline frames moves)) :
    ((moved >>= fun next => next.run (Text.LineIndex.ofText source) rest) >>= finish) =
      lift (framed >>= fun frames => treeOfMoves outline frames moves) := by
  cases h with
  | refused fault => rfl
  | moved htracks => exact hrest htracks

/-- Tokens that stand for moves are read without an access that fails, and the tree is that of the
moves. -/
theorem run_eq {settled : Bool} (h : Tracks settled builder frames outline) {tokens : List Token}
    {moves : List Item} (hitems : items (Text.LineIndex.ofText source) tokens = .ok moves)
    (hsettled : settled = true ∨ startsWithEntry moves = true) :
    (builder.run (Text.LineIndex.ofText source) tokens >>= finish) =
      lift (treeOfMoves outline frames moves) := by
  fun_induction items (Text.LineIndex.ofText source) tokens
    generalizing builder frames outline settled moves
  case case1 =>
    cases hitems
    rw [run]
    exact finish_of_nil h hsettled
  case case2 token rest hkind =>
    cases hitems
    rw [run, hkind]
    exact finish_of_nil h hsettled
  case case3 token rest place hname ih =>
    obtain ⟨more, hmore, rfl⟩ := map_eq_ok_iff.mp hitems
    rw [run, hname, treeOfMoves_entry]
    exact run_move (matches_write h _ token) fun htracks => ih htracks hmore (Or.inl rfl)
  case case4 token rest place hdescend ih =>
    obtain ⟨more, hmore, rfl⟩ := map_eq_ok_iff.mp hitems
    obtain rfl : settled = true := hsettled.resolve_right Bool.false_ne_true
    have hnext := startsWithEntry_eq hmore
    rw [run, hdescend, treeOfMoves, outlineFrom, hnext, Bool.not_not]
    by_cases hstop : (peekKind rest = .endOfInput || (peekKind rest).isOperator) = true
    · rw [if_pos hstop]
      simp only [enter, if_pos hstop, place_ofText]
      rfl
    · rw [Bool.eq_false_iff.mpr hstop] at hnext
      rw [if_neg hstop]
      exact (run_move (matches_enter h token (Bool.eq_false_iff.mpr hstop))
        fun htracks => ih htracks hmore (Or.inr hnext)).trans
          (congrArg lift (bind_assoc _ _ _).symm)
  case case5 token rest place hascend ih =>
    obtain ⟨more, hmore, rfl⟩ := map_eq_ok_iff.mp hitems
    obtain rfl : settled = true := hsettled.resolve_right Bool.false_ne_true
    rw [run, hascend, treeOfMoves, outlineFrom]
    exact (run_move (matches_leave h token) fun htracks => ih htracks hmore (Or.inl rfl)).trans
      (congrArg lift (bind_assoc _ _ _).symm)
  case case8 hname hclose _ _ _ _ _ hopen ih =>
    obtain ⟨more, hmore, rfl⟩ := map_eq_ok_iff.mp hitems
    rename_i token kind name close rest _ _ _ _ _
    have hkinds := And.intro (Decidable.not_not.mp hname) (Decidable.not_not.mp hclose)
    have hrun : builder.run (Text.LineIndex.ofText source) (token :: name :: close :: rest) =
        builder.attach (Text.LineIndex.ofText source) ⟨name.text, some ⟨kind, .hint⟩⟩ name >>=
          fun next => next.run (Text.LineIndex.ofText source) rest := by
      have hkind := hintOf_eq_some hopen
      rw [run]
      cases kind <;> simp [hkind, hintTokens, hintOf, hkinds]
    rw [hrun, treeOfMoves_entry]
    exact run_move (matches_write h _ name) fun htracks => ih htracks hmore (Or.inl rfl)
  case case6 | case7 | case9 | case10 | case11 | case12 => cases hitems

end Builder

/-- The tokens of a source are read without an access that fails. -/
theorem treeOfTokens_eq {source : List Char} {tokens : List Token}
    (h : Declarative.tokenize source = .ok tokens) :
    treeOfTokens (Text.LineIndex.ofText source) tokens =
      lift (Declarative.treeOfTokens (Text.LineIndex.ofText source) tokens) := by
  obtain ⟨moves, hmoves⟩ := exists_items_of_tokenize h (Text.LineIndex.ofText source)
  rw [treeOfTokens, Declarative.treeOfTokens]
  split
  · rfl
  · rw [hmoves]
    exact Builder.run_eq .start hmoves (Or.inl rfl)

/-- A declarative source is read without an access that fails, and with the tree that it has. -/
theorem parse_eq (source : String) : parse source = lift (Declarative.parse source) := by
  rw [parse, Declarative.parse]
  split
  · rfl
  · rw [tokenize_eq, rename_lift]
    cases htokens : Declarative.tokenize source.toList with
    | error fault => rfl
    | ok tokens =>
      show rename SourceError.parse (treeOfTokens _ tokens) = lift (Except.mapError _ _)
      rw [treeOfTokens_eq htokens, rename_lift]

end TreeSketch.Declarative.Checked
