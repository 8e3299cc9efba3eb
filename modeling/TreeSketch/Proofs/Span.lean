import TreeSketch.Proofs.Text.Position
import TreeSketch.Token

/-!
# Spans of tokens

A token spans the bytes from `start` up to `stop`. `Token.Spans` says which piece of a text these bytes are, so
that a span which cuts a character in two spans nothing. `Token.InOrder` says that tokens lie one behind the
other between two offsets; it is composed along the text (`InOrder.append`), and what it says of all tokens
and of any two of them is `InOrder.bounds` and `InOrder.pairwise`.
-/

namespace TreeSketch.Token

/-- The bytes that the token spans are the piece of the text. -/
def Spans (text piece : List Char) (token : Token) : Prop :=
  Text.HasAt text token.start piece ∧ token.stop = token.start + Text.byteSize piece

/-- A token of a text spans it, where it stands. -/
theorem spans_ofText {text piece : List Char} {offset : Nat} (h : Text.HasAt text offset piece)
    (kind : TokenKind) : (ofText kind piece offset).Spans text piece :=
  ⟨h, rfl⟩

theorem toList_text_ofText (kind : TokenKind) (piece : List Char) (offset : Nat) :
    (ofText kind piece offset).text.toList = piece :=
  String.toList_ofList

/-- The tokens lie between two offsets, one behind the other. -/
def InOrder (start stop : Nat) : List Token → Prop
  | [] => start ≤ stop
  | token :: rest => start ≤ token.start ∧ token.start ≤ token.stop ∧ InOrder token.stop stop rest

namespace InOrder

variable {start middle stop : Nat} {tokens more : List Token}

theorem le (h : InOrder start stop tokens) : start ≤ stop := by
  induction tokens generalizing start with
  | nil => exact h
  | cons token rest ih => exact Nat.le_trans h.1 (Nat.le_trans h.2.1 (ih h.2.2))

/-- The first token may lie further behind the start. -/
theorem of_le {before : Nat} (hbefore : before ≤ start) (h : InOrder start stop tokens) :
    InOrder before stop tokens := by
  cases tokens with
  | nil => exact Nat.le_trans hbefore h
  | cons token rest => exact ⟨Nat.le_trans hbefore h.1, h.2⟩

theorem append (h : InOrder start middle tokens) (hmore : InOrder middle stop more) :
    InOrder start stop (tokens ++ more) := by
  induction tokens generalizing start with
  | nil => exact hmore.of_le h
  | cons token rest ih => exact ⟨h.1, h.2.1, ih h.2.2⟩

/-- A token that may be left out. -/
theorem optional {p : Prop} [Decidable p] {token : Token} (hstart : start ≤ token.start)
    (hspan : token.start ≤ token.stop) (hstop : token.stop ≤ stop) :
    InOrder start stop (if p then [] else [token]) := by
  split
  · exact Nat.le_trans hstart (Nat.le_trans hspan hstop)
  · exact ⟨hstart, hspan, hstop⟩

theorem bounds (h : InOrder start stop tokens) :
    ∀ token ∈ tokens, start ≤ token.start ∧ token.start ≤ token.stop ∧ token.stop ≤ stop := by
  induction tokens generalizing start with
  | nil => exact List.forall_mem_nil _
  | cons token rest ih =>
    obtain ⟨hstart, hspan, hrest⟩ := h
    refine List.forall_mem_cons.mpr ⟨⟨hstart, hspan, hrest.le⟩, fun later hlater => ?_⟩
    obtain ⟨hlow, hbounds⟩ := ih hrest later hlater
    exact ⟨Nat.le_trans hstart (Nat.le_trans hspan hlow), hbounds⟩

/-- No two tokens overlap, and none lies before an earlier one. -/
theorem pairwise (h : InOrder start stop tokens) :
    tokens.Pairwise fun token next => token.start ≤ next.start ∧ token.stop ≤ next.start := by
  induction tokens generalizing start with
  | nil => exact List.Pairwise.nil
  | cons token rest ih =>
    obtain ⟨-, hspan, hrest⟩ := h
    refine List.pairwise_cons.mpr ⟨fun later hlater => ?_, ih hrest⟩
    have hlow := (hrest.bounds later hlater).1
    exact ⟨Nat.le_trans hspan hlow, hlow⟩

end InOrder

end TreeSketch.Token
