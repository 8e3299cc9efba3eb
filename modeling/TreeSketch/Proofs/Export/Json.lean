import Mathlib.Logic.Function.Basic
import TreeSketch.Export.Json
import TreeSketch.Proofs.Text.Decimal

/-!
# JSON text says what it is of

Different JSON values have different texts (`Json.render_injective`), and different trees different values
(`Node.toJson_inj`), so a tree can be told from its JSON text (`Node.render_toJson_inj`).

A text is followed from its start. `readChar?` reads the first character of a string back from its escape, so
two strings that start equal texts are equal, whatever comes behind their quotes. `renderAt_append_inj` says
the same of values, if no digit comes behind them, which could belong to a number. Behind an item or a field
comes a comma or the end of the line, so the items are found one after another.
-/

namespace TreeSketch.Json

open Text (Stops)

/-! ## Strings -/

/-- The number that a hexadecimal digit in lower case stands for. -/
def hexValue (c : Char) : Nat :=
  if c.isDigit then c.toNat - '0'.toNat else c.toNat - 'a'.toNat + 10

/-- The character that a letter behind a backslash stands for. -/
def unescape (c : Char) : Char :=
  if c = 'b' then '\x08' else if c = 'f' then '\x0c' else if c = 'n' then '\n' else if c = 'r' then '\r'
  else if c = 't' then '\t' else c

/-- Reads what stands behind a backslash. -/
def readEscape? : List Char → Option (Char × List Char)
  | 'u' :: _ :: _ :: high :: low :: rest => some (Char.ofNat (16 * hexValue high + hexValue low), rest)
  | c :: rest => some (unescape c, rest)
  | [] => none

/-- Reads the first character of the text between quotes. There is none at the closing quote. -/
def readChar? : List Char → Option (Char × List Char)
  | [] => none
  | c :: rest =>
    if c = '\\' then readEscape? rest else if c = '"' then none else some (c, rest)

theorem hexValue_digitChar : ∀ digit < 16, hexValue (Nat.digitChar digit) = digit := by
  decide

theorem hexDigits_of_lt : ∀ n < 0x10, Text.hexDigits n = [Nat.digitChar n] := by
  decide

theorem hexDigits_of_le : ∀ n < 0x20, 0x10 ≤ n →
    Text.hexDigits n = [Nat.digitChar (n / 16), Nat.digitChar (n % 16)] := by
  decide

/-- An escape of two hexadecimal digits is read as the character with that number. -/
theorem readChar?_code {c : Char} (high low : Nat) (hhigh : high < 16) (hlow : low < 16)
    (h : 16 * high + low = c.toNat) (rest : List Char) :
    readChar? ('\\' :: 'u' :: '0' :: '0' :: Nat.digitChar high :: Nat.digitChar low :: rest) =
      some (c, rest) := by
  rw [readChar?, if_pos rfl, readEscape?, hexValue_digitChar high hhigh, hexValue_digitChar low hlow, h,
    Char.ofNat_toNat]

/-- The characters with an escape of one letter are read back. -/
theorem readChar?_escapeChar_of_mem {c : Char} (h : c ∈ ['"', '\\', '\x08', '\x0c', '\n', '\r', '\t'])
    (rest : List Char) : readChar? (escapeChar c ++ rest) = some (c, rest) := by
  simp only [List.mem_cons, List.not_mem_nil, or_false] at h
  rcases h with rfl | rfl | rfl | rfl | rfl | rfl | rfl <;> rfl

/-- A character is read back from its escape. -/
theorem readChar?_escapeChar (c : Char) (rest : List Char) :
    readChar? (escapeChar c ++ rest) = some (c, rest) := by
  by_cases hletter : c ∈ ['"', '\\', '\x08', '\x0c', '\n', '\r', '\t']
  · exact readChar?_escapeChar_of_mem hletter rest
  · simp only [List.mem_cons, List.not_mem_nil, or_false, not_or] at hletter
    obtain ⟨hquote, hslash, hb, hf, hn, hr, ht⟩ := hletter
    rw [escapeChar, if_neg hquote, if_neg hslash, if_neg hb, if_neg hf, if_neg hn, if_neg hr, if_neg ht]
    by_cases hshort : c.toNat < 0x10
    · rw [if_pos hshort, hexDigits_of_lt _ hshort]
      exact readChar?_code 0 c.toNat (by omega) hshort (by omega) rest
    · rw [if_neg hshort]
      by_cases hcontrol : c.toNat < 0x20
      · rw [if_pos hcontrol, hexDigits_of_le _ hcontrol (by omega)]
        exact readChar?_code _ _ (by omega) (by omega) (by omega) rest
      · rw [if_neg hcontrol, List.singleton_append, readChar?, if_neg hslash, if_neg hquote]

/-- Texts between quotes that start in the same way are the same, whatever comes behind the closing quotes. -/
theorem escape_append_inj {cs ds rest more : List Char}
    (h : cs.flatMap escapeChar ++ '"' :: rest = ds.flatMap escapeChar ++ '"' :: more) :
    cs = ds ∧ rest = more := by
  have hread (c : Char) (text behind : List Char) :
      readChar? ((c :: text).flatMap escapeChar ++ '"' :: behind) =
        some (c, text.flatMap escapeChar ++ '"' :: behind) := by
    rw [List.flatMap_cons, List.append_assoc, readChar?_escapeChar]
  have hend (behind : List Char) : readChar? ([].flatMap escapeChar ++ '"' :: behind) = none := rfl
  induction cs generalizing ds with
  | nil =>
    cases ds with
    | nil => exact ⟨rfl, (List.cons.inj h).2⟩
    | cons d ds =>
      have hfirst := congrArg readChar? h
      rw [hend, hread] at hfirst
      cases hfirst
  | cons c cs ih =>
    have hfirst := congrArg readChar? h
    cases ds with
    | nil =>
      rw [hend, hread] at hfirst
      cases hfirst
    | cons d ds =>
      rw [hread, hread, Option.some.injEq, Prod.mk.injEq] at hfirst
      obtain ⟨rfl, hbehind⟩ := hfirst
      obtain ⟨rfl, hrest⟩ := ih hbehind
      exact ⟨rfl, hrest⟩

/-- So are quoted texts. -/
theorem quote_append_inj {text other : String} {rest more : List Char}
    (h : (quote text).toList ++ rest = (quote other).toList ++ more) : text = other ∧ rest = more := by
  rw [quote, quote, String.toList_ofList, String.toList_ofList, List.cons_append, List.cons_append,
    List.append_assoc, List.append_assoc] at h
  obtain ⟨htext, hrest⟩ := escape_append_inj (List.cons.inj h).2
  exact ⟨String.toList_inj.mp htext, hrest⟩

/-! ## Brackets -/

/-- What follows behind a line between brackets: the other lines, and the closing bracket. -/
def blockTail (closing margin : String) : List String → List Char
  | [] => '\n' :: (margin ++ closing).toList
  | line :: lines => ',' :: '\n' :: (margin ++ "  " ++ line).toList ++ blockTail closing margin lines

variable {opening closing margin : String} {rest more : List Char}

theorem stops_blockTail_append (lines : List String) : Stops (blockTail closing margin lines ++ rest) := by
  cases lines with
  | nil =>
    rintro _ ⟨⟩
    rfl
  | cons line lines =>
    rintro _ ⟨⟩
    rfl

theorem toList_intercalate_lines (inner line : String) (lines : List String) :
    (",\n".intercalate ((line :: lines).map (inner ++ ·))).toList =
      (inner ++ line).toList ++ lines.flatMap fun line => ',' :: '\n' :: (inner ++ line).toList := by
  induction lines generalizing line with
  | nil => simp
  | cons next lines ih =>
    rw [List.map_cons, List.map_cons, String.intercalate_cons_cons, String.toList_append,
      String.toList_append, ← List.map_cons (f := (inner ++ ·)), ih, List.flatMap_cons, List.append_assoc]
    rfl

theorem blockTail_eq (lines : List String) : blockTail closing margin lines =
    (lines.flatMap fun line => ',' :: '\n' :: (margin ++ "  " ++ line).toList) ++
      '\n' :: (margin ++ closing).toList := by
  induction lines with
  | nil => rfl
  | cons line lines ih => rw [blockTail, ih, List.flatMap_cons, List.append_assoc]

/-- Lines between brackets are the opening bracket and what would follow behind another line, but for the comma. -/
theorem toList_block_cons (line : String) (lines : List String) :
    (block opening closing margin (line :: lines)).toList =
      opening.toList ++ (blockTail closing margin (line :: lines)).tail := by
  have hlines := toList_intercalate_lines (margin ++ "  ") line lines
  rw [block, if_neg (by simp)]
  simp only [String.toList_append] at hlines ⊢
  rw [hlines, blockTail, blockTail_eq]
  simp

/-- The text of brackets starts with the opening one. -/
theorem exists_toList_block_eq (opening closing margin : String) (lines : List String) :
    ∃ text, (block opening closing margin lines).toList = opening.toList ++ text := by
  cases lines with
  | nil => exact ⟨closing.toList, String.toList_append⟩
  | cons line lines => exact ⟨_, toList_block_cons line lines⟩

/-- Brackets that start in the same way have the same lines behind the opening one. -/
theorem block_append_inj {lines others : List String} {c : Char} (hclosing : closing.toList = [c])
    (hc : c ≠ '\n')
    (h : (block opening closing margin lines).toList ++ rest =
      (block opening closing margin others).toList ++ more) :
    blockTail closing margin lines ++ rest = blockTail closing margin others ++ more := by
  have hempty : (block opening closing margin []).toList = opening.toList ++ [c] := by
    rw [block, if_pos List.isEmpty_nil, String.toList_append, hclosing]
  cases lines with
  | nil =>
    rw [hempty, List.append_assoc] at h
    cases others with
    | nil =>
      rw [hempty, List.append_assoc] at h
      obtain rfl : rest = more := (List.cons.inj (List.append_cancel_left h)).2
      rfl
    | cons other others =>
      rw [toList_block_cons, List.append_assoc] at h
      exact absurd (List.cons.inj (List.append_cancel_left h)).1 hc
  | cons line lines =>
    rw [toList_block_cons, List.append_assoc] at h
    cases others with
    | nil =>
      rw [hempty, List.append_assoc] at h
      exact absurd (List.cons.inj (List.append_cancel_left h)).1.symm hc
    | cons other others =>
      rw [toList_block_cons, List.append_assoc] at h
      exact congrArg (',' :: ·) (List.append_cancel_left h)

/-- Two texts that go on behind a line go on in the same way, or one of them ends there. -/
theorem blockTail_cons_append_inj {line other : String} {lines others : List String}
    (h : blockTail closing margin (line :: lines) ++ rest =
      blockTail closing margin (other :: others) ++ more) :
    line.toList ++ (blockTail closing margin lines ++ rest) =
      other.toList ++ (blockTail closing margin others ++ more) := by
  have htail (line : String) (lines : List String) (rest : List Char) :
      blockTail closing margin (line :: lines) ++ rest =
        ',' :: '\n' :: ((margin ++ "  ").toList ++
          (line.toList ++ (blockTail closing margin lines ++ rest))) := by
    rw [blockTail, String.toList_append]
    simp only [List.cons_append, List.append_assoc]
  rw [htail, htail] at h
  exact List.append_cancel_left (List.cons.inj (List.cons.inj h).2).2

theorem blockTail_nil_append_ne (line : String) (lines : List String) :
    blockTail closing margin [] ++ rest ≠ blockTail closing margin (line :: lines) ++ more := by
  intro h
  exact absurd (List.cons.inj h).1 (by decide)

/-! ## Values -/

/-- What a value is made of. -/
inductive Form where
  | string
  | number
  | array
  | object
deriving DecidableEq

/-- What a value is made of. -/
def form : Json → Form
  | string _ => .string
  | number _ => .number
  | array _ => .array
  | object _ => .object

/-- What a value is made of whose text starts with a character. -/
def formOf (c : Char) : Form :=
  if c = '"' then .string else if c = '[' then .array else if c = '\x7b' then .object else .number

/-- The first character of a text shows what the value is made of. -/
theorem exists_renderAt_eq_cons (margin : String) (json : Json) :
    ∃ c text, (renderAt margin json).toList = c :: text ∧ formOf c = json.form := by
  cases json with
  | string text =>
    rw [renderAt, quote, String.toList_ofList, List.cons_append]
    exact ⟨_, _, rfl, rfl⟩
  | number n =>
    have hne : (toString n).toList ≠ [] := by
      rw [Nat.toString_eq_repr, Nat.repr, String.toList_ofList]
      exact Nat.toDigits_ne_nil
    obtain ⟨c, text, htext⟩ := List.exists_cons_of_ne_nil hne
    have hdigit : c.isDigit = true := Text.isDigit_of_mem_toString (htext ▸ List.mem_cons_self)
    have hform : ∀ other : Char, other.isDigit = false → c ≠ other := by
      rintro other hother rfl
      rw [hdigit] at hother
      cases hother
    rw [renderAt]
    refine ⟨c, text, htext, ?_⟩
    rw [formOf, if_neg (hform '"' rfl), if_neg (hform '[' rfl), if_neg (hform '\x7b' rfl)]
    rfl
  | array items =>
    obtain ⟨text, htext⟩ := exists_toList_block_eq "[" "]" margin (renderItems (margin ++ "  ") items)
    exact ⟨'[', text, htext, rfl⟩
  | object fields =>
    obtain ⟨text, htext⟩ := exists_toList_block_eq "\x7b" "\x7d" margin (renderFields (margin ++ "  ") fields)
    exact ⟨'\x7b', text, htext, rfl⟩

/-- Values whose texts start in the same way are made of the same. -/
theorem form_eq_of_append_eq {a b : Json}
    (h : (renderAt margin a).toList ++ rest = (renderAt margin b).toList ++ more) : a.form = b.form := by
  obtain ⟨c, text, ha, hc⟩ := exists_renderAt_eq_cons margin a
  obtain ⟨d, other, hb, hd⟩ := exists_renderAt_eq_cons margin b
  rw [ha, hb] at h
  rw [← hc, ← hd, (List.cons.inj h).1]

mutual

/-- Values whose texts start in the same way are the same, whatever comes behind them but digits. -/
theorem renderAt_append_inj (margin : String) : (a : Json) → ∀ (b : Json) (rest more : List Char),
    Stops rest → Stops more →
    (renderAt margin a).toList ++ rest = (renderAt margin b).toList ++ more → a = b ∧ rest = more
  | string text => by
    intro b rest more _ _ h
    have hform := form_eq_of_append_eq h
    cases b with
    | string other =>
      obtain ⟨rfl, hrest⟩ := quote_append_inj h
      exact ⟨rfl, hrest⟩
    | _ => cases hform
  | number n => by
    intro b rest more hrest hmore h
    have hform := form_eq_of_append_eq h
    cases b with
    | number k =>
      obtain ⟨rfl, heq⟩ := Text.toString_append_inj hrest hmore h
      exact ⟨rfl, heq⟩
    | _ => cases hform
  | array items => by
    intro b rest more _ _ h
    have hform := form_eq_of_append_eq h
    cases b with
    | array others =>
      rw [renderAt, renderAt] at h
      obtain ⟨rfl, hrest⟩ := renderItems_append_inj margin items others (block_append_inj rfl (by decide) h)
      exact ⟨rfl, hrest⟩
    | _ => cases hform
  | object fields => by
    intro b rest more _ _ h
    have hform := form_eq_of_append_eq h
    cases b with
    | object others =>
      rw [renderAt, renderAt] at h
      obtain ⟨rfl, hrest⟩ := renderFields_append_inj margin fields others (block_append_inj rfl (by decide) h)
      exact ⟨rfl, hrest⟩
    | _ => cases hform

/-- So are the items of arrays. -/
theorem renderItems_append_inj (margin : String) : (items others : List Json) → {rest more : List Char} →
    blockTail "]" margin (renderItems (margin ++ "  ") items) ++ rest =
      blockTail "]" margin (renderItems (margin ++ "  ") others) ++ more → items = others ∧ rest = more
  | [], [], rest, more, h => ⟨rfl, List.append_cancel_left h⟩
  | [], other :: others, rest, more, h => absurd h (blockTail_nil_append_ne _ _)
  | item :: items, [], rest, more, h => absurd h.symm (blockTail_nil_append_ne _ _)
  | item :: items, other :: others, rest, more, h => by
    rw [renderItems, renderItems] at h
    obtain ⟨rfl, htail⟩ := renderAt_append_inj (margin ++ "  ") item other _ _ (stops_blockTail_append _)
      (stops_blockTail_append _) (blockTail_cons_append_inj h)
    obtain ⟨rfl, hrest⟩ := renderItems_append_inj margin items others htail
    exact ⟨rfl, hrest⟩

/-- So are the fields of objects. -/
theorem renderFields_append_inj (margin : String) : (fields others : List (String × Json)) →
    {rest more : List Char} →
    blockTail "\x7d" margin (renderFields (margin ++ "  ") fields) ++ rest =
      blockTail "\x7d" margin (renderFields (margin ++ "  ") others) ++ more → fields = others ∧ rest = more
  | [], [], rest, more, h => ⟨rfl, List.append_cancel_left h⟩
  | [], (key, value) :: others, rest, more, h => absurd h (blockTail_nil_append_ne _ _)
  | (key, value) :: fields, [], rest, more, h => absurd h.symm (blockTail_nil_append_ne _ _)
  | (key, value) :: fields, (label, other) :: others, rest, more, h => by
    rw [renderFields, renderFields] at h
    have hline := blockTail_cons_append_inj h
    rw [String.toList_append, String.toList_append, String.toList_append, String.toList_append,
      List.append_assoc, List.append_assoc, List.append_assoc, List.append_assoc] at hline
    obtain ⟨rfl, hvalue⟩ := quote_append_inj hline
    obtain ⟨rfl, htail⟩ := renderAt_append_inj (margin ++ "  ") value other _ _ (stops_blockTail_append _)
      (stops_blockTail_append _) (List.append_cancel_left hvalue)
    obtain ⟨rfl, hrest⟩ := renderFields_append_inj margin fields others htail
    exact ⟨rfl, hrest⟩

end

/-- Different values have different texts. -/
theorem render_injective : Function.Injective render := by
  intro a b h
  have hnone : Stops [] := by
    intro c hc
    cases hc
  have htext : (renderAt "" a).toList ++ [] = (renderAt "" b).toList ++ [] := by
    rw [List.append_nil, List.append_nil]
    exact congrArg String.toList h
  exact (renderAt_append_inj "" a b [] [] hnone hnone htext).1

end TreeSketch.Json

namespace TreeSketch.Node

mutual

/-- Different trees are different values. -/
theorem toJson_inj : (a b : Node) → a.toJson = b.toJson → a = b
  | file name, file other, h => by
    rw [toJson, toJson] at h
    simpa using h
  | file name, directory other others, h => by
    rw [toJson, toJson] at h
    simp [Kind.label] at h
  | directory name entries, file other, h => by
    rw [toJson, toJson] at h
    simp [Kind.label] at h
  | directory name entries, directory other others, h => by
    rw [toJson, toJson, Json.object.injEq] at h
    obtain rfl : name = other := by simpa using (List.cons.inj h).1
    have hbelow := List.append_cancel_left h
    congr 1
    -- The key of the entries is left out on both sides or on neither.
    cases entries with
    | nil =>
      cases others with
      | nil => rfl
      | cons other others => cases hbelow
    | cons entry entries =>
      cases others with
      | nil => cases hbelow
      | cons other others => exact toJsonAll_inj _ _ (by simpa using hbelow)

/-- So are different lists of trees. -/
theorem toJsonAll_inj : (as bs : List Node) → toJsonAll as = toJsonAll bs → as = bs
  | [], [], _ => rfl
  | [], b :: bs, h => by
    rw [toJsonAll, toJsonAll] at h
    cases h
  | a :: as, [], h => by
    rw [toJsonAll, toJsonAll] at h
    cases h
  | a :: as, b :: bs, h => by
    rw [toJsonAll, toJsonAll] at h
    obtain ⟨hfirst, hrest⟩ := List.cons.inj h
    rw [toJson_inj a b hfirst, toJsonAll_inj as bs hrest]

end

/-- A tree is known from its JSON text. -/
theorem render_toJson_inj (a b : Node) : a.toJson.render = b.toJson.render ↔ a = b := by
  constructor
  · intro h
    exact toJson_inj a b (Json.render_injective h)
  · intro h
    rw [h]

end TreeSketch.Node
