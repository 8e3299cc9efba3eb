import Mathlib.Data.List.Basic
import TreeSketch.Proofs.Checked.Position

/-!
# Positions by counting bytes

Any number is an offset, also one inside a character or beyond the end. `position_spec` says what its position in a
text is by the bytes of the text alone: the line is the number of line feeds among the bytes before it, and the
column counts from behind the last of them.

In UTF-8 the byte of a line feed is a part of no other character (`lineFeed_notMem_utf8EncodeChar`), so the table of
line starts can be made from the bytes (`startsAfter_eq_map_idxsOf`). What `LineIndex.exists_position_eq` says of the
table is then carried over: the number of starts up to an offset (`countP_startsAfter`) and the start of its line
(`lineStart_of_getElem?`).
-/

namespace TreeSketch.Text

/-- The byte of a line feed. -/
def lineFeed : UInt8 := 0x0A

/-- The bytes of a text in UTF-8. -/
def bytes (cs : List Char) : List UInt8 :=
  cs.flatMap String.utf8EncodeChar

theorem bytes_toList (source : String) : bytes source.toList = source.toUTF8.data.toList := by
  have hencode : source.toUTF8 = source.toList.utf8Encode := by
    conv_lhs => rw [← String.ofList_toList (s := source)]
    exact String.toByteArray_ofList
  rw [hencode, List.utf8Encode, List.data_toByteArray]
  rfl

/-! ## Line feeds among the bytes -/

theorem lineFeed_notMem_utf8EncodeChar {c : Char} (h : c ≠ '\n') : lineFeed ∉ String.utf8EncodeChar c := by
  have hval : c.val.toNat ≠ 10 := fun hten => h (Char.ext (UInt32.toNat_inj.mp hten))
  have hbyte (n : Nat) (hn : n % 256 ≠ 10) : lineFeed ≠ UInt8.ofNat n := by
    intro heq
    have htoNat := congrArg UInt8.toNat heq
    rw [UInt8.toNat_ofNat'] at htoNat
    exact hn htoNat.symm
  -- One case for each number of bytes. Where there are several, all of them are 128 or more.
  fun_cases String.utf8EncodeChar c with
  | case1 =>
    rw [List.mem_singleton]
    exact hbyte _ (by omega)
  | case2 =>
    simp only [List.mem_cons, List.not_mem_nil, or_false, not_or]
    exact ⟨hbyte _ (by omega), hbyte _ (by omega)⟩
  | case3 =>
    simp only [List.mem_cons, List.not_mem_nil, or_false, not_or]
    exact ⟨hbyte _ (by omega), hbyte _ (by omega), hbyte _ (by omega)⟩
  | case4 =>
    simp only [List.mem_cons, List.not_mem_nil, or_false, not_or]
    exact ⟨hbyte _ (by omega), hbyte _ (by omega), hbyte _ (by omega), hbyte _ (by omega)⟩

theorem idxsOf_utf8EncodeChar (c : Char) (offset : Nat) :
    (String.utf8EncodeChar c).idxsOf lineFeed offset = if c = '\n' then [offset] else [] := by
  by_cases hc : c = '\n'
  · rw [if_pos hc, hc]
    rfl
  · rw [if_neg hc, List.idxsOf_eq_nil_iff]
    intro byte hbyte
    rw [beq_eq_false_iff_ne]
    rintro rfl
    exact lineFeed_notMem_utf8EncodeChar hc hbyte

/-- Lines start behind the bytes that are line feeds. -/
theorem startsAfter_eq_map_idxsOf (offset : Nat) (cs : List Char) :
    LineIndex.startsAfter offset cs = ((bytes cs).idxsOf lineFeed offset).map (· + 1) := by
  induction cs generalizing offset with
  | nil => rfl
  | cons c cs ih =>
    have hbytes : bytes (c :: cs) = String.utf8EncodeChar c ++ bytes cs := List.flatMap_cons
    rw [LineIndex.startsAfter, ih, hbytes, List.idxsOf_append, String.length_utf8EncodeChar,
      idxsOf_utf8EncodeChar, List.map_append]
    by_cases hc : c = '\n'
    · rw [if_pos hc, if_pos hc, hc]
      rfl
    · rw [if_neg hc, if_neg hc]
      rfl

theorem mem_startsAfter_iff {cs : List Char} {start : Nat} :
    start ∈ LineIndex.startsAfter 0 cs ↔ ∃ i, start = i + 1 ∧ (bytes cs)[i]? = some lineFeed := by
  rw [startsAfter_eq_map_idxsOf, List.mem_map]
  refine exists_congr fun i => ?_
  rw [List.mem_idxsOf_iff_exists_getElem_pos, List.getElem?_eq_some_iff, and_comm, eq_comm]
  simp only [beq_iff_eq]

/-- An element stands before a bound as often as it has places there. -/
theorem countP_lt_idxsOf (xs : List UInt8) (x : UInt8) (bound : Nat) :
    (xs.idxsOf x).countP (· < bound) = (xs.take bound).count x := by
  have hbefore : ((xs.take bound).idxsOf x).countP (· < bound) = (xs.take bound).count x := by
    rw [← List.length_idxsOf (s := 0), List.countP_eq_length]
    intro i hi
    have hlt := List.lt_add_of_mem_idxsOf i hi
    have hlength := List.length_take_le bound xs
    simp only [decide_eq_true_eq]
    omega
  have hafter : ((xs.drop bound).idxsOf x (0 + (xs.take bound).length)).countP (· < bound) = 0 := by
    rw [List.countP_eq_zero]
    intro i hi
    have hge := List.ge_of_mem_idxsOf i hi
    have hlt := List.lt_add_of_mem_idxsOf i hi
    rw [List.length_drop] at hlt
    rw [List.length_take] at hge hlt
    simp only [decide_eq_true_eq]
    omega
  conv_lhs => rw [← List.take_append_drop bound xs]
  rw [List.idxsOf_append, List.countP_append, hbefore, hafter, Nat.add_zero]

/-- As many lines start behind the start of a text and up to an offset as there are line feeds before the offset. -/
theorem countP_startsAfter (cs : List Char) (offset : Nat) :
    (LineIndex.startsAfter 0 cs).countP (· ≤ offset) = ((bytes cs).take offset).count lineFeed := by
  rw [startsAfter_eq_map_idxsOf, List.countP_map, ← countP_lt_idxsOf]
  rfl

/-! ## The line of an offset -/

/-- The line of an offset starts here: at the start of the text or behind a line feed, with no line feed between
here and the offset. -/
structure LineStart (bytes : List UInt8) (offset start : Nat) : Prop where
  le : start ≤ offset
  behind : start = 0 ∨ ∃ i, start = i + 1 ∧ bytes[i]? = some lineFeed
  within : ∀ i, start ≤ i → i < offset → bytes[i]? ≠ some lineFeed

/-- The last line that starts up to an offset is the line of the offset. -/
theorem lineStart_of_getElem? {cs : List Char} {offset start : Nat}
    (h : (0 :: LineIndex.startsAfter 0 cs)[(LineIndex.startsAfter 0 cs).countP (· ≤ offset)]? = some start)
    (hle : start ≤ offset) : LineStart (bytes cs) offset start := by
  refine ⟨hle, ?_, fun i hstart hoffset hbyte => ?_⟩
  · exact (List.mem_cons.mp (List.mem_of_getElem? h)).imp_right mem_startsAfter_iff.mp
  · -- A line that starts behind byte `i` would be among the counted ones, and start behind the last of them.
    have hsorted := LineIndex.pairwise_starts cs
    obtain ⟨hlast, hstarts⟩ := List.getElem?_eq_some_iff.mp h
    have hmem : i + 1 ∈ 0 :: LineIndex.startsAfter 0 cs :=
      List.mem_cons_of_mem _ (mem_startsAfter_iff.mpr ⟨i, rfl, hbyte⟩)
    obtain ⟨j, hj, hget⟩ := List.getElem_of_mem hmem
    have hcounted := (LineIndex.le_iff_lt_countP hsorted offset hj).mp (by omega)
    rw [List.countP_cons_of_pos (by simp)] at hcounted
    rcases Nat.lt_or_eq_of_le (Nat.le_of_lt_succ hcounted) with hlt | heq
    · have := List.pairwise_iff_getElem.mp hsorted _ _ hj hlast hlt
      omega
    · subst heq
      omega

/-! ## Positions -/

namespace Position

/-- The order of positions: by line, and on one line by column. -/
def Before (p q : Position) : Prop :=
  p.line < q.line ∨ p.line = q.line ∧ p.column < q.column

theorem Before.not_before {p q : Position} (h : p.Before q) : ¬ q.Before p := by
  rw [Before] at h ⊢
  omega

end Position

theorem position_before (cs : List Char) {a b : Nat} (h : a < b) :
    ((LineIndex.ofText cs).position a).Before ((LineIndex.ofText cs).position b) := by
  obtain ⟨start, hstart, hle, hposition⟩ := LineIndex.exists_position_eq cs a
  obtain ⟨next, hnext, -, hposition'⟩ := LineIndex.exists_position_eq cs b
  have hlines : (LineIndex.startsAfter 0 cs).countP (· ≤ a) ≤ (LineIndex.startsAfter 0 cs).countP (· ≤ b) :=
    List.countP_mono_left fun other _ hother => by
      simp only [decide_eq_true_eq] at hother ⊢
      omega
  rw [hposition, hposition', Position.Before]
  rcases Nat.lt_or_eq_of_le hlines with hlt | heq
  · exact .inl hlt
  · -- Both offsets are on one line, so their columns count from one start.
    rw [← heq, hstart] at hnext
    obtain rfl := Option.some.inj hnext
    refine .inr ⟨heq, ?_⟩
    show a - start < b - start
    omega

theorem position_before_iff (cs : List Char) (a b : Nat) :
    ((LineIndex.ofText cs).position a).Before ((LineIndex.ofText cs).position b) ↔ a < b := by
  refine ⟨fun h => ?_, position_before cs⟩
  rcases Nat.lt_trichotomy a b with hlt | rfl | hgt
  · exact hlt
  · exact absurd h h.not_before
  · exact absurd (position_before cs hgt) h.not_before

/-- The position of an offset is found, and it counts the bytes of the text: the line feeds before the offset, and
the bytes from the start of its line. So the offset can be told from its position, and positions have the order of the
offsets. -/
theorem position_spec {ε : Type} (source : String) :
    let index := LineIndex.ofText source.toList
    let bytes := source.toUTF8.data.toList
    index.lineCount = bytes.count lineFeed + 1 ∧
    (∀ offset, (Checked.position index offset : Checked ε Position) = .ok (index.position offset) ∧
      (index.position offset).line = (bytes.take offset).count lineFeed ∧
      ∃ start, LineStart bytes offset start ∧ (index.position offset).column = offset - start ∧
        index.starts[(index.position offset).line]? = some start ∧
        start + (index.position offset).column = offset) ∧
    ∀ a b, (index.position a).Before (index.position b) ↔ a < b := by
  intro index bytes
  have hbytes : bytes = Text.bytes source.toList := (bytes_toList source).symm
  refine ⟨?_, fun offset => ⟨Checked.position_ofText source.toList offset, ?_⟩, position_before_iff source.toList⟩
  · show (0 :: LineIndex.startsAfter 0 source.toList).toArray.size = bytes.count lineFeed + 1
    rw [List.size_toArray, List.length_cons, startsAfter_eq_map_idxsOf, List.length_map, List.length_idxsOf, hbytes]
  · obtain ⟨start, hstart, hle, hposition⟩ := LineIndex.exists_position_eq source.toList offset
    have hfound : index.starts[(LineIndex.startsAfter 0 source.toList).countP (· ≤ offset)]? = some start :=
      List.getElem?_toArray.trans hstart
    rw [hposition, hbytes]
    exact ⟨countP_startsAfter source.toList offset, start, lineStart_of_getElem? hstart hle, rfl, hfound,
      Nat.add_sub_cancel' hle⟩

end TreeSketch.Text
