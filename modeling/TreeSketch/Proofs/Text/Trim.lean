import Mathlib.Data.List.DropRight
import TreeSketch.Text.Trim

/-!
# Cuts at the ends of a text

What `Text.dropEndWhile` leaves of a text is a part at its start that does not end in a dropped character,
and a text without such an end is left alone. `Text.trim` loses blank characters only.
-/

namespace TreeSketch.Text

/-- A slash takes one byte. -/
theorem byteSize_slashes (count : Nat) : byteSize (List.replicate count '/') = count := by
  induction count with
  | zero => rfl
  | succ count ih =>
    rw [List.replicate_succ, byteSize_cons, ih, Nat.add_comm]
    rfl

theorem dropEndWhile_eq_rdropWhile (p : Char → Bool) (cs : List Char) :
    dropEndWhile p cs = cs.rdropWhile p := rfl

/-- What is left is the start of the text. -/
theorem dropEndWhile_isPrefix (p : Char → Bool) (cs : List Char) : dropEndWhile p cs <+: cs :=
  List.rdropWhile_prefix p cs

/-- What is left does not end in a dropped character. -/
theorem not_of_getLast?_dropEndWhile {p : Char → Bool} {cs : List Char} {c : Char}
    (h : (dropEndWhile p cs).getLast? = some c) : p c = false := by
  rw [dropEndWhile_eq_rdropWhile] at h
  have hne : cs.rdropWhile p ≠ [] := fun hnil => by simp [hnil] at h
  have hlast := List.rdropWhile_last_not p cs hne
  rw [List.getLast?_eq_some_getLast hne, Option.some.injEq] at h
  rwa [h, Bool.not_eq_true] at hlast

/-- A text that does not end in a dropped character is left alone. -/
theorem dropEndWhile_eq_self {p : Char → Bool} {cs : List Char}
    (h : ∀ c, cs.getLast? = some c → p c = false) : dropEndWhile p cs = cs := by
  rw [dropEndWhile_eq_rdropWhile, List.rdropWhile_eq_self_iff]
  intro hne
  rw [h _ (List.getLast?_eq_some_getLast hne)]
  exact Bool.false_ne_true

theorem dropEndWhile_concat {p : Char → Bool} {c : Char} (h : p c = true) (cs : List Char) :
    dropEndWhile p (cs ++ [c]) = dropEndWhile p cs := by
  rw [dropEndWhile_eq_rdropWhile, List.rdropWhile_concat_pos p cs c h]
  rfl

theorem dropEndWhile_append_run {p : Char → Bool} {c : Char} (h : p c = true) (cs : List Char)
    (count : Nat) : dropEndWhile p (cs ++ List.replicate count c) = dropEndWhile p cs := by
  induction count with
  | zero => rw [List.replicate_zero, List.append_nil]
  | succ count ih => rw [List.replicate_succ', ← List.append_assoc, dropEndWhile_concat h, ih]

/-- What is dropped of a run of one character is as many of it as the text gets shorter by. -/
theorem dropEndWhile_append_replicate (c : Char) (cs : List Char) :
    dropEndWhile (· = c) cs ++ List.replicate (cs.length - (dropEndWhile (· = c) cs).length) c =
      cs := by
  have hsplit : dropEndWhile (· = c) cs ++ cs.rtakeWhile (· = c) = cs :=
    List.rdropWhile_append_rtakeWhile
  have hlength := congrArg List.length hsplit
  rw [List.length_append] at hlength
  have hrun : cs.rtakeWhile (· = c) =
      List.replicate (cs.length - (dropEndWhile (· = c) cs).length) c := by
    refine List.eq_replicate_iff.mpr ⟨by omega, fun d hd => ?_⟩
    simpa using List.mem_rtakeWhile_imp hd
  rw [← hrun, hsplit]

/-- What is dropped at the end does not depend on how a text starts. -/
theorem dropEndWhile_cons_congr {p : Char → Bool} {cs ds : List Char}
    (h : dropEndWhile p cs = dropEndWhile p ds) (c : Char) :
    dropEndWhile p (c :: cs) = dropEndWhile p (c :: ds) := by
  have hdrop : cs.reverse.dropWhile p = ds.reverse.dropWhile p := List.reverse_injective h
  unfold dropEndWhile
  rw [List.reverse_cons, List.reverse_cons, List.dropWhile_append, List.dropWhile_append, hdrop]

/-- Behind a text that does not end in a dropped character, the end is dropped of what is appended. -/
theorem dropEndWhile_append {p : Char → Bool} {cs : List Char}
    (h : ∀ c, cs.getLast? = some c → p c = false) (ds : List Char) :
    dropEndWhile p (cs ++ ds) = cs ++ dropEndWhile p ds := by
  induction ds using List.reverseRecOn with
  | nil => rw [List.append_nil, dropEndWhile_eq_self h, dropEndWhile_eq_rdropWhile, List.rdropWhile_nil,
      List.append_nil]
  | append_singleton ds d ih =>
    rw [← List.append_assoc]
    cases hd : p d with
    | true => rw [dropEndWhile_concat hd, dropEndWhile_concat hd, ih]
    | false =>
      have hkept (text : List Char) : dropEndWhile p (text ++ [d]) = text ++ [d] := by
        rw [dropEndWhile_eq_rdropWhile, List.rdropWhile_concat_neg p text d (by simp [hd])]
      rw [hkept, hkept, List.append_assoc]

theorem dropEndWhile_eq_nil {p : Char → Bool} {cs : List Char} (h : ∀ c ∈ cs, p c = true) :
    dropEndWhile p cs = [] := by
  rw [dropEndWhile_eq_rdropWhile, List.rdropWhile_eq_nil_iff]
  exact h

/-- A character that is not dropped stays. -/
theorem mem_dropEndWhile {p : Char → Bool} {cs : List Char} {c : Char} (hc : c ∈ cs)
    (h : p c = false) : c ∈ dropEndWhile p cs := by
  have hsplit : cs.rdropWhile p ++ cs.rtakeWhile p = cs := List.rdropWhile_append_rtakeWhile
  rw [← hsplit] at hc
  refine (List.mem_append.mp hc).resolve_right fun hrun => ?_
  rw [List.mem_rtakeWhile_imp hrun] at h
  cases h

/-- A text is what is left of it, with blank characters before and behind. -/
theorem exists_trim_eq (text : List Char) : ∃ before after : List Char,
    (∀ c ∈ before, isBlank c = true) ∧ (∀ c ∈ after, isBlank c = true) ∧
      text = before ++ trim text ++ after := by
  refine ⟨text.takeWhile isBlank, (trimStart text).rtakeWhile isBlank, ?_, ?_, ?_⟩
  · intro c hc
    exact List.mem_takeWhile_imp hc
  · intro c hc
    exact List.mem_rtakeWhile_imp hc
  · have hend : trim text ++ (trimStart text).rtakeWhile isBlank = trimStart text :=
      List.rdropWhile_append_rtakeWhile
    rw [List.append_assoc, hend]
    exact List.takeWhile_append_dropWhile.symm

theorem trim_subset (text : List Char) : trim text ⊆ text := by
  have hend : trim text ⊆ trimStart text := (dropEndWhile_isPrefix isBlank (trimStart text)).subset
  exact List.Subset.trans hend (List.dropWhile_sublist _).subset

/-- A character that is not blank is not trimmed. -/
theorem mem_trim {text : List Char} {c : Char} (hc : c ∈ text) (hblank : isBlank c = false) :
    c ∈ trim text := by
  have hstart : c ∈ trimStart text := by
    rw [← List.takeWhile_append_dropWhile (p := isBlank) (l := text)] at hc
    refine (List.mem_append.mp hc).resolve_left fun hblanks => ?_
    rw [List.mem_takeWhile_imp hblanks] at hblank
    cases hblank
  exact mem_dropEndWhile hstart hblank

/-- A blank character at the end is trimmed. -/
theorem trim_concat {c : Char} (hblank : isBlank c = true) (text : List Char) :
    trim (text ++ [c]) = trim text := by
  rw [trim, trim, trimStart, trimStart, List.dropWhile_append]
  split
  · rename_i hall
    rw [List.dropWhile_cons_of_pos hblank, List.dropWhile_nil, List.isEmpty_iff.mp hall]
  · exact dropEndWhile_concat hblank _

end TreeSketch.Text
