import TreeSketch.Proofs.Checked.Builder
import TreeSketch.Proofs.Checked.Forest
import TreeSketch.Proofs.Declarative.Places
import TreeSketch.Proofs.Diagram.Isolation

/-!
# Sources of either language

Whatever a source holds, a reader of it that works with offsets, indices and numbers finds what it asks
for. This is said of five readers: the two that make tokens, the one that makes a tree of a declarative
source, and the two that make one tree or all trees of a diagram. They read what the library reads
(`succeeds_of_source`).

The library has branches that no source takes: it refuses tokens in an order that the lexer does not make, and
levels of no width. The checked readers have traps there, and no source is refused for either.
-/

namespace TreeSketch

namespace Checked

/-- The checked reader has this result, and stops at no trap. -/
structure Succeeds {ε α : Type} (reader : Checked ε α) (result : Except ε α) : Prop where
  result_eq : reader = lift result
  ne_trap : ∀ trap, reader ≠ .error (.trap trap)

theorem Succeeds.of_eq {ε α : Type} {reader : Checked ε α} {result : Except ε α}
    (h : reader = lift result) : Succeeds reader result :=
  ⟨h, fun trap => h ▸ lift_ne_trap result trap⟩

end Checked

/-! ## Faults -/

theorem Declarative.ne_unexpectedToken_of_parse {source : String} {found : TokenKind} {place : Place} :
    Declarative.parse source ≠ .error (.parse (.unexpectedToken found place)) := by
  intro h
  rcases Declarative.fault_of_parse h with hfault | ⟨_, _, hfault⟩ | ⟨_, _, htokens, hcause, hfault⟩
  · cases hfault
  · cases hfault
  · cases hfault
    exact Declarative.marks_of_treeOfTokens htokens hcause

namespace Diagram

theorem isAbsence_of_readBlocks {source : List Char} {fault : ParseError}
    (h : readBlocks source = .error fault) : fault.IsAbsence := by
  rw [readBlocks] at h
  split at h
  · cases h
    exact .emptyInput
  · simp only [] at h
    split at h
    · cases h
      exact .noEntries _
    · cases h

/-- A diagram is refused because it has no entries, or because one of them has a fault. -/
theorem isAbsence_or_faults_of_parseAll {source : String} {fault : ParseError}
    (h : parseAll source = .error fault) : fault.IsAbsence ∨ ∃ entry : Entry, entry.Faults fault := by
  rcases bind_eq_error_iff.mp h with hread | ⟨blocks, -, h⟩
  · exact Or.inl (isAbsence_of_readBlocks hread)
  · exact Or.inr (exists_faults_of_forest h)

theorem isAbsence_or_faults_of_parse {source : String} {fault : ParseError}
    (h : parse source = .error fault) : fault.IsAbsence ∨ ∃ entry : Entry, entry.Faults fault := by
  rcases bind_eq_error_iff.mp h with hread | ⟨blocks, -, h⟩
  · exact Or.inl (isAbsence_of_readBlocks hread)
  · split at h
    · cases h
      exact Or.inl (.noEntries _)
    · rcases bind_eq_error_iff.mp h with htrees | ⟨trees, -, h⟩
      · obtain ⟨entry, -, hfaults⟩ := Block.exists_faults_of_trees htrees
        exact Or.inr ⟨entry, hfaults⟩
      · split at h
        · cases h
        · cases h
          exact Or.inl (.noEntries _)

theorem not_unexpectedToken {found : TokenKind} {place : Place} :
    ¬ ((ParseError.unexpectedToken found place).IsAbsence ∨
      ∃ entry : Entry, entry.Faults (.unexpectedToken found place)) := by
  rintro (habsence | ⟨entry, hfaults⟩)
  · cases habsence
  · cases hfaults

/-- The level of an entry with a fault has a width. -/
theorem not_partialUnit_zero {line width : Nat} :
    ¬ ((ParseError.inconsistentIndent line (.partialUnit width 0)).IsAbsence ∨
      ∃ entry : Entry, entry.Faults (.inconsistentIndent line (.partialUnit width 0))) := by
  rintro (habsence | ⟨entry, hfaults⟩)
  · cases habsence
  · cases hfaults with
    | partialUnit hpos _ => exact Nat.lt_irrefl 0 hpos

end Diagram

/-! ## Readers -/

/-- The readers of both languages succeed in every access, whatever the source is. The library refuses no
source for a token where the grammar has none, and no diagram for a level of no width. -/
theorem succeeds_of_source (source : String) :
    (Declarative.Checked.tokenize source.toList).Succeeds (Declarative.tokenize source.toList) ∧
      (Diagram.Checked.tokenize source.toList : Checked ParseError (List Token)).Succeeds
        (.ok (Diagram.tokenize source.toList)) ∧
      (Declarative.Checked.parse source).Succeeds (Declarative.parse source) ∧
      (Diagram.Checked.parse source).Succeeds (Diagram.parse source) ∧
      (Diagram.Checked.parseAll source).Succeeds (Diagram.parseAll source) ∧
      (∀ found place,
        Declarative.parse source ≠ .error (.parse (.unexpectedToken found place)) ∧
          Diagram.parse source ≠ .error (.unexpectedToken found place) ∧
          Diagram.parseAll source ≠ .error (.unexpectedToken found place)) ∧
      ∀ line width,
        Diagram.parse source ≠ .error (.inconsistentIndent line (.partialUnit width 0)) ∧
          Diagram.parseAll source ≠ .error (.inconsistentIndent line (.partialUnit width 0)) := by
  refine ⟨.of_eq (Declarative.Checked.tokenize_eq source.toList),
    .of_eq (Diagram.Checked.tokenize_eq source.toList), .of_eq (Declarative.Checked.parse_eq source),
    .of_eq (Diagram.Checked.parse_eq source), .of_eq (Diagram.Checked.parseAll_eq source), ?_, ?_⟩
  · intro found place
    refine ⟨Declarative.ne_unexpectedToken_of_parse, fun h => ?_, fun h => ?_⟩
    · exact Diagram.not_unexpectedToken (Diagram.isAbsence_or_faults_of_parse h)
    · exact Diagram.not_unexpectedToken (Diagram.isAbsence_or_faults_of_parseAll h)
  · intro line width
    refine ⟨fun h => ?_, fun h => ?_⟩
    · exact Diagram.not_partialUnit_zero (Diagram.isAbsence_or_faults_of_parse h)
    · exact Diagram.not_partialUnit_zero (Diagram.isAbsence_or_faults_of_parseAll h)

end TreeSketch
