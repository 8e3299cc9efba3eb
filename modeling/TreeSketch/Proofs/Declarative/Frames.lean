import TreeSketch.Declarative.Parser
import TreeSketch.Proofs.Diagram.Label
import TreeSketch.Proofs.Except
import TreeSketch.Proofs.Tree.Outline

/-!
# The entries that are entered

`Frames` does not keep the tree that is being read; it knows the youngest entry of every level, from the
innermost one out. `Frames.After` says how that is tied to the entry that was read last, and each move of
the source keeps it (`After.write`, `After.enter`, `After.leave`).

`Runs` states rule by rule what a list of moves does. Along a run the invariant holds, so an outline that is
read is nested and has one root (`Runs.follows`, `Runs.root`), and its tree shows its entries in order, each
at its depth (`exists_outline_of_parse`).
-/

namespace TreeSketch.Declarative

namespace Frames

/-- The entry `last` was read last. -/
structure After (frames : Frames) (last : Nat × Label) : Prop where
  depth_le : frames.depth ≤ last.1 + 1
  /-- No level from that of `last` on has another entry. -/
  latest_eq : last.1 ≤ frames.depth → frames.latest = none ∨ frames.latest = some last.2
  /-- The level below `last` has been entered through it. -/
  entered : frames.depth = last.1 + 1 →
    frames.latest = none ∧ frames.outer.head? = some (some last.2) ∧ ¬ last.2.IsFile
  /-- The outermost level has its entry. -/
  rooted : ∃ root, (frames.latest :: frames.outer).getLast? = some (some root)

/-- What is written comes back from a diagram, and only the first entry stands on the outermost level. -/
theorem write_eq_ok {frames next : Frames} {label : Label} {place : Place}
    (h : frames.write label place = .ok next) :
    Diagram.readsAsName label.name.toList = true ∧ (frames.outer = [] → frames.latest = none) ∧
      next = { frames with latest := some label } := by
  rw [write] at h
  split at h
  · cases h
  · rename_i hname
    split at h
    · cases h
    · rename_i hroot
      cases h
      refine ⟨by simpa using hname, fun houter => ?_, rfl⟩
      simpa [houter] using hroot

theorem enter_eq_ok {frames next : Frames} {place : Place} (h : frames.enter place = .ok next) :
    ∃ label, frames.latest = some label ∧ ¬ label.IsFile ∧
      next = ⟨none, some label :: frames.outer⟩ := by
  rw [enter] at h
  cases hlatest : frames.latest with
  | none =>
    rw [hlatest] at h
    cases h
  | some label =>
    rw [hlatest] at h
    simp only [] at h
    split at h
    · cases h
    · rename_i hfile
      cases h
      exact ⟨label, rfl, hfile, rfl⟩

theorem leave_eq_ok {frames next : Frames} {place : Place} (h : frames.leave place = .ok next) :
    frames.outer = next.latest :: next.outer := by
  rw [leave] at h
  split at h
  · cases h
  · rename_i houter
    cases h
    exact houter

namespace After

variable {frames next : Frames} {last : Nat × Label} {place : Place}

/-- The first entry is the root. -/
theorem start {label : Label} (h : Frames.start.write label place = .ok next) :
    next.After (0, label) := by
  obtain ⟨-, -, rfl⟩ := write_eq_ok h
  exact ⟨Nat.zero_le 1, fun _ => Or.inr rfl, nofun, label, rfl⟩

/-- An entry is not below a file, nor too deep, nor another root. -/
theorem follows (h : frames.After last) {label : Label}
    (hwrite : frames.write label place = .ok next) :
    Outline.Follows last (frames.depth, label) ∧ 0 < frames.depth := by
  obtain ⟨-, hroot, -⟩ := write_eq_ok hwrite
  constructor
  · rcases Nat.lt_or_eq_of_le h.depth_le with hle | hbelow
    · exact Or.inl (Nat.le_of_lt_succ hle)
    · exact Or.inr ⟨hbelow, (h.entered hbelow).2.2⟩
  · rw [depth, List.length_pos_iff]
    intro houter
    obtain ⟨root, hrooted⟩ := h.rooted
    rw [houter, hroot houter] at hrooted
    cases hrooted

theorem write (h : frames.After last) {label : Label}
    (hwrite : frames.write label place = .ok next) : next.After (frames.depth, label) := by
  obtain ⟨root, hrooted⟩ := h.rooted
  have hdeep := (h.follows hwrite).2
  obtain ⟨-, -, rfl⟩ := write_eq_ok hwrite
  refine ⟨Nat.le_succ _, fun _ => Or.inr rfl, fun hself => ?_, root, ?_⟩
  · exact absurd hself (Nat.succ_ne_self _).symm
  · obtain ⟨latest, outer⟩ := frames
    cases outer with
    | nil => cases hdeep
    | cons outside outer => rwa [List.getLast?_cons_cons] at hrooted ⊢

theorem enter (h : frames.After last) (henter : frames.enter place = .ok next) :
    next.After last := by
  obtain ⟨label, hlatest, hfile, rfl⟩ := enter_eq_ok henter
  obtain ⟨root, hrooted⟩ := h.rooted
  have hdepth : Frames.depth ⟨none, some label :: frames.outer⟩ = frames.depth + 1 := rfl
  -- A level that has been entered and not written on cannot be entered.
  have hle : frames.depth ≤ last.1 := by
    rcases Nat.lt_or_eq_of_le h.depth_le with hle | hbelow
    · exact Nat.le_of_lt_succ hle
    · rw [(h.entered hbelow).1] at hlatest
      cases hlatest
  refine ⟨Nat.succ_le_succ hle, fun _ => Or.inl rfl, fun hbelow => ⟨rfl, ?_, ?_⟩, root, ?_⟩
  · rcases h.latest_eq (by omega) with hnone | hlast
    · rw [hnone] at hlatest
      cases hlatest
    · rw [← hlast, hlatest, List.head?_cons]
  · rcases h.latest_eq (by omega) with hnone | hlast
    · rw [hnone] at hlatest
      cases hlatest
    · obtain rfl : label = last.2 := Option.some.inj (hlatest.symm.trans hlast)
      exact hfile
  · rwa [List.getLast?_cons_cons, ← hlatest]

theorem leave (h : frames.After last) (hleave : frames.leave place = .ok next) :
    next.After last := by
  have houter := leave_eq_ok hleave
  obtain ⟨root, hrooted⟩ := h.rooted
  have hdepth : frames.depth = next.depth + 1 := by
    rw [depth, houter, List.length_cons, depth]
  have hle := h.depth_le
  refine ⟨by omega, fun hlast => ?_, fun hbelow => by omega, root, ?_⟩
  · have hhead := (h.entered (by omega)).2.1
    rw [houter, List.head?_cons] at hhead
    exact Or.inr (Option.some.inj hhead)
  · rwa [houter, List.getLast?_cons_cons] at hrooted

end After

end Frames

/-! ## Runs -/

/-- The moves lead from the frames through the entries of the outline. -/
inductive Runs : Frames → List Item → Outline → Prop
  | done {frames : Frames} : Runs frames [] []
  | entry {frames next : Frames} {label : Label} {place : Place} {rest : List Item}
    {below : Outline} (hwrite : frames.write label place = .ok next)
    (hrest : Runs next rest below) :
    Runs frames (.entry label place :: rest) ((frames.depth, label) :: below)
  | descend {frames next : Frames} {place : Place} {rest : List Item} {outline : Outline}
    (henter : frames.enter place = .ok next) (hrest : Runs next rest outline) :
    Runs frames (.descend place :: rest) outline
  | ascend {frames next : Frames} {place : Place} {rest : List Item} {outline : Outline}
    (hleave : frames.leave place = .ok next) (hrest : Runs next rest outline) :
    Runs frames (.ascend place :: rest) outline

theorem runs_of_outlineFrom {frames : Frames} {moves : List Item} {outline : Outline}
    (h : outlineFrom frames moves = .ok outline) : Runs frames moves outline := by
  induction moves generalizing frames outline with
  | nil =>
    cases h
    exact .done
  | cons move rest ih =>
    cases move with
    | entry label place =>
      obtain ⟨next, hwrite, h⟩ := bind_eq_ok_iff.mp h
      obtain ⟨below, hbelow, h⟩ := bind_eq_ok_iff.mp h
      cases h
      exact .entry hwrite (ih hbelow)
    | descend place =>
      rw [outlineFrom] at h
      split at h
      · cases h
      · obtain ⟨next, henter, h⟩ := bind_eq_ok_iff.mp h
        exact .descend henter (ih h)
    | ascend place =>
      obtain ⟨next, hleave, h⟩ := bind_eq_ok_iff.mp h
      exact .ascend hleave (ih h)

namespace Runs

variable {frames : Frames} {moves : List Item} {outline : Outline}

/-- The entries after `last` follow it step by step, and none of them is another root. -/
theorem follows {last : Nat × Label} (h : Runs frames moves outline) (hafter : frames.After last) :
    List.IsChain Outline.Follows (last :: outline) ∧ ∀ entry ∈ outline, 0 < entry.1 := by
  induction h generalizing last with
  | done => exact ⟨List.IsChain.singleton last, nofun⟩
  | entry hwrite hrest ih =>
    obtain ⟨hchain, hdeep⟩ := ih (hafter.write hwrite)
    obtain ⟨hfollows, hpos⟩ := hafter.follows hwrite
    exact ⟨List.isChain_cons_cons.mpr ⟨hfollows, hchain⟩, List.forall_mem_cons.mpr ⟨hpos, hdeep⟩⟩
  | descend henter hrest ih => exact ih (hafter.enter henter)
  | ascend hleave hrest ih => exact ih (hafter.leave hleave)

/-- Every name in an outline comes back from a diagram. -/
theorem readsAsName (h : Runs frames moves outline) :
    ∀ entry ∈ outline, Diagram.readsAsName entry.2.name.toList = true := by
  induction h with
  | done => exact nofun
  | entry hwrite hrest ih => exact List.forall_mem_cons.mpr ⟨(Frames.write_eq_ok hwrite).1, ih⟩
  | descend henter hrest ih => exact ih
  | ascend hleave hrest ih => exact ih

/-- A source starts with an entry, and everything else is below it. -/
theorem root (h : Runs .start moves outline) (hne : outline ≠ []) :
    ∃ label below, outline = (0, label) :: below ∧ outline.IsChain Outline.Follows ∧
      ∀ entry ∈ below, 0 < entry.1 := by
  cases h with
  | done => exact absurd rfl hne
  | @entry _ next label place rest below hwrite hrest =>
    obtain ⟨hchain, hdeep⟩ := hrest.follows (Frames.After.start hwrite)
    exact ⟨label, below, rfl, hchain, hdeep⟩
  | descend henter hrest => cases henter
  | ascend hleave hrest => cases hleave

end Runs

/-- The tree of a source shows the entries of its outline in order, each at its depth. -/
theorem exists_outline_of_parse {source : String} {tree : Node} (h : parse source = .ok tree) :
    ∃ tokens moves outline, tokenize source.toList = .ok tokens ∧
      items (Text.LineIndex.ofText source.toList) tokens = .ok moves ∧
      Runs .start moves outline ∧ List.Forall₂ Outline.Shows outline tree.walk := by
  rw [parse] at h
  split at h
  · cases h
  · obtain ⟨tokens, htokens, h⟩ := bind_eq_ok_iff.mp h
    rw [mapError_eq_ok_iff] at htokens h
    rw [treeOfTokens] at h
    split at h
    · cases h
    · obtain ⟨moves, hmoves, h⟩ := bind_eq_ok_iff.mp h
      obtain ⟨outline, houtline, h⟩ := bind_eq_ok_iff.mp h
      have hruns := runs_of_outlineFrom houtline
      refine ⟨tokens, moves, outline, htokens, hmoves, hruns, ?_⟩
      have hne : outline ≠ [] := by
        rintro rfl
        cases h
      obtain ⟨label, below, rfl, hchain, hdeep⟩ := hruns.root hne
      have hshown := Outline.forall₂_assemble hchain
      have hsingle : Outline.assemble ((0, label) :: below) = _ :=
        Outline.assemble_eq_singleton hdeep
      rw [Outline.trees, hsingle] at h
      obtain rfl := Except.ok.inj h
      rwa [hsingle, List.flatMap_singleton, ← Node.walk_eq_preorder] at hshown

end TreeSketch.Declarative
