import TreeSketch.Proofs.Declarative.Frames

/-!
# Which moves make a tree

`outlineFrom` follows the moves of a source with a stack of levels and refuses a move for one of four reasons.
`Admits` says the same without a stack: it looks at the entries before a move and at the depth alone. The two
agree on every list of moves (`exists_outlineFrom_iff`).

What ties them is that each level knows the youngest entry of its depth. `Holds` states this for a stack of
levels, and every move keeps it. Right after a `>` the innermost level is empty, which is why an entry has to
come next (`Frames.Awaits`).
-/

namespace TreeSketch.Declarative

open Diagram (readsAsName)

/-- The label of the youngest entry at a depth, when `seen` lists the entries, the youngest first. -/
def youngest (depth : Int) (seen : List (Int × Label)) : Option Label :=
  (seen.find? (·.1 = depth)).map (·.2)

/-- The moves can follow the entries `seen`, of which the youngest comes first, at the depth `depth`. -/
def Admits (seen : List (Int × Label)) (depth : Int) : List Item → Prop
  | [] => True
  | .entry label _ :: rest =>
    readsAsName label.name.toList = true ∧ (seen ≠ [] → depth ≠ 0) ∧
      Admits ((depth, label) :: seen) depth rest
  | .descend _ :: rest =>
    startsWithEntry rest = true ∧ (∀ label ∈ youngest depth seen, ¬ label.IsFile) ∧
      Admits seen (depth + 1) rest
  | .ascend _ :: rest => 1 ≤ depth ∧ Admits seen (depth - 1) rest

@[simp] theorem youngest_nil (depth : Int) : youngest depth [] = none := rfl

@[simp] theorem youngest_cons_self (depth : Int) (label : Label) (seen : List (Int × Label)) :
    youngest depth ((depth, label) :: seen) = some label := by
  simp [youngest]

theorem youngest_cons_of_ne {depth other : Int} (h : other ≠ depth) (label : Label)
    (seen : List (Int × Label)) : youngest depth ((other, label) :: seen) = youngest depth seen := by
  simp [youngest, h]

/-! ## Levels -/

/-- Each of the levels, of which the innermost comes first, has an entry and knows the youngest one. -/
def Holds (seen : List (Int × Label)) : List (Option Label) → Prop
  | [] => True
  | latest :: outer =>
    latest.isSome = true ∧ latest = youngest outer.length seen ∧ Holds seen outer

/-- An entry that is at least as deep as all the levels is on none of them. -/
theorem Holds.cons {seen : List (Int × Label)} {levels : List (Option Label)} (h : Holds seen levels)
    {depth : Int} (hdepth : (levels.length : Int) ≤ depth) (label : Label) :
    Holds ((depth, label) :: seen) levels := by
  induction levels with
  | nil => trivial
  | cons latest outer ih =>
    obtain ⟨hsome, hlatest, houter⟩ := h
    rw [List.length_cons] at hdepth
    have hne : depth ≠ outer.length := by omega
    refine ⟨hsome, ?_, ih houter (by omega)⟩
    rw [youngest_cons_of_ne hne, hlatest]

namespace Frames

/-- Every level that is entered has an entry, and knows the youngest one. -/
def Settled (frames : Frames) (seen : List (Int × Label)) : Prop :=
  Holds seen (frames.latest :: frames.outer)

/-- The innermost level waits for its first entry. -/
structure Awaits (frames : Frames) (seen : List (Int × Label)) : Prop where
  latest_eq : frames.latest = none
  outer : Holds seen frames.outer
  first : frames.outer = [] → seen = []

theorem awaits_start : start.Awaits [] :=
  ⟨rfl, trivial, fun _ => rfl⟩

variable {frames next : Frames} {seen : List (Int × Label)} {label : Label} {place : Place}

/-- Beside the root there is no room once anything has been read. -/
theorem rooted_iff (h : frames.Settled seen ∨ frames.Awaits seen) :
    (frames.outer = [] → frames.latest = none) ↔ (seen ≠ [] → (frames.depth : Int) ≠ 0) := by
  have hdepth : (frames.depth : Int) = 0 ↔ frames.outer = [] := by
    simp [depth]
  rw [ne_eq, ne_eq, hdepth]
  rcases h with ⟨hsome, hlatest, -⟩ | h
  · have hne : seen ≠ [] := by
      rintro rfl
      simp [hlatest] at hsome
    have hlatest : frames.latest ≠ none := Option.isSome_iff_ne_none.mp hsome
    simp [hne, hlatest]
  · constructor
    · intro _ hseen houter
      exact hseen (h.first houter)
    · intro _ _
      exact h.latest_eq

theorem write_eq_ok_iff :
    frames.write label place = .ok next ↔
      readsAsName label.name.toList = true ∧ (frames.outer = [] → frames.latest = none) ∧
        next = { frames with latest := some label } := by
  refine ⟨write_eq_ok, ?_⟩
  rintro ⟨hreads, hroot, rfl⟩
  rw [write, hreads]
  simpa using hroot

theorem settled_of_write (h : frames.Settled seen ∨ frames.Awaits seen) (label : Label) :
    ({ frames with latest := some label } : Frames).Settled ((frames.depth, label) :: seen) := by
  have houter : Holds seen frames.outer := h.elim (·.2.2) (·.outer)
  exact ⟨rfl, (youngest_cons_self _ _ _).symm, houter.cons (Int.le_refl _) label⟩

/-- A settled level can be entered unless its youngest entry is a file. -/
theorem exists_enter_iff (h : frames.Settled seen) (place : Place) :
    (∃ next, frames.enter place = .ok next) ↔
      ∀ label ∈ youngest frames.depth seen, ¬ label.IsFile := by
  obtain ⟨hsome, hlatest, -⟩ := h
  obtain ⟨label, hlabel⟩ := Option.isSome_iff_exists.mp hsome
  have hyoungest : youngest frames.depth seen = some label := by rw [← hlabel, hlatest]; rfl
  rw [hyoungest, enter, hlabel]
  simp only [Option.mem_some, forall_eq']
  constructor
  · rintro ⟨next, henter⟩ hfile
    rw [if_pos (show label.fixed.map (·.kind) = some .file from hfile)] at henter
    cases henter
  · intro hfile
    exact ⟨_, if_neg hfile⟩

theorem awaits_of_enter (h : frames.Settled seen) (henter : frames.enter place = .ok next) :
    next.Awaits seen ∧ next.depth = frames.depth + 1 := by
  obtain ⟨label, hlabel, -, rfl⟩ := enter_eq_ok henter
  refine ⟨⟨rfl, ?_, nofun⟩, rfl⟩
  rw [Settled, hlabel] at h
  exact h

theorem exists_leave_iff (frames : Frames) (place : Place) :
    (∃ next, frames.leave place = .ok next) ↔ 1 ≤ (frames.depth : Int) := by
  obtain ⟨latest, outer⟩ := frames
  cases outer with
  | nil => simp [leave, depth]
  | cons outside outer =>
    refine iff_of_true ⟨_, rfl⟩ ?_
    rw [depth, List.length_cons]
    omega

theorem settled_of_leave (h : Holds seen frames.outer) (hleave : frames.leave place = .ok next) :
    next.Settled seen ∧ (next.depth : Int) = frames.depth - 1 := by
  have houter := leave_eq_ok hleave
  refine ⟨?_, ?_⟩
  · rwa [houter] at h
  · rw [depth, depth, houter, List.length_cons]
    omega

end Frames

/-! ## Runs -/

/-- The stack of levels lets the same moves pass as the entries before them do. -/
theorem exists_outlineFrom_iff {frames : Frames} {seen : List (Int × Label)} {moves : List Item}
    (h : frames.Settled seen ∨ frames.Awaits seen ∧ startsWithEntry moves = true) :
    (∃ outline, outlineFrom frames moves = .ok outline) ↔ Admits seen frames.depth moves := by
  induction moves generalizing frames seen with
  | nil => simp [outlineFrom, Admits]
  | cons move rest ih =>
    cases move with
    | entry label place =>
      have hsettled : frames.Settled seen ∨ frames.Awaits seen := h.imp_right And.left
      have hnext : (∃ outline, outlineFrom { frames with latest := some label } rest = .ok outline) ↔
          Admits ((frames.depth, label) :: seen) frames.depth rest :=
        ih (Or.inl (Frames.settled_of_write hsettled label))
      have hbelow : (∃ outline, outlineFrom frames (.entry label place :: rest) = .ok outline) ↔
          ∃ next, frames.write label place = .ok next ∧
            ∃ below, outlineFrom next rest = .ok below := by
        rw [outlineFrom, exists_bind_eq_ok_iff]
        simp only [exists_bind_eq_ok_iff, Except.ok.injEq, exists_eq', and_true]
      simp only [hbelow, Frames.write_eq_ok_iff, Frames.rooted_iff hsettled, Admits, ← hnext]
      constructor
      · rintro ⟨_, ⟨hreads, hroot, rfl⟩, hrest⟩
        exact ⟨hreads, hroot, hrest⟩
      · rintro ⟨hreads, hroot, hrest⟩
        exact ⟨_, ⟨hreads, hroot, rfl⟩, hrest⟩
    | descend place =>
      have hsettled : frames.Settled seen := h.resolve_right fun hawaits => Bool.false_ne_true hawaits.2
      have hstep (hstarts : startsWithEntry rest = true) :
          (∃ outline, outlineFrom frames (.descend place :: rest) = .ok outline) ↔
            ∃ next, frames.enter place = .ok next ∧ ∃ outline, outlineFrom next rest = .ok outline := by
        rw [outlineFrom, hstarts]
        exact exists_bind_eq_ok_iff
      rw [Admits, ← Frames.exists_enter_iff hsettled place]
      by_cases hstarts : startsWithEntry rest = true
      · rw [hstep hstarts]
        constructor
        · rintro ⟨next, henter, hrest⟩
          obtain ⟨hawaits, hdepth⟩ := Frames.awaits_of_enter hsettled henter
          rw [ih (Or.inr ⟨hawaits, hstarts⟩), hdepth] at hrest
          exact ⟨hstarts, ⟨next, henter⟩, hrest⟩
        · rintro ⟨-, ⟨next, henter⟩, hrest⟩
          obtain ⟨hawaits, hdepth⟩ := Frames.awaits_of_enter hsettled henter
          refine ⟨next, henter, (ih (Or.inr ⟨hawaits, hstarts⟩)).mpr ?_⟩
          rwa [hdepth]
      · simp [outlineFrom, hstarts]
    | ascend place =>
      have hsettled : frames.Settled seen := h.resolve_right fun hawaits => Bool.false_ne_true hawaits.2
      have houter : Holds seen frames.outer := hsettled.2.2
      rw [outlineFrom, exists_bind_eq_ok_iff, Admits, ← Frames.exists_leave_iff frames place]
      constructor
      · rintro ⟨next, hleave, hrest⟩
        obtain ⟨hnext, hdepth⟩ := Frames.settled_of_leave houter hleave
        rw [ih (Or.inl hnext), hdepth] at hrest
        exact ⟨⟨next, hleave⟩, hrest⟩
      · rintro ⟨⟨next, hleave⟩, hrest⟩
        obtain ⟨hnext, hdepth⟩ := Frames.settled_of_leave houter hleave
        refine ⟨next, hleave, (ih (Or.inl hnext)).mpr ?_⟩
        rwa [hdepth]

end TreeSketch.Declarative
