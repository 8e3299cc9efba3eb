import Mathlib.Data.List.Nodup
import Mathlib.Logic.Relation
import TreeSketch.Tree.Node

/-!
# The entries that an arena has been given

What an arena becomes follows from the entries that were added to it. A `History` lists them, each with the
number of its parent, and an entry is known by its place in the list. `visit` lists the entries of the tree at an
entry in the order of its walk: those from which one can climb to that entry without passing a file
(`mem_visit_iff`), each of them once (`nodup_visit`), if no entry is older than its parent.
-/

namespace TreeSketch

/-- An entry as it is added to an arena. -/
structure Added where
  name : String
  fixed : Option Verdict
  parent : Option Nat
deriving Repr, DecidableEq

/-- Entries in the order in which they are added. -/
abbrev History := List Added

namespace History

variable {history : History} {root id child parent above : Nat}

/-- The parent of an entry. -/
def parent? (history : History) (id : Nat) : Option Nat :=
  history[id]?.bind (·.parent)

/-- The kind that an entry is said to have when it is added. -/
def kind? (history : History) (id : Nat) : Option Kind :=
  (history[id]?.bind (·.fixed)).map (·.kind)

/-- Every entry is younger than its parent. -/
def Ordered (history : History) : Prop :=
  ∀ id parent, history.parent? id = some parent → parent < id

/-- Climbing from an entry, one comes to another one, or it is that one. -/
def Below (history : History) (above id : Nat) : Prop :=
  Relation.ReflTransGen (fun child parent => history.parent? child = some parent) id above

/-- The entry is in the tree at the root: it is below the root, and nothing on the way, the root included, is
said to be a file. -/
def Shown (history : History) (root id : Nat) : Prop :=
  history.Below root id ∧
    ∀ above, history.Below root above → history.Below above id → above ≠ id → history.kind? above ≠ some .file

/-- The entries that are added below an entry, in order. -/
def children (history : History) (id : Nat) : List Nat :=
  (List.range history.length).filter fun child => id < child ∧ history.parent? child = some id

theorem lt_length_of_parent? (h : history.parent? child = some parent) : child < history.length := by
  by_contra hlength
  rw [parent?, List.getElem?_eq_none (Nat.le_of_not_lt hlength)] at h
  cases h

theorem mem_children_iff (hordered : history.Ordered) :
    child ∈ history.children parent ↔ history.parent? child = some parent := by
  simp only [children, List.mem_filter, List.mem_range, decide_eq_true_eq]
  constructor
  · rintro ⟨-, -, h⟩
    exact h
  · exact fun h => ⟨lt_length_of_parent? h, hordered child parent h, h⟩

theorem bounds_of_mem_children (h : child ∈ history.children id) : id < child ∧ child < history.length := by
  simp only [children, List.mem_filter, List.mem_range, decide_eq_true_eq] at h
  exact ⟨h.2.1, h.1⟩

theorem nodup_children (history : History) (id : Nat) : (history.children id).Nodup :=
  List.nodup_range.filter _

/-- The entries of the tree at an entry, in the order of its walk. -/
def visit (history : History) (id : Nat) : List Nat :=
  id :: if history.kind? id = some .file then []
    else (history.children id).attach.flatMap fun child => visit history child.1
termination_by history.length - id
decreasing_by
  have := bounds_of_mem_children child.2
  omega

theorem visit_eq (history : History) (id : Nat) :
    history.visit id =
      id :: if history.kind? id = some .file then [] else (history.children id).flatMap history.visit := by
  have hattach : (history.children id).attach.flatMap (fun child => history.visit child.1) =
      (history.children id).flatMap history.visit := by
    rw [← List.flatMap_map Subtype.val history.visit, List.attach_map_subtype_val]
  rw [visit, hattach]

/-- What holds of an entry if it holds of its children holds of every entry. -/
theorem children_induction (history : History) {P : Nat → Prop}
    (step : ∀ id, (∀ child ∈ history.children id, P child) → P id) (id : Nat) : P id := by
  induction hleft : history.length - id using Nat.strongRecOn generalizing id with
  | ind left ih =>
    refine step id fun child hchild => ih _ ?_ child rfl
    have := bounds_of_mem_children hchild
    omega

/-! ## Climbing -/

namespace Below

theorem self (history : History) (id : Nat) : history.Below id id :=
  Relation.ReflTransGen.refl

theorem of_parent? (h : history.Below above parent) (hparent : history.parent? child = some parent) :
    history.Below above child :=
  Relation.ReflTransGen.head hparent h

theorem trans (h : history.Below root above) (hbelow : history.Below above id) : history.Below root id :=
  Relation.ReflTransGen.trans hbelow h

/-- There is one way to climb. -/
theorem climb (h : history.Below above child) (hne : above ≠ child)
    (hparent : history.parent? child = some parent) : history.Below above parent := by
  rcases Relation.ReflTransGen.cases_head h with rfl | ⟨other, hother, hbelow⟩
  · exact absurd rfl hne
  · obtain rfl : other = parent := Option.some.inj (hother.symm.trans hparent)
    exact hbelow

theorem le (h : history.Below above id) (hordered : history.Ordered) : above ≤ id := by
  induction h with
  | refl => exact Nat.le_refl _
  | tail _ hparent ih => exact Nat.le_trans (Nat.le_of_lt (hordered _ _ hparent)) ih

theorem total (h : history.Below root id) (hother : history.Below above id) :
    history.Below root above ∨ history.Below above root := by
  have hunique : Relator.RightUnique fun child parent => history.parent? child = some parent :=
    fun _ _ _ hfirst hsecond => Option.some.inj (hfirst.symm.trans hsecond)
  exact (Relation.ReflTransGen.total_of_right_unique hunique h hother).symm

end Below

/-! ## The entries of a tree -/

theorem Shown.self (hordered : history.Ordered) : history.Shown root root := by
  refine ⟨.self history root, fun above hroot habove hne => absurd ?_ hne⟩
  exact Nat.le_antisymm (habove.le hordered) (hroot.le hordered)

/-- What the tree at a child shows is shown at the parent, unless that is a file. -/
theorem Shown.of_child (h : history.Shown child id) (hordered : history.Ordered)
    (hparent : history.parent? child = some parent) (hfile : history.kind? parent ≠ some .file) :
    history.Shown parent id := by
  refine ⟨((Below.self history parent).of_parent? hparent).trans h.1, fun above hbelow habove hne => ?_⟩
  rcases h.1.total habove with hunder | hover
  · exact h.2 above hunder habove hne
  · by_cases heq : above = child
    · exact h.2 above (heq ▸ Below.self history child) habove hne
    · have hle := (hover.climb heq hparent).le hordered
      rwa [Nat.le_antisymm hle (hbelow.le hordered)]

theorem self_mem_visit (history : History) (id : Nat) : id ∈ history.visit id := by
  rw [visit]
  exact List.mem_cons_self

/-- What is listed below an entry is listed wherever the entry is. -/
theorem mem_visit_trans (h : parent ∈ history.visit root) (hid : id ∈ history.visit parent) :
    id ∈ history.visit root := by
  induction root using children_induction history with
  | step root ih =>
    rw [visit_eq] at h ⊢
    rcases List.mem_cons.mp h with rfl | h
    · rwa [← visit_eq]
    · refine List.mem_cons_of_mem root ?_
      split at h
      · cases h
      · rename_i hfile
        obtain ⟨child, hchild, hparent⟩ := List.mem_flatMap.mp h
        rw [if_neg hfile]
        exact List.mem_flatMap.mpr ⟨child, hchild, ih child hchild hparent⟩

theorem mem_visit_of_parent? (hordered : history.Ordered) (hparent : history.parent? child = some parent)
    (hfile : history.kind? parent ≠ some .file) : child ∈ history.visit parent := by
  rw [visit_eq, if_neg hfile]
  refine List.mem_cons_of_mem parent (List.mem_flatMap.mpr ⟨child, ?_, self_mem_visit history child⟩)
  exact (mem_children_iff hordered).mpr hparent

/-- The tree at an entry has the entries that are shown in it. -/
theorem mem_visit_iff (hordered : history.Ordered) : id ∈ history.visit root ↔ history.Shown root id := by
  constructor
  · intro h
    induction root using children_induction history with
    | step root ih =>
      rw [visit_eq] at h
      rcases List.mem_cons.mp h with rfl | h
      · exact Shown.self hordered
      · split at h
        · cases h
        · rename_i hfile
          obtain ⟨child, hchild, hid⟩ := List.mem_flatMap.mp h
          exact (ih child hchild hid).of_child hordered ((mem_children_iff hordered).mp hchild) hfile
  · rintro ⟨hbelow, hfiles⟩
    induction hbelow using Relation.ReflTransGen.head_induction_on with
    | refl => exact self_mem_visit history _
    | @head child parent hparent hbelow ih =>
      have hlt := hordered child parent hparent
      have hunder := (Below.self history parent).of_parent? hparent
      have hmem := ih fun above hroot habove hne =>
        hfiles above hroot (habove.of_parent? hparent) fun heq => by
          have := habove.le hordered
          omega
      refine mem_visit_trans hmem (mem_visit_of_parent? hordered hparent ?_)
      exact hfiles parent hbelow hunder (Nat.ne_of_lt hlt)

/-- Every entry is listed once. -/
theorem nodup_visit (hordered : history.Ordered) (root : Nat) : (history.visit root).Nodup := by
  induction root using children_induction history with
  | step root ih =>
    have hbelow {child id : Nat} (hid : id ∈ history.visit child) : history.Below child id :=
      ((mem_visit_iff hordered).mp hid).1
    rw [visit_eq, List.nodup_cons]
    split
    · exact ⟨List.not_mem_nil, List.nodup_nil⟩
    · refine ⟨fun hmem => ?_, List.nodup_flatMap.mpr ⟨ih, (history.nodup_children root).imp_of_mem ?_⟩⟩
      · obtain ⟨child, hchild, hroot⟩ := List.mem_flatMap.mp hmem
        have hle := (hbelow hroot).le hordered
        have hlt := (bounds_of_mem_children hchild).1
        omega
      · -- Of two children of one entry, neither is below the other.
        have hapart {child other : Nat} (hchild : child ∈ history.children root)
            (hother : other ∈ history.children root) (hne : child ≠ other)
            (hunder : history.Below child other) : False := by
          have hle := (hunder.climb hne ((mem_children_iff hordered).mp hother)).le hordered
          have hlt := (bounds_of_mem_children hchild).1
          omega
        intro child other hchild hother hne id hid hid'
        rcases (hbelow hid).total (hbelow hid') with hunder | hunder
        · exact hapart hchild hother hne hunder
        · exact hapart hother hchild hne.symm hunder

end History

end TreeSketch
