import Mathlib.Data.List.Forall2
import Mathlib.Data.List.TakeWhile
import TreeSketch.Proofs.Tree.Preorder
import TreeSketch.Tree.Outline

/-!
# Outlines and the trees they list

`Outline.assemble` builds the trees of an outline from the back. This module says what it builds, in both
directions:

* `trees_of_shows`: an outline that shows trees in preorder gives these trees back;
* `forall₂_assemble`: the trees of a *nested* outline list its entries in preorder, at the same depths, each
  once and in order.

An outline is nested when no entry is more than one level below the entry before it, and never below an
entry that the source says is a file. Without the first condition a level would be missing in the trees, and
without the second `Label.close` would drop the entries below a file.
-/

namespace TreeSketch

/-- What stands on the right of a relation between lists has a partner on the left. -/
theorem exists_mem_of_forall₂ {α β : Type} {R : α → β → Prop} {xs : List α} {ys : List β}
    (h : List.Forall₂ R xs ys) {y : β} (hy : y ∈ ys) : ∃ x ∈ xs, R x y := by
  induction h with
  | nil => cases hy
  | cons hxy _ ih =>
    rcases List.mem_cons.mp hy with rfl | hy
    · exact ⟨_, List.mem_cons_self, hxy⟩
    · obtain ⟨x, hx, hxy⟩ := ih hy
      exact ⟨x, List.mem_cons_of_mem _ hx, hxy⟩

/-- Only a directory has entries. -/
theorem Node.kind_of_children_ne_nil {node : Node} (h : node.children ≠ []) :
    node.kind = .directory := by
  cases node with
  | file name => exact absurd rfl h
  | directory name children => rfl

namespace Label

@[simp] theorem name_close (label : Label) (children : List Node) :
    (label.close children).name = label.name := by
  unfold close
  split <;> rfl

@[simp] theorem kind_close (label : Label) (children : List Node) :
    (label.close children).kind = (label.verdict children).kind := by
  unfold close
  split <;> rename_i h <;> rw [h] <;> rfl

/-- The source says that the entry is a file. -/
def IsFile (label : Label) : Prop :=
  label.fixed.map (·.kind) = some .file

/-- An entry keeps the trees below it, unless the source says that it is a file. -/
theorem children_close {label : Label} {children : List Node} (h : label.IsFile → children = []) :
    (label.close children).children = children := by
  unfold close
  split
  case h_1 hfile =>
    -- The kind was inferred from the children, or it is fixed and there are none.
    cases hfixed : label.fixed with
    | none =>
      rw [verdict, hfixed, Option.getD_none, Verdict.infer_kind] at hfile
      cases children with
      | nil => rfl
      | cons _ _ => simp at hfile
    | some fixed =>
      rw [verdict, hfixed, Option.getD_some] at hfile
      have hchildren : children = [] := h (by rw [IsFile, hfixed, Option.map_some, hfile])
      rw [hchildren, Node.children]
  case h_2 => rfl

end Label

namespace Outline

/-! ## The roots of assembled trees -/

private theorem takeWhile_eq_nil_of_head {α : Type} {p : α → Bool} {xs : List α}
    (h : ∀ x ∈ xs.head?, p x = false) : xs.takeWhile p = [] := by
  cases xs with
  | nil => rfl
  | cons x xs => rw [List.takeWhile_cons_of_neg (by simp [h x rfl])]

private theorem dropWhile_eq_self_of_head {α : Type} {p : α → Bool} {xs : List α}
    (h : ∀ x ∈ xs.head?, p x = false) : xs.dropWhile p = xs := by
  cases xs with
  | nil => rfl
  | cons x xs => rw [List.dropWhile_cons_of_neg (by simp [h x rfl])]

theorem assemble_cons (depth : Nat) (label : Label) (rest : Outline) :
    assemble ((depth, label) :: rest) =
      (depth, label.close (((assemble rest).takeWhile fun tree => depth < tree.1).map (·.2))) ::
        (assemble rest).dropWhile fun tree => depth < tree.1 := rfl

/-- Every root stands at the depth of an entry. -/
theorem exists_mem_of_mem_assemble {outline : Outline} {tree : Nat × Node}
    (h : tree ∈ assemble outline) : ∃ entry ∈ outline, entry.1 = tree.1 := by
  induction outline with
  | nil => cases h
  | cons entry rest ih =>
    rw [assemble_cons, List.mem_cons] at h
    rcases h with rfl | h
    · exact ⟨entry, List.mem_cons_self, rfl⟩
    · obtain ⟨other, hmem, heq⟩ := ih ((List.dropWhile_sublist _).subset h)
      exact ⟨other, List.mem_cons_of_mem _ hmem, heq⟩

/-- The roots climb: each stands at most as deep as the one before it. -/
theorem pairwise_assemble (outline : Outline) :
    (assemble outline).Pairwise fun first second => second.1 ≤ first.1 := by
  induction outline with
  | nil => exact List.Pairwise.nil
  | cons entry rest ih =>
    rw [assemble_cons, List.pairwise_cons]
    have hsorted := ih.sublist (List.dropWhile_sublist fun tree => decide (entry.1 < tree.1))
    refine ⟨?_, hsorted⟩
    intro tree htree
    -- The first root that is not below the entry bounds all the others.
    have hhead := List.head?_dropWhile_not (fun tree => decide (entry.1 < tree.1)) (assemble rest)
    generalize (assemble rest).dropWhile (fun tree => decide (entry.1 < tree.1)) = beside at *
    cases beside with
    | nil => cases htree
    | cons first others =>
      have hfirst : first.1 ≤ entry.1 := by simpa using hhead
      rcases List.mem_cons.mp htree with rfl | hothers
      · exact hfirst
      · exact Nat.le_trans ((List.pairwise_cons.mp hsorted).1 tree hothers) hfirst

/-- No root is deeper than the first entry. -/
theorem le_of_mem_assemble {entry : Nat × Label} {rest : Outline} {tree : Nat × Node}
    (h : tree ∈ assemble (entry :: rest)) : tree.1 ≤ entry.1 := by
  have hsorted := pairwise_assemble (entry :: rest)
  rw [assemble_cons] at h hsorted
  rcases List.mem_cons.mp h with rfl | hrest
  · exact Nat.le_refl _
  · exact (List.pairwise_cons.mp hsorted).1 tree hrest

/-- What follows stands beside what comes before, if it starts at no greater depth. -/
theorem assemble_append {outline more : Outline}
    (h : ∀ entry ∈ outline, ∀ next ∈ more.head?, next.1 ≤ entry.1) :
    assemble (outline ++ more) = assemble outline ++ assemble more := by
  induction outline with
  | nil => rfl
  | cons entry rest ih =>
    obtain ⟨hentry, hrest⟩ := List.forall_mem_cons.mp h
    have hstop : ∀ tree ∈ (assemble more).head?, decide (entry.1 < tree.1) = false := by
      intro tree htree
      cases more with
      | nil => cases htree
      | cons next more =>
        have hdepth := le_of_mem_assemble (List.mem_of_mem_head? htree)
        exact decide_eq_false (Nat.not_lt.mpr (Nat.le_trans hdepth (hentry next rfl)))
    have htake : (assemble rest ++ assemble more).takeWhile (fun tree => entry.1 < tree.1) =
        (assemble rest).takeWhile fun tree => entry.1 < tree.1 := by
      rw [List.takeWhile_append, takeWhile_eq_nil_of_head hstop, List.append_nil]
      split
      · rename_i hall
        exact ((List.takeWhile_prefix _).eq_of_length hall).symm
      · rfl
    have hdrop : (assemble rest ++ assemble more).dropWhile (fun tree => entry.1 < tree.1) =
        ((assemble rest).dropWhile fun tree => entry.1 < tree.1) ++ assemble more := by
      rw [List.dropWhile_append, dropWhile_eq_self_of_head hstop]
      split
      · rename_i hall
        rw [List.isEmpty_iff.mp hall, List.nil_append]
      · rfl
    obtain ⟨depth, label⟩ := entry
    rw [List.cons_append, assemble_cons, assemble_cons, ih hrest, htake, hdrop, List.cons_append]

/-- What follows the next root stands beside what comes before. -/
theorem trees_append_root (outline : Outline) (label : Label) (below : Outline) :
    trees (outline ++ (0, label) :: below) = trees outline ++ trees ((0, label) :: below) := by
  have hroot : ∀ entry ∈ outline, ∀ next ∈ ((0, label) :: below).head?, next.1 ≤ entry.1 := by
    rintro entry - next ⟨⟩
    exact Nat.zero_le _
  rw [trees, assemble_append hroot, List.map_append, trees, trees]

/-- An outline in which every entry but the first is below it has one tree. -/
theorem assemble_eq_singleton {label : Label} {rest : Outline} {depth : Nat}
    (h : ∀ entry ∈ rest, depth < entry.1) :
    assemble ((depth, label) :: rest) = [(depth, label.close ((assemble rest).map (·.2)))] := by
  have hall : ∀ tree ∈ assemble rest, decide (depth < tree.1) = true := by
    intro tree htree
    obtain ⟨entry, hmem, heq⟩ := exists_mem_of_mem_assemble htree
    rw [decide_eq_true_eq, ← heq]
    exact h entry hmem
  rw [assemble_cons, List.takeWhile_eq_self_iff.mpr hall, List.dropWhile_eq_nil_iff.mpr hall]

/-! ## From trees to outlines and back -/

/-- The tree entry stands where the outline says, under the outline's label. -/
def Shows (entry : Nat × Label) (shown : Nat × Node) : Prop :=
  entry.1 = shown.1 ∧ entry.2.close shown.2.children = shown.2

/-- An entry takes the trees one level below it, up to the first tree that is not below it. -/
theorem assemble_cons_of_level {depth : Nat} {label : Label} {below rest : Outline}
    {children : List Node}
    (hbelow : assemble (below ++ rest) = children.map ((depth + 1, ·)) ++ assemble rest)
    (hrest : ∀ tree ∈ (assemble rest).head?, tree.1 ≤ depth) :
    assemble ((depth, label) :: (below ++ rest)) =
      (depth, label.close children) :: assemble rest := by
  have hlevel : ∀ tree ∈ children.map ((depth + 1, ·)), decide (depth < tree.1) = true := by
    intro tree htree
    obtain ⟨child, -, rfl⟩ := List.mem_map.mp htree
    exact decide_eq_true (Nat.lt_succ_self depth)
  have hnone : ∀ tree ∈ (assemble rest).head?, decide (depth < tree.1) = false := by
    intro tree htree
    exact decide_eq_false (Nat.not_lt.mpr (hrest tree htree))
  have hnodes : (children.map ((depth + 1, ·))).map (·.2) = children := by
    rw [List.map_map]
    exact List.map_id _
  rw [assemble_cons, hbelow, List.takeWhile_append_of_pos hlevel,
    List.dropWhile_append_of_pos hlevel, takeWhile_eq_nil_of_head hnone,
    dropWhile_eq_self_of_head hnone, List.append_nil, hnodes]

mutual

/-- A tree that an outline shows is assembled, whatever entries follow it that are not below its root. -/
theorem assemble_of_shows (depth : Nat) (rest : Outline)
    (hrest : ∀ tree ∈ (assemble rest).head?, tree.1 ≤ depth) : (node : Node) →
    {outline : Outline} → List.Forall₂ Shows outline (node.preorder depth) →
    assemble (outline ++ rest) = (depth, node) :: assemble rest
  | .file name, outline, h => by
    obtain ⟨⟨own, label⟩, below, ⟨hdepth, hclose⟩, hbelow, rfl⟩ := List.forall₂_cons_right_iff.mp h
    obtain rfl : own = depth := hdepth
    obtain rfl := List.forall₂_nil_right_iff.mp hbelow
    have hnone : assemble ([] ++ rest) = [].map ((own + 1, ·)) ++ assemble rest := rfl
    rw [List.cons_append, assemble_cons_of_level hnone hrest]
    exact congrArg (fun node => (own, node) :: assemble rest) hclose
  | .directory name children, outline, h => by
    obtain ⟨⟨own, label⟩, below, ⟨hdepth, hclose⟩, hbelow, rfl⟩ := List.forall₂_cons_right_iff.mp h
    obtain rfl : own = depth := hdepth
    have hchildren := assembleAll_of_shows (own + 1) rest
      (fun tree htree => Nat.le_succ_of_le (hrest tree htree)) children hbelow
    rw [List.cons_append, assemble_cons_of_level hchildren hrest]
    exact congrArg (fun node => (own, node) :: assemble rest) hclose

/-- Trees that an outline shows are assembled one by one. -/
theorem assembleAll_of_shows (depth : Nat) (rest : Outline)
    (hrest : ∀ tree ∈ (assemble rest).head?, tree.1 ≤ depth) : (nodes : List Node) →
    {outline : Outline} → List.Forall₂ Shows outline (Node.preorderAll depth nodes) →
    assemble (outline ++ rest) = nodes.map ((depth, ·)) ++ assemble rest
  | [], outline, h => by
    obtain rfl := List.forall₂_nil_right_iff.mp h
    rfl
  | node :: more, outline, h => by
    rw [Node.preorderAll] at h
    have hfirst := List.forall₂_take_append outline _ _ h
    have hothers := List.forall₂_drop_append outline _ _ h
    have hsplit := List.take_append_drop (node.preorder depth).length outline
    generalize outline.take (node.preorder depth).length = first at hfirst hsplit
    generalize outline.drop (node.preorder depth).length = others at hothers hsplit
    subst hsplit
    have hmore := assembleAll_of_shows depth rest hrest more hothers
    -- What follows the first tree starts with the next one, or with `rest`.
    have hnext : ∀ tree ∈ (assemble (others ++ rest)).head?, tree.1 ≤ depth := by
      rw [hmore]
      cases more with
      | nil => exact hrest
      | cons next _ =>
        intro tree htree
        obtain rfl : (depth, next) = tree := by simpa using htree
        exact Nat.le_refl depth
    rw [List.append_assoc, assemble_of_shows depth _ hnext node hfirst, hmore, List.map_cons,
      List.cons_append]

end

/-- An outline that shows trees gives them back. -/
theorem trees_of_shows {outline : Outline} {nodes : List Node}
    (h : List.Forall₂ Shows outline (Node.preorderAll 0 nodes)) : outline.trees = nodes := by
  have hall := assembleAll_of_shows 0 [] (fun tree htree => nomatch htree) nodes h
  rw [List.append_nil] at hall
  rw [trees, hall, assemble, List.append_nil, List.map_map]
  exact List.map_id _

/-! ## From outlines to trees and back -/

/-- `next` may follow `entry` in an outline: it is at most one level below, and not below a file. -/
def Follows (entry next : Nat × Label) : Prop :=
  next.1 ≤ entry.1 ∨ next.1 = entry.1 + 1 ∧ ¬ entry.2.IsFile

/-- The trees of a nested outline list its entries in order, each once and at its own depth. -/
theorem forall₂_assemble {outline : Outline} (h : outline.IsChain Follows) :
    List.Forall₂ Shows outline
      ((assemble outline).flatMap fun tree => tree.2.preorder tree.1) := by
  induction outline with
  | nil => exact List.Forall₂.nil
  | cons entry rest ih =>
    obtain ⟨depth, label⟩ := entry
    have hshown := ih h.of_cons
    -- The next entry follows this one, and no root behind it is deeper than the next entry.
    have hroots : ∀ tree ∈ assemble rest,
        tree.1 ≤ depth + 1 ∧ (label.IsFile → tree.1 ≤ depth) := by
      intro tree htree
      cases rest with
      | nil => cases htree
      | cons next rest =>
        have hle := le_of_mem_assemble htree
        rcases (List.isChain_cons_cons.mp h).1 with hnext | ⟨hnext, hfile⟩
        · exact ⟨by omega, fun _ => by omega⟩
        · exact ⟨by omega, fun hlabel => absurd hlabel hfile⟩
    rw [assemble_cons, List.flatMap_cons]
    set below := (assemble rest).takeWhile fun tree => depth < tree.1 with hbelow
    set beside := (assemble rest).dropWhile fun tree => depth < tree.1
    have hsplit : below ++ beside = assemble rest := List.takeWhile_append_dropWhile
    have hdeeper : ∀ tree ∈ below, depth < tree.1 := by
      intro tree htree
      simpa using List.mem_takeWhile_imp htree
    have hmem : ∀ tree ∈ below, tree ∈ assemble rest := by
      intro tree htree
      rw [← hsplit]
      exact List.mem_append_left beside htree
    -- All the trees that the entry takes stand exactly one level below it.
    have hlevel : below.flatMap (fun tree => tree.2.preorder tree.1) =
        Node.preorderAll (depth + 1) (below.map (·.2)) := by
      rw [Node.preorderAll_eq_flatMap, List.flatMap_map]
      refine List.flatMap_congr fun tree htree => ?_
      have hdepth : tree.1 = depth + 1 :=
        Nat.le_antisymm (hroots tree (hmem tree htree)).1 (hdeeper tree htree)
      rw [hdepth]
    have hkept : (label.close (below.map (·.2))).children = below.map (·.2) := by
      refine Label.children_close fun hfile => ?_
      rw [List.map_eq_nil_iff, List.eq_nil_iff_forall_not_mem]
      intro tree htree
      exact absurd (hdeeper tree htree) (Nat.not_lt.mpr ((hroots tree (hmem tree htree)).2 hfile))
    rw [Node.preorder_eq_cons, hkept, ← hlevel, List.cons_append, ← List.flatMap_append, hsplit]
    exact List.Forall₂.cons ⟨rfl, by rw [hkept]⟩ hshown

end Outline

end TreeSketch
