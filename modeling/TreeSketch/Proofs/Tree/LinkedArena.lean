import Mathlib.Data.List.Nodup
import TreeSketch.Proofs.Tree.Arena
import TreeSketch.Tree.LinkedArena

/-!
# Arenas linked in both directions

An `Arena` has links in one direction and cannot disagree with itself. It is linked in both directions by listing
the children of every entry (`Arena.linked`), and what is done to the linked arena is done to the arena: entries
are added (`addRoot_linked`, `addChild?_linked`) and decided (`settle_linked`), and following links, upwards
(`depth?_linked`) or downwards (`intoTree?_linked`), comes to an end with what the arena says.
-/

namespace TreeSketch

/-! ## Linking an arena -/

/-- The entry with its children listed. -/
def Slot.linked (slot : Slot) (children : List Nat) : LinkedSlot :=
  ⟨slot.name, slot.verdict.map (·.kind), slot.verdict.map (·.origin), children, slot.parent⟩

/-- The arena with the children of every entry listed. -/
def Arena.linked (arena : Arena) : LinkedArena :=
  ⟨arena.slots.mapIdx fun id slot => slot.linked (arena.children id)⟩

namespace LinkedArena

variable {arena : LinkedArena}

theorem eq_of_get? {arena other : LinkedArena} (h : ∀ id, arena.get? id = other.get? id) :
    arena = other := by
  obtain ⟨slots⟩ := arena
  obtain ⟨others⟩ := other
  obtain rfl : slots = others := Array.ext_getElem? h
  rfl

theorem get?_push (arena : LinkedArena) (name : String) (fixed : Option Verdict) (parent : Option Nat)
    (id : Nat) : (arena.push name fixed parent).1.get? id =
      if id = arena.size then some ⟨name, fixed.map (·.kind), fixed.map (·.origin), [], parent⟩
      else arena.get? id :=
  Array.getElem?_push

/-- Below an entry that exists, an entry can be added: the entry above lists it, and nothing else changes. -/
theorem exists_addChild? {parent : Nat} (h : parent < arena.size) (name : String) (fixed : Option Verdict) :
    ∃ next, arena.addChild? parent name fixed = some (next, arena.size) ∧ ∀ id, next.get? id =
      if id = arena.size then some ⟨name, fixed.map (·.kind), fixed.map (·.origin), [], some parent⟩
      else if id = parent then
        (arena.get? id).map fun slot => { slot with children := slot.children ++ [arena.size] }
      else arena.get? id := by
  have hroom : parent < (arena.push name fixed (some parent)).1.size := by
    rw [size, push, Array.size_push]
    exact Nat.lt_succ_of_lt h
  refine ⟨_, if_pos hroom, fun id => ?_⟩
  refine Array.getElem?_modify.trans ?_
  simp only [Array.getElem?_push, get?, size, eq_comm (a := parent)]
  by_cases heq : id = arena.slots.size
  · have hne : id ≠ parent := fun hparent => Nat.ne_of_lt h (hparent.symm.trans heq)
    simp only [heq, if_true, heq ▸ hne, if_false]
  · simp only [heq, if_false]

theorem get?_settleAt (arena : LinkedArena) (id other : Nat) :
    (arena.settleAt id).get? other =
      if id = other then (arena.get? other).map LinkedSlot.settle else arena.get? other :=
  Array.getElem?_modify

/-- Deciding the entries from the last one on decides each of them. -/
theorem get?_settle (arena : LinkedArena) (id : Nat) :
    arena.settle.get? id = (arena.get? id).map LinkedSlot.settle := by
  have hfold (count : Nat) (arena : LinkedArena) :
      ((List.range count).foldr (fun id arena => arena.settleAt id) arena).get? id =
        if id < count then (arena.get? id).map LinkedSlot.settle else arena.get? id := by
    induction count generalizing arena with
    | zero => rfl
    | succ count ih =>
      rw [List.range_succ, List.foldr_append, List.foldr_cons, List.foldr_nil, ih, get?_settleAt]
      by_cases heq : count = id
      · subst heq
        simp
      · have hlt : id < count + 1 ↔ id < count := by omega
        simp [heq, hlt]
  rw [settle, hfold]
  split
  · rfl
  · rename_i hid
    have hnone : arena.get? id = none := Array.getElem?_eq_none (Nat.le_of_not_lt hid)
    rw [hnone]
    rfl

end LinkedArena

namespace Arena

variable {arena : Arena}

theorem get?_linked (arena : Arena) (id : Nat) :
    arena.linked.get? id = (arena.get? id).map fun slot => slot.linked (arena.children id) :=
  Array.getElem?_mapIdx

theorem size_linked (arena : Arena) : arena.linked.size = arena.size :=
  Array.size_mapIdx

theorem parent?_linked (arena : Arena) (id : Nat) : arena.linked.parent? id = arena.parent? id := by
  rw [LinkedArena.parent?, parent?, get?_linked]
  cases arena.get? id <;> rfl

theorem children_eq_nil {id : Nat} (h : arena.size ≤ id) : arena.children id = [] := by
  rw [List.eq_nil_iff_forall_not_mem]
  intro child hchild
  have := mem_children hchild
  omega

theorem children_linked (arena : Arena) (id : Nat) : arena.linked.children id = arena.children id := by
  rw [LinkedArena.children, get?_linked]
  cases hslot : arena.get? id with
  | none => exact (children_eq_nil (Array.getElem?_eq_none_iff.mp hslot)).symm
  | some slot => rfl

theorem linked_empty : empty.linked = LinkedArena.empty := rfl

/-- An entry without a parent is added to the linked arena as it is to the arena. -/
theorem addRoot_linked (arena : Arena) (name : String) (fixed : Option Verdict) :
    arena.linked.addRoot name fixed = ((arena.addRoot name fixed).linked, arena.size) := by
  refine Prod.ext (LinkedArena.eq_of_get? fun id => ?_) arena.size_linked
  rw [LinkedArena.addRoot, LinkedArena.get?_push, get?_linked, get?_linked, addRoot, get?_add, children_add,
    size_linked]
  by_cases heq : id = arena.size
  · subst heq
    simp [Slot.linked, children_eq_nil (Nat.le_refl arena.size)]
  · simp [heq]

/-- So is an entry below another one, which lists it behind its other children. -/
theorem addChild?_linked {parent : Nat} (h : parent < arena.size) (name : String) (fixed : Option Verdict) :
    arena.linked.addChild? parent name fixed =
      some ((arena.add ⟨name, fixed, some parent⟩ fun _ hp => Option.some.inj hp ▸ h).linked, arena.size) := by
  obtain ⟨next, hadd, hnext⟩ :=
    LinkedArena.exists_addChild? (arena.size_linked.symm ▸ h : parent < arena.linked.size) name fixed
  rw [hadd, size_linked]
  refine congrArg (fun next => some (next, arena.size)) (LinkedArena.eq_of_get? fun id => ?_)
  rw [hnext, get?_linked, get?_linked, get?_add, children_add, size_linked]
  by_cases heq : id = arena.size
  · subst heq
    simp [Slot.linked, children_eq_nil (Nat.le_refl arena.size), Nat.ne_of_lt h]
  · by_cases hparent : id = parent
    · subst hparent
      cases arena.get? id with
      | none => simp [heq]
      | some slot => simp [heq, Slot.linked]
    · simp [heq, hparent, Ne.symm hparent]

/-- Deciding the entries of the linked arena decides those of the arena. -/
theorem settle_linked (arena : Arena) : arena.linked.settle = arena.settle.linked := by
  refine LinkedArena.eq_of_get? fun id => ?_
  rw [LinkedArena.get?_settle, get?_linked, get?_linked, children_settle]
  have hslot : arena.settle.get? id = (arena.get? id).map (arena.settleSlot id) := Array.getElem?_mapIdx
  rw [hslot]
  rcases arena.get? id with _ | ⟨name, _ | verdict, parent⟩ <;> rfl

/-! ## Following links -/

theorem depth_of_root {id : Nat} (h : arena.parent? id = none) : arena.depth id = 0 := by
  rw [depth]
  split
  · rfl
  · rename_i parent hparent
    cases h.symm.trans hparent

theorem depth_of_child {id parent : Nat} (h : arena.parent? id = some parent) :
    arena.depth id = arena.depth parent + 1 := by
  rw [depth]
  split
  · rename_i hnone
    cases hnone.symm.trans h
  · rename_i other hother
    rw [Option.some.inj (hother.symm.trans h)]

theorem parent?_of_get? {id : Nat} {slot : Slot} (h : arena.get? id = some slot) :
    arena.parent? id = slot.parent := by
  rw [parent?, h, Option.bind_some]

/-- Climbing comes to an end at a root. -/
theorem climb_linked {id : Nat} (h : id < arena.size) (depth : Nat) :
    arena.linked.climb depth id = some (depth + arena.depth id) := by
  induction id using Nat.strongRecOn generalizing depth with
  | ind id ih =>
    obtain ⟨⟨name, verdict, above⟩, hslot⟩ := exists_get?_of_lt h
    have hparent := parent?_of_get? hslot
    rw [LinkedArena.climb, get?_linked, hslot]
    cases above with
    | none => rw [depth_of_root hparent]; rfl
    | some parent =>
      have hlt := arena.parent?_lt hparent
      refine (if_pos hlt).trans ?_
      rw [ih parent hlt (Nat.lt_trans hlt h), depth_of_child hparent]
      congr 1
      omega

theorem depth?_linked {id : Nat} (h : id < arena.size) : arena.linked.depth? id = some (arena.depth id) := by
  rw [LinkedArena.depth?, climb_linked h, Nat.zero_add]

theorem mapM_eq_some {α β : Type} {f : α → Option β} {g : α → β} {xs : List α}
    (h : ∀ x ∈ xs, f x = some (g x)) : xs.mapM f = some (xs.map g) := by
  induction xs with
  | nil => rfl
  | cons x xs ih =>
    obtain ⟨hx, hxs⟩ := List.forall_mem_cons.mp h
    rw [List.mapM_cons, hx, ih hxs]
    rfl

/-- Every tree can be built. -/
theorem build?_linked {id : Nat} (h : id < arena.size) : arena.linked.build? id = some (arena.tree id) := by
  induction hleft : arena.size - id using Nat.strongRecOn generalizing id with
  | ind left ih =>
    obtain ⟨⟨name, verdict, parent⟩, hslot⟩ := exists_get?_of_lt h
    have hchildren : ((arena.children id).mapM fun child =>
        if id < child ∧ child < arena.linked.size then arena.linked.build? child else none) =
          some ((arena.children id).map arena.tree) := by
      refine mapM_eq_some fun child hchild => ?_
      obtain ⟨hyounger, hsize⟩ := mem_children hchild
      rw [if_pos ⟨hyounger, (size_linked arena).symm ▸ hsize⟩]
      exact ih _ (by omega) hsize rfl
    have hattach : (arena.children id).attach.map (fun child => arena.tree child.1) =
        (arena.children id).map arena.tree := List.attach_map_val
    rw [LinkedArena.build?, get?_linked, tree, hslot, hattach]
    rcases verdict with _ | ⟨_ | _, _⟩
    · rfl
    · rfl
    · exact congrArg (·.map (Node.directory name)) hchildren

/-- Once the open entries are decided, the tree is the one of the arena. -/
theorem intoTree?_linked {id : Nat} (h : id < arena.size) :
    arena.linked.intoTree? id = some (arena.toTree id) := by
  have hsize : arena.settle.size = arena.size := Array.size_mapIdx
  rw [LinkedArena.intoTree?, settle_linked, build?_linked (hsize ▸ h), toTree]

theorem mem_children_iff {parent child : Nat} :
    child ∈ arena.children parent ↔ arena.parent? child = some parent := by
  simp only [children, List.mem_filter, List.mem_range, decide_eq_true_eq]
  refine ⟨And.right, fun h => ⟨?_, h⟩⟩
  by_contra hsize
  rw [parent?, get?_eq_none (Nat.le_of_not_lt hsize)] at h
  cases h

theorem pairwise_children (arena : Arena) (id : Nat) : (arena.children id).Pairwise (· < ·) :=
  List.pairwise_lt_range.filter _

/-- No entry is listed twice. -/
theorem nodup_flatMap_children (arena : Arena) : ((List.range arena.size).flatMap arena.children).Nodup := by
  refine List.nodup_flatMap.mpr ⟨fun id _ => List.nodup_range.filter _, List.nodup_range.imp ?_⟩
  intro first second hne child hfirst hsecond
  exact hne (Option.some.inj ((mem_children_iff.mp hfirst).symm.trans (mem_children_iff.mp hsecond)))

theorem mem_flatMap_children_iff {id : Nat} :
    id ∈ (List.range arena.size).flatMap arena.children ↔ (arena.parent? id).isSome = true := by
  simp only [List.mem_flatMap, List.mem_range, mem_children_iff, Option.isSome_iff_exists]
  constructor
  · rintro ⟨parent, -, h⟩
    exact ⟨parent, h⟩
  · rintro ⟨parent, h⟩
    have hsize := (mem_children (mem_children_iff.mpr h)).2
    exact ⟨parent, Nat.lt_trans (arena.parent?_lt h) hsize, h⟩

end Arena

end TreeSketch
