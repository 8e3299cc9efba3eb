import TreeSketch.Proofs.Tree.Outline
import TreeSketch.Tree.Arena

/-!
# Trees grown entry by entry

An outline is a list of entries with their depths, and a tree can be grown along it: each entry is put
below the last entry one level up. The entries that can still get children are the *spine*, the youngest
entry at each depth. `Laid` says where the parents of the entries are, `Grown` says it of an arena with
its spine, and `Grown.child` that an arena stays grown when an entry is added.

The tree at the root is then the tree that `Outline.assemble` builds from the back (`Laid.trees_eq`): the
roots that are left of the entries behind an entry are those whose parents stand before it
(`Laid.assemble_drop`).
-/

namespace TreeSketch

namespace Arena

variable {arena : Arena}

/-! ## Adding entries -/

theorem size_add (arena : Arena) (slot : Slot) (h : ∀ p, slot.parent = some p → p < arena.size) :
    (arena.add slot h).size = arena.size + 1 :=
  Array.size_push _

theorem get?_add (arena : Arena) (slot : Slot) (h : ∀ p, slot.parent = some p → p < arena.size)
    (id : Nat) : (arena.add slot h).get? id = if id = arena.size then some slot else arena.get? id :=
  Array.getElem?_push

theorem parent?_add (arena : Arena) (slot : Slot) (h : ∀ p, slot.parent = some p → p < arena.size)
    (id : Nat) :
    (arena.add slot h).parent? id = if id = arena.size then slot.parent else arena.parent? id := by
  rw [parent?, get?_add]
  split <;> rfl

theorem children_add (arena : Arena) (slot : Slot) (h : ∀ p, slot.parent = some p → p < arena.size)
    (id : Nat) : (arena.add slot h).children id =
      arena.children id ++ if slot.parent = some id then [arena.size] else [] := by
  have hold : (List.range arena.size).filter
      (fun child => decide ((arena.add slot h).parent? child = some id)) = arena.children id := by
    refine List.filter_congr fun child hchild => ?_
    rw [parent?_add, if_neg (Nat.ne_of_lt (List.mem_range.mp hchild))]
  rw [children, size_add, List.range_succ, List.filter_append, hold, List.filter_singleton, parent?_add,
    if_pos rfl]
  simp

theorem addChild?_of_lt {parent : Nat} (h : parent < arena.size) (name : String)
    (fixed : Option Verdict) :
    arena.addChild? parent name fixed =
      some (arena.add ⟨name, fixed, some parent⟩ fun _ hp => Option.some.inj hp ▸ h) :=
  dif_pos h

theorem get?_eq_none {id : Nat} (h : arena.size ≤ id) : arena.get? id = none :=
  Array.getElem?_eq_none h

theorem exists_get?_of_lt {id : Nat} (h : id < arena.size) : ∃ slot, arena.get? id = some slot :=
  ⟨_, Array.getElem?_eq_getElem h⟩

/-! ## Settling entries -/

/-- Decides one entry, if it is still open. -/
def settleAt (arena : Arena) (id : Nat) : Arena where
  slots := arena.slots.modify id (arena.settleSlot id)
  parent_lt := by
    intro other slot h p hp
    rw [Array.getElem?_modify] at h
    split at h
    · obtain ⟨before, hbefore, rfl⟩ := Option.map_eq_some_iff.mp h
      rw [settleSlot_parent] at hp
      exact arena.parent_lt other before hbefore p hp
    · exact arena.parent_lt other slot h p hp

/-- Every entry from `first` on is decided. -/
def settleFrom (arena : Arena) (first : Nat) : Arena where
  slots := arena.slots.mapIdx fun id slot => if first ≤ id then arena.settleSlot id slot else slot
  parent_lt := by
    intro id slot h p hp
    rw [Array.getElem?_mapIdx, Option.map_eq_some_iff] at h
    obtain ⟨before, hbefore, rfl⟩ := h
    refine arena.parent_lt id before hbefore p ?_
    split at hp
    · rwa [settleSlot_parent] at hp
    · exact hp

theorem eq_of_get? {arena other : Arena} (h : ∀ id, arena.get? id = other.get? id) :
    arena = other := by
  obtain ⟨slots, _⟩ := arena
  obtain ⟨others, _⟩ := other
  obtain rfl : slots = others := Array.ext_getElem? h
  rfl

theorem get?_settleFrom (arena : Arena) (first id : Nat) :
    (arena.settleFrom first).get? id =
      (arena.get? id).map fun slot => if first ≤ id then arena.settleSlot id slot else slot :=
  Array.getElem?_mapIdx

theorem parent?_settleFrom (arena : Arena) (first id : Nat) :
    (arena.settleFrom first).parent? id = arena.parent? id := by
  rw [parent?, parent?, get?_settleFrom]
  cases arena.get? id with
  | none => rfl
  | some slot =>
    rw [Option.map_some, Option.bind_some, Option.bind_some]
    split
    · exact arena.settleSlot_parent id slot
    · rfl

theorem children_settleFrom (arena : Arena) (first id : Nat) :
    (arena.settleFrom first).children id = arena.children id := by
  have hsize : (arena.settleFrom first).size = arena.size := Array.size_mapIdx
  rw [children, children, hsize]
  exact List.filter_congr fun child _ => by rw [parent?_settleFrom]

theorem settleFrom_size (arena : Arena) : arena.settleFrom arena.size = arena := by
  refine eq_of_get? fun id => ?_
  rw [get?_settleFrom]
  by_cases hid : arena.size ≤ id
  · rw [get?_eq_none hid]
    rfl
  · simp [hid]

theorem settleFrom_zero (arena : Arena) : arena.settleFrom 0 = arena.settle := by
  refine eq_of_get? fun id => ?_
  rw [get?_settleFrom, settle, get?, get?, Array.getElem?_mapIdx]
  simp

/-- Deciding the last open entry. -/
theorem settleAt_settleFrom (arena : Arena) (first : Nat) :
    (arena.settleFrom (first + 1)).settleAt first = arena.settleFrom first := by
  refine eq_of_get? fun id => ?_
  have hslot (slot : Slot) :
      (arena.settleFrom (first + 1)).settleSlot id slot = arena.settleSlot id slot := by
    rw [settleSlot, settleSlot, children_settleFrom]
  rw [get?, settleAt, Array.getElem?_modify, ← get?, get?_settleFrom, get?_settleFrom]
  cases arena.get? id with
  | none => simp
  | some slot =>
    by_cases heq : first = id
    · subst heq
      have hopen : ¬ first + 1 ≤ first := Nat.not_succ_le_self first
      simp only [Option.map_some, hopen, Nat.le_refl, hslot, ↓reduceIte]
    · have hle : first + 1 ≤ id ↔ first ≤ id := by omega
      simp [heq, hle]

theorem children_settle (arena : Arena) (id : Nat) : arena.settle.children id = arena.children id := by
  rw [← settleFrom_zero, children_settleFrom]

/-- The tree at an entry, by its label and the trees below it. -/
theorem toTree_eq {id : Nat} {name : String} {fixed : Option Verdict} {parent : Option Nat}
    (h : arena.get? id = some ⟨name, fixed, parent⟩) :
    arena.toTree id = (⟨name, fixed⟩ : Label).close ((arena.children id).map arena.toTree) := by
  have hsettled : arena.settle.get? id = some ⟨name,
      some ((⟨name, fixed⟩ : Label).verdict ((arena.children id).map arena.toTree)), parent⟩ := by
    rw [get?] at h
    rw [get?, settle, Array.getElem?_mapIdx, h, Option.map_some, settleSlot, Label.verdict]
    cases fixed <;> simp
  rw [toTree, tree, hsettled, Label.close]
  rcases (⟨name, fixed⟩ : Label).verdict ((arena.children id).map arena.toTree) with ⟨kind, origin⟩
  cases kind with
  | file => rfl
  | directory =>
    have hchildren := children_settle arena id
    generalize arena.settle.children id = children at hchildren
    subst hchildren
    exact congrArg (Node.directory name) List.attach_map_val

/-! ## Growing along an outline -/

/-- The depth of an entry of an outline. -/
def depthIn (outline : Outline) (id : Nat) : Nat :=
  (outline[id]?.map (·.1)).getD 0

/-- The entries of the arena are those of the outline, and their parents are where its depths put them. -/
structure Laid (arena : Arena) (outline : Outline) : Prop where
  size_eq : arena.size = outline.length
  label : ∀ id entry, outline[id]? = some entry →
    ∃ parent, arena.get? id = some ⟨entry.2.name, entry.2.fixed, parent⟩
  /-- The parent of an entry is above it, -/
  above : ∀ id parent, arena.parent? id = some parent → depthIn outline parent < depthIn outline id
  /-- and no entry between the two is. -/
  between : ∀ id other, other < id → id < outline.length → (∀ parent ∈ arena.parent? id, parent < other) →
    depthIn outline id ≤ depthIn outline other
  root : ∀ id, id < outline.length → arena.parent? id = none → id = 0

/-- The arena has been grown along the outline, and `spine` are its youngest entries, one for each
depth. -/
structure Grown (arena : Arena) (outline : Outline) (spine : List Nat) : Prop extends Laid arena outline where
  /-- The spine has an entry for each depth, and none above it is younger. -/
  spine_depth : ∀ level id, spine[level]? = some id →
    id < outline.length ∧ depthIn outline id = level ∧
      ∀ other, id < other → other < outline.length → level < depthIn outline other
  youngest : ∀ level id, spine[level]? = some id → arena.lastChild? id = spine[level + 1]?
  spine_length : ∀ entry ∈ outline.getLast?, spine.length = entry.1 + 1

theorem depthIn_concat (outline : Outline) (entry : Nat × Label) (id : Nat) :
    depthIn (outline ++ [entry]) id =
      if id = outline.length then entry.1 else depthIn outline id := by
  rw [depthIn, depthIn, List.getElem?_append]
  split
  · rename_i h
    rw [if_neg (Nat.ne_of_lt h)]
  · rename_i h
    by_cases heq : id = outline.length
    · subst heq
      simp
    · rw [if_neg heq, List.getElem?_eq_none (by simp; omega), List.getElem?_eq_none (by omega)]

theorem depthIn_of_lt {outline : Outline} {id : Nat} (h : id < outline.length) (entry : Nat × Label) :
    depthIn (outline ++ [entry]) id = depthIn outline id := by
  rw [depthIn_concat, if_neg (Nat.ne_of_lt h)]

theorem depthIn_length (outline : Outline) (entry : Nat × Label) :
    depthIn (outline ++ [entry]) outline.length = entry.1 := by
  rw [depthIn_concat, if_pos rfl]

theorem lastChild?_add (arena : Arena) (slot : Slot)
    (h : ∀ p, slot.parent = some p → p < arena.size) (id : Nat) :
    (arena.add slot h).lastChild? id =
      if slot.parent = some id then some arena.size else arena.lastChild? id := by
  rw [lastChild?, children_add]
  split
  · exact List.getLast?_concat
  · rw [List.append_nil]
    rfl

theorem lastChild?_eq_none {id : Nat} (h : arena.size ≤ id + 1) : arena.lastChild? id = none := by
  rw [lastChild?, List.getLast?_eq_none_iff, List.eq_nil_iff_forall_not_mem]
  intro child hchild
  have := mem_children hchild
  omega

theorem of_getElem?_singleton {α : Type} {x y : α} {i : Nat} (h : [x][i]? = some y) : i = 0 ∧ x = y := by
  cases i with
  | zero => exact ⟨rfl, Option.some.inj h⟩
  | succ i => cases h

/-- An arena with one entry. -/
theorem grown_root (label : Label) :
    Grown (empty.addRoot label.name label.fixed) [(0, label)] [0] where
  size_eq := rfl
  label id entry hentry := by
    obtain ⟨rfl, rfl⟩ := of_getElem?_singleton hentry
    exact ⟨none, rfl⟩
  above id parent hparent := by
    rw [addRoot, parent?_add] at hparent
    split at hparent
    · cases hparent
    · cases hparent
  between id other hlt hid _ := absurd hlt (by simp at hid; omega)
  root id hid _ := by simpa using hid
  spine_depth level id hid := by
    obtain ⟨rfl, rfl⟩ := of_getElem?_singleton hid
    exact ⟨Nat.one_pos, rfl, fun other hpos hlt => absurd hpos (by simp at hlt; omega)⟩
  youngest level id hid := by
    obtain ⟨rfl, rfl⟩ := of_getElem?_singleton hid
    rfl
  spine_length entry hentry := by
    obtain rfl : (0, label) = entry := Option.some.inj hentry
    rfl

variable {outline : Outline} {spine : List Nat}

/-- An entry is put below one that has no younger entry beside or above it. -/
theorem Laid.child (h : arena.Laid outline) {parent depth : Nat} (hlt : parent < outline.length)
    (hdepth : depthIn outline parent = depth)
    (hyounger : ∀ other, parent < other → other < outline.length → depth < depthIn outline other)
    (label : Label) (hp : ∀ p, some parent = some p → p < arena.size) :
    (arena.add ⟨label.name, label.fixed, some parent⟩ hp).Laid (outline ++ [(depth + 1, label)]) := by
  set next := arena.add ⟨label.name, label.fixed, some parent⟩ hp
  -- The entry that is added is the last one, and the others are what they were.
  have hlength : (outline ++ [(depth + 1, label)]).length = outline.length + 1 := by
    rw [List.length_append, List.length_singleton]
  have hparent? (id : Nat) :
      next.parent? id = if id = outline.length then some parent else arena.parent? id := by
    rw [← h.size_eq]
    exact parent?_add _ _ _ id
  constructor
  case size_eq => rw [size_add, h.size_eq, hlength]
  case label =>
    intro id entry hentry
    rw [get?_add, h.size_eq]
    rcases Nat.lt_trichotomy id outline.length with hid | rfl | hid
    · rw [List.getElem?_append_left hid] at hentry
      rw [if_neg (Nat.ne_of_lt hid)]
      exact h.label id entry hentry
    · rw [List.getElem?_concat_length] at hentry
      cases hentry
      exact ⟨some parent, if_pos rfl⟩
    · rw [List.getElem?_eq_none (by omega)] at hentry
      cases hentry
  case above =>
    intro id other hother
    rw [hparent?] at hother
    split at hother
    · rename_i hid
      obtain rfl := Option.some.inj hother
      rw [hid, depthIn_length, depthIn_of_lt hlt, hdepth]
      exact Nat.lt_succ_self depth
    · have hid : id < outline.length := by
        by_contra hle
        rw [parent?, get?_eq_none (h.size_eq ▸ Nat.le_of_not_lt hle)] at hother
        cases hother
      have := arena.parent?_lt hother
      rw [depthIn_of_lt hid, depthIn_of_lt (by omega)]
      exact h.above id other hother
  case between =>
    intro id other hother hid hbefore
    rw [hparent?] at hbefore
    split at hbefore
    · rename_i heq
      rw [heq, depthIn_length, depthIn_of_lt (by omega)]
      exact hyounger other (hbefore parent rfl) (by omega)
    · rw [depthIn_of_lt (by omega), depthIn_of_lt (by omega)]
      exact h.between id other hother (by omega) hbefore
  case root =>
    intro id hid hnone
    rw [hparent?] at hnone
    split at hnone
    · cases hnone
    · exact h.root id (by omega) hnone

/-- The levels of a spine that is cut off behind `depth` and goes on with `last`. -/
theorem getElem?_take_concat {depth level last id : Nat} (hdepth : depth < spine.length)
    (h : (spine.take (depth + 1) ++ [last])[level]? = some id) :
    level ≤ depth ∧ spine[level]? = some id ∨ level = depth + 1 ∧ id = last := by
  have htake : (spine.take (depth + 1)).length = depth + 1 := List.length_take_of_le hdepth
  rw [List.getElem?_append, htake] at h
  split at h
  · rename_i hlevel
    rw [List.getElem?_take_of_lt hlevel] at h
    exact Or.inl ⟨Nat.le_of_lt_succ hlevel, h⟩
  · obtain ⟨hzero, hlast⟩ := of_getElem?_singleton h
    exact Or.inr ⟨by omega, hlast.symm⟩

/-- An arena stays grown when an entry is put below the youngest entry one level up. -/
theorem Grown.child (h : arena.Grown outline spine) {depth parent : Nat}
    (hparent : spine[depth]? = some parent) (label : Label) :
    ∃ next, arena.addChild? parent label.name label.fixed = some next ∧
      next.Grown (outline ++ [(depth + 1, label)]) (spine.take (depth + 1) ++ [arena.size]) := by
  obtain ⟨hlt, hdepth, hyounger⟩ := h.spine_depth depth parent hparent
  have hsize : parent < arena.size := h.size_eq ▸ hlt
  have hspine : depth < spine.length := (List.getElem?_eq_some_iff.mp hparent).1
  have htake : (spine.take (depth + 1)).length = depth + 1 := List.length_take_of_le hspine
  have hlength : (outline ++ [(depth + 1, label)]).length = outline.length + 1 := by
    rw [List.length_append, List.length_singleton]
  refine ⟨_, addChild?_of_lt hsize _ _, h.toLaid.child hlt hdepth hyounger label _, ?_, ?_, ?_⟩
  · intro level id hid
    rcases getElem?_take_concat hspine hid with ⟨hlevel, hold⟩ | ⟨rfl, rfl⟩
    · obtain ⟨hold, holddepth, holdyounger⟩ := h.spine_depth level id hold
      refine ⟨by omega, by rw [depthIn_of_lt hold, holddepth], fun other hother hsmall => ?_⟩
      rw [depthIn_concat]
      split
      · exact Nat.lt_succ_of_le hlevel
      · exact holdyounger other hother (by omega)
    · rw [h.size_eq]
      exact ⟨by omega, depthIn_length _ _, fun other hother hsmall => by omega⟩
  · intro level id hid
    rw [lastChild?_add]
    rcases getElem?_take_concat hspine hid with ⟨hlevel, hold⟩ | ⟨rfl, rfl⟩
    · split
      · rename_i heq
        obtain rfl := Option.some.inj heq
        obtain rfl : depth = level := by
          rw [← hdepth, ← (h.spine_depth level parent hold).2.1]
        rw [List.getElem?_append_right (by omega), htake, Nat.sub_self]
        rfl
      · rename_i hne
        have hlow : level < depth := by
          refine Nat.lt_of_le_of_ne hlevel fun heq => hne ?_
          rw [heq, hparent] at hold
          exact hold
        rw [h.youngest level id hold, List.getElem?_append_left (by omega),
          List.getElem?_take_of_lt (by omega)]
    · rw [if_neg fun heq => Nat.ne_of_lt hsize (Option.some.inj heq),
        lastChild?_eq_none (Nat.le_succ _), List.getElem?_eq_none]
      rw [List.length_append, htake, List.length_singleton]
  · intro entry hentry
    rw [List.getLast?_concat] at hentry
    cases hentry
    rw [List.length_append, htake, List.length_singleton]

/-- The spine starts at the root. -/
theorem Grown.spine_zero (h : arena.Grown outline spine) (hne : outline ≠ []) : spine[0]? = some 0 := by
  have hlength := h.spine_length _ (List.getLast?_eq_some_getLast hne)
  obtain ⟨id, hid⟩ : ∃ id, spine[0]? = some id := ⟨_, List.getElem?_eq_getElem (by omega)⟩
  obtain ⟨hlt, hdepth, -⟩ := h.spine_depth 0 id hid
  cases hparent : arena.parent? id with
  | none => rw [hid, h.root id hlt hparent]
  | some parent =>
    have := h.above id parent hparent
    omega

/-! ## The trees -/

/-- Of trees whose roots climb, those below a depth come first. -/
theorem takeWhile_eq_filter {trees : List (Nat × Node)}
    (h : trees.Pairwise fun first second => second.1 ≤ first.1) (depth : Nat) :
    trees.takeWhile (fun tree => depth < tree.1) = trees.filter (fun tree => depth < tree.1) ∧
      trees.dropWhile (fun tree => depth < tree.1) = trees.filter (fun tree => !decide (depth < tree.1)) := by
  induction trees with
  | nil => exact ⟨rfl, rfl⟩
  | cons tree trees ih =>
    obtain ⟨hfirst, hrest⟩ := List.pairwise_cons.mp h
    by_cases hlt : depth < tree.1
    · obtain ⟨htake, hdrop⟩ := ih hrest
      simp [hlt, htake, hdrop]
    · have hnone : ∀ other ∈ trees, ¬ depth < other.1 :=
        fun other hother hdeep => hlt (Nat.lt_of_lt_of_le hdeep (hfirst other hother))
      have hnil : trees.filter (fun tree => depth < tree.1) = [] := by
        simpa using fun depth' node hmem => Nat.le_of_not_lt (hnone (depth', node) hmem)
      have hall : trees.filter (fun tree => !decide (depth < tree.1)) = trees := by
        rw [List.filter_eq_self]
        intro other hother
        simp [hnone other hother]
      simp [hlt, hnil, hall]

/-- The entries from `first` on whose parents stand before it. -/
def rootsFrom (arena : Arena) (first : Nat) : List Nat :=
  (List.range' first (arena.size - first)).filter fun id => (arena.parent? id).all (· < first)

/-- An entry is a root until its own parent is looked at. -/
theorem rootsFrom_eq_cons {first : Nat} (hfirst : first < arena.size) :
    arena.rootsFrom first = first :: (List.range' (first + 1) (arena.size - (first + 1))).filter
      fun id => (arena.parent? id).all (· < first) := by
  have hcons : List.range' first (arena.size - first) =
      first :: List.range' (first + 1) (arena.size - (first + 1)) := by
    rw [show arena.size - first = arena.size - (first + 1) + 1 by omega, List.range'_succ]
  have hself : (arena.parent? first).all (· < first) = true := by
    cases hparent : arena.parent? first with
    | none => rfl
    | some parent => simpa using arena.parent?_lt hparent
  rw [rootsFrom, hcons]
  exact List.filter_cons_of_pos hself

/-- What stands behind an entry is below it if it is its child, and beside or above it if its parent is
older. -/
theorem Laid.depth_iff (h : arena.Laid outline) {first id : Nat} (hid : first < id)
    (hsize : id < outline.length) :
    ((arena.parent? id).all (· < first + 1) = true ∧ depthIn outline first < depthIn outline id ↔
        arena.parent? id = some first) ∧
      ((arena.parent? id).all (· < first + 1) = true ∧ ¬ depthIn outline first < depthIn outline id ↔
        (arena.parent? id).all (· < first) = true) := by
  -- An entry with an older parent is not above what stands between the two.
  have hbeside (hold : ∀ parent ∈ arena.parent? id, parent < first) :
      ¬ depthIn outline first < depthIn outline id :=
    Nat.not_lt.mpr (h.between id first hid hsize hold)
  cases hparent : arena.parent? id with
  | none =>
    have hle := hbeside (hparent ▸ nofun)
    simp only [Option.all_none, true_and, hle, reduceCtorEq, not_false_eq_true, and_self]
  | some parent =>
    have habove := h.above id parent hparent
    have hold (h : parent < first) : ¬ depthIn outline first < depthIn outline id := by
      apply hbeside
      rintro other hother
      rw [hparent] at hother
      cases hother
      exact h
    simp only [Option.all_some, decide_eq_true_eq, Option.some.injEq]
    rcases Nat.lt_trichotomy parent first with hlt | rfl | hgt
    · have hle := hold hlt
      omega
    · omega
    · omega

/-- Behind an entry, the roots below it are its children, and the others are roots beside it. -/
theorem Laid.filter_rootsFrom (h : arena.Laid outline) {first : Nat} (hfirst : first < arena.size) :
    (arena.rootsFrom (first + 1)).filter (fun id => depthIn outline first < depthIn outline id) =
        arena.children first ∧
      first :: (arena.rootsFrom (first + 1)).filter
        (fun id => !decide (depthIn outline first < depthIn outline id)) = arena.rootsFrom first := by
  have hbehind {id : Nat} (hid : id ∈ List.range' (first + 1) (arena.size - (first + 1))) :=
    have hbounds := List.mem_range'_1.mp hid
    h.depth_iff (show first < id by omega) (show id < outline.length from h.size_eq ▸ by omega)
  constructor
  · have hsplit : List.range arena.size =
        List.range (first + 1) ++ List.range' (first + 1) (arena.size - (first + 1)) := by
      have happend := @List.range'_append_1 0 (first + 1) (arena.size - (first + 1))
      rw [Nat.zero_add, Nat.add_sub_cancel' hfirst] at happend
      rw [List.range_eq_range', List.range_eq_range', happend]
    have hnone : (List.range (first + 1)).filter (fun id => arena.parent? id = some first) = [] := by
      rw [List.filter_eq_nil_iff]
      intro id hid hparent
      have := arena.parent?_lt (of_decide_eq_true hparent)
      have := List.mem_range.mp hid
      omega
    rw [children, hsplit, List.filter_append, hnone, List.nil_append, rootsFrom, List.filter_filter]
    refine List.filter_congr fun id hid => ?_
    rw [Bool.eq_iff_iff, Bool.and_eq_true, decide_eq_true_eq, decide_eq_true_eq, and_comm]
    exact (hbehind hid).1
  · rw [rootsFrom_eq_cons hfirst, rootsFrom, List.filter_filter]
    refine congrArg (first :: ·) (List.filter_congr fun id hid => ?_)
    rw [Bool.eq_iff_iff, Bool.and_eq_true, Bool.not_eq_true', decide_eq_false_iff_not, and_comm]
    exact (hbehind hid).2

/-- The trees of the entries from one on are those whose parents stand before it. -/
theorem Laid.assemble_drop (h : arena.Laid outline) (first : Nat) :
    Outline.assemble (outline.drop first) =
      (arena.rootsFrom first).map fun id => (depthIn outline id, arena.toTree id) := by
  induction hleft : outline.length - first generalizing first with
  | zero =>
    rw [List.drop_eq_nil_of_le (by omega), rootsFrom, h.size_eq, hleft]
    rfl
  | succ left ih =>
    have hfirst : first < outline.length := by omega
    obtain ⟨⟨depth, label⟩, hentry⟩ : ∃ entry, outline[first]? = some entry :=
      ⟨_, List.getElem?_eq_getElem hfirst⟩
    obtain ⟨parent, hslot⟩ := h.label first (depth, label) hentry
    have hdepth : depth = depthIn outline first := by
      rw [depthIn, hentry]
      rfl
    have hcons : outline.drop first = (depth, label) :: outline.drop (first + 1) := by
      rw [List.drop_eq_getElem_cons hfirst, (List.getElem?_eq_some_iff.mp hentry).2]
    obtain ⟨htake, hdrop⟩ :=
      takeWhile_eq_filter (Outline.pairwise_assemble (outline.drop (first + 1))) depth
    obtain ⟨hbelow, hbeside⟩ := h.filter_rootsFrom (h.size_eq ▸ hfirst)
    rw [hcons, Outline.assemble_cons, htake, hdrop, ih (first + 1) (by omega), List.filter_map,
      List.filter_map, List.map_map, ← hbeside, List.map_cons, toTree_eq hslot, ← hbelow, hdepth]
    rfl

/-- The tree at the root is the one that the outline lists. -/
theorem Laid.trees_eq (h : arena.Laid outline) (hne : outline ≠ []) :
    Outline.trees outline = [arena.toTree 0] := by
  have hpos : 0 < arena.size := h.size_eq ▸ List.length_pos_iff.mpr hne
  have hothers : (List.range' 1 (arena.size - 1)).filter
      (fun id => (arena.parent? id).all (· < 0)) = [] := by
    rw [List.filter_eq_nil_iff]
    intro id hid hall
    obtain ⟨hlow, hhigh⟩ := List.mem_range'_1.mp hid
    cases hparent : arena.parent? id with
    | none =>
      have := h.root id (h.size_eq ▸ by omega) hparent
      omega
    | some parent => simp [hparent] at hall
  have hroots : arena.rootsFrom 0 = [0] := by
    rw [rootsFrom_eq_cons hpos, hothers]
  have hall := h.assemble_drop 0
  rw [List.drop_zero] at hall
  rw [Outline.trees, hall, hroots]
  rfl

end Arena

end TreeSketch
