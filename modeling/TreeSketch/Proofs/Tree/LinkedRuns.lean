import TreeSketch.Proofs.Tree.History
import TreeSketch.Proofs.Tree.LinkedArena

/-!
# What becomes of linked arenas

However entries are added to a linked arena and decided in between, the two directions of its links agree with
the entries that were added, following them comes to an end, and the trees that are made of them show the entries
in order (`run?_spec`).

Every operation leads from a linked `Arena` to a linked `Arena`, which keeps a record of the entries
(`exists_run?_linked`). That the links agree then follows from what an arena says of its children, and the tree
from the way it is made: its preorder visits what the history says (`forall₂_pictures`).
-/

namespace TreeSketch

namespace LinkedArena

/-- An operation on an arena. -/
inductive Step where
  | root (name : String) (fixed : Option Verdict)
  | child (parent : Nat) (name : String) (fixed : Option Verdict)
  | settle
deriving Repr, DecidableEq

/-- The entry that an operation adds. -/
def Step.added? : Step → Option Added
  | .root name fixed => some ⟨name, fixed, none⟩
  | .child parent name fixed => some ⟨name, fixed, some parent⟩
  | .settle => none

/-- The entries that operations add, in order. -/
def history (steps : List Step) : History :=
  steps.filterMap Step.added?

/-- Entries are added below existing entries only; `count` entries exist before. -/
def ParentsExist (count : Nat) : List Step → Prop
  | [] => True
  | .root _ _ :: rest => ParentsExist (count + 1) rest
  | .child parent _ _ :: rest => parent < count ∧ ParentsExist (count + 1) rest
  | .settle :: rest => ParentsExist count rest

/-- The arena after some operations, and the numbers of the entries that they have added. -/
def run? (arena : LinkedArena) : List Step → Option (LinkedArena × List Nat)
  | [] => some (arena, [])
  | .root name fixed :: rest =>
    let (next, id) := arena.addRoot name fixed
    (next.run? rest).map fun (last, ids) => (last, id :: ids)
  | .child parent name fixed :: rest => do
    let (next, id) ← arena.addChild? parent name fixed
    (next.run? rest).map fun (last, ids) => (last, id :: ids)
  | .settle :: rest => arena.settle.run? rest

end LinkedArena

/-- The arena has the entries that were added. What was said of an entry stays as it is, and what was left open
may be decided only if entries are settled. -/
structure Arena.Records (settled : Prop) (arena : Arena) (history : History) : Prop where
  size_eq : arena.size = history.length
  slot : ∀ id entry, history[id]? = some entry → ∃ verdict,
    arena.get? id = some ⟨entry.name, verdict, entry.parent⟩ ∧
      (∀ fixed ∈ entry.fixed, verdict = some fixed) ∧ (¬ settled → verdict = entry.fixed)

namespace Arena.Records

variable {settled : Prop} {arena : Arena} {history : History}

theorem empty (settled : Prop) : Records settled Arena.empty [] :=
  ⟨rfl, nofun⟩

theorem add (h : arena.Records settled history) (entry : Added)
    (hparent : ∀ p, entry.parent = some p → p < arena.size) :
    (arena.add ⟨entry.name, entry.fixed, entry.parent⟩ hparent).Records settled (history ++ [entry]) := by
  refine ⟨?_, fun id other hother => ?_⟩
  · rw [size_add, h.size_eq, List.length_append, List.length_singleton]
  · rw [get?_add, h.size_eq]
    rw [List.getElem?_append] at hother
    split at hother
    · rename_i hid
      rw [if_neg (Nat.ne_of_lt hid)]
      exact h.slot id other hother
    · rename_i hid
      obtain ⟨hzero, rfl⟩ := of_getElem?_singleton hother
      rw [if_pos (by omega)]
      exact ⟨_, rfl, fun fixed hfixed => hfixed, fun _ => rfl⟩

theorem settle (h : arena.Records settled history) (hsettled : settled) :
    arena.settle.Records settled history := by
  refine ⟨(Array.size_mapIdx : arena.settle.size = arena.size).trans h.size_eq, fun id entry hentry => ?_⟩
  obtain ⟨verdict, hslot, hfixed, -⟩ := h.slot id entry hentry
  have hget : arena.settle.get? id = (arena.get? id).map (arena.settleSlot id) := Array.getElem?_mapIdx
  rw [hget, hslot, Option.map_some, settleSlot]
  cases verdict with
  | none => exact ⟨_, rfl, fun fixed hmem => absurd (hfixed fixed hmem).symm (Option.some_ne_none fixed), absurd hsettled⟩
  | some verdict => exact ⟨_, rfl, hfixed, absurd hsettled⟩

end Arena.Records

namespace LinkedArena

/-- Operations lead from a linked arena to a linked arena, and number the entries that they add. -/
theorem exists_run?_linked {settled : Prop} {arena : Arena} {before : History} {steps : List Step}
    (h : arena.Records settled before) (hsettled : .settle ∈ steps → settled)
    (hparents : ParentsExist before.length steps) :
    ∃ last : Arena, arena.linked.run? steps =
        some (last.linked, List.range' before.length (history steps).length) ∧
      last.Records settled (before ++ history steps) := by
  induction steps generalizing arena before with
  | nil => exact ⟨arena, rfl, by rwa [history, List.filterMap_nil, List.append_nil]⟩
  | cons step rest ih =>
    have hrest : .settle ∈ rest → settled := fun hmem => hsettled (List.mem_cons_of_mem step hmem)
    have hlength (entry : Added) : (before ++ [entry]).length = before.length + 1 := List.length_append
    have hhistory (entry : Added) : before ++ [entry] ++ history rest = before ++ entry :: history rest :=
      List.append_assoc before [entry] (history rest)
    cases step with
    | root name fixed =>
      obtain ⟨last, hrun, hlast⟩ := ih (h.add ⟨name, fixed, none⟩ nofun) hrest (by rwa [hlength])
      refine ⟨last, ?_, hhistory _ ▸ hlast⟩
      rw [run?, Arena.addRoot_linked]
      refine (congrArg (·.map fun run => (run.1, arena.size :: run.2)) hrun).trans ?_
      rw [Option.map_some, h.size_eq, hlength]
      rfl
    | child parent name fixed =>
      have hparent : parent < arena.size := h.size_eq ▸ hparents.1
      have hadd := h.add ⟨name, fixed, some parent⟩ fun _ hp => Option.some.inj hp ▸ hparent
      obtain ⟨last, hrun, hlast⟩ := ih hadd hrest (by rw [hlength]; exact hparents.2)
      refine ⟨last, ?_, hhistory _ ▸ hlast⟩
      rw [run?, Arena.addChild?_linked hparent]
      refine (congrArg (·.map fun run => (run.1, arena.size :: run.2)) hrun).trans ?_
      rw [Option.map_some, h.size_eq, hlength]
      rfl
    | settle =>
      obtain ⟨last, hrun, hlast⟩ := ih (h.settle (hsettled List.mem_cons_self)) hrest hparents
      refine ⟨last, ?_, hlast⟩
      rw [run?, Arena.settle_linked]
      exact hrun

/-! ## Links -/

/-- The entries are those that were added, the two directions of links agree, and climbing ends at a root. -/
structure Sound (arena : LinkedArena) (history : History) : Prop where
  size_eq : arena.size = history.length
  slot : ∀ id entry, history[id]? = some entry → ∃ slot, arena.get? id = some slot ∧
    slot.name = entry.name ∧ slot.parent = entry.parent ∧
      ∀ fixed ∈ entry.fixed, slot.kind = some fixed.kind ∧ slot.origin = some fixed.origin
  /-- An entry is listed by its parent, -/
  mem_children_iff : ∀ id parent, id ∈ arena.children parent ↔ arena.parent? id = some parent
  /-- once, and nowhere else. -/
  count_children : ∀ id, ((List.range arena.size).flatMap arena.children).count id =
    if (arena.parent? id).isSome then 1 else 0
  parent_lt : ∀ id parent, arena.parent? id = some parent → parent < id
  increasing : ∀ id, (arena.children id).Pairwise (· < ·)
  depth_root : ∀ id < arena.size, arena.parent? id = none → arena.depth? id = some 0
  depth_child : ∀ id parent, arena.parent? id = some parent →
    ∃ depth, arena.depth? parent = some depth ∧ arena.depth? id = some (depth + 1)

/-- Settling decides every entry and changes nothing else, so that it changes nothing the second time. -/
structure Settles (arena : LinkedArena) : Prop where
  size_eq : arena.settle.size = arena.size
  slot : ∀ id slot, arena.get? id = some slot → ∃ verdict : Verdict,
    arena.settle.get? id = some { slot with kind := some verdict.kind, origin := some verdict.origin } ∧
      (∀ kind ∈ slot.kind, kind = verdict.kind) ∧ ∀ origin ∈ slot.origin, origin = verdict.origin
  again : arena.settle.settle = arena.settle

end LinkedArena

namespace Arena

theorem Records.sound {settled : Prop} {arena : Arena} {history : History}
    (h : arena.Records settled history) : arena.linked.Sound history where
  size_eq := arena.size_linked.trans h.size_eq
  slot id entry hentry := by
    obtain ⟨verdict, hslot, hfixed, -⟩ := h.slot id entry hentry
    rw [get?_linked, hslot]
    refine ⟨_, rfl, rfl, rfl, fun fixed hmem => ?_⟩
    rw [hfixed fixed hmem]
    exact ⟨rfl, rfl⟩
  mem_children_iff id parent := by rw [children_linked, parent?_linked, mem_children_iff]
  count_children id := by
    have hchildren : arena.linked.children = arena.children := funext arena.children_linked
    rw [hchildren, size_linked, parent?_linked, arena.nodup_flatMap_children.count]
    simp only [mem_flatMap_children_iff]
  parent_lt id parent hparent := arena.parent?_lt (arena.parent?_linked id ▸ hparent)
  increasing id := arena.children_linked id ▸ arena.pairwise_children id
  depth_root id hid hparent := by
    rw [size_linked] at hid
    rw [parent?_linked] at hparent
    rw [depth?_linked hid, depth_of_root hparent]
  depth_child id parent hparent := by
    rw [parent?_linked] at hparent
    obtain ⟨hlt, hid⟩ := mem_children (mem_children_iff.mpr hparent)
    rw [depth?_linked hid, depth?_linked (Nat.lt_trans hlt hid), depth_of_child hparent]
    exact ⟨_, rfl, rfl⟩

theorem settles_linked (arena : Arena) : arena.linked.Settles where
  size_eq := by
    rw [settle_linked, size_linked, size_linked]
    exact Array.size_mapIdx
  slot id slot hslot := by
    rw [get?_linked] at hslot
    obtain ⟨⟨name, verdict, parent⟩, hget, rfl⟩ := Option.map_eq_some_iff.mp hslot
    rw [LinkedArena.get?_settle, get?_linked, hget]
    cases verdict with
    | none => exact ⟨_, rfl, nofun, nofun⟩
    | some verdict =>
      refine ⟨verdict, rfl, ?_, ?_⟩
      · rintro _ ⟨⟩
        rfl
      · rintro _ ⟨⟩
        rfl
  again := by
    refine LinkedArena.eq_of_get? fun id => ?_
    rw [LinkedArena.get?_settle, LinkedArena.get?_settle, Option.map_map]
    congr 1
    funext ⟨_, kind, _, _, _⟩
    cases kind <;> rfl

end Arena

/-! ## Trees -/

namespace LinkedArena

/-- An entry as the tree at `root` shows it: with the name that it was given, the kind that it was said to have
or else has by its children, and the trees of its children in order. -/
structure Pictures (arena : LinkedArena) (history : History) (root id : Nat) (shown : Nat × Node) : Prop where
  tree_eq : arena.intoTree? id = some shown.2
  depth_eq : ∃ above, arena.depth? root = some above ∧ arena.depth? id = some (above + shown.1)
  name_eq : history[id]?.map (·.name) = some shown.2.name
  kind_fixed : ∀ kind ∈ history.kind? id, shown.2.kind = kind
  kind_open : history.kind? id = none → (shown.2.kind = .directory ↔ arena.children id ≠ [])
  children : shown.2.kind = .directory →
    List.Forall₂ (fun child below => arena.intoTree? child = some below) (arena.children id) shown.2.children

end LinkedArena

namespace Arena.Records

variable {settled : Prop} {arena : Arena} {history : History}

theorem parent?_eq (h : arena.Records settled history) (id : Nat) : history.parent? id = arena.parent? id := by
  rw [History.parent?]
  cases hentry : history[id]? with
  | none =>
    rw [List.getElem?_eq_none_iff, ← h.size_eq] at hentry
    rw [Arena.parent?, get?_eq_none hentry, Option.bind_none, Option.bind_none]
  | some entry =>
    obtain ⟨verdict, hslot, -⟩ := h.slot id entry hentry
    rw [parent?_of_get? hslot, Option.bind_some]

theorem ordered (h : arena.Records settled history) : history.Ordered := fun id _ hparent =>
  arena.parent?_lt (h.parent?_eq id ▸ hparent)

theorem children_eq (h : arena.Records settled history) (id : Nat) :
    history.children id = arena.children id := by
  rw [History.children, Arena.children, h.size_eq]
  refine List.filter_congr fun child _ => ?_
  rw [h.parent?_eq, decide_eq_decide]
  exact ⟨And.right, fun hparent => ⟨arena.parent?_lt hparent, hparent⟩⟩

/-- While nothing has been settled, the tree at an entry follows from what was said of the entry. -/
theorem toTree_eq (h : arena.Records settled history) (hopen : ¬ settled) {id : Nat} {entry : Added}
    (hentry : history[id]? = some entry) :
    arena.toTree id = (⟨entry.name, entry.fixed⟩ : Label).close ((arena.children id).map arena.toTree) := by
  obtain ⟨verdict, hslot, -, hverdict⟩ := h.slot id entry hentry
  rw [hverdict hopen] at hslot
  exact Arena.toTree_eq hslot

theorem exists_entry (h : arena.Records settled history) {id : Nat} (hid : id < arena.size) :
    ∃ entry, history[id]? = some entry ∧ history.kind? id = entry.fixed.map (·.kind) := by
  obtain ⟨entry, hentry⟩ : ∃ entry, history[id]? = some entry :=
    ⟨_, List.getElem?_eq_getElem (h.size_eq ▸ hid)⟩
  refine ⟨entry, hentry, ?_⟩
  rw [History.kind?, hentry, Option.bind_some]

theorem children_toTree (h : arena.Records settled history) (hopen : ¬ settled) {id : Nat}
    (hid : id < arena.size) : (arena.toTree id).children =
      if history.kind? id = some .file then [] else (arena.children id).map arena.toTree := by
  obtain ⟨entry, hentry, hkind⟩ := h.exists_entry hid
  rw [h.toTree_eq hopen hentry, hkind]
  split
  · rename_i hfile
    obtain ⟨verdict, hfixed, hverdict⟩ := Option.map_eq_some_iff.mp hfile
    rw [Label.close, Label.verdict, hfixed, Option.getD_some, hverdict, Node.children]
  · rename_i hfile
    exact Label.children_close fun hisFile => absurd hisFile hfile

/-- The tree that an entry has on its own is the one that it has in the tree at a root above. -/
theorem pictures (h : arena.Records settled history) (hopen : ¬ settled) {root id depth : Nat}
    (hroot : root < arena.size) (hid : id < arena.size) (hdepth : arena.depth id = arena.depth root + depth) :
    arena.linked.Pictures history root id (depth, arena.toTree id) := by
  obtain ⟨entry, hentry, hkind⟩ := h.exists_entry hid
  have htree := h.toTree_eq hopen hentry
  have hfixed : ∀ kind ∈ history.kind? id, (arena.toTree id).kind = kind := by
    rw [hkind, htree, Label.kind_close, Label.verdict]
    rintro kind hmem
    obtain ⟨verdict, hfixed, rfl⟩ := Option.map_eq_some_iff.mp hmem
    rw [hfixed, Option.getD_some]
  refine ⟨intoTree?_linked hid, ⟨_, depth?_linked hroot, ?_⟩, ?_, hfixed, ?_, fun hdirectory => ?_⟩
  · rw [depth?_linked hid, hdepth]
  · rw [hentry, htree, Label.name_close]
    rfl
  · rw [hkind, Option.map_eq_none_iff, htree, Label.kind_close, Label.verdict, children_linked]
    intro hnone
    rw [hnone, Option.getD_none, Verdict.infer_kind]
    cases arena.children id <;> simp
  · have hfile : history.kind? id ≠ some .file := by
      intro hfile
      cases hdirectory.symm.trans (hfixed .file hfile)
    rw [h.children_toTree hopen hid, if_neg hfile, children_linked, List.forall₂_map_right_iff,
      List.forall₂_same]
    exact fun child hchild => intoTree?_linked (mem_children hchild).2

theorem forall₂_flatMap {α β γ : Type} {R : β → γ → Prop} {f : α → List β} {g : α → List γ} {xs : List α}
    (h : ∀ x ∈ xs, List.Forall₂ R (f x) (g x)) : List.Forall₂ R (xs.flatMap f) (xs.flatMap g) := by
  induction xs with
  | nil => exact .nil
  | cons x xs ih =>
    obtain ⟨hx, hxs⟩ := List.forall_mem_cons.mp h
    rw [List.flatMap_cons, List.flatMap_cons]
    exact List.rel_append hx (ih hxs)

/-- The walk of a tree visits what the history says. -/
theorem forall₂_pictures (h : arena.Records settled history) (hopen : ¬ settled) {root : Nat}
    (hroot : root < arena.size) (id : Nat) : ∀ depth, id < arena.size →
      arena.depth id = arena.depth root + depth →
      List.Forall₂ (arena.linked.Pictures history root) (history.visit id)
        ((arena.toTree id).preorder depth) := by
  induction id using History.children_induction history with
  | step id ih =>
    intro depth hid hdepth
    rw [History.visit_eq, Node.preorder_eq_cons, h.children_toTree hopen hid]
    refine .cons (h.pictures hopen hroot hid hdepth) ?_
    split
    · exact .nil
    · rw [Node.preorderAll_eq_flatMap, List.flatMap_map, ← h.children_eq]
      refine forall₂_flatMap fun child hchild => ih child hchild (depth + 1) ?_ ?_
      · rw [h.size_eq]
        exact (History.bounds_of_mem_children hchild).2
      · rw [h.children_eq, mem_children_iff] at hchild
        rw [depth_of_child hchild, hdepth, Nat.add_assoc]

end Arena.Records

namespace LinkedArena

/-- What becomes of an arena to which entries are added below existing ones, and in which entries may be settled
at any time. Every entry gets its place in the order of creation as its number, the links agree with the entries
that were added, and settling changes only what is open. If the first settling is the one for a tree, the tree
shows the entries that the history says, once each and in order. -/
theorem run?_spec {steps : List Step} (h : ParentsExist 0 steps) :
    ∃ arena, empty.run? steps = some (arena, List.range (history steps).length) ∧
      arena.Sound (history steps) ∧ arena.Settles ∧
      (.settle ∉ steps → ∀ root < (history steps).length, ∃ tree, arena.intoTree? root = some tree ∧
        List.Forall₂ (arena.Pictures (history steps) root) ((history steps).visit root) tree.walk ∧
        ((history steps).visit root).Nodup ∧
        ∀ id, id ∈ (history steps).visit root ↔ (history steps).Shown root id) := by
  obtain ⟨arena, hrun, hrecords⟩ :=
    exists_run?_linked (Arena.Records.empty (.settle ∈ steps)) id h
  rw [List.nil_append] at hrecords
  rw [Arena.linked_empty, List.length_nil, ← List.range_eq_range'] at hrun
  refine ⟨arena.linked, hrun, hrecords.sound, arena.settles_linked, fun hopen root hroot => ?_⟩
  rw [← hrecords.size_eq] at hroot
  refine ⟨arena.toTree root, Arena.intoTree?_linked hroot, ?_, History.nodup_visit hrecords.ordered root,
    fun id => History.mem_visit_iff hrecords.ordered⟩
  rw [Node.walk_eq_preorder]
  exact hrecords.forall₂_pictures hopen hroot root 0 hroot rfl

/-- Two trees that grow side by side. The root of the second one is a file, so nothing below it is shown. -/
theorem run?_spec_two :
    let steps : List Step := [.root "app" none, .root "notes" (some ⟨.file, .hint⟩), .child 0 "src" none,
      .child 1 "lost" none, .child 2 "main.rs" none]
    ∃ arena, empty.run? steps = some (arena, [0, 1, 2, 3, 4]) ∧ arena.Sound (history steps) ∧ arena.Settles ∧
      ∀ root < 5, ∃ tree, arena.intoTree? root = some tree ∧
        List.Forall₂ (arena.Pictures (history steps) root) ((history steps).visit root) tree.walk := by
  intro steps
  obtain ⟨arena, hrun, hsound, hsettles, htrees⟩ := @run?_spec steps (by simp [steps, ParentsExist])
  refine ⟨arena, hrun, hsound, hsettles, fun root hroot => ?_⟩
  obtain ⟨tree, htree, hshown, -⟩ := htrees (by decide) root hroot
  exact ⟨tree, htree, hshown⟩

end LinkedArena

end TreeSketch
