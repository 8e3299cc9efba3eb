import TreeSketch.Proofs.Checked.Access
import TreeSketch.Proofs.Tree.Arena

/-!
# Trees by entry numbers

The accesses to an arena, each of which fails if there is no entry of the number that it is given. A tree
is made in two passes: every entry is settled, from the last one to the first, and the tree is built from
the root. `intoTree_eq` says that both passes meet existing entries only, and that the tree is
`Arena.toTree`.
-/

namespace TreeSketch

namespace Checked

variable {ε : Type}

/-- The entry of a number. -/
def slot (arena : Arena) (id : Nat) : Checked ε Slot :=
  match arena.get? id with
  | some slot => .ok slot
  | none => fail .index

/-- The youngest entry below an entry. -/
def lastChild (arena : Arena) (id : Nat) : Checked ε (Option Nat) := do
  let _ ← slot arena id
  return arena.lastChild? id

/-- Adds an entry below another one. -/
def addChild (arena : Arena) (parent : Nat) (name : String) (fixed : Option Verdict) :
    Checked ε Arena :=
  match arena.addChild? parent name fixed with
  | some next => .ok next
  | none => fail .index

/-- Decides the first `count` entries, the last of them first. -/
def settle (arena : Arena) : Nat → Checked ε Arena
  | 0 => .ok arena
  | count + 1 => do
    let _ ← slot arena count
    settle (arena.settleAt count) count

/-- The tree at an entry, when all entries are decided. -/
def build (arena : Arena) (id : Nat) : Checked ε Node := do
  let slot ← slot arena id
  match slot.verdict with
  | some ⟨.directory, _⟩ =>
    let children ← (arena.children id).attach.mapM fun child => build arena child.1
    return .directory slot.name children
  | _ => return .file slot.name
termination_by arena.size - id
decreasing_by
  have := Arena.mem_children child.2
  omega

/-- The tree at an entry. -/
def intoTree (arena : Arena) (root : Nat) : Checked ε Node := do
  let settled ← settle arena arena.size
  build settled root

theorem slot_of_get? {arena : Arena} {id : Nat} {entry : Slot} (h : arena.get? id = some entry) :
    (slot arena id : Checked ε Slot) = .ok entry := by
  rw [slot, h]

theorem lastChild_of_lt {arena : Arena} {id : Nat} (h : id < arena.size) :
    (lastChild arena id : Checked ε (Option Nat)) = .ok (arena.lastChild? id) := by
  obtain ⟨entry, hentry⟩ := Arena.exists_get?_of_lt h
  rw [lastChild, slot_of_get? hentry]
  rfl

theorem settle_settleFrom (arena : Arena) {count : Nat} (h : count ≤ arena.size) :
    (settle (arena.settleFrom count) count : Checked ε Arena) = .ok arena.settle := by
  induction count with
  | zero => rw [settle, Arena.settleFrom_zero]
  | succ count ih =>
    obtain ⟨entry, hentry⟩ := Arena.exists_get?_of_lt (Nat.lt_of_succ_le h)
    have hopen : (arena.settleFrom (count + 1)).get? count = some entry := by
      rw [Arena.get?_settleFrom, hentry]
      simp
    rw [settle, slot_of_get? hopen, ok_bind, Arena.settleAt_settleFrom]
    exact ih (Nat.le_of_succ_le h)

theorem mapM_eq_ok {α β : Type} {f : α → Checked ε β} {g : α → β} {xs : List α}
    (h : ∀ x ∈ xs, f x = .ok (g x)) : xs.mapM f = .ok (xs.map g) := by
  rw [mapM_eq_ok_iff]
  induction xs with
  | nil => exact List.Forall₂.nil
  | cons x xs ih =>
    obtain ⟨hx, hxs⟩ := List.forall_mem_cons.mp h
    exact List.Forall₂.cons hx (ih hxs)

/-- Every tree in a settled arena can be built. -/
theorem build_of_lt {arena : Arena} {id : Nat} (h : id < arena.size) :
    (build arena id : Checked ε Node) = .ok (arena.tree id) := by
  induction hleft : arena.size - id using Nat.strong_induction_on generalizing id with
  | h left ih =>
    obtain ⟨⟨name, verdict, parent⟩, hentry⟩ := Arena.exists_get?_of_lt h
    have hchildren : ((arena.children id).attach.mapM fun child =>
        (build arena child.1 : Checked ε Node)) =
          .ok ((arena.children id).attach.map fun child => arena.tree child.1) := by
      refine mapM_eq_ok fun child _ => ?_
      obtain ⟨hold, hsize⟩ := Arena.mem_children child.2
      exact ih _ (by omega) hsize rfl
    rw [build, Arena.tree, slot_of_get? hentry, hentry, ok_bind, hchildren]
    rcases verdict with _ | ⟨_ | _, _⟩ <;> rfl

/-- The tree at an entry of an arena can be made. -/
theorem intoTree_eq {arena : Arena} {root : Nat} (h : root < arena.size) :
    (intoTree arena root : Checked ε Node) = .ok (arena.toTree root) := by
  have hsettle : (settle (arena.settleFrom arena.size) arena.size : Checked ε Arena) = .ok arena.settle :=
    settle_settleFrom arena (Nat.le_refl _)
  have hsize : arena.settle.size = arena.size := Array.size_mapIdx
  rw [Arena.settleFrom_size] at hsettle
  rw [intoTree, hsettle, ok_bind, build_of_lt (by rw [hsize]; exact h), Arena.toTree]

end Checked

end TreeSketch
