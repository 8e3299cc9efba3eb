import TreeSketch.Proofs.Except
import TreeSketch.Proofs.Text.Position

/-!
# Checked access

The readers of the library are total: they take texts and lists apart by their constructors. A reader that
works with offsets and numbers instead has accesses that may fail, and such a reader stops where one does.
`Checked` is the type of its results: it stops with a *trap* if an access fails, and with a *fault* if the
source is to blame.

`Checked.lift` embeds the results of the total readers, which know no traps. So a checked reader whose
result is `lift` of something is one whose accesses all succeed, whatever the source.
-/

namespace TreeSketch

/-- An access that fails, or a case that is not taken into account. -/
inductive Trap where
  /-- A part of a text that is not there, or does not start and end between characters. -/
  | slice
  /-- An element that a list does not have. -/
  | index
  /-- A difference below zero. -/
  | difference
  /-- A division by zero. -/
  | division
  /-- A token where the lexer makes none of its kind. -/
  | token
  /-- A level of no width. -/
  | unit
  /-- A block without a tree. -/
  | tree
deriving Repr, DecidableEq

/-- Why a checked reader has no result. -/
inductive Stop (ε : Type) where
  | trap (trap : Trap)
  | fault (fault : ε)
deriving Repr, DecidableEq

/-- The result of a checked reader. -/
abbrev Checked (ε α : Type) := Except (Stop ε) α

namespace Checked

variable {ε δ α β : Type}

/-- The result of a reader without traps. -/
def lift (x : Except ε α) : Checked ε α :=
  x.mapError .fault

/-- The source is to blame. -/
def refuse (fault : ε) : Checked ε α :=
  .error (.fault fault)

/-- The access fails. -/
def fail (trap : Trap) : Checked ε α :=
  .error (.trap trap)

/-- The result with its fault named differently. -/
def rename (f : ε → δ) (x : Checked ε α) : Checked δ α :=
  x.mapError fun
    | .trap trap => .trap trap
    | .fault fault => .fault (f fault)

@[simp] theorem lift_ok (a : α) : lift (.ok a : Except ε α) = .ok a := rfl

@[simp] theorem lift_error (fault : ε) : lift (.error fault : Except ε α) = refuse fault := rfl

@[simp] theorem ok_bind (a : α) (f : α → Checked ε β) : (.ok a : Checked ε α) >>= f = f a := rfl

@[simp] theorem refuse_bind (fault : ε) (f : α → Checked ε β) :
    (refuse fault : Checked ε α) >>= f = refuse fault := rfl

theorem lift_bind (x : Except ε α) (f : α → Except ε β) :
    lift (x >>= f) = lift x >>= fun a => lift (f a) :=
  mapError_bind Stop.fault x f

/-- A step of both readers, behind which they agree. -/
theorem lift_bind_eq {x : Except ε α} {f : α → Checked ε β} {g : α → Except ε β}
    (h : ∀ a, x = .ok a → f a = lift (g a)) : (lift x >>= f) = lift (x >>= g) := by
  cases x with
  | error fault => rfl
  | ok a => exact h a rfl

/-- A list of steps on whose elements both readers agree. -/
theorem mapM_eq_lift {f : α → Checked ε β} {g : α → Except ε β} {xs : List α}
    (h : ∀ x ∈ xs, f x = lift (g x)) : xs.mapM f = lift (xs.mapM g) := by
  induction xs with
  | nil => rfl
  | cons x xs ih =>
    obtain ⟨hx, hxs⟩ := List.forall_mem_cons.mp h
    rw [List.mapM_cons, List.mapM_cons, hx, ih hxs]
    exact lift_bind_eq fun _ _ => lift_bind_eq fun _ _ => rfl

/-- What has no traps never stops at one. -/
theorem lift_ne_trap (x : Except ε α) (trap : Trap) : lift x ≠ .error (.trap trap) := by
  cases x with
  | error fault => exact nofun
  | ok a => exact nofun

theorem rename_lift (f : ε → δ) (x : Except ε α) : rename f (lift x) = lift (x.mapError f) := by
  cases x with
  | error fault => rfl
  | ok a => rfl

/-! ## Accesses -/

/-- The parts of a text before and after an offset that is counted in bytes, if it falls between two
characters. -/
def splitAt? (offset : Nat) : List Char → Option (List Char × List Char)
  | [] => if offset = 0 then some ([], []) else none
  | c :: cs =>
    if offset = 0 then some ([], c :: cs)
    else if c.utf8Size ≤ offset then
      (splitAt? (offset - c.utf8Size) cs).map fun (before, after) => (c :: before, after)
    else none

/-- The part of a text from the offset `start` up to `stop`. -/
def slice (text : List Char) (start stop : Nat) : Checked ε (List Char) :=
  if start ≤ stop then
    match (splitAt? start text).bind fun parts => splitAt? (stop - start) parts.2 with
    | some (piece, _) => .ok piece
    | none => fail .slice
  else fail .slice

/-- The element of a list at an index. -/
def element (xs : List α) (i : Nat) : Checked ε α :=
  match xs[i]? with
  | some x => .ok x
  | none => fail .index

/-- The difference of two numbers. -/
def minus (a b : Nat) : Checked ε Nat :=
  if b ≤ a then .ok (a - b) else fail .difference

/-- The quotient of two numbers. -/
def quotient (a b : Nat) : Checked ε Nat :=
  if b = 0 then fail .division else .ok (a / b)

/-- The remainder of a division. -/
def remainder (a b : Nat) : Checked ε Nat :=
  if b = 0 then fail .division else .ok (a % b)

theorem splitAt?_byteSize (before after : List Char) :
    splitAt? (Text.byteSize before) (before ++ after) = some (before, after) := by
  induction before with
  | nil => cases after <;> rfl
  | cons c before ih =>
    have hpos := c.utf8Size_pos
    rw [Text.byteSize_cons, List.cons_append, splitAt?, if_neg (by omega), if_pos (by omega),
      Nat.add_sub_cancel_left, ih]
    rfl

/-- A piece of a text that is where it should be can be cut out. -/
theorem slice_of_hasAt {text piece : List Char} {start stop : Nat} (h : Text.HasAt text start piece)
    (hstop : stop = start + Text.byteSize piece) : (slice text start stop : Checked ε _) = .ok piece := by
  obtain ⟨before, after, rfl, rfl⟩ := h
  subst hstop
  rw [slice, if_pos (Nat.le_add_right _ _), List.append_assoc, splitAt?_byteSize, Option.bind_some,
    Nat.add_sub_cancel_left, splitAt?_byteSize]

/-- A cut inside a character fails. -/
example : (slice "aé".toList 1 3 : Checked Unit (List Char)) = .ok ['é'] ∧
    (slice "aé".toList 1 2 : Checked Unit (List Char)) = fail .slice :=
  ⟨rfl, rfl⟩

theorem element_of_getElem? {xs : List α} {i : Nat} {x : α} (h : xs[i]? = some x) :
    (element xs i : Checked ε α) = .ok x := by
  rw [element, h]

theorem minus_of_le {a b : Nat} (h : b ≤ a) : (minus a b : Checked ε Nat) = .ok (a - b) :=
  if_pos h

theorem quotient_of_pos {b : Nat} (h : 0 < b) (a : Nat) :
    (quotient a b : Checked ε Nat) = .ok (a / b) :=
  if_neg (Nat.pos_iff_ne_zero.mp h)

theorem remainder_of_pos {b : Nat} (h : 0 < b) (a : Nat) :
    (remainder a b : Checked ε Nat) = .ok (a % b) :=
  if_neg (Nat.pos_iff_ne_zero.mp h)

end Checked

end TreeSketch
