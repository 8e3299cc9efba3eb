import Mathlib.Data.List.Forall2

/-!
# Computations step by step

What a success of several steps says about each of them, when two steps do the same as two others, and what
two steps with a state come to.
-/

namespace TreeSketch

variable {ε α β : Type}

/-- Two steps succeed when the first one does, and the second one does on what the first one gives. -/
theorem bind_eq_ok_iff {x : Except ε α} {f : α → Except ε β} {b : β} :
    x >>= f = .ok b ↔ ∃ a, x = .ok a ∧ f a = .ok b := by
  cases x with
  | error fault => exact ⟨nofun, fun ⟨_, hx, _⟩ => nomatch hx⟩
  | ok a =>
    refine ⟨fun h => ⟨a, rfl, h⟩, ?_⟩
    rintro ⟨_, hx, hf⟩
    cases hx
    exact hf

/-- Two steps fail when the first one does, or the second one does on what the first one gives. -/
theorem bind_eq_error_iff {x : Except ε α} {f : α → Except ε β} {fault : ε} :
    x >>= f = .error fault ↔ x = .error fault ∨ ∃ a, x = .ok a ∧ f a = .error fault := by
  cases x with
  | error other =>
    refine ⟨fun h => Or.inl (congrArg Except.error (Except.error.inj h)), ?_⟩
    rintro (h | ⟨_, hx, -⟩)
    · cases h
      rfl
    · cases hx
  | ok a =>
    refine ⟨fun h => Or.inr ⟨a, rfl, h⟩, ?_⟩
    rintro (h | ⟨_, hx, hf⟩)
    · cases h
    · cases hx
      exact hf

/-- Two steps can succeed when the first one can, and the second one on what the first one gives. -/
theorem exists_bind_eq_ok_iff {x : Except ε α} {f : α → Except ε β} :
    (∃ b, x >>= f = .ok b) ↔ ∃ a, x = .ok a ∧ ∃ b, f a = .ok b := by
  simp only [bind_eq_ok_iff]
  constructor
  · rintro ⟨b, a, ha, hb⟩
    exact ⟨a, ha, b, hb⟩
  · rintro ⟨a, ha, b, hb⟩
    exact ⟨b, a, ha, hb⟩

/-- Two steps do the same as two others that may differ from them only where they end in the fault `e`. -/
theorem bind_eq_of_ne_error {x y : Except ε α} {f g : α → Except ε β} {e : ε}
    (hx : x ≠ .error e → y = x) (hf : ∀ a, x = .ok a → f a ≠ .error e → g a = f a)
    (h : x >>= f ≠ .error e) : y >>= g = x >>= f := by
  cases x with
  | error fault =>
    rw [hx fun heq => h (congrArg (· >>= f) heq)]
    rfl
  | ok a =>
    rw [hx nofun]
    exact hf a rfl h

/-- What is made of a success is made of what it gives. -/
theorem map_eq_ok_iff {x : Except ε α} {f : α → β} {b : β} :
    x.map f = .ok b ↔ ∃ a, x = .ok a ∧ f a = b := by
  cases x with
  | error fault => exact ⟨nofun, fun ⟨_, hx, _⟩ => nomatch hx⟩
  | ok a =>
    refine ⟨fun h => ⟨a, rfl, Except.ok.inj h⟩, ?_⟩
    rintro ⟨_, hx, rfl⟩
    cases hx
    rfl

theorem map_eq_error_iff {x : Except ε α} {f : α → β} {fault : ε} :
    x.map f = .error fault ↔ x = .error fault := by
  cases x with
  | error other =>
    constructor
    · rintro ⟨⟩
      rfl
    · rintro ⟨⟩
      rfl
  | ok a => exact ⟨nofun, nofun⟩

/-- Naming a fault differently changes no success. -/
theorem mapError_eq_ok_iff {δ : Type} {x : Except ε α} {f : ε → δ} {a : α} :
    x.mapError f = .ok a ↔ x = .ok a := by
  cases x with
  | error fault => exact ⟨nofun, nofun⟩
  | ok b =>
    constructor
    · rintro ⟨⟩
      rfl
    · rintro ⟨⟩
      rfl

/-- To name the faults of two steps differently is to name those of each differently. -/
theorem mapError_bind {δ : Type} (g : ε → δ) (x : Except ε α) (f : α → Except ε β) :
    (x >>= f).mapError g = x.mapError g >>= fun a => (f a).mapError g := by
  cases x with
  | error fault => rfl
  | ok a => rfl

theorem mapError_mapError {δ γ : Type} (f : ε → δ) (g : δ → γ) (x : Except ε α) :
    (x.mapError f).mapError g = x.mapError fun fault => g (f fault) := by
  cases x with
  | error fault => rfl
  | ok a => rfl

theorem mapError_map {δ : Type} (g : ε → δ) (x : Except ε α) (f : α → β) :
    (x.map f).mapError g = (x.mapError g).map f := by
  cases x with
  | error fault => rfl
  | ok a => rfl

theorem mapError_eq_error_iff {δ : Type} {x : Except ε α} {f : ε → δ} {fault : δ} :
    x.mapError f = .error fault ↔ ∃ cause, x = .error cause ∧ f cause = fault := by
  cases x with
  | error other =>
    refine ⟨fun h => ⟨other, rfl, Except.error.inj h⟩, ?_⟩
    rintro ⟨_, hx, rfl⟩
    cases hx
    rfl
  | ok a => exact ⟨nofun, fun ⟨_, hx, _⟩ => nomatch hx⟩

/-- A list of steps succeeds when every step does. -/
theorem mapM_eq_ok_iff {f : α → Except ε β} {xs : List α} {ys : List β} :
    xs.mapM f = .ok ys ↔ List.Forall₂ (fun x y => f x = .ok y) xs ys := by
  induction xs generalizing ys with
  | nil =>
    rw [List.mapM_nil, List.forall₂_nil_left_iff]
    exact ⟨fun h => (Except.ok.inj h).symm, fun h => h ▸ rfl⟩
  | cons x xs ih =>
    rw [List.mapM_cons, bind_eq_ok_iff, List.forall₂_cons_left_iff]
    constructor
    · rintro ⟨y, hy, hrest⟩
      obtain ⟨more, hmore, hys⟩ := bind_eq_ok_iff.mp hrest
      exact ⟨y, more, hy, ih.mp hmore, (Except.ok.inj hys).symm⟩
    · rintro ⟨y, more, hy, hmore, rfl⟩
      exact ⟨y, hy, bind_eq_ok_iff.mpr ⟨more, ih.mpr hmore, rfl⟩⟩

/-- A list of steps fails as the first step that does. -/
theorem mapM_eq_error_iff {f : α → Except ε β} {xs : List α} {fault : ε} :
    xs.mapM f = .error fault ↔
      ∃ before x after, xs = before ++ x :: after ∧ (∀ y ∈ before, ∃ b, f y = .ok b) ∧
        f x = .error fault := by
  induction xs with
  | nil =>
    rw [List.mapM_nil]
    exact ⟨nofun, fun ⟨before, x, after, hxs, _⟩ => by simp at hxs⟩
  | cons x xs ih =>
    rw [List.mapM_cons, bind_eq_error_iff]
    constructor
    · rintro (hx | ⟨b, hx, hrest⟩)
      · exact ⟨[], x, xs, rfl, nofun, hx⟩
      · rcases bind_eq_error_iff.mp hrest with hrest | ⟨_, -, hrest⟩
        · obtain ⟨before, y, after, rfl, hbefore, hy⟩ := ih.mp hrest
          exact ⟨x :: before, y, after, rfl, List.forall_mem_cons.mpr ⟨⟨b, hx⟩, hbefore⟩, hy⟩
        · cases hrest
    · rintro ⟨before, y, after, hxs, hbefore, hy⟩
      cases before with
      | nil =>
        obtain ⟨rfl, -⟩ := List.cons.inj hxs
        exact Or.inl hy
      | cons z before =>
        obtain ⟨rfl, rfl⟩ := List.cons.inj hxs
        obtain ⟨⟨b, hx⟩, hbefore⟩ := List.forall_mem_cons.mp hbefore
        exact Or.inr ⟨b, hx, bind_eq_error_iff.mpr (Or.inl (ih.mpr ⟨before, y, after, rfl, hbefore, hy⟩))⟩

/-- A list of steps that fails has a step that does. -/
theorem exists_mem_of_mapM_eq_error {f : α → Except ε β} {xs : List α} {fault : ε}
    (h : xs.mapM f = .error fault) : ∃ x ∈ xs, f x = .error fault := by
  induction xs with
  | nil =>
    rw [List.mapM_nil] at h
    cases h
  | cons x xs ih =>
    rw [List.mapM_cons] at h
    rcases bind_eq_error_iff.mp h with h | ⟨y, -, h⟩
    · exact ⟨x, List.mem_cons_self, h⟩
    · rcases bind_eq_error_iff.mp h with h | ⟨_, -, h⟩
      · obtain ⟨other, hmem, hother⟩ := ih h
        exact ⟨other, List.mem_cons_of_mem x hmem, hother⟩
      · cases h

/-- What is done next is done to the state that the first step leaves. -/
theorem bind_apply {σ : Type} (action : StateM σ α) (next : α → StateM σ β) (state : σ) :
    (action >>= next) state = next (action state).1 (action state).2 := rfl

/-! ## Two runs -/

/-- Two computations that run alike: both give results, which are related, or both fail, with faults that look the
same. -/
inductive RunAlike {δ : Type} (look : ε → δ) (rel : α → β → Prop) : Except ε α → Except ε β → Prop
  | ok {a : α} {b : β} (h : rel a b) : RunAlike look rel (.ok a) (.ok b)
  | error {fault other : ε} (h : look fault = look other) :
    RunAlike look rel (.error fault) (.error other)

namespace RunAlike

variable {δ α' β' : Type} {look : ε → δ} {rel : α → β → Prop} {rel' : α' → β' → Prop}

/-- Two steps run alike when the first ones do, and the second ones do on related results. -/
theorem bind {x : Except ε α} {y : Except ε β} {f : α → Except ε α'} {g : β → Except ε β'}
    (h : RunAlike look rel x y) (hnext : ∀ a b, rel a b → RunAlike look rel' (f a) (g b)) :
    RunAlike look rel' (x >>= f) (y >>= g) := by
  cases h with
  | ok h => exact hnext _ _ h
  | error h => exact .error h

/-- Lists of steps run alike when they do step by step. -/
theorem mapM {f : α → Except ε α'} {g : β → Except ε β'} {xs : List α} {ys : List β}
    (h : List.Forall₂ (fun x y => RunAlike look rel' (f x) (g y)) xs ys) :
    RunAlike look (List.Forall₂ rel') (xs.mapM f) (ys.mapM g) := by
  induction h with
  | nil => exact .ok .nil
  | cons hfirst _ ih =>
    rw [List.mapM_cons, List.mapM_cons]
    apply hfirst.bind
    intro a b hab
    apply ih.bind
    intro as bs hrest
    exact .ok (.cons hab hrest)

end RunAlike

end TreeSketch
