import Mathlib.Algebra.Ring.Nat
import Mathlib.Data.List.Nodup
import TreeSketch.Proofs.Tree.Preorder
import TreeSketch.Tree.Statistics

/-!
# File statistics are a histogram in order

`Node.fileNames` lists the names of the files in a tree by recursion on the tree. The statistics of a tree hold
each extension that occurs among them once, with the number of files that have it (`mem_fileStatistics_iff`),
in the strict order `ExtensionCount.Precedes`. A table with these properties is unique, so trees whose files
have the same names, each as often, have the same statistics (`fileStatistics_spec`).

The table is made file by file: `Tallies` is what it knows of the extensions that have been counted so far,
`Tallies.tally` that one more file keeps it, and `tallies_ofExtensions` the induction over the files.
-/

namespace TreeSketch

namespace ExtensionCount

variable {extension : Option String} {extensions : List (Option String)}
  {counts before after : List ExtensionCount} {a b c : ExtensionCount}

/-! ## Counting -/

/-- An extension that has not occurred is put at the end of the table. -/
theorem tally_of_not_mem (h : ∀ count ∈ counts, count.extension ≠ extension) :
    tally extension counts = counts ++ [⟨extension, 1⟩] := by
  induction counts with
  | nil => rfl
  | cons count counts ih =>
    rw [List.forall_mem_cons] at h
    rw [tally, if_neg h.1, ih h.2, List.cons_append]

/-- An extension that has occurred gets one more file where it stands. -/
theorem tally_append_cons (h : ∀ count ∈ before, count.extension ≠ extension) (files : Nat)
    (after : List ExtensionCount) :
    tally extension (before ++ ⟨extension, files⟩ :: after) =
      before ++ ⟨extension, files + 1⟩ :: after := by
  induction before with
  | nil => rw [List.nil_append, tally, if_pos rfl, List.nil_append]
  | cons count before ih =>
    rw [List.forall_mem_cons] at h
    rw [List.cons_append, tally, if_neg h.1, ih h.2, List.cons_append]

theorem sum_tally (extension : Option String) (counts : List ExtensionCount) :
    ((tally extension counts).map (·.files)).sum = (counts.map (·.files)).sum + 1 := by
  induction counts with
  | nil => rfl
  | cons count counts ih =>
    rw [tally]
    split
    · simp only [List.map_cons, List.sum_cons]
      omega
    · simp only [List.map_cons, List.sum_cons, ih]
      omega

/-- What a table knows of the extensions that have been counted. -/
structure Tallies (extensions : List (Option String)) (counts : List ExtensionCount) : Prop where
  /-- No extension stands in the table twice. -/
  nodup : (counts.map (·.extension)).Nodup
  /-- The table holds the extensions that have occurred, with how often they have. -/
  mem_iff : ∀ count, count ∈ counts ↔
    0 < count.files ∧ count.files = extensions.count count.extension

/-- One more file of an extension makes an entry with one more file, and leaves the others. -/
theorem Tallies.exists_tally (h : Tallies extensions counts) (extension : Option String) :
    ∃ before after, tally extension counts =
        before ++ ⟨extension, extensions.count extension + 1⟩ :: after ∧
      (∀ count ∈ before ++ after, count.extension ≠ extension) ∧
      ((before ++ after).map (·.extension)).Nodup ∧
      ∀ count, count.extension ≠ extension → (count ∈ before ++ after ↔ count ∈ counts) := by
  by_cases hnew : extension ∈ extensions
  · obtain ⟨before, after, hcounts⟩ : ∃ before after,
        counts = before ++ ⟨extension, extensions.count extension⟩ :: after := by
      apply List.append_of_mem
      rw [h.mem_iff]
      exact ⟨List.count_pos_iff.mpr hnew, rfl⟩
    have hnodup := h.nodup
    rw [hcounts, List.map_append, List.map_cons, List.nodup_middle, List.nodup_cons, ← List.map_append] at hnodup
    have hothers : ∀ count ∈ before ++ after, count.extension ≠ extension := by
      intro count hcount heq
      exact hnodup.1 (List.mem_map.mpr ⟨count, hcount, heq⟩)
    refine ⟨before, after, ?_, hothers, hnodup.2, fun count hne => ?_⟩
    · rw [hcounts]
      exact tally_append_cons (fun count hcount => hothers count (List.mem_append_left _ hcount)) _ _
    · have hentry : count ≠ ⟨extension, extensions.count extension⟩ := fun heq => hne (heq ▸ rfl)
      simp only [hcounts, List.mem_append, List.mem_cons, hentry, false_or]
  · have hzero : extensions.count extension = 0 := List.count_eq_zero.mpr hnew
    have hothers : ∀ count ∈ counts, count.extension ≠ extension := by
      intro count hcount heq
      obtain ⟨hpos, hfiles⟩ := (h.mem_iff count).mp hcount
      rw [heq, hzero] at hfiles
      omega
    refine ⟨counts, [], ?_, ?_, ?_, fun count _ => ?_⟩
    · rw [tally_of_not_mem hothers, hzero]
    · rwa [List.append_nil]
    · rw [List.append_nil]
      exact h.nodup
    · rw [List.append_nil]

theorem Tallies.tally (h : Tallies extensions counts) (extension : Option String) :
    Tallies (extensions ++ [extension]) (tally extension counts) := by
  obtain ⟨before, after, htally, hothers, hnodup, hkept⟩ := h.exists_tally extension
  rw [htally]
  refine ⟨?_, fun count => ?_⟩
  · rw [List.map_append, List.map_cons, List.nodup_middle, List.nodup_cons, ← List.map_append]
    refine ⟨fun hmem => ?_, hnodup⟩
    obtain ⟨count, hcount, heq⟩ := List.mem_map.mp hmem
    exact hothers count hcount heq
  · have hmiddle : count ∈ before ++ ⟨extension, extensions.count extension + 1⟩ :: after ↔
        count = ⟨extension, extensions.count extension + 1⟩ ∨ count ∈ before ++ after := by
      simp only [List.mem_append, List.mem_cons, or_left_comm]
    rw [hmiddle, List.count_append]
    by_cases heq : count.extension = extension
    · have hnot : count ∉ before ++ after := fun hcount => hothers count hcount heq
      obtain ⟨own, files⟩ := count
      obtain rfl : own = extension := heq
      rw [List.count_singleton_self, or_iff_left hnot, mk.injEq, and_iff_right rfl]
      show files = extensions.count own + 1 ↔ 0 < files ∧ files = extensions.count own + 1
      omega
    · have hentry : count ≠ ⟨extension, extensions.count extension + 1⟩ := fun h => heq (h ▸ rfl)
      rw [or_iff_right hentry, hkept count heq, h.mem_iff count]
      rw [List.count_singleton, beq_eq_false_iff_ne.mpr (Ne.symm heq)]
      exact Iff.rfl

theorem ofExtensions_concat (extensions : List (Option String)) (extension : Option String) :
    ofExtensions (extensions ++ [extension]) = tally extension (ofExtensions extensions) := by
  rw [ofExtensions, List.foldl_append]
  rfl

/-- The table of a list of extensions knows how often each has occurred. -/
theorem tallies_ofExtensions (extensions : List (Option String)) :
    Tallies extensions (ofExtensions extensions) := by
  induction extensions using List.reverseRecOn with
  | nil =>
    refine ⟨List.nodup_nil, fun count => ⟨nofun, fun h => ?_⟩⟩
    rw [List.count_nil] at h
    omega
  | append_singleton extensions extension ih =>
    rw [ofExtensions_concat]
    exact ih.tally extension

/-- Every file is counted once. -/
theorem sum_ofExtensions (extensions : List (Option String)) :
    ((ofExtensions extensions).map (·.files)).sum = extensions.length := by
  induction extensions using List.reverseRecOn with
  | nil => rfl
  | append_singleton extensions extension ih =>
    rw [ofExtensions_concat, sum_tally, ih, List.length_append, List.length_singleton]

/-! ## The order -/

/-- An extension stands before another one: in alphabetical order, and any before none. -/
def ExtensionLT : Option String → Option String → Prop
  | some a, some b => a < b
  | some _, none => True
  | none, _ => False

/-- The strict order of statistics: more files first, among equals by extension. -/
def Precedes (a b : ExtensionCount) : Prop :=
  b.files < a.files ∨ a.files = b.files ∧ ExtensionLT a.extension b.extension

theorem extensionLE_trans {x y z : Option String} (h : extensionLE x y = true)
    (h' : extensionLE y z = true) : extensionLE x z = true := by
  cases x with
  | none =>
    cases y with
    | none => exact h'
    | some y => cases h
  | some x =>
    cases z with
    | none => rfl
    | some z =>
      cases y with
      | none => cases h'
      | some y =>
        apply decide_eq_true
        exact String.le_trans (of_decide_eq_true h) (of_decide_eq_true h')

theorem extensionLE_total (x y : Option String) : extensionLE x y = true ∨ extensionLE y x = true := by
  cases x with
  | none =>
    cases y with
    | none => exact .inl rfl
    | some y => exact .inr rfl
  | some x =>
    cases y with
    | none => exact .inl rfl
    | some y => exact (String.le_total x y).imp decide_eq_true decide_eq_true

/-- What comes no later and is different comes before. -/
theorem extensionLT_of_extensionLE {x y : Option String} (h : extensionLE x y = true) (hne : x ≠ y) :
    ExtensionLT x y := by
  cases x with
  | none =>
    cases y with
    | none => exact hne rfl
    | some y => cases h
  | some x =>
    cases y with
    | none => trivial
    | some y =>
      apply Std.lt_of_le_of_ne (of_decide_eq_true h)
      exact fun heq => hne (congrArg some heq)

theorem not_extensionLT_of_extensionLT {x y : Option String} (h : ExtensionLT x y) :
    ¬ ExtensionLT y x := by
  cases x with
  | none => exact h.elim
  | some x =>
    cases y with
    | none => exact id
    | some y => exact String.lt_asymm h

theorem le_iff : le a b = true ↔
    b.files < a.files ∨ a.files = b.files ∧ extensionLE a.extension b.extension = true := by
  rw [le, Bool.or_eq_true, Bool.and_eq_true, decide_eq_true_eq, decide_eq_true_eq]

theorem le_trans (h : le a b = true) (h' : le b c = true) : le a c = true := by
  rw [le_iff] at h h' ⊢
  rcases h with h | ⟨heq, h⟩
  · rcases h' with h' | ⟨heq', -⟩
    · left
      omega
    · left
      omega
  · rcases h' with h' | ⟨heq', h'⟩
    · left
      omega
    · exact .inr ⟨heq.trans heq', extensionLE_trans h h'⟩

theorem le_total (a b : ExtensionCount) : le a b = true ∨ le b a = true := by
  rw [le_iff, le_iff]
  rcases Nat.lt_trichotomy a.files b.files with h | h | h
  · exact .inr (.inl h)
  · rcases extensionLE_total a.extension b.extension with hle | hle
    · exact .inl (.inr ⟨h, hle⟩)
    · exact .inr (.inr ⟨h.symm, hle⟩)
  · exact .inl (.inl h)

theorem precedes_of_le (h : le a b = true) (hne : a.extension ≠ b.extension) : Precedes a b := by
  rw [le_iff] at h
  exact h.imp_right fun ⟨heq, hle⟩ => ⟨heq, extensionLT_of_extensionLE hle hne⟩

theorem Precedes.not_precedes (h : Precedes a b) : ¬ Precedes b a := by
  rintro (hless | ⟨heq, hlt⟩)
  · rcases h with h | ⟨heq, -⟩
    · omega
    · omega
  · rcases h with h | ⟨-, h⟩
    · omega
    · exact not_extensionLT_of_extensionLT h hlt

/-- A table without repeated extensions is sorted strictly. -/
theorem pairwise_precedes_mergeSort (h : (counts.map (·.extension)).Nodup) :
    (counts.mergeSort le).Pairwise Precedes := by
  have hsorted : (counts.mergeSort le).Pairwise fun a b => le a b = true := by
    apply List.pairwise_mergeSort
    · exact fun a b c => le_trans
    · intro a b
      rw [Bool.or_eq_true]
      exact le_total a b
  have hdistinct : (counts.mergeSort le).Pairwise fun a b => a.extension ≠ b.extension := by
    rw [← List.pairwise_map (R := (· ≠ ·))]
    exact ((counts.mergeSort_perm le).map _).nodup_iff.mpr h
  exact hsorted.imp₂ (fun a b hle hne => precedes_of_le hle hne) hdistinct

/-- Two strictly sorted tables with the same entries are the same. -/
theorem eq_of_pairwise_precedes {others : List ExtensionCount} (h : counts.Pairwise Precedes)
    (hothers : others.Pairwise Precedes) (hmem : ∀ count, count ∈ counts ↔ count ∈ others) :
    counts = others := by
  have hnodup {table : List ExtensionCount} (h : table.Pairwise Precedes) : table.Nodup := by
    refine h.imp fun {a b} hab heq => ?_
    subst heq
    exact hab.not_precedes hab
  have hperm := (List.perm_ext_iff_of_nodup (hnodup h) (hnodup hothers)).mpr hmem
  exact hperm.eq_of_pairwise (fun a b _ _ hab hba => absurd hba hab.not_precedes) h hothers

end ExtensionCount

namespace Node

/-! ## Files of a tree -/

mutual

/-- The names of the files in a tree. -/
def fileNames : Node → List String
  | file name => [name]
  | directory _ children => fileNamesAll children

/-- The names of the files in several trees. -/
def fileNamesAll : List Node → List String
  | [] => []
  | node :: rest => fileNames node ++ fileNamesAll rest

end

mutual

theorem map_name_filter_preorder (depth : Nat) : (node : Node) →
    ((node.preorder depth).filter (·.2.isFile)).map (·.2.name) = node.fileNames
  | file name => rfl
  | directory name children => by
    rw [preorder, List.filter_cons_of_neg (by simp [isFile, kind]),
      map_name_filter_preorderAll (depth + 1) children, fileNames]

theorem map_name_filter_preorderAll (depth : Nat) : (nodes : List Node) →
    ((preorderAll depth nodes).filter (·.2.isFile)).map (·.2.name) = fileNamesAll nodes
  | [] => rfl
  | node :: rest => by
    rw [preorderAll, List.filter_append, List.map_append, map_name_filter_preorder depth node,
      map_name_filter_preorderAll depth rest, fileNamesAll]

end

/-- The extensions of the walk's files are those of the names. -/
theorem fileExtensions_eq (node : Node) :
    node.fileExtensions = node.fileNames.map fun name => (file name).extension? := by
  rw [← map_name_filter_preorder 0 node, ← walk_eq_preorder, List.map_map]
  rfl

theorem countFiles_eq_length (node : Node) : node.countFiles = node.fileExtensions.length := by
  rw [countFiles, fileExtensions, List.length_map, List.countP_eq_length_filter]

/-! ## The statistics of a tree -/

/-- The statistics hold each extension that files have, with the number of these files. -/
theorem mem_fileStatistics_iff (node : Node) (count : ExtensionCount) :
    count ∈ node.fileStatistics ↔ 0 < count.files ∧
      count.files = node.fileNames.countP fun name => (file name).extension? = count.extension := by
  have hcount : node.fileExtensions.count count.extension =
      node.fileNames.countP fun name => (file name).extension? = count.extension := by
    rw [fileExtensions_eq, List.count, List.countP_map]
    apply List.countP_congr
    intro name _
    simp
  rw [fileStatistics, List.mem_mergeSort, (ExtensionCount.tallies_ofExtensions _).mem_iff, hcount]

theorem pairwise_fileStatistics (node : Node) :
    node.fileStatistics.Pairwise ExtensionCount.Precedes :=
  ExtensionCount.pairwise_precedes_mergeSort (ExtensionCount.tallies_ofExtensions _).nodup

/-- File statistics are the histogram of the extensions of a tree's files in a strict order, and depend on
nothing but the names of the files. -/
theorem fileStatistics_spec (node : Node) :
    (∀ count : ExtensionCount, count ∈ node.fileStatistics ↔ 0 < count.files ∧
      count.files = node.fileNames.countP fun name => (file name).extension? = count.extension) ∧
    (node.fileStatistics.map (·.extension)).Nodup ∧
    node.fileStatistics.Pairwise ExtensionCount.Precedes ∧
    (node.fileStatistics.map (·.files)).sum = node.countFiles ∧
    ∀ other : Node, node.fileNames.Perm other.fileNames → other.fileStatistics = node.fileStatistics := by
  have hperm := List.mergeSort_perm (ExtensionCount.ofExtensions node.fileExtensions) ExtensionCount.le
  refine ⟨node.mem_fileStatistics_iff, ?_, node.pairwise_fileStatistics, ?_, fun other hnames => ?_⟩
  · exact (hperm.map _).nodup_iff.mpr (ExtensionCount.tallies_ofExtensions _).nodup
  · rw [fileStatistics, (hperm.map _).sum_nat, ExtensionCount.sum_ofExtensions, countFiles_eq_length]
  · apply ExtensionCount.eq_of_pairwise_precedes other.pairwise_fileStatistics node.pairwise_fileStatistics
    intro count
    rw [mem_fileStatistics_iff, mem_fileStatistics_iff, hnames.countP_eq]

/-- Two trees whose files have the same names. Case does not tell extensions apart, and a name that starts with
its only dot has none. -/
theorem fileStatistics_spec_two :
    let flat : Node := .directory "a"
      [.file "x.RS", .file ".git", .file "n.md", .file "y.rs", .file "n.md", .file "Makefile", .file "z.c"]
    let deep : Node := .directory "b.d" [.file "z.c", .directory "n.md" [.file "Makefile", .file "n.md",
      .directory "" [.file "y.rs", .file "n.md"]], .file ".git", .file "x.RS"]
    ⟨some ".rs", 2⟩ ∈ flat.fileStatistics ∧ ⟨none, 2⟩ ∈ flat.fileStatistics ∧
      flat.fileNames.Perm deep.fileNames ∧ deep.fileStatistics = flat.fileStatistics := by
  intro flat deep
  have hspec := fileStatistics_spec flat
  have hnames : flat.fileNames.Perm deep.fileNames := by decide +kernel
  refine ⟨(hspec.1 _).mpr ?_, (hspec.1 _).mpr ?_, hnames, hspec.2.2.2.2 deep hnames⟩
  · decide +kernel
  · decide +kernel

end Node

end TreeSketch
