import LRAutomata.Item.Items
import LRAutomata.Proofs.Fault
import LRAutomata.Proofs.Repetition

/-!
# Items as cores with terminals

Items are seen through two views: the cores that occur (`Items.cores`) and the pairs of a core and
one of its lookaheads (`Items.Has`). Together they determine the items (`eq_of_views`), and each
operation is stated by what it does to them.

* `mem_cores_insert`, `has_insert`, `mem_cores_ofList`, `has_ofList`: putting items in;
* `mem_cores_kernel`, `has_kernel`, `cores_withoutLookaheads`: taking a part;
* `mem_cores_shifted`, `has_shifted`: moving dots over a symbol;
* `requireValid_eq_ok`, `requireValid_eq_error`: which items are valid, and what is said of others;
* `shift_eq_ok`, `mem_nextSymbols_iff`: the operations that a state is built with.
-/

namespace LRAutomata

namespace SortedList

variable {ε : Type} {rank : ε → Nat}

theorem mem_put (hr : ∀ {x y}, rank x = rank y → x = y) {l : SortedList ε rank} {x y : ε} :
    y ∈ (l.put x).toList ↔ y = x ∨ y ∈ l.toList := by
  have mem : ∀ l : SortedList ε rank, y ∈ l.toList ↔ l.find? (rank y) = some y := fun l => by
    simp [find?_eq_some_iff]
  rw [mem, find?_put, mem l]
  split
  next h => simp [hr h]
  next h =>
    have hne : y ≠ x := fun e => h (e ▸ rfl)
    simp [hne]

theorem mem_ofList (hr : ∀ {x y}, rank x = rank y → x = y) {xs : List ε} {y : ε} :
    y ∈ (ofList xs : SortedList ε rank).toList ↔ y ∈ xs := by
  have key : ∀ l : SortedList ε rank, y ∈ (xs.foldl put l).toList ↔ y ∈ xs ∨ y ∈ l.toList := by
    induction xs with
    | nil => simp
    | cons x xs ih =>
      intro l
      rw [List.foldl_cons, ih, mem_put hr, List.mem_cons, or_left_comm, or_assoc]
  rw [ofList, key]
  exact or_iff_left List.not_mem_nil

end SortedList

namespace Items

/-- The core `c` occurs and has the lookahead `t`. -/
def Has (s : Items) (c : Core) (t : Terminal) : Prop := ∃ a, s.lookaheads? c = some a ∧ t ∈ a

variable {s t : Items} {c d : Core} {u : Terminal}

/-! ## The two views -/

theorem item?_eq_some_iff {i : Item} : s.item? c = some i ↔ i ∈ s.toList ∧ i.core = c := by
  rw [item?, SortedList.find?_eq_some_iff, Item.rank_eq_iff]

theorem item?_of_mem {i : Item} (h : i ∈ s.toList) : s.item? i.core = some i :=
  item?_eq_some_iff.mpr ⟨h, rfl⟩

theorem lookaheads?_of_mem {i : Item} (h : i ∈ s.toList) :
    s.lookaheads? i.core = some i.lookaheads := by
  rw [lookaheads?, item?_of_mem h, Option.map_some]

theorem mem_cores_iff : c ∈ s.cores ↔ ∃ i ∈ s.toList, i.core = c := by
  rw [cores, List.mem_map]

theorem mem_cores_of_mem {i : Item} (h : i ∈ s.toList) : i.core ∈ s.cores :=
  mem_cores_iff.mpr ⟨i, h, rfl⟩

theorem exists_mem_cores_iff {P : Core → Prop} :
    (∃ c ∈ s.cores, P c) ↔ ∃ i ∈ s.toList, P i.core := by
  simp [cores]

theorem lookaheads?_eq_some_iff {a : TerminalSet} :
    s.lookaheads? c = some a ↔ (⟨c, a⟩ : Item) ∈ s.toList := by
  rw [lookaheads?, Option.map_eq_some_iff]
  refine ⟨fun h => ?_, fun h => ?_⟩
  · obtain ⟨i, hi, ha⟩ := h
    obtain ⟨hm, hc⟩ := item?_eq_some_iff.mp hi
    rw [← hc, ← ha]
    exact hm
  · exact ⟨⟨c, a⟩, item?_eq_some_iff.mpr ⟨h, rfl⟩, rfl⟩

theorem mem_cores_iff_isSome : c ∈ s.cores ↔ (s.lookaheads? c).isSome = true := by
  rw [Option.isSome_iff_exists, mem_cores_iff]
  refine ⟨fun h => ?_, fun h => ?_⟩
  · obtain ⟨i, hi, rfl⟩ := h
    exact ⟨i.lookaheads, lookaheads?_of_mem hi⟩
  · obtain ⟨a, ha⟩ := h
    exact ⟨⟨c, a⟩, lookaheads?_eq_some_iff.mp ha, rfl⟩

theorem has_iff : s.Has c u ↔ ∃ i ∈ s.toList, i.core = c ∧ u ∈ i.lookaheads := by
  refine ⟨fun h => ?_, fun h => ?_⟩
  · obtain ⟨a, ha, hu⟩ := h
    exact ⟨⟨c, a⟩, lookaheads?_eq_some_iff.mp ha, rfl, hu⟩
  · obtain ⟨i, hi, rfl, hu⟩ := h
    exact ⟨i.lookaheads, lookaheads?_of_mem hi, hu⟩

theorem has_of_mem {i : Item} (h : i ∈ s.toList) : s.Has i.core u ↔ u ∈ i.lookaheads := by
  constructor
  · rintro ⟨a, ha, hu⟩
    rw [lookaheads?_of_mem h] at ha
    exact Option.some.inj ha ▸ hu
  · exact fun hu => ⟨_, lookaheads?_of_mem h, hu⟩

theorem Has.mem_cores (h : s.Has c u) : c ∈ s.cores := by
  obtain ⟨i, hi, rfl, -⟩ := has_iff.mp h
  exact mem_cores_of_mem hi

theorem lookaheads?_eq_none_iff : s.lookaheads? c = none ↔ c ∉ s.cores := by
  rw [mem_cores_iff_isSome, Bool.not_eq_true, Option.isSome_eq_false_iff, Option.isNone_iff_eq_none]

/-- The two views determine the items. -/
theorem eq_of_views (hc : ∀ c, c ∈ s.cores ↔ c ∈ t.cores) (hh : ∀ c u, s.Has c u ↔ t.Has c u) :
    s = t := by
  refine ext_lookaheads? fun c => ?_
  cases hs : s.lookaheads? c with
  | none =>
    rw [lookaheads?_eq_none_iff, hc] at hs
    exact (lookaheads?_eq_none_iff.mpr hs).symm
  | some a =>
    have hm : c ∈ t.cores := (hc c).mp (mem_cores_iff_isSome.mpr (by rw [hs]; rfl))
    obtain ⟨b, hb⟩ := Option.isSome_iff_exists.mp (mem_cores_iff_isSome.mp hm)
    rw [hb]
    refine congrArg some (TerminalSet.ext fun u => ?_)
    have := hh c u
    simpa only [Has, hs, hb, Option.some.injEq, exists_eq_left'] using this

/-- Equal lists of cores are equal sets of cores. -/
theorem cores_eq_iff : s.cores = t.cores ↔ ∀ c, c ∈ s.cores ↔ c ∈ t.cores := by
  have sorted : ∀ s : Items, s.cores.Pairwise fun c d => c.rank < d.rank := fun s =>
    List.pairwise_map.mpr s.ascending
  exact ⟨fun h c => by rw [h], SortedList.eq_of_ascending (sorted s) (sorted t)⟩

/-! ## Putting items in -/

@[simp] theorem not_mem_cores_empty : c ∉ (∅ : Items).cores := List.not_mem_nil

@[simp] theorem not_has_empty : ¬ (∅ : Items).Has c u := fun h => not_mem_cores_empty h.mem_cores

theorem mem_cores_insert {i : Item} : c ∈ (s.insert i).value.cores ↔ c = i.core ∨ c ∈ s.cores := by
  rw [mem_cores_iff_isSome, lookaheads?_insert]
  split
  next h => simp [h]
  next h => rw [← mem_cores_iff_isSome]; simp [Ne.symm h]

theorem has_insert {i : Item} :
    (s.insert i).value.Has c u ↔ s.Has c u ∨ c = i.core ∧ u ∈ i.lookaheads := by
  simp only [Has, lookaheads?_insert]
  split
  next h =>
    subst h
    cases hs : s.lookaheads? i.core <;> simp
  next h => simp [Ne.symm h]

/-- Inserting an item reports no change exactly where there is none. -/
theorem insert_of_unchanged {i : Item} (h : (s.insert i).changed = false) :
    (s.insert i).value = s := by
  simp only [insert] at h ⊢
  split at h
  · cases h
  next r hr => rw [h]; rfl

theorem item?_insert_of_ne {i : Item} (h : c ≠ i.core) :
    (s.insert i).value.item? c = s.item? c := by
  simp only [insert]
  split
  · rw [item?_put, if_neg (Ne.symm h)]
  next r hr =>
    split
    · rw [item?_put, if_neg]
      rw [show (r.merge i.lookaheads).value.core = r.core from rfl, core_of_item? hr]
      exact Ne.symm h
    · rfl

/-- Inserting an item reports a change only if its core or one of its lookaheads is new. -/
theorem new_of_changed_insert {i : Item} (h : (s.insert i).changed = true) :
    i.core ∉ s.cores ∨ ∃ u ∈ i.lookaheads, ¬ s.Has i.core u := by
  unfold insert at h
  split at h
  next hn => exact .inl (lookaheads?_eq_none_iff.mp (by rw [lookaheads?, hn]; rfl))
  next r hr =>
    have hs : ¬ i.lookaheads ⊆ r.lookaheads := by
      simpa [Item.merge, TerminalSet.changed_merge] using h
    rw [TerminalSet.subset_iff] at hs
    push Not at hs
    obtain ⟨u, hu, hn⟩ := hs
    refine .inr ⟨u, hu, fun hh => hn ?_⟩
    obtain ⟨hm, he⟩ := item?_eq_some_iff.mp hr
    exact (has_of_mem hm).mp (he ▸ hh)

theorem mem_cores_foldl_insert (is : List Item) :
    c ∈ (is.foldl (fun s i => (s.insert i).value) s).cores ↔ c ∈ s.cores ∨ ∃ i ∈ is, i.core = c := by
  refine foldl_iff_or_exists (P := fun s : Items => c ∈ s.cores) (fun s i => ?_) is s
  rw [mem_cores_insert, or_comm, eq_comm]

theorem has_foldl_insert (is : List Item) :
    (is.foldl (fun s i => (s.insert i).value) s).Has c u ↔
      s.Has c u ∨ ∃ i ∈ is, i.core = c ∧ u ∈ i.lookaheads := by
  refine foldl_iff_or_exists (P := fun s : Items => s.Has c u) (fun s i => ?_) is s
  rw [has_insert, eq_comm]

theorem mem_cores_ofList {is : List Item} : c ∈ (ofList is).cores ↔ ∃ i ∈ is, i.core = c := by
  rw [ofList, mem_cores_foldl_insert]; simp

theorem has_ofList {is : List Item} :
    (ofList is).Has c u ↔ ∃ i ∈ is, i.core = c ∧ u ∈ i.lookaheads := by
  rw [ofList, has_foldl_insert]; simp

theorem mem_cores_singleton {t : Terminal} :
    d ∈ (ofList [⟨c, TerminalSet.single t⟩]).cores ↔ d = c := by
  rw [mem_cores_ofList, List.exists_mem_cons_iff]
  simp only [List.not_mem_nil, false_and, exists_const, or_false, eq_comm]

theorem has_singleton {t : Terminal} (ht : t.id.toNat < TerminalSet.capacity) :
    (ofList [⟨c, TerminalSet.single t⟩]).Has d u ↔ d = c ∧ u = t := by
  have hu : u ∈ TerminalSet.single t ↔ u = t := TerminalSet.mem_single.trans (and_iff_left ht)
  rw [has_ofList, List.exists_mem_cons_iff]
  simp only [List.not_mem_nil, false_and, exists_const, or_false, hu, eq_comm (a := c)]

/-! ## Taking a part -/

theorem mem_cores_kernel : c ∈ s.kernel.cores ↔ c ∈ s.cores ∧ c.isKernel = true := by
  simp only [mem_cores_iff, kernel, SortedList.filter, List.mem_filter]
  refine ⟨fun h => ?_, fun h => ?_⟩
  · obtain ⟨i, ⟨hi, hk⟩, rfl⟩ := h
    exact ⟨⟨i, hi, rfl⟩, hk⟩
  · obtain ⟨⟨i, hi, rfl⟩, hk⟩ := h
    exact ⟨i, ⟨hi, hk⟩, rfl⟩

theorem has_kernel : s.kernel.Has c u ↔ s.Has c u ∧ c.isKernel = true := by
  simp only [has_iff, kernel, SortedList.filter, List.mem_filter]
  refine ⟨fun h => ?_, fun h => ?_⟩
  · obtain ⟨i, ⟨hi, hk⟩, rfl, hu⟩ := h
    exact ⟨⟨i, hi, rfl, hu⟩, hk⟩
  · obtain ⟨⟨i, hi, rfl, hu⟩, hk⟩ := h
    exact ⟨i, ⟨hi, hk⟩, rfl, hu⟩

/-- Kernel items are their own kernel. -/
theorem kernel_eq_self (hk : ∀ c ∈ s.cores, c.isKernel = true) : s.kernel = s := by
  refine SortedList.ext (List.filter_eq_self.mpr fun i hi => ?_)
  exact hk _ (mem_cores_of_mem hi)

theorem cores_kernel_congr (h : s.cores = t.cores) : s.kernel.cores = t.kernel.cores := by
  refine cores_eq_iff.mpr fun c => ?_
  rw [mem_cores_kernel, mem_cores_kernel, h]

@[simp] theorem cores_withoutLookaheads : s.withoutLookaheads.cores = s.cores := by
  simp only [cores, withoutLookaheads, SortedList.map, List.map_map]
  rfl

@[simp] theorem not_has_withoutLookaheads : ¬ s.withoutLookaheads.Has c u := by
  simp only [has_iff, withoutLookaheads, SortedList.map, List.mem_map]
  rintro ⟨_, ⟨i, -, rfl⟩, -, hu⟩
  exact TerminalSet.not_mem_empty u hu

section

variable {g : Grammar}

theorem mem_nextSymbols_iff {X : Symbol} :
    X ∈ s.nextSymbols g ↔ ∃ c ∈ s.cores, g.next? c = some X := by
  rw [nextSymbols, SortedList.mem_ofList Symbol.rank_inj]
  simp only [List.mem_filterMap, mem_cores_iff]
  refine ⟨fun h => ?_, fun h => ?_⟩
  · obtain ⟨i, hi, hX⟩ := h
    exact ⟨i.core, ⟨i, hi, rfl⟩, hX⟩
  · obtain ⟨_, ⟨i, hi, rfl⟩, hX⟩ := h
    exact ⟨i, hi, hX⟩

theorem mem_cores_shifted {X : Symbol} : d ∈ (s.shifted g X).cores ↔
    ∃ c ∈ s.cores, g.next? c = some X ∧ c.advanced = d := by
  rw [shifted, mem_cores_ofList]
  simp only [List.mem_map, List.mem_filter, decide_eq_true_eq, mem_cores_iff]
  refine ⟨fun h => ?_, fun h => ?_⟩
  · obtain ⟨_, ⟨i, ⟨hi, hX⟩, rfl⟩, rfl⟩ := h
    exact ⟨i.core, ⟨i, hi, rfl⟩, hX, rfl⟩
  · obtain ⟨_, ⟨i, hi, rfl⟩, hX, rfl⟩ := h
    exact ⟨i.advanced, ⟨i, ⟨hi, hX⟩, rfl⟩, rfl⟩

theorem has_shifted {X : Symbol} : (s.shifted g X).Has d u ↔
    ∃ c, s.Has c u ∧ g.next? c = some X ∧ c.advanced = d := by
  rw [shifted, has_ofList]
  simp only [List.mem_map, List.mem_filter, decide_eq_true_eq, has_iff]
  refine ⟨fun h => ?_, fun h => ?_⟩
  · obtain ⟨_, ⟨i, ⟨hi, hX⟩, rfl⟩, rfl, hu⟩ := h
    exact ⟨i.core, ⟨i, hi, rfl, hu⟩, hX, rfl⟩
  · obtain ⟨_, ⟨i, hi, rfl, hu⟩, hX, rfl⟩ := h
    exact ⟨i.advanced, ⟨i, ⟨hi, hX⟩, rfl⟩, rfl, hu⟩

theorem requireDeclared_eq_ok (h : ∀ c ∈ s.cores, (g.production? c.production).isSome = true) :
    s.requireDeclared g = .ok () := by
  have hn : s.toList.find? (fun i => (g.production? i.core.production).isNone) = none := by
    refine List.find?_eq_none.mpr fun i hi hnone => ?_
    have := h i.core (mem_cores_of_mem hi)
    rw [Option.isNone_iff_eq_none] at hnone
    rw [hnone] at this
    cases this
  rw [requireDeclared, hn]

theorem production?_isSome_of_isValid (h : ∀ c ∈ s.cores, g.isValid c = true) :
    ∀ c ∈ s.cores, (g.production? c.production).isSome = true := by
  intro c hc
  obtain ⟨rule, hp, -⟩ := (Option.any_eq_true _ _).mp (h c hc)
  rw [hp]
  rfl

/-- Items pass the check if all of them are valid. -/
theorem requireValid_eq_ok (h : ∀ c ∈ s.cores, g.isValid c = true) :
    s.requireValid g = .ok () := by
  have hn : s.toList.find? (fun i => !g.isValid i.core) = none := by
    refine List.find?_eq_none.mpr fun i hi => ?_
    rw [h i.core (mem_cores_of_mem hi)]
    decide
  rw [requireValid, requireDeclared_eq_ok (production?_isSome_of_isValid h), hn]
  rfl

theorem successors_eq (h : ∀ c ∈ s.cores, g.isValid c = true) :
    s.successors g = .ok (s.nextSymbols g) := by
  rw [successors, requireDeclared_eq_ok (production?_isSome_of_isValid h)]
  rfl

/-- The fault of items without a production is that of one of them. -/
theorem requireDeclared_eq_error {e : Fault} (h : s.requireDeclared g = .error e) :
    ∃ c ∈ s.cores, g.production? c.production = none ∧ e = .undeclaredProduction c.production := by
  unfold requireDeclared at h
  split at h <;> [skip; cases h]
  next i hi =>
    have hnone := List.find?_some hi
    exact ⟨i.core, mem_cores_of_mem (List.mem_of_find?_eq_some hi),
      Option.isNone_iff_eq_none.mp hnone, (Except.error.inj h).symm⟩

theorem exists_production_of_requireDeclared {u : Unit} (h : s.requireDeclared g = .ok u) :
    ∀ c ∈ s.cores, ∃ rule, g.production? c.production = some rule := by
  intro c hc
  obtain ⟨i, hi, rfl⟩ := mem_cores_iff.mp hc
  unfold requireDeclared at h
  split at h <;> [cases h; skip]
  next hn => exact Option.ne_none_iff_exists'.mp (by simpa using List.find?_eq_none.mp hn i hi)

theorem isValid_of_requireValid {u : Unit} (h : s.requireValid g = .ok u) :
    ∀ c ∈ s.cores, g.isValid c = true := by
  intro c hc
  obtain ⟨i, hi, rfl⟩ := mem_cores_iff.mp hc
  obtain ⟨-, -, h⟩ := bind_eq_ok.mp h
  split at h <;> [cases h; skip]
  next hn => simpa using List.find?_eq_none.mp hn i hi

/-- The fault of items that are not valid is that of one of them. -/
theorem requireValid_eq_error {e : Fault} (h : s.requireValid g = .error e) :
    (∃ c ∈ s.cores,
      g.production? c.production = none ∧ e = .undeclaredProduction c.production) ∨
    ∃ c ∈ s.cores, ∃ rule, g.production? c.production = some rule ∧
      rule.right.length < c.dot.toNat ∧ e = .dotBeyondEnd c.production c.dot := by
  rcases bind_eq_error.mp h with hd | ⟨u, hd, h⟩
  · exact .inl (requireDeclared_eq_error hd)
  · split at h <;> [skip; cases h]
    next i hi =>
      have hc := mem_cores_of_mem (List.mem_of_find?_eq_some hi)
      obtain ⟨rule, hp⟩ := exists_production_of_requireDeclared hd _ hc
      have hlt := List.find?_some hi
      rw [Grammar.isValid, hp] at hlt
      exact .inr ⟨i.core, hc, rule, hp, by simpa using hlt, (Except.error.inj h).symm⟩

theorem ascending_nextSymbols (g : Grammar) (s : Items) :
    (s.nextSymbols g).Pairwise fun X Y => X.rank < Y.rank :=
  SortedList.ascending _

/-- Items can be shifted only if every dot that has to move can move. -/
theorem shift_eq_ok {X : Symbol} {k : Items} (h : s.shift g X = .ok k) :
    k = s.shifted g X ∧ ∀ c ∈ s.cores, g.next? c = some X → c.dot ≠ Core.lastDot := by
  simp only [shift, bind, Except.bind] at h
  split at h <;> [cases h; skip]
  split at h <;> [cases h; skip]
  next hn =>
    refine ⟨(Except.ok.inj h).symm, fun c hc hX => ?_⟩
    obtain ⟨i, hi, rfl⟩ := mem_cores_iff.mp hc
    simpa [hX] using List.find?_eq_none.mp hn i hi

end

end Items

end LRAutomata
