import LRAutomata.Grammar.First
import LRAutomata.Proofs.Grammar.Derivation
import LRAutomata.Proofs.Grammar.WellFormed
import LRAutomata.Proofs.Settling

/-!
# First sets are exact

The passes that compute the nullable nonterminals and the First sets reach their fixed points, and
these are what derivations say:

* `WellFormed.all_isNullable_iff`: a sequence consists of nullable symbols if and only if it
  vanishes;
* `WellFormed.mem_ofSequence_iff`: a terminal is in the First set of a sequence of declared symbols
  if and only if something that begins with it derives from the sequence.

Both are proved in the same way: what is found is justified by a derivation (an invariant of the
passes), and what is found is closed under productions (the fixed point), so that it cannot miss
anything a step of a derivation brings about.
-/

namespace LRAutomata

namespace Grammar

variable {g : Grammar}

/-! ## Nullable nonterminals -/

theorem isNullable_nonterminal {ns : List Nonterminal} {n : Nonterminal} :
    (Symbol.nonterminal n).isNullable ns = true ↔ n ∈ ns := by
  simp [Symbol.isNullable]

theorem vanishes_of_all {ns : List Nonterminal} (hs : ∀ n ∈ ns, g.Vanishes [.nonterminal n])
    {Xs : List Symbol} (h : Xs.all (·.isNullable ns) = true) : g.Vanishes Xs := by
  induction Xs with
  | nil => exact vanishes_nil
  | cons X Xs ih =>
    rw [List.all_cons, Bool.and_eq_true] at h
    refine vanishes_cons_iff.mpr ⟨?_, ih h.2⟩
    cases X with
    | terminal t => simp [Symbol.isNullable] at h
    | nonterminal n => exact hs n (isNullable_nonterminal.mp h.1)

/-- Every nonterminal that the passes find vanishes. -/
theorem WellFormed.vanishes_of_mem_nullables (hg : g.WellFormed) :
    ∀ n ∈ g.nullables, g.Vanishes [.nonterminal n] := by
  have step : ∀ rule ∈ g.productions.toList, ∀ ns : List Nonterminal,
      (∀ n ∈ ns, g.Vanishes [.nonterminal n]) →
      ∀ n ∈ (admitNullable rule ns).value, g.Vanishes [.nonterminal n] := by
    intro rule hm ns hs
    obtain ⟨p, hp⟩ := hg.mem_productions_iff.mp hm
    unfold admitNullable
    split <;> [exact hs; skip]
    split <;> [skip; exact hs]
    next hall =>
      intro n hn
      rcases List.mem_append.mp hn with hn | hn
      · exact hs n hn
      · rw [List.mem_singleton] at hn
        subst hn
        exact (derives_right hp).trans (vanishes_of_all hs hall)
  refine settle_induction (P := fun ns => ∀ n ∈ ns, g.Vanishes [.nonterminal n])
    (fun ns hs => Update.pass_induction (P := fun ns => ∀ n ∈ ns, g.Vanishes [.nonterminal n])
      step hs) _ ?_
  intro n hn
  simp only [plainlyNullable, List.mem_eraseDups, List.mem_map, List.mem_filter] at hn
  obtain ⟨rule, ⟨hm, he⟩, rfl⟩ := hn
  obtain ⟨p, hp⟩ := hg.mem_productions_iff.mp hm
  have := derives_right hp
  rwa [List.isEmpty_iff.mp he] at this

/-- A pass that reports a change admits the left side of one more production. -/
theorem progress_admitNullable (g : Grammar) {rule : Production}
    (hm : rule ∈ g.productions.toList) :
    Progress (fun _ => True) (fun ns => g.productions.toList.countP fun r => ns.contains r.left)
      (admitNullable rule) where
  keeps _ := trivial
  same {ns} _ hc := by
    simp only [admitNullable] at hc ⊢
    split <;> [rfl; skip]
    split
    · simp_all
    · rfl
  grows {ns} _ hc := by
    simp only [admitNullable] at hc ⊢
    split at hc <;> [cases hc; skip]
    next hn =>
      split at hc <;> [skip; cases hc]
      next hall =>
        rw [if_neg hn, if_pos hall, List.countP_eq_length_filter, List.countP_eq_length_filter]
        have key : g.productions.toList.filter (fun r => ns.contains r.left) =
            (g.productions.toList.filter fun r => (ns ++ [rule.left]).contains r.left).filter
              fun r => ns.contains r.left := by
          rw [List.filter_filter]
          refine List.filter_congr fun r _ => ?_
          cases hr : ns.contains r.left <;> simp_all
        rw [key, List.length_filter_lt_length_iff_exists]
        exact ⟨rule, List.mem_filter.mpr ⟨hm, by simp⟩, hn⟩

/-- The nullable nonterminals are found by passes for as long as these find any. -/
theorem settles_nullables (g : Grammar) :
    Settles (Update.pass admitNullable g.productions.toList) g.plainlyNullable g.nullables :=
  (Progress.pass fun _ hm => progress_admitNullable g hm).settles
    (fun _ _ => Nat.le_trans List.countP_le_length (Nat.le_of_eq (Array.length_toList ..))) trivial

/-- The left side of a production with a nullable right side is among the nullable ones. -/
theorem left_mem_nullables (g : Grammar) {rule : Production} (hm : rule ∈ g.productions.toList)
    (h : rule.right.all (·.isNullable g.nullables) = true) : rule.left ∈ g.nullables := by
  have progress := fun r (hr : r ∈ g.productions.toList) => progress_admitNullable g hr
  have fixed := (Progress.pass progress).fixed_of_settles trivial (settles_nullables g)
  have same : admitNullable rule g.nullables = ⟨g.nullables, false⟩ :=
    Progress.of_pass_eq progress trivial fixed rule hm
  rw [admitNullable, if_pos h] at same
  split at same
  next hc => simpa using hc
  next => exact absurd (congrArg Update.changed same) (by simp)

theorem all_isNullable_of_step (g : Grammar) (hg : g.WellFormed) {Xs Ys : List Symbol}
    (hs : g.Step Xs Ys) (h : Ys.all (·.isNullable g.nullables) = true) :
    Xs.all (·.isNullable g.nullables) = true := by
  obtain ⟨hp, before, after⟩ := hs
  simp only [List.all_append, List.all_cons, Bool.and_eq_true] at h ⊢
  have hm := hg.mem_productions_iff.mpr ⟨_, hp⟩
  exact ⟨h.1.1, isNullable_nonterminal.mpr (left_mem_nullables g hm h.1.2), h.2⟩

/-- A sequence consists of nullable symbols if and only if it vanishes. -/
theorem WellFormed.all_isNullable_iff (hg : g.WellFormed) {Xs : List Symbol} :
    Xs.all (·.isNullable g.nullables) = true ↔ g.Vanishes Xs := by
  constructor
  · exact vanishes_of_all hg.vanishes_of_mem_nullables
  · intro h
    induction h using Relation.ReflTransGen.head_induction_on with
    | refl => rfl
    | head hs _ ih => exact all_isNullable_of_step g hg hs ih

theorem WellFormed.isNullable_iff (hg : g.WellFormed) {X : Symbol} :
    X.isNullable g.nullables = true ↔ g.Vanishes [X] := by
  rw [← hg.all_isNullable_iff]
  simp

end Grammar

/-! ## First sets -/

namespace FirstSets

variable {f : FirstSets} {g : Grammar}

theorem mem_ofSequence {Xs : List Symbol} {t : Terminal} :
    t ∈ f.ofSequence Xs ↔ ∃ X ∈ visiblePart f.nullables Xs, t ∈ f.of X := by
  rw [ofSequence, TerminalSet.mem_foldl_union]
  simp

@[simp] theorem not_mem_ofSequence_nil (t : Terminal) : t ∉ f.ofSequence [] := by
  simp [mem_ofSequence, visiblePart]

theorem mem_ofSequence_cons {X : Symbol} {Xs : List Symbol} {t : Terminal} :
    t ∈ f.ofSequence (X :: Xs) ↔
      t ∈ f.of X ∨ X.isNullable f.nullables = true ∧ t ∈ f.ofSequence Xs := by
  rw [mem_ofSequence, mem_ofSequence, visiblePart]
  split <;> simp_all

theorem mem_ofSequence_append {Xs Ys : List Symbol} {t : Terminal} :
    t ∈ f.ofSequence (Xs ++ Ys) ↔
      t ∈ f.ofSequence Xs ∨ f.allNullable Xs = true ∧ t ∈ f.ofSequence Ys := by
  induction Xs with
  | nil => simp [allNullable]
  | cons X Xs ih =>
    have hc : f.allNullable (X :: Xs) = true ↔
        X.isNullable f.nullables = true ∧ f.allNullable Xs = true := by
      rw [allNullable, List.all_cons, Bool.and_eq_true]; rfl
    rw [List.cons_append, mem_ofSequence_cons, ih, mem_ofSequence_cons, hc]
    refine ⟨fun h => ?_, fun h => ?_⟩
    · rcases h with h | ⟨hX, h | h⟩
      · exact .inl (.inl h)
      · exact .inl (.inr ⟨hX, h⟩)
      · exact .inr ⟨⟨hX, h.1⟩, h.2⟩
    · rcases h with (h | h) | ⟨⟨hX, hXs⟩, h⟩
      · exact .inl h
      · exact .inr ⟨h.1, .inl h.2⟩
      · exact .inr ⟨hX, .inr ⟨hXs, h⟩⟩

/-- What a symbol of the visible part has before it vanishes. -/
theorem exists_split_of_mem_visiblePart {ns : List Nonterminal} {X : Symbol} {Xs : List Symbol}
    (h : X ∈ visiblePart ns Xs) :
    ∃ before after, Xs = before ++ X :: after ∧ before.all (·.isNullable ns) = true := by
  induction Xs with
  | nil => simp [visiblePart] at h
  | cons Y Ys ih =>
    rw [visiblePart] at h
    rcases List.mem_cons.mp h with rfl | h
    · exact ⟨[], Ys, rfl, rfl⟩
    · split at h
      next hY =>
        obtain ⟨before, after, rfl, hb⟩ := ih h
        exact ⟨Y :: before, after, rfl, by rw [List.all_cons, hY, hb]; rfl⟩
      next => exact absurd h List.not_mem_nil

theorem mem_of_mem_visiblePart {ns : List Nonterminal} {X : Symbol} {Xs : List Symbol}
    (h : X ∈ visiblePart ns Xs) : X ∈ Xs := by
  obtain ⟨before, after, rfl, -⟩ := exists_split_of_mem_visiblePart h
  exact List.mem_append_right _ List.mem_cons_self

/-- First sets for the symbols of `g`, those of the terminals complete. -/
structure For (g : Grammar) (f : FirstSets) : Prop where
  nullables_eq : f.nullables = g.nullables
  terminals_eq : f.terminals = (initial g).terminals
  size_eq : f.nonterminals.size = g.nonterminals.size

theorem for_initial (g : Grammar) : For g (initial g) := ⟨rfl, rfl, by simp [initial]⟩

theorem For.mem_of_terminal (hf : For g f) (hg : g.WellFormed) {s t : Terminal} :
    t ∈ f.of (.terminal s) ↔ t = s ∧ g.declares (.terminal s) = true := by
  have hle := hg.terminals_le
  unfold Draft.maxTerminals at hle
  simp only [of, of?, hf.terminals_eq, initial, Grammar.terminalIds, Grammar.declares,
    decide_eq_true_eq, List.map_map, List.getElem?_toArray, List.getElem?_map]
  by_cases hs : s.id.toNat < g.terminals.size
  · rw [List.getElem?_range hs]
    simp only [Option.map_some, Function.comp_apply, UInt16.ofNat_toNat, Option.getD_some,
      TerminalSet.mem_single, TerminalSet.capacity]
    exact ⟨fun h => ⟨h.1, hs⟩, fun h => ⟨h.1, by omega⟩⟩
  · rw [List.getElem?_eq_none (by simpa using hs)]
    simp [hs]

theorem of_enlarge (i : Inclusion) (hi : i.whole.id.toNat < f.nonterminals.size) (X : Symbol) :
    (enlarge i f).value.of X =
      if X = .nonterminal i.whole then f.of X ∪ f.of i.part else f.of X := by
  simp only [enlarge]
  split
  next hc =>
    simp only [TerminalSet.value_merge]
    cases X with
    | terminal t => rfl
    | nonterminal n =>
      simp only [of, of?, Array.getElem?_setIfInBounds]
      by_cases hn : n = i.whole
      · subst hn; simp [hi]
      · have : ¬ i.whole.id.toNat = n.id.toNat := fun e => hn (Nonterminal.rank_inj e.symm)
        simp [hn, this]
  next hc =>
    rw [TerminalSet.changed_merge] at hc
    split
    next e =>
      subst e
      exact (TerminalSet.union_eq_left (by simpa using hc)).symm
    next => rfl

theorem For.enlarge (hf : For g f) (i : Inclusion) : For g (enlarge i f).value := by
  simp only [FirstSets.enlarge]
  split
  · exact ⟨hf.nullables_eq, hf.terminals_eq, by simp [hf.size_eq]⟩
  · exact hf

/-- Enlarging a First set reports a change if and only if a terminal is new. -/
theorem progress_enlarge (g : Grammar) {i : Inclusion}
    (hi : g.declares (.nonterminal i.whole) = true) (hn : i.whole ∈ g.nonterminalIds) :
    Progress (For g) (fun f => TerminalSet.total (fun n => f.of (.nonterminal n)) g.nonterminalIds)
      (enlarge i) where
  keeps hf := hf.enlarge i
  same {f} _ hc := by
    simp only [enlarge] at hc ⊢
    split at hc <;> simp_all
  grows {f} hf hc := by
    have hlt : i.whole.id.toNat < f.nonterminals.size := by
      rw [hf.size_eq]; simpa [Grammar.declares] using hi
    have hnew : ¬ f.of i.part ⊆ f.of (.nonterminal i.whole) := by
      simp only [enlarge, TerminalSet.changed_merge] at hc
      split at hc
      next h => simpa using h
      next => cases hc
    refine TerminalSet.total_lt (fun n _ => ?_) hn ?_
    · rw [of_enlarge i hlt, TerminalSet.subset_iff]
      intro a ha
      split
      · exact TerminalSet.mem_union.mpr (.inl ha)
      · exact ha
    · rw [of_enlarge i hlt, if_pos rfl]
      intro h
      exact hnew (TerminalSet.subset_iff.mpr fun a ha =>
        TerminalSet.subset_iff.mp h a (TerminalSet.mem_union.mpr (.inr ha)))

end FirstSets

namespace Grammar

variable {g : Grammar}

theorem mem_inclusions_iff {ns : List Nonterminal} {i : Inclusion} :
    i ∈ g.inclusions ns ↔ ∃ rule ∈ g.productions.toList, i.whole = rule.left ∧
      i.part ∈ visiblePart ns rule.right ∧ i.part ≠ .nonterminal rule.left := by
  simp only [inclusions, List.mem_flatMap, List.mem_map, List.mem_filter, decide_eq_true_eq]
  refine ⟨fun h => ?_, fun h => ?_⟩
  · obtain ⟨rule, hm, X, ⟨hX, hne⟩, rfl⟩ := h
    exact ⟨rule, hm, rfl, hX, hne⟩
  · obtain ⟨rule, hm, hw, hX, hne⟩ := h
    exact ⟨rule, hm, i.part, ⟨hX, hne⟩, by rw [← hw]⟩

theorem WellFormed.mem_nonterminalIds (hg : g.WellFormed) {n : Nonterminal}
    (h : g.declares (.nonterminal n) = true) : n ∈ g.nonterminalIds := by
  have hle := hg.nonterminals_le
  unfold Draft.numberLimit at hle
  have hn : n.id.toNat < g.nonterminals.size := by simpa [declares] using h
  exact List.mem_map.mpr ⟨n.id.toNat, List.mem_range.mpr hn, by rw [UInt16.ofNat_toNat]⟩

/-- Both sides of an inclusion are declared. -/
theorem WellFormed.declares_inclusion (hg : g.WellFormed) {i : Inclusion} {ns : List Nonterminal}
    (hi : i ∈ g.inclusions ns) :
    g.declares (.nonterminal i.whole) = true ∧ g.declares i.part = true := by
  obtain ⟨rule, hm, hw, hX, -⟩ := mem_inclusions_iff.mp hi
  obtain ⟨p, hp⟩ := hg.mem_productions_iff.mp hm
  refine ⟨hw ▸ hg.left_declared hp, hg.declared hp _ ?_⟩
  exact FirstSets.mem_of_mem_visiblePart hX

theorem WellFormed.progress_inclusions (hg : g.WellFormed) :
    ∀ i ∈ g.inclusions g.nullables, Progress (FirstSets.For g)
      (fun f => TerminalSet.total (fun n => f.of (.nonterminal n)) g.nonterminalIds)
      (FirstSets.enlarge i) := by
  intro i hi
  have hd := (hg.declares_inclusion hi).1
  exact FirstSets.progress_enlarge g hd (hg.mem_nonterminalIds hd)

theorem WellFormed.for_firstSets (hg : g.WellFormed) : FirstSets.For g g.firstSets :=
  (Progress.pass hg.progress_inclusions).settle_keeps _ (FirstSets.for_initial g)

theorem WellFormed.allNullable_iff (hg : g.WellFormed) {Xs : List Symbol} :
    g.firstSets.allNullable Xs = true ↔ g.Vanishes Xs := by
  rw [FirstSets.allNullable, hg.for_firstSets.nullables_eq, hg.all_isNullable_iff]

/-- The First sets are found by passes for as long as these enlarge any. -/
theorem WellFormed.settles_firstSets (hg : g.WellFormed) :
    Settles (Update.pass FirstSets.enlarge (g.inclusions g.nullables)) (FirstSets.initial g)
      g.firstSets := by
  refine (Progress.pass hg.progress_inclusions).settles (fun f _ => ?_) (FirstSets.for_initial g)
  refine Nat.le_trans (TerminalSet.total_le _ _) (Nat.le_of_eq ?_)
  rw [nonterminalIds, List.length_map, List.length_range]

/-- No inclusion adds anything to the First sets. -/
theorem WellFormed.subset_of_mem_inclusions (hg : g.WellFormed) {i : Inclusion}
    (hi : i ∈ g.inclusions g.nullables) :
    g.firstSets.of i.part ⊆ g.firstSets.of (.nonterminal i.whole) := by
  have fixed := (Progress.pass hg.progress_inclusions).fixed_of_settles
    (FirstSets.for_initial g) hg.settles_firstSets
  have same : FirstSets.enlarge i g.firstSets = ⟨g.firstSets, false⟩ :=
    Progress.of_pass_eq hg.progress_inclusions hg.for_firstSets fixed i hi
  simp only [FirstSets.enlarge, TerminalSet.changed_merge] at same
  split at same
  next => exact absurd (congrArg Update.changed same) (by simp)
  next h => simpa using h

/-- First of a left side includes First of the whole right side. -/
theorem WellFormed.mem_of_left (hg : g.WellFormed) {p : ProductionId} {rule : Production}
    (hp : g.production? p = some rule) {t : Terminal}
    (h : t ∈ g.firstSets.ofSequence rule.right) :
    t ∈ g.firstSets.of (.nonterminal rule.left) := by
  obtain ⟨X, hX, ht⟩ := FirstSets.mem_ofSequence.mp h
  rw [hg.for_firstSets.nullables_eq] at hX
  by_cases he : X = .nonterminal rule.left
  · exact he ▸ ht
  · have hi : ⟨rule.left, X⟩ ∈ g.inclusions g.nullables :=
      mem_inclusions_iff.mpr ⟨rule, hg.mem_productions_iff.mpr ⟨p, hp⟩, rfl, hX, he⟩
    exact TerminalSet.subset_iff.mp (hg.subset_of_mem_inclusions hi) t ht

/-- A step of a derivation brings no terminal into the First set. -/
theorem WellFormed.mem_ofSequence_of_step (hg : g.WellFormed) {Xs Ys : List Symbol}
    (hs : g.Step Xs Ys) {t : Terminal} (h : t ∈ g.firstSets.ofSequence Ys) :
    t ∈ g.firstSets.ofSequence Xs := by
  obtain ⟨hp, before, after⟩ := hs
  simp only [FirstSets.mem_ofSequence_append, List.append_assoc] at h
  rw [FirstSets.mem_ofSequence_append, FirstSets.mem_ofSequence_cons]
  rcases h with h | ⟨hb, h | ⟨hr, h⟩⟩
  · exact .inl h
  · exact .inr ⟨hb, .inl (hg.mem_of_left hp h)⟩
  · refine .inr ⟨hb, .inr ⟨?_, h⟩⟩
    rw [hg.for_firstSets.nullables_eq, hg.isNullable_iff]
    exact (derives_right hp).trans (hg.allNullable_iff.mp hr)

theorem WellFormed.declares_of_step (hg : g.WellFormed) {Xs Ys : List Symbol} (hs : g.Step Xs Ys)
    (h : ∀ X ∈ Xs, g.declares X = true) : ∀ X ∈ Ys, g.declares X = true := by
  obtain ⟨hp, before, after⟩ := hs
  intro X hX
  rcases List.mem_append.mp hX with hX | hX
  · rcases List.mem_append.mp hX with hX | hX
    · exact h X (List.mem_append_left _ hX)
    · exact hg.declared hp X hX
  · exact h X (List.mem_append_right _ (List.mem_cons_of_mem _ hX))

theorem WellFormed.mem_ofSequence_of_canBegin (hg : g.WellFormed) {Xs : List Symbol}
    (hd : ∀ X ∈ Xs, g.declares X = true) {t : Terminal} (h : g.CanBegin Xs t) :
    t ∈ g.firstSets.ofSequence Xs := by
  obtain ⟨Ys, h⟩ := h
  induction h using Relation.ReflTransGen.head_induction_on with
  | refl =>
    refine FirstSets.mem_ofSequence_cons.mpr (.inl ?_)
    exact (hg.for_firstSets.mem_of_terminal hg).mpr ⟨rfl, hd _ List.mem_cons_self⟩
  | head hs _ ih => exact hg.mem_ofSequence_of_step hs (ih (hg.declares_of_step hs hd))

/-- First sets that hold nothing without a derivation for it. -/
structure Justified (g : Grammar) (f : FirstSets) : Prop extends FirstSets.For g f where
  canBegin {n : Nonterminal} {t : Terminal} :
    t ∈ f.of (.nonterminal n) → g.CanBegin [.nonterminal n] t

theorem Justified.canBegin_of_mem_ofSequence {f : FirstSets} (hf : Justified g f)
    (hg : g.WellFormed) {Xs : List Symbol} {t : Terminal} (h : t ∈ f.ofSequence Xs) :
    g.CanBegin Xs t := by
  obtain ⟨X, hX, ht⟩ := FirstSets.mem_ofSequence.mp h
  rw [hf.nullables_eq] at hX
  obtain ⟨before, after, rfl, hb⟩ := FirstSets.exists_split_of_mem_visiblePart hX
  refine canBegin_append_iff.mpr (.inr ⟨hg.all_isNullable_iff.mp hb, canBegin_cons_iff.mpr
    (.inl ?_)⟩)
  cases X with
  | terminal s => exact canBegin_terminal_iff.mpr ((hf.mem_of_terminal hg).mp ht).1
  | nonterminal n => exact hf.canBegin ht

theorem Justified.enlarge {f : FirstSets} (hf : Justified g f) (hg : g.WellFormed) {i : Inclusion}
    (hi : i ∈ g.inclusions g.nullables) : Justified g (FirstSets.enlarge i f).value where
  toFor := hf.toFor.enlarge i
  canBegin {n t} ht := by
    obtain ⟨rule, hm, hw, hpart, -⟩ := mem_inclusions_iff.mp hi
    obtain ⟨p, hp⟩ := hg.mem_productions_iff.mp hm
    have hlt : i.whole.id.toNat < f.nonterminals.size := by
      rw [hf.size_eq]
      simpa [declares] using (hg.declares_inclusion hi).1
    rw [FirstSets.of_enlarge i hlt] at ht
    split at ht
    next he =>
      rcases TerminalSet.mem_union.mp ht with hold | hnew
      · exact hf.canBegin hold
      · obtain rfl : n = rule.left := (Symbol.nonterminal.inj he).trans hw
        refine .of_derives (derives_right hp) (hf.canBegin_of_mem_ofSequence hg ?_)
        exact FirstSets.mem_ofSequence.mpr ⟨i.part, hf.nullables_eq ▸ hpart, hnew⟩
    next => exact hf.canBegin ht

theorem justified_initial (g : Grammar) : Justified g (FirstSets.initial g) where
  toFor := FirstSets.for_initial g
  canBegin ht := by
    refine absurd ht ?_
    simp only [FirstSets.of, FirstSets.of?, FirstSets.initial, Array.getElem?_replicate]
    split <;> simp

/-- Whatever the passes put into a First set is justified by a derivation. -/
theorem WellFormed.justified_firstSets (hg : g.WellFormed) : Justified g g.firstSets :=
  settle_induction (P := Justified g) (fun _ hf =>
    Update.pass_induction (P := Justified g) (fun _ hi _ hf => hf.enlarge hg hi) hf) _
    (justified_initial g)

/-- A terminal is in the First set of a sequence if and only if something that begins with it
derives from the sequence. -/
theorem WellFormed.mem_ofSequence_iff (hg : g.WellFormed) {Xs : List Symbol}
    (hd : ∀ X ∈ Xs, g.declares X = true) {t : Terminal} :
    t ∈ g.firstSets.ofSequence Xs ↔ g.CanBegin Xs t :=
  ⟨hg.justified_firstSets.canBegin_of_mem_ofSequence hg, hg.mem_ofSequence_of_canBegin hd⟩

end Grammar

end LRAutomata
