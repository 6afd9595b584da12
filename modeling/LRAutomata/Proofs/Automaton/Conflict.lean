import LRAutomata.Automaton.Conflict
import LRAutomata.Proofs.IndexedMap
import LRAutomata.Proofs.Item.Items
import LRAutomata.Proofs.Settling

/-!
# What reductions and conflicts say

* `Items.Reduces`: a state has the complete item of a production with a lookahead;
* `State.reductions_eq`: the grouping loop comes to a list of terminals with their productions;
* `State.conflicts_eq`: what is left of it are terminals in order;
* `State.exists_reductions`: the reductions list just these;
* `State.eq_of_reduces`, `State.target?_of_reduces`: what the absence of conflicts rules out;
* `State.conflictsOn_iff`: there is a conflict on a terminal just if the state reduces on it by two
  productions, or by one while it has a transition on it.
-/

namespace LRAutomata

namespace Items

/-- The productions to reduce by on a terminal, in order. -/
def reducers (g : Grammar) (s : Items) (t : Terminal) : List ProductionId :=
  ((s.complete g).filter fun i => i.lookaheads.contains t).map fun i => i.core.production

/-- The terminals to reduce on, in the order in which the items bring them up. -/
def reductionTerminals (g : Grammar) (s : Items) : List Terminal :=
  ((s.complete g).flatMap fun i => i.lookaheads.toList).eraseDups

/-- The terminals to reduce on, as a set. -/
def reductionSet (g : Grammar) (s : Items) : TerminalSet :=
  (s.complete g).foldl (fun ts i => ts ∪ i.lookaheads) ∅

variable {g : Grammar} {s : Items} {p : ProductionId} {t : Terminal}

/-- The items have the complete item of the production, with the lookahead. -/
def Reduces (g : Grammar) (s : Items) (p : ProductionId) (t : Terminal) : Prop :=
  ∃ c, s.Has c t ∧ g.isComplete c = true ∧ c.production = p

theorem reduces_iff : s.Reduces g p t ↔
    ∃ i ∈ s.complete g, t ∈ i.lookaheads ∧ i.core.production = p := by
  simp only [Reduces, has_iff, complete, List.mem_filter]
  refine ⟨fun h => ?_, fun h => ?_⟩
  · obtain ⟨_, ⟨i, hi, rfl, ht⟩, hc, hp⟩ := h
    exact ⟨i, ⟨hi, hc⟩, ht, hp⟩
  · obtain ⟨i, ⟨hi, hc⟩, ht, hp⟩ := h
    exact ⟨i.core, ⟨i, hi, rfl, ht⟩, hc, hp⟩

theorem mem_reducers_iff : p ∈ s.reducers g t ↔ s.Reduces g p t := by
  simp only [reduces_iff, reducers, List.mem_map, List.mem_filter, TerminalSet.contains_iff,
    and_assoc]

theorem mem_reductionTerminals_iff :
    t ∈ s.reductionTerminals g ↔ ∃ p, s.Reduces g p t := by
  simp only [reduces_iff, reductionTerminals, List.mem_eraseDups, List.mem_flatMap,
    TerminalSet.mem_toList]
  refine ⟨fun h => ?_, fun h => ?_⟩
  · obtain ⟨i, hi, ht⟩ := h
    exact ⟨_, i, hi, ht, rfl⟩
  · obtain ⟨_, i, hi, ht, -⟩ := h
    exact ⟨i, hi, ht⟩

theorem mem_reductionSet_iff : t ∈ s.reductionSet g ↔ ∃ p, s.Reduces g p t := by
  simp only [reduces_iff, reductionSet, TerminalSet.mem_foldl_union, TerminalSet.not_mem_empty,
    false_or]
  refine ⟨fun h => ?_, fun h => ?_⟩
  · obtain ⟨i, hi, ht⟩ := h
    exact ⟨_, i, hi, ht, rfl⟩
  · obtain ⟨_, i, hi, ht, -⟩ := h
    exact ⟨i, hi, ht⟩

/-- A production has one complete core, so that the productions to reduce by are in order. -/
theorem ascending_reducers (g : Grammar) (s : Items) (t : Terminal) :
    (s.reducers g t).Pairwise fun p q => p.rank < q.rank := by
  refine List.pairwise_map.mpr (List.Pairwise.imp_of_mem ?_
    ((s.ascending.filter _).filter _))
  intro i j hi hj hlt
  obtain ⟨rule, hp, hd⟩ := (Option.any_eq_true _ _).mp
    (List.mem_filter.mp (List.mem_filter.mp hi).1).2
  obtain ⟨rule', hp', hd'⟩ := (Option.any_eq_true _ _).mp
    (List.mem_filter.mp (List.mem_filter.mp hj).1).2
  have hdot := i.core.dot.toNat_lt
  have hdot' := j.core.dot.toNat_lt
  have hne : i.core.production ≠ j.core.production := by
    intro he
    obtain rfl : rule = rule' := Option.mem_unique hp (he ▸ hp')
    have same : i.core.dot.toNat = j.core.dot.toNat :=
      (of_decide_eq_true hd).symm.trans (of_decide_eq_true hd')
    simp only [Item.rank, Core.rank, he, same] at hlt
    exact Nat.lt_irrefl _ hlt
  have hrank : i.core.production.rank ≠ j.core.production.rank := fun he =>
    hne (ProductionId.rank_inj he)
  simp only [Item.rank, Core.rank] at hlt
  omega

/-- There is more than one production to reduce by just if there are two different ones. -/
theorem one_lt_length_reducers_iff : 1 < (s.reducers g t).length ↔
    ∃ p q, p ≠ q ∧ s.Reduces g p t ∧ s.Reduces g q t := by
  simp only [← mem_reducers_iff]
  constructor
  · intro h
    have hlt := List.pairwise_iff_getElem.mp (ascending_reducers g s t) 0 1 (by omega) h
      Nat.zero_lt_one
    refine ⟨(s.reducers g t)[0], (s.reducers g t)[1], ?_, List.getElem_mem _, List.getElem_mem _⟩
    intro he
    rw [he] at hlt
    exact Nat.lt_irrefl _ hlt
  · rintro ⟨p, q, hne, hp, hq⟩
    obtain ⟨i, hi, rfl⟩ := List.mem_iff_getElem.mp hp
    obtain ⟨j, hj, rfl⟩ := List.mem_iff_getElem.mp hq
    have hij : i ≠ j := fun he => hne (by subst he; rfl)
    omega

end Items

namespace State

variable {g : Grammar} {s : State} {p q : ProductionId} {t : Terminal}

/-- Taking productions in one after another drops those that come up again. -/
theorem foldl_takeIn {ps : List ProductionId} (h : ps.Nodup) :
    ps.foldl (fun ps p => takeIn p ps) [] = ps := by
  induction ps using List.reverseRecOn with
  | nil => rfl
  | append_singleton ps p ih =>
    obtain ⟨hps, -, hdisjoint⟩ := List.nodup_append.mp h
    have hp : p ∉ ps := fun hp => hdisjoint p hp p (List.mem_singleton_self p) rfl
    rw [List.foldl_concat, ih hps, takeIn, if_neg (by simpa using hp)]

/-- The loop over complete items and their lookaheads, as one over pairs. -/
theorem foldl_fileReduction (is : List Item) (m : IndexedMap Terminal (List ProductionId)) :
    is.foldl fileReduction m =
      (is.flatMap fun i => i.lookaheads.toList.map fun t => (t, i.core.production)).foldl
        (fun m q => m.update q.1 [] (takeIn q.2)) m := by
  rw [List.foldl_flatMap]
  simp only [List.foldl_map]
  rfl

/-- The pairs with a terminal come from the items that have it as a lookahead. -/
theorem map_snd_filter_pairs (is : List Item) (t : Terminal) :
    ((is.flatMap fun i => i.lookaheads.toList.map fun t => (t, i.core.production)).filter
        fun q => q.1 = t).map Prod.snd =
      (is.filter fun i => i.lookaheads.contains t).map fun i => i.core.production := by
  induction is with
  | nil => rfl
  | cons i is ih =>
    have hfilter : (i.lookaheads.toList.filter fun u => u = t) =
        if t ∈ i.lookaheads then [t] else [] := by
      rw [List.filter_eq, i.lookaheads.nodup_toList.count]
      simp only [TerminalSet.mem_toList]
      split <;> rfl
    rw [List.flatMap_cons, List.filter_append, List.map_append, ih, List.filter_cons,
      List.filter_map, List.map_map]
    simp only [Function.comp_def, hfilter, TerminalSet.contains_iff]
    split <;> rfl

/-- If every production exists, the productions to reduce by can be listed for every terminal. -/
theorem reductions_eq (h : ∀ c ∈ s.items.cores, (g.production? c.production).isSome = true) :
    s.reductions g =
      .ok ((s.items.reductionTerminals g).map fun t => (t, s.items.reducers g t)) := by
  have hgroup := IndexedMap.entries_foldl_update [] (fun ps p => takeIn p ps)
    ((s.items.complete g).flatMap fun i => i.lookaheads.toList.map fun t => (t, i.core.production))
  rw [reductions, Items.requireDeclared_eq_ok h, foldl_fileReduction]
  refine congrArg Except.ok (hgroup.trans ?_)
  rw [List.map_flatMap]
  simp only [List.map_map, Function.comp_def, List.map_id']
  refine List.map_congr_left fun t _ => ?_
  rw [map_snd_filter_pairs]
  have hnodup := SortedList.nodup_of_ascending (Items.ascending_reducers g s.items t)
  exact congrArg (Prod.mk t) (foldl_takeIn hnodup)

/-- The reductions list the complete items by their lookaheads. -/
theorem exists_reductions (h : ∀ c ∈ s.items.cores, (g.production? c.production).isSome = true) :
    ∃ rs, s.reductions g = .ok rs ∧
      ∀ p t, s.items.Reduces g p t ↔ ∃ ps, (t, ps) ∈ rs ∧ p ∈ ps := by
  refine ⟨_, reductions_eq h, fun p t => ?_⟩
  refine ⟨fun hr => ?_, fun hr => ?_⟩
  · exact ⟨_, List.mem_map.mpr ⟨t, Items.mem_reductionTerminals_iff.mpr ⟨p, hr⟩, rfl⟩,
      Items.mem_reducers_iff.mpr hr⟩
  · obtain ⟨ps, hm, hp⟩ := hr
    obtain ⟨t', -, he⟩ := List.mem_map.mp hm
    cases he
    exact Items.mem_reducers_iff.mp hp

/-- Whether there is more than one thing to do on a terminal that is reduced on. -/
def hasConflict (g : Grammar) (s : State) (t : Terminal) : Bool :=
  1 < (s.items.reducers g t).length || s.transitions.contains (.terminal t)

/-- If every production exists, the conflicts can be listed, too. -/
theorem conflicts_eq (h : ∀ c ∈ s.items.cores, (g.production? c.production).isSome = true) :
    s.conflicts g = .ok ((s.items.reductionSet g).toList.filter (s.hasConflict g)) := by
  rw [conflicts, reductions_eq h]
  refine congrArg Except.ok ?_
  rw [List.filter_map, List.map_map]
  have hmet : ((s.items.reductionTerminals g).filter (s.hasConflict g)).map id =
      (s.items.reductionTerminals g).filter (s.hasConflict g) := List.map_id _
  have hnodup := nodup_eraseDups ((s.items.complete g).flatMap fun i => i.lookaheads.toList)
  refine (congrArg _ hmet).trans (sortByRank_eq _ ?_
    ((TerminalSet.ascending_toList _).filter _) fun t => ?_)
  · exact (hnodup.filter _).imp fun hne he => hne (Terminal.rank_inj he)
  · rw [List.mem_filter, List.mem_filter, TerminalSet.mem_toList, Items.mem_reductionSet_iff,
      Items.mem_reductionTerminals_iff]

/-- The report of a state has a conflict on the terminal. -/
def ConflictsOn (g : Grammar) (s : State) (t : Terminal) : Prop :=
  ∃ ts, s.conflicts g = .ok ts ∧ t ∈ ts

/-- There is a conflict on a terminal just if the state reduces on it by two productions, or by one
while it has a transition on it. -/
theorem conflictsOn_iff (h : ∀ c ∈ s.items.cores, (g.production? c.production).isSome = true) :
    s.ConflictsOn g t ↔ (∃ p q, p ≠ q ∧ s.items.Reduces g p t ∧ s.items.Reduces g q t) ∨
      (∃ p, s.items.Reduces g p t) ∧ (s.transitions.target? (.terminal t)).isSome = true := by
  simp only [ConflictsOn, conflicts_eq h, Except.ok.injEq, exists_eq_left', List.mem_filter,
    TerminalSet.mem_toList, Items.mem_reductionSet_iff, hasConflict, Bool.or_eq_true,
    decide_eq_true_eq, Items.one_lt_length_reducers_iff, Transitions.contains, and_or_left]
  refine or_congr_left (and_iff_right_of_imp ?_)
  rintro ⟨p, q, -, hp, -⟩
  exact ⟨p, hp⟩

theorem hasConflict_of_conflicts_eq_nil (h : s.conflicts g = .ok []) (hr : s.items.Reduces g p t) :
    s.hasConflict g t = false := by
  have declared : ∀ c ∈ s.items.cores, (g.production? c.production).isSome = true := by
    intro c hc
    obtain ⟨rs, hrs, -⟩ := bind_eq_ok.mp h
    obtain ⟨u, hu, -⟩ := bind_eq_ok.mp hrs
    obtain ⟨rule, hrule⟩ := Items.exists_production_of_requireDeclared hu c hc
    rw [hrule]
    rfl
  rw [conflicts_eq declared] at h
  have hnil := List.filter_eq_nil_iff.mp (Except.ok.inj h)
  have ht := TerminalSet.mem_toList.mpr (Items.mem_reductionSet_iff.mpr ⟨p, hr⟩)
  exact Bool.eq_false_iff.mpr (hnil t ht)

/-- Without conflicts, a state reduces by one production at most on a terminal. -/
theorem eq_of_reduces (h : s.conflicts g = .ok []) (hp : s.items.Reduces g p t)
    (hq : s.items.Reduces g q t) : p = q := by
  have hc := hasConflict_of_conflicts_eq_nil h hp
  rw [hasConflict, Bool.or_eq_false_iff, decide_eq_false_iff_not] at hc
  have hp := Items.mem_reducers_iff.mpr hp
  have hq := Items.mem_reducers_iff.mpr hq
  obtain ⟨i, hi, rfl⟩ := List.mem_iff_getElem.mp hp
  obtain ⟨j, hj, rfl⟩ := List.mem_iff_getElem.mp hq
  have hij : i = j := by omega
  subst hij
  rfl

/-- Without conflicts, a state that reduces on a terminal has no transition on it. -/
theorem target?_of_reduces (h : s.conflicts g = .ok []) (hp : s.items.Reduces g p t) :
    s.transitions.target? (.terminal t) = none := by
  have hc := hasConflict_of_conflicts_eq_nil h hp
  rw [hasConflict, Bool.or_eq_false_iff] at hc
  exact Option.isSome_eq_false_iff.mp hc.2 |> Option.isNone_iff_eq_none.mp

end State

end LRAutomata
