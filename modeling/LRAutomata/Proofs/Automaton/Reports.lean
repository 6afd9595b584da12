import LRAutomata.Proofs.Automaton.Handle
import LRAutomata.Proofs.Repetition

/-!
# The reports of a state

The reductions of a state are found by going through its complete items, and its conflicts by
looking at its transitions, too. Of a generated automaton both can be told from the items alone:

* `Items.Completes`: a production is complete, with a lookahead;
* `Items.mem_reductions_iff`: which terminals the reductions list, each with which productions;
* `Tracks.target?_isSome_iff`: a state has a transition just on the symbols after its dots;
* `Items.Reported`, `Automaton.reported_of_generate`: so reductions and conflicts of every state are
  those that its items have.
-/

namespace LRAutomata

namespace Items

variable {g : Grammar} {s : Items} {p : ProductionId} {t : Terminal} {ps : List ProductionId}

/-- The items have the production with its dot at the end, and with that lookahead. -/
def Completes (g : Grammar) (s : Items) (p : ProductionId) (t : Terminal) : Prop :=
  ∃ rule, g.production? p = some rule ∧ s.HasAt p rule.right.length t

theorem completes_iff : s.Completes g p t ↔ s.Reduces g p t := by
  simp only [Completes, HasAt, Reduces, Grammar.isComplete, Option.any_eq_true, decide_eq_true_eq]
  constructor
  · rintro ⟨rule, hp, c, hc, rfl, hd⟩
    exact ⟨c, hc, ⟨rule, hp, hd.symm⟩, rfl⟩
  · rintro ⟨c, hc, ⟨rule, hp, hd⟩, rfl⟩
    exact ⟨rule, hp, c, hc, rfl, hd.symm⟩

theorem reducers_eq_nil_iff : s.reducers g t = [] ↔ ¬ ∃ p, s.Reduces g p t := by
  simp only [List.eq_nil_iff_forall_not_mem, mem_reducers_iff, not_exists]

/-- A terminal is listed with the productions that are complete with it, in order, and only if there
are any. -/
theorem mem_reductions_iff :
    (t, ps) ∈ (s.reductionTerminals g).map (fun t => (t, s.reducers g t)) ↔
      ps ≠ [] ∧ (ps.Pairwise fun p q => p.rank < q.rank) ∧ ∀ p, p ∈ ps ↔ s.Reduces g p t := by
  have listed : (t, ps) ∈ (s.reductionTerminals g).map (fun t => (t, s.reducers g t)) ↔
      s.reducers g t ≠ [] ∧ s.reducers g t = ps := by
    rw [Ne, reducers_eq_nil_iff, not_not, ← mem_reductionTerminals_iff]
    simp only [List.mem_map, Prod.mk.injEq]
    exact ⟨fun ⟨_, ht, he, hps⟩ => he ▸ ⟨ht, he ▸ hps⟩, fun ⟨ht, hps⟩ => ⟨t, ht, rfl, hps⟩⟩
  rw [listed]
  constructor
  · rintro ⟨hne, rfl⟩
    exact ⟨hne, ascending_reducers g s t, fun _ => mem_reducers_iff⟩
  · rintro ⟨hne, hasc, hmem⟩
    have same : s.reducers g t = ps := SortedList.eq_of_ascending (ascending_reducers g s t) hasc
      fun p => mem_reducers_iff.trans (hmem p).symm
    exact ⟨same ▸ hne, same⟩

/-- What `rs` has as reductions and `ts` as conflicts is what the items have. -/
structure Reported (g : Grammar) (s : Items) (rs : List (Terminal × List ProductionId))
    (ts : List Terminal) : Prop where
  distinct : (rs.map Prod.fst).Nodup
  mem_reductions_iff {t : Terminal} {ps : List ProductionId} : (t, ps) ∈ rs ↔
    ps ≠ [] ∧ (ps.Pairwise fun p q => p.rank < q.rank) ∧ ∀ p, p ∈ ps ↔ s.Completes g p t
  mem_terminals_iff {t : Terminal} : t ∈ rs.map Prod.fst ↔ ∃ p, s.Completes g p t
  ascending : ts.Pairwise fun t u => t.rank < u.rank
  mem_conflicts_iff {t : Terminal} : t ∈ ts ↔
    (∃ p q, p ≠ q ∧ s.Completes g p t ∧ s.Completes g q t) ∨
      (∃ p, s.Completes g p t) ∧ ∃ i ∈ s.toList, g.next? i.core = some (.terminal t)

end Items

namespace Automaton

variable {g : Grammar} {o : Options} {a : Automaton} {s : StateId} {n : Node} {X : Symbol}

/-- There is a transition just on the symbols after the dots. -/
theorem Tracks.target?_isSome_iff (ha : a.Tracks g) (hn : a.node? s = some n) :
    (n.transitions.target? X).isSome = true ↔ ∃ i ∈ n.items.toList, g.next? i.core = some X := by
  rw [← goto?_of_node? hn, Option.isSome_iff_exists,
    ← Items.exists_mem_cores_iff (P := fun c => g.next? c = some X), ← Items.mem_nextSymbols_iff]
  constructor
  · rintro ⟨t, ht⟩
    exact (ha.edge hn ht).1
  · exact ha.total hn

/-- Every state of a generated automaton has reductions and conflicts, and they are those that its
items have. -/
theorem reported_of_generate [WordHash] (hg : g.Defined) (h : generate o g = .ok a)
    (hn : a.node? s = some n) :
    ∃ rs ts, n.toState.reductions g = .ok rs ∧ n.toState.conflicts g = .ok ts ∧
      n.items.Reported g rs ts := by
  have hg := hg.wellFormed
  have tracks := tracks_of_generate hg h
  have declared := tracks.production?_isSome hg hn
  have keys : ((n.items.reductionTerminals g).map fun t => (t, n.items.reducers g t)).map Prod.fst =
      n.items.reductionTerminals g := by
    rw [List.map_map]
    exact List.map_id _
  have hts := State.conflicts_eq (s := n.toState) declared
  refine ⟨_, _, State.reductions_eq (s := n.toState) declared, hts, ?_, ?_, ?_, ?_, ?_⟩
  · rw [keys]
    exact nodup_eraseDups _
  · intro t ps
    simp only [Items.mem_reductions_iff, Items.completes_iff]
  · intro t
    simp only [keys, Items.mem_reductionTerminals_iff, Items.completes_iff]
  · exact (TerminalSet.ascending_toList _).filter _
  · intro t
    have hiff := State.conflictsOn_iff (s := n.toState) (t := t) declared
    rw [State.ConflictsOn, hts, tracks.target?_isSome_iff hn] at hiff
    simpa only [Except.ok.injEq, exists_eq_left', ← Items.completes_iff] using hiff

/-- After `A` comes an `a` that belongs to it or to another `A`, which has to vanish first; before a
`b` another `A` vanishes or a `B`. So there is one conflict of either kind. -/
theorem reported_hollow : ∃ a n, generate ⟨.lalr, 64⟩ .hollow = .ok a ∧ a.node? ⟨2⟩ = some n ∧
    n.items.Reported .hollow [(⟨2⟩, [⟨3⟩]), (⟨3⟩, [⟨3⟩, ⟨5⟩]), (⟨0⟩, [⟨5⟩])] [⟨2⟩, ⟨3⟩] := by
  obtain ⟨a, ha, hP⟩ := exists_ok_of_any (e := generate ⟨.lalr, 64⟩ .hollow)
    (P := fun a => (a.node? ⟨2⟩).any fun n =>
      n.toState.reductions .hollow = .ok [(⟨2⟩, [⟨3⟩]), (⟨3⟩, [⟨3⟩, ⟨5⟩]), (⟨0⟩, [⟨5⟩])] ∧
        n.toState.conflicts .hollow = .ok [⟨2⟩, ⟨3⟩])
    (by decide +kernel)
  obtain ⟨n, hn, hreports⟩ := (Option.any_eq_true _ _).mp hP
  obtain ⟨hrs, hts⟩ := of_decide_eq_true hreports
  obtain ⟨rs, ts, hrs', hts', reported⟩ := reported_of_generate Grammar.defined_hollow ha hn
  cases hrs.symm.trans hrs'
  cases hts.symm.trans hts'
  exact ⟨a, n, ha, hn, reported⟩

end Automaton

end LRAutomata
