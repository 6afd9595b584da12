import LRAutomata.Proofs.Automaton.Lookaheads
import LRAutomata.Proofs.Automaton.Unfailing

/-!
# Lookaheads can always be assigned

Once all states have been found, nothing that `Generator.assignLookaheads` relies on can be missing:

* `exists_contribution`: an item of a closed entry has its transition and an entry at the target;
* `Spread.cores_row`: the entries of a state are still its kernel when the lookaheads are complete;
* `exists_assignLookaheads`: so that closing them brings back the cores of the state.
-/

namespace LRAutomata

open Relation (ReflTransGen)

namespace Generator

variable {g : Grammar} {o : Options} {a b : Automaton} {A : Anchor} {s : StateId} {n : Node}
  {table : LookaheadTable} {links : List Link}

theorem transition?_eq_ok {X : Symbol} {t : StateId} (hn : a.node? s = some n)
    (ht : a.goto? s X = some t) : a.transition? s X = .ok (some t) := by
  rw [Automaton.goto?_of_node? hn] at ht
  rw [Automaton.transition?, Automaton.node_eq_ok.mpr hn, ← ht]
  rfl

/-- What the item moves to is an entry. -/
theorem exists_contribution (ha : a.Tracks g) (hn : a.node? s = some n) {i : Item}
    (hi : i.core ∈ n.items.cores) :
    ∃ k?, (ofGrammar g o).contribution a (initialTable a) s i = .ok k? := by
  rw [contribution]
  cases hX : (ofGrammar g o).grammar.next? i.core with
  | none => exact ⟨none, rfl⟩
  | some X =>
    obtain ⟨t, m, ht, hm, hmoved, -⟩ := ha.mem_cores_advanced hn hi hX
    have hdot : i.core.dot ≠ Core.lastDot := (ha.edge hn ht).2.1 _ hi hX
    have hadvance : i.advance = .ok i.advanced := by
      rw [Item.advance, if_neg hdot]
    have hentry : ((initialTable a).lookaheads? ⟨t, i.core.advanced⟩).isSome = true :=
      LookaheadTable.mem_anchors_iff.mp
        (mem_anchors_initialTable.mpr ⟨m, hm, hmoved, Grammar.isKernel_advanced hdot⟩)
    refine ⟨some ⟨⟨t, i.core.advanced⟩, i.lookaheads⟩, bind_eq_ok.mpr ?_⟩
    refine ⟨_, transition?_eq_ok hn ht, bind_eq_ok.mpr ⟨_, hadvance, ?_⟩⟩
    exact if_pos hentry

theorem exists_contributions (hg : g.WellFormed) (ha : a.Tracks g)
    (hA : A ∈ (initialTable a).anchors) :
    ∃ ks, (ofGrammar g o).contributions a (initialTable a) A = .ok ks := by
  obtain ⟨n, hn, hc, -⟩ := mem_anchors_initialTable.mp hA
  have hclose : (alone A.core).close g g.firstSets =
      .ok ((alone A.core).closed g g.firstSets) :=
    close_alone_eq _ (ha.isValid hg hn _ hc)
  have hfound : ∃ found, ((alone A.core).closed g g.firstSets).toList.mapM
      ((ofGrammar g o).contribution a (initialTable a) A.state) = .ok found := by
    refine exists_mapM_eq_ok fun i hi => exists_contribution ha hn ?_
    obtain ⟨c, hc', hasks⟩ := (Items.mem_cores_closed_iff hg).mp (Items.mem_cores_of_mem hi)
    rw [mem_cores_alone] at hc'
    rw [hc'] at hasks
    exact ha.mem_cores_of_reflTransGen hg hn hc hasks
  obtain ⟨found, hfound⟩ := hfound
  exact ⟨_, bind_eq_ok.mpr ⟨_, hclose, bind_eq_ok.mpr ⟨_, hfound, rfl⟩⟩⟩

theorem exists_spread (hg : g.WellFormed) (ha : a.Tracks g) :
    ∃ r, (ofGrammar g o).spread a (initialTable a) = .ok r := by
  have hfound : ∃ found, ((initialTable a).anchors.mapM fun source => do
      return (source, ← (ofGrammar g o).contributions a (initialTable a) source)) =
        .ok found := by
    refine exists_mapM_eq_ok fun A hA => ?_
    obtain ⟨ks, hks⟩ := exists_contributions (o := o) hg ha hA
    exact ⟨_, bind_eq_ok.mpr ⟨_, hks, rfl⟩⟩
  obtain ⟨found, hfound⟩ := hfound
  exact ⟨_, bind_eq_ok.mpr ⟨_, hfound, rfl⟩⟩

/-- The entries of a state are its kernel. -/
theorem Spread.cores_row (hs : Spread g a (initialTable a) table links)
    (hn : a.node? s = some n) :
    ((table.propagate links).row s).cores = n.items.kernel.cores := by
  refine Items.cores_eq_iff.mpr fun c => ?_
  rw [mem_cores_row_iff hs, mem_anchors_initialTable, Items.mem_cores_kernel]
  simp only [hn, Option.some.injEq, exists_eq_left']

/-- The state gets its cores back. -/
theorem exists_relabel (hg : g.WellFormed) (ha : a.Tracks g)
    (hs : Spread g a (initialTable a) table links) (hn : a.node? s = some n) :
    ∃ m, (ofGrammar g o).relabel s n ((table.propagate links).row s) = .ok m := by
  have hkernel := hs.cores_row hn
  have hrow : ∀ c ∈ ((table.propagate links).row s).cores, g.isValid c = true := by
    intro c hc
    rw [hkernel, Items.mem_cores_kernel] at hc
    exact ha.isValid hg hn c hc.1
  have hcores : n.items.cores = (((table.propagate links).row s).closed g g.firstSets).cores := by
    rw [ha.cores_eq_closed hg hn]
    exact Items.cores_closed_congr hg hkernel.symm
  have hsame : ¬ (!n.items.sameCores
      (((table.propagate links).row s).closed g g.firstSets)) = true := by
    simp [Items.sameCores, hcores]
  have hclosed : ∀ c ∈ (((table.propagate links).row s).closed g g.firstSets).cores,
      g.isValid c = true := fun c hc => Items.isValid_of_mem_closed hg hrow hc
  refine ⟨relabelled g n ((table.propagate links).row s), bind_eq_ok.mpr ?_⟩
  refine ⟨_, Items.close_eq _ hrow, (if_neg hsame).trans ?_⟩
  exact bind_eq_ok.mpr ⟨_, Items.successors_eq hclosed, rfl⟩

theorem exists_assignLookaheads (hg : g.WellFormed) (ha : a.Tracks g) :
    ∃ b, (ofGrammar g o).assignLookaheads a = .ok b := by
  obtain ⟨⟨table, links⟩, hspread⟩ := exists_spread (o := o) hg ha
  have hs := spread_eq_ok hg hspread
  have hnodes : ∃ nodes, (a.stateIds.mapM fun s => do
      (ofGrammar g o).relabel s (← a.node s) ((table.propagate links.entries).row s)) =
        .ok nodes := by
    refine exists_mapM_eq_ok fun s hmem => ?_
    obtain ⟨i, hi, rfl⟩ := List.mem_map.mp hmem
    obtain ⟨n, hn⟩ := Automaton.exists_node?_of_lt (a := a) (s := ⟨i⟩) (List.mem_range.mp hi)
    obtain ⟨m, hm⟩ := exists_relabel (o := o) hg ha hs hn
    exact ⟨m, bind_eq_ok.mpr ⟨n, Automaton.node_eq_ok.mpr hn, hm⟩⟩
  obtain ⟨nodes, hnodes⟩ := hnodes
  exact ⟨_, bind_eq_ok.mpr ⟨_, hspread, bind_eq_ok.mpr ⟨nodes, hnodes, rfl⟩⟩⟩

end Generator

end LRAutomata
