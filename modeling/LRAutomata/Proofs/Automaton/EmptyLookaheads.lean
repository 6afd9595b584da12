import LRAutomata.Proofs.Automaton.Viable

/-!
# Items without lookaheads

An item can be left without lookaheads, and a complete one is then of no use. That is never for want
of a lookahead that the automaton failed to find:

* `Automaton.lookaheads_eq_empty_iff`: an item has no lookaheads just if it is valid with none for
  any path to its state;
* `ValidShape.exists_valid`: where all reachable nonterminals are productive, every valid shape is
  valid with some lookahead;
* `Automaton.exists_unproductive_of_empty`: so the grammar has a reachable nonterminal that derives
  no string of terminals.
-/

namespace LRAutomata

namespace Grammar

variable {g : Grammar} {path before : List Symbol} {p : ProductionId} {d : Nat}
  {rule : Production} {w : List Terminal}

/-- All along a handle its production is valid, before the first terminal after the handle. -/
theorem EndsInHandle.valid (hg : g.WellFormed) (h : g.EndsInHandle before p rule w)
    (hd : d ≤ rule.right.length) :
    g.Valid (before ++ rule.right.take d) p d (w.headD Terminal.endOfInput) := by
  obtain ⟨hp, ps, h⟩ := h
  have along := (h.valid_start hg hp).along hp (List.take_append_drop d rule.right).symm
  rwa [List.length_take_of_le hd] at along

/-- A valid shape belongs to a handle, and what follows the handle is a lookahead. -/
theorem ValidShape.exists_valid (hp : ∀ n, g.Reachable n → g.Productive n) (hg : g.WellFormed)
    (h : g.ValidShape path p d) : ∃ t, g.Valid path p d t := by
  obtain ⟨rule, hr, hd⟩ := h.exists_production hg
  obtain ⟨w, before, rule', hb, rfl⟩ := h.exists_handle hp hg
  obtain rfl : rule = rule' := Option.mem_unique hr hb.1
  exact ⟨_, hb.valid hg hd⟩

end Grammar

namespace Automaton

variable {g : Grammar} {o : Options} {a : Automaton} {s : StateId} {n : Node} {i : Item}

/-- An item has no lookaheads just if it is not valid with any, for any path to its state. -/
theorem lookaheads_eq_empty_iff [WordHash] (hg : g.WellFormed) (h : generate o g = .ok a)
    (hn : a.node? s = some n) (hi : i ∈ n.items.toList) :
    i.lookaheads = ∅ ↔ ∀ path t, a.walk? path = some s → ¬ g.ItemAt path i.core t := by
  constructor
  · intro he path t hs hv
    have has := (carries_of_generate hg h).has_of_itemAt hg hs hn hv
    rw [Items.has_of_mem hi, he] at has
    exact TerminalSet.not_mem_empty t has
  · intro hnone
    refine TerminalSet.ext fun t => iff_of_false (fun ht => ?_) (TerminalSet.not_mem_empty t)
    obtain ⟨path, hs, hv⟩ := exists_itemAt_of_generate hg h hn ((Items.has_of_mem hi).mpr ht)
    exact hnone path t hs hv

/-- If an item of a generated automaton has no lookaheads, some nonterminal that is reachable from
the start symbol derives no string of terminals. -/
theorem exists_unproductive_of_empty [WordHash] (hg : g.Defined) (h : generate o g = .ok a)
    (hn : a.node? s = some n) (hi : i ∈ n.items.toList) (he : i.lookaheads = ∅) :
    ∃ m, g.Reachable m ∧ ¬ g.Productive m := by
  have hg := hg.wellFormed
  have tracks := tracks_of_generate hg h
  by_contra hall
  push Not at hall
  obtain ⟨path, hs⟩ := tracks.reached hn
  have shape := tracks.shapeAt hg hs hn i.core (Items.mem_cores_of_mem hi)
  obtain ⟨t, ht⟩ := shape.exists_valid hall hg
  exact (lookaheads_eq_empty_iff hg h hn hi).mp he path t hs ht

end Automaton

namespace Grammar

/-- A sentence would be an `a` and what `B` derives, but whatever `B` derives begins with `B`. -/
def endless : Grammar where
  terminals := #["$eoi", "#", "a", "b"]
  nonterminals := #["$start", "S", "A", "B"]
  productions := #[
    ⟨⟨0⟩, [.nonterminal ⟨1⟩, .terminal ⟨0⟩]⟩,
    ⟨⟨1⟩, [.nonterminal ⟨2⟩, .nonterminal ⟨3⟩]⟩,
    ⟨⟨2⟩, [.terminal ⟨2⟩]⟩,
    ⟨⟨3⟩, [.nonterminal ⟨3⟩, .terminal ⟨3⟩]⟩]
  start := ⟨1⟩

theorem defined_endless : endless.Defined := by
  refine ⟨[.terminal "a", .terminal "b", .nonterminal "S", .nonterminal "A", .nonterminal "B",
    .rule ⟨1⟩ [.nonterminal ⟨2⟩, .nonterminal ⟨3⟩], .rule ⟨2⟩ [.terminal ⟨2⟩],
    .rule ⟨3⟩ [.nonterminal ⟨3⟩, .terminal ⟨3⟩]], ?_⟩
  decide +kernel

end Grammar

namespace Automaton

/-- After `a` the production of `A` is complete, and nothing tells when to reduce by it. -/
theorem exists_unproductive_endless : ∃ a n, generate ⟨.lalr, 64⟩ .endless = .ok a ∧
    a.node? ⟨1⟩ = some n ∧ n.items.item? ⟨⟨2⟩, 1⟩ = some ⟨⟨⟨2⟩, 1⟩, ∅⟩ ∧
    ∃ m, Grammar.endless.Reachable m ∧ ¬ Grammar.endless.Productive m := by
  obtain ⟨a, ha, hP⟩ := exists_ok_of_any (e := generate ⟨.lalr, 64⟩ .endless)
    (P := fun a => (a.node? ⟨1⟩).any fun n => n.items.item? ⟨⟨2⟩, 1⟩ = some ⟨⟨⟨2⟩, 1⟩, ∅⟩)
    (by decide +kernel)
  obtain ⟨n, hn, hi⟩ := (Option.any_eq_true _ _).mp hP
  have hi := of_decide_eq_true hi
  have hm := (Items.item?_eq_some_iff.mp hi).1
  exact ⟨a, n, ha, hn, hi, exists_unproductive_of_empty Grammar.defined_endless ha hn hm rfl⟩

end Automaton

end LRAutomata
