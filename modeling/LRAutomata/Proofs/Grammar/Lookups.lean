import LRAutomata.Proofs.Grammar.First
import LRAutomata.Proofs.Item.Closure

/-!
# Look-ups that always succeed

The First sets and the closure of items read tables without asking whether an entry is there. In a
declared grammar it always is:

* `FirstSets.For.lookup`: First sets know all declared symbols, at any time while they are found
  (`FirstSets.OnTheWay`);
* `Grammar.LookupsSucceed`: the look-ups together, and the terminals that have to fit into a set;
* `WellFormed.lookupsSucceed`: they succeed.
-/

namespace LRAutomata

namespace FirstSets

variable {g : Grammar} {f : FirstSets}

/-- The First sets that there are at some time while those of the grammar are found. -/
inductive OnTheWay (g : Grammar) : FirstSets → Prop where
  | initial : OnTheWay g (FirstSets.initial g)
  | enlarge {f : FirstSets} {i : Inclusion} : OnTheWay g f → i ∈ g.inclusions g.nullables →
    OnTheWay g (FirstSets.enlarge i f).value

theorem OnTheWay.for (h : OnTheWay g f) : For g f := by
  induction h with
  | initial => exact for_initial g
  | enlarge _ _ ih => exact ih.enlarge _

/-- First sets know the declared symbols. -/
theorem For.of?_isSome (hf : For g f) {X : Symbol} (hX : g.declares X = true) :
    (f.of? X).isSome = true := by
  cases X with
  | terminal t =>
    have hlt : t.id.toNat < g.terminals.size := of_decide_eq_true hX
    rw [of?, hf.terminals_eq, initial, Grammar.terminalIds]
    simpa using hlt
  | nonterminal n =>
    have hlt : n.id.toNat < g.nonterminals.size := of_decide_eq_true hX
    rw [of?]
    simpa [hf.size_eq] using hlt

theorem For.lookup (hf : For g f) {X : Symbol} (hX : g.declares X = true) :
    f.lookup X = .ok (f.of X) := by
  obtain ⟨s, hs⟩ := Option.isSome_iff_exists.mp (hf.of?_isSome hX)
  rw [FirstSets.lookup, of, hs]
  rfl

theorem For.lookupSequence (hf : For g f) {Xs : List Symbol}
    (hXs : ∀ X ∈ Xs, g.declares X = true) :
    f.lookupSequence Xs = .ok (f.ofSequence Xs, f.allNullable Xs) := by
  have hn : (visiblePart f.nullables Xs).find? (fun X => (f.of? X).isNone) = none := by
    refine List.find?_eq_none.mpr fun X hX hnone => ?_
    have hsome := hf.of?_isSome (hXs X (mem_of_mem_visiblePart hX))
    rw [Option.isNone_iff_eq_none.mp hnone] at hsome
    cases hsome
  rw [FirstSets.lookupSequence, hn]

end FirstSets

namespace Grammar

variable {g : Grammar}

/-- Terminals fit into terminal sets, First sets know both sides of every inclusion at any time and
all that can follow a symbol in a production, and what is demanded are productions. -/
structure LookupsSucceed (g : Grammar) : Prop where
  insert {t : Terminal} (s : TerminalSet) :
    t ∈ g.terminalIds ∨ t = Terminal.endOfInput ∨ t = Terminal.marker → ∃ u, s.insert t = .ok u
  inclusion {f : FirstSets} {i : Inclusion} : FirstSets.OnTheWay g f →
    i ∈ g.inclusions g.nullables →
    (∃ s, f.lookup (.nonterminal i.whole) = .ok s) ∧ ∃ s, f.lookup i.part = .ok s
  rest (c : Core) : ∃ r, g.firstSets.lookupSequence (g.rest c) = .ok r
  demanded {i j : Item} : j ∈ g.demands g.firstSets i →
    ∃ rule, g.production j.core.production = .ok rule

theorem WellFormed.lt_capacity_of_mem (hg : g.WellFormed) {t : Terminal}
    (h : t ∈ g.terminalIds) : t.id.toNat < TerminalSet.capacity := by
  have hle := hg.terminals_le
  unfold Draft.maxTerminals at hle
  obtain ⟨i, hi, rfl⟩ := List.mem_map.mp h
  have hlt := List.mem_range.mp hi
  rw [UInt16.toNat_ofNat', Nat.mod_eq_of_lt (by omega), TerminalSet.capacity]
  omega

theorem WellFormed.lookupsSucceed (hg : g.WellFormed) : g.LookupsSucceed where
  insert {t} s h := by
    have hlt : t.id.toNat < TerminalSet.capacity := by
      rcases h with h | rfl | rfl
      · exact hg.lt_capacity_of_mem h
      · decide
      · decide
    rw [TerminalSet.insert, if_pos hlt]
    exact ⟨_, rfl⟩
  inclusion hf hi := by
    obtain ⟨hwhole, hpart⟩ := hg.declares_inclusion hi
    exact ⟨⟨_, hf.for.lookup hwhole⟩, ⟨_, hf.for.lookup hpart⟩⟩
  rest c := ⟨_, hg.for_firstSets.lookupSequence (hg.declares_rest c)⟩
  demanded hj := by
    obtain ⟨⟨n, p, -, hp, hc⟩, -⟩ := mem_demands_iff.mp hj
    obtain ⟨rule, hp, -⟩ := hg.mem_alternatives_iff.mp hp
    rw [hc, production, hp]
    exact ⟨rule, rfl⟩

end Grammar

end LRAutomata
