import LRAutomata.Proofs.Automaton.Merge
import LRAutomata.Proofs.Automaton.Unambiguous

/-!
# The conflicts of merged states

Merging the states with the same cores brings lookaheads together and leaves transitions as they
are. No conflict is lost, and a new one is between reductions only.

* `State.ShiftsAndReduces`: a conflict of a reduction with a transition;
* `KeepsCores.reduces_iff`, `KeepsCores.target?_isSome`: what a merged state does on a terminal;
* `MergesConflicts`: how the conflicts of two automata hang together;
* `mergesConflicts_of_generate`: those of the automata of the two methods do so.
-/

namespace LRAutomata

/-- There is a conflict on the terminal, and a transition takes part in it. -/
def State.ShiftsAndReduces (g : Grammar) (s : State) (t : Terminal) : Prop :=
  s.ConflictsOn g t ∧ (s.transitions.target? (.terminal t)).isSome = true

namespace Automaton

/-- The conflicts of `b`, each state of which stands for the states of `a` with its cores. -/
structure MergesConflicts (g : Grammar) (a b : Automaton) : Prop where
  /-- The states of `a` have one counterpart each. -/
  counterpart {s : StateId} {n : Node} : a.node? s = some n →
    ∃! q, ∃ m, b.node? q = some m ∧ m.items.cores = n.items.cores
  /-- Every state of `a` reports its conflicts, and no conflict is lost. -/
  kept {s q : StateId} {n m : Node} : a.node? s = some n → b.node? q = some m →
    m.items.cores = n.items.cores → ∃ ts us, n.toState.conflicts g = .ok ts ∧
      m.toState.conflicts g = .ok us ∧ ∀ t ∈ ts, t ∈ us
  /-- A conflict that no state of `a` has is one between two productions. -/
  added {q : StateId} {m : Node} {t : Terminal} : b.node? q = some m →
    m.toState.ConflictsOn g t →
    (∀ s n, a.node? s = some n → m.items.cores = n.items.cores → ¬ n.toState.ConflictsOn g t) →
    m.transitions.target? (.terminal t) = none ∧ ∃ rs ps, m.toState.reductions g = .ok rs ∧
      (t, ps) ∈ rs ∧ ∃ p p', p ≠ p' ∧ p ∈ ps ∧ p' ∈ ps
  /-- A conflict with a transition is one of a state of `a`. -/
  shifts {q : StateId} {m : Node} {t : Terminal} : b.node? q = some m →
    m.toState.ShiftsAndReduces g t → ∃ s n, a.node? s = some n ∧
      m.items.cores = n.items.cores ∧ n.toState.ShiftsAndReduces g t
  conflictFree : b.ConflictFree g → a.ConflictFree g

variable {g : Grammar} {o : Options} {a b : Automaton} {φ : StateId → StateId} {s q : StateId}
  {n m : Node} {p : ProductionId} {t : Terminal} {X : Symbol}

/-- A state has transitions on the same symbols as the state that it is mapped to. -/
theorem KeepsCores.target?_isSome (hg : g.WellFormed) (ha : a.Tracks g) (hb : b.Tracks g)
    (h : KeepsCores a b φ) (hn : a.node? s = some n) (hm : b.node? (φ s) = some m) :
    (m.transitions.target? X).isSome = (n.transitions.target? X).isSome := by
  have same := h.goto?_eq hg ha hb hn X
  rw [goto?_of_node? hm, goto?_of_node? hn] at same
  rw [same, Option.isSome_map]

section

variable [WordHash]

/-- A state of `b` reduces where a state does that is mapped to it. -/
theorem KeepsCores.reduces_iff (hg : g.WellFormed) (ha : a.Canonical g) (hb : generate o g = .ok b)
    (h : KeepsCores a b φ) (hm : b.node? q = some m) : m.items.Reduces g p t ↔
      ∃ s n, a.node? s = some n ∧ φ s = q ∧ n.items.Reduces g p t := by
  constructor
  · rintro ⟨c, hc, hcomplete⟩
    obtain ⟨s, n, hn, hs, hc⟩ := (h.has_iff hg ha hb hm).mp hc
    exact ⟨s, n, hn, hs, c, hc, hcomplete⟩
  · rintro ⟨s, n, hn, hs, c, hc, hcomplete⟩
    exact ⟨c, (h.has_iff hg ha hb hm).mpr ⟨s, n, hn, hs, hc⟩, hcomplete⟩

variable (hg : g.WellFormed) (ha : a.Canonical g) (hb : generate o g = .ok b)
  (h : KeepsCores a b φ)

include hg ha hb h

theorem KeepsCores.conflictsOn (hn : a.node? s = some n) (hm : b.node? (φ s) = some m)
    (ht : n.toState.ConflictsOn g t) : m.toState.ConflictsOn g t := by
  have cb := carries_of_generate hg hb
  have up : ∀ p, n.items.Reduces g p t → m.items.Reduces g p t := fun p hp =>
    (h.reduces_iff hg ha hb hm).mpr ⟨s, n, hn, rfl, hp⟩
  rw [State.conflictsOn_iff (ha.tracks.production?_isSome hg hn)] at ht
  rw [State.conflictsOn_iff (cb.tracks.production?_isSome hg hm)]
  rcases ht with ⟨p, p', hne, hp, hp'⟩ | ⟨⟨p, hp⟩, hX⟩
  · exact .inl ⟨p, p', hne, up p hp, up p' hp'⟩
  · have same := h.target?_isSome hg ha.tracks cb.tracks hn hm (X := .terminal t)
    exact .inr ⟨⟨p, up p hp⟩, same.trans hX⟩

/-- A state and the one that it is mapped to report their conflicts, and none is lost. -/
theorem KeepsCores.exists_conflicts (hn : a.node? s = some n) (hm : b.node? (φ s) = some m) :
    ∃ ts us, n.toState.conflicts g = .ok ts ∧ m.toState.conflicts g = .ok us ∧
      ∀ t ∈ ts, t ∈ us := by
  have cb := carries_of_generate hg hb
  have hts := State.conflicts_eq (s := n.toState) (ha.tracks.production?_isSome hg hn)
  have hus := State.conflicts_eq (s := m.toState) (cb.tracks.production?_isSome hg hm)
  refine ⟨_, _, hts, hus, fun t ht => ?_⟩
  obtain ⟨us, hus', hu⟩ := h.conflictsOn hg ha hb hn hm ⟨_, hts, ht⟩
  rwa [← Except.ok.inj (hus.symm.trans hus')] at hu

/-- One of the states that are mapped to a state has the reduction, and all have the transition. -/
theorem KeepsCores.exists_shiftsAndReduces (hm : b.node? q = some m)
    (ht : m.toState.ShiftsAndReduces g t) :
    ∃ s n, a.node? s = some n ∧ φ s = q ∧ n.toState.ShiftsAndReduces g t := by
  have cb := carries_of_generate hg hb
  obtain ⟨hc, hX⟩ := ht
  have hr : ∃ p, m.items.Reduces g p t := by
    rcases (State.conflictsOn_iff (cb.tracks.production?_isSome hg hm)).mp hc with h | h
    · obtain ⟨p, -, -, hp, -⟩ := h
      exact ⟨p, hp⟩
    · exact h.1
  obtain ⟨p, hp⟩ := hr
  obtain ⟨s, n, hn, rfl, hp⟩ := (h.reduces_iff hg ha hb hm).mp hp
  have same := h.target?_isSome hg ha.tracks cb.tracks hn hm (X := .terminal t)
  have hX : (n.transitions.target? (.terminal t)).isSome = true := same.symm.trans hX
  refine ⟨s, n, hn, rfl, ?_, hX⟩
  exact (State.conflictsOn_iff (ha.tracks.production?_isSome hg hn)).mpr (.inr ⟨⟨p, hp⟩, hX⟩)

end

/-- A conflict in which no transition takes part is between productions that are listed together. -/
theorem exists_reductions_of_conflictsOn {s : State}
    (hd : ∀ c ∈ s.items.cores, (g.production? c.production).isSome = true)
    (ht : s.ConflictsOn g t) (hX : s.transitions.target? (.terminal t) = none) :
    ∃ rs ps, s.reductions g = .ok rs ∧ (t, ps) ∈ rs ∧ ∃ p p', p ≠ p' ∧ p ∈ ps ∧ p' ∈ ps := by
  rcases (State.conflictsOn_iff hd).mp ht with ⟨p, p', hne, hp, hp'⟩ | ⟨-, hX'⟩
  · refine ⟨_, _, State.reductions_eq hd, List.mem_map.mpr ⟨t, ?_, rfl⟩, p, p', hne, ?_, ?_⟩
    · exact Items.mem_reductionTerminals_iff.mpr ⟨p, hp⟩
    · exact Items.mem_reducers_iff.mpr hp
    · exact Items.mem_reducers_iff.mpr hp'
  · rw [hX] at hX'
    cases hX'

/-- The LALR method keeps all conflicts of the canonical automaton and adds conflicts between
reductions only. -/
theorem mergesConflicts_of_generate [WordHash] {maxStates maxStates' : Nat} (hg : g.Defined)
    (ha : generate ⟨.canonical, maxStates⟩ g = .ok a)
    (hb : generate ⟨.lalr, maxStates'⟩ g = .ok b) : MergesConflicts g a b := by
  have hg := hg.wellFormed
  have ca := canonical_of_generate hg rfl ha
  have cb := carries_of_generate hg hb
  have hd : b.Distinct := fun s t n m hs ht => eq_of_cores_eq hg rfl hb hs ht
  obtain ⟨φ, h⟩ := exists_keepsCores hg ca.tracks cb.tracks hd
  refine ⟨fun {s n} hn => ?_, fun {s q n m} hn hm hc => ?_, fun {q m t} hm ht hno => ?_,
    fun {q m t} hm ht => ?_, fun hf s n hn => ?_⟩
  · refine ⟨φ s, h.maps hn, ?_⟩
    rintro q ⟨m, hm, hc⟩
    exact (h.eq_of_cores_eq hn hm hc).symm
  · obtain rfl := h.eq_of_cores_eq hn hm hc
    exact h.exists_conflicts hg ca hb hn hm
  · have hX : m.transitions.target? (.terminal t) = none := by
      by_contra hX
      have both : m.toState.ShiftsAndReduces g t := ⟨ht, Option.isSome_iff_ne_none.mpr hX⟩
      obtain ⟨s, n, hn, rfl, hs⟩ := h.exists_shiftsAndReduces hg ca hb hm both
      exact hno s n hn (h.cores_eq hn hm) hs.1
    exact ⟨hX, exists_reductions_of_conflictsOn (s := m.toState)
      (cb.tracks.production?_isSome hg hm) ht hX⟩
  · obtain ⟨s, n, hn, rfl, hs⟩ := h.exists_shiftsAndReduces hg ca hb hm ht
    exact ⟨s, n, hn, h.cores_eq hn hm, hs⟩
  · obtain ⟨m, hm, -⟩ := h.maps hn
    obtain ⟨ts, us, hts, hus, hsub⟩ := h.exists_conflicts hg ca hb hn hm
    rw [hf _ m hm] at hus
    cases hus
    rw [hts, List.eq_nil_iff_forall_not_mem.mpr fun t ht => List.not_mem_nil (hsub t ht)]

end Automaton

namespace Grammar

/-- After `a c` and after `b c` the same two productions are complete, with `d` and `e` after them
the one way round or the other. -/
def crossed : Grammar where
  terminals := #["$eoi", "#", "a", "b", "c", "d", "e"]
  nonterminals := #["$start", "S", "A", "B"]
  productions := #[
    ⟨⟨0⟩, [.nonterminal ⟨1⟩, .terminal ⟨0⟩]⟩,
    ⟨⟨1⟩, [.terminal ⟨2⟩, .nonterminal ⟨2⟩, .terminal ⟨5⟩]⟩,
    ⟨⟨1⟩, [.terminal ⟨3⟩, .nonterminal ⟨3⟩, .terminal ⟨5⟩]⟩,
    ⟨⟨1⟩, [.terminal ⟨2⟩, .nonterminal ⟨3⟩, .terminal ⟨6⟩]⟩,
    ⟨⟨1⟩, [.terminal ⟨3⟩, .nonterminal ⟨2⟩, .terminal ⟨6⟩]⟩,
    ⟨⟨2⟩, [.terminal ⟨4⟩]⟩,
    ⟨⟨3⟩, [.terminal ⟨4⟩]⟩]
  start := ⟨1⟩

theorem defined_crossed : crossed.Defined := by
  refine ⟨[.terminal "a", .terminal "b", .terminal "c", .terminal "d", .terminal "e",
    .nonterminal "S", .nonterminal "A", .nonterminal "B",
    .rule ⟨1⟩ [.terminal ⟨2⟩, .nonterminal ⟨2⟩, .terminal ⟨5⟩],
    .rule ⟨1⟩ [.terminal ⟨3⟩, .nonterminal ⟨3⟩, .terminal ⟨5⟩],
    .rule ⟨1⟩ [.terminal ⟨2⟩, .nonterminal ⟨3⟩, .terminal ⟨6⟩],
    .rule ⟨1⟩ [.terminal ⟨3⟩, .nonterminal ⟨2⟩, .terminal ⟨6⟩],
    .rule ⟨2⟩ [.terminal ⟨4⟩], .rule ⟨3⟩ [.terminal ⟨4⟩]], ?_⟩
  decide +kernel

end Grammar

namespace Automaton

/-- The two states after `a c` and `b c` have no conflict; the one that is made of them has two. -/
theorem mergesConflicts_crossed : ∃ a b, generate ⟨.canonical, 64⟩ .crossed = .ok a ∧
    generate ⟨.lalr, 64⟩ .crossed = .ok b ∧ MergesConflicts .crossed a b ∧
    a.nodes.toList.all (fun n => n.toState.conflicts .crossed = .ok []) = true ∧
    b.nodes.toList.any (fun m => m.toState.conflicts .crossed = .ok [⟨5⟩, ⟨6⟩]) = true := by
  obtain ⟨a, ha, hfree⟩ := exists_ok_of_any (e := generate ⟨.canonical, 64⟩ .crossed)
    (P := fun a => a.nodes.toList.all fun n => n.toState.conflicts .crossed = .ok [])
    (by decide +kernel)
  obtain ⟨b, hb, hconflict⟩ := exists_ok_of_any (e := generate ⟨.lalr, 64⟩ .crossed)
    (P := fun b => b.nodes.toList.any fun m => m.toState.conflicts .crossed = .ok [⟨5⟩, ⟨6⟩])
    (by decide +kernel)
  exact ⟨a, b, ha, hb, mergesConflicts_of_generate Grammar.defined_crossed ha hb, hfree, hconflict⟩

end Automaton

end LRAutomata
