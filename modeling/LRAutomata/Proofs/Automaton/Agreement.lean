import LRAutomata.Proofs.Automaton.Consistent
import LRAutomata.Proofs.Automaton.Discovery
import LRAutomata.Proofs.Automaton.Outcome
import LRAutomata.Proofs.Grammar.Agreement

/-!
# The automaton depends on the rules in use only

Two grammars with the same rules in use have the same automata, state by state and number by
number, but for the numbers that the productions have.

* `Items.Counterpart`: items with other numbers for their productions, and what follows for
  reductions (`Counterpart.reduces_iff`) and conflicts (`Counterpart.conflicts`);
* `eq_iff_sameAfter`: which paths lead to one state is a matter of the items that are valid for
  them, and so the same for both grammars;
* `walk?_eq_of_agrees`: as the states are found in turn, all paths lead to the same states;
* `alike_of_agrees`: the automata are alike (`Alike`), if there are any.
-/

namespace LRAutomata

theorem Items.nextSymbols_eq_of_mem_iff {g h : Grammar} {s t : Items}
    (hX : ∀ X, X ∈ s.nextSymbols g ↔ X ∈ t.nextSymbols h) : s.nextSymbols g = t.nextSymbols h :=
  congrArg SortedList.toList (SortedList.eq_of_mem_iff hX)

section

variable {g h : Grammar} {π : ProductionId → ProductionId} {s t : Items} {c d : Core}
  {p p' q : ProductionId} {k : Terminal}

/-- `t` has the cores and lookaheads of `s` with their productions renamed; the productions are the
same, and different ones stay different. -/
structure Items.Counterpart (g h : Grammar) (π : ProductionId → ProductionId) (s t : Items) :
    Prop where
  mem_cores_iff {d : Core} : d ∈ t.cores ↔ ∃ c, c.renamed π = d ∧ c ∈ s.cores
  has_iff {d : Core} {k : Terminal} : t.Has d k ↔ ∃ c, c.renamed π = d ∧ s.Has c k
  production?_eq {c : Core} : c ∈ s.cores →
    h.production? (π c.production) = g.production? c.production
  inj {c d : Core} : c ∈ s.cores → d ∈ s.cores → π c.production = π d.production →
    c.production = d.production

namespace Items.Counterpart

theorem renamed_inj (hst : Counterpart g h π s t) (hc : c ∈ s.cores) (hd : d ∈ s.cores)
    (he : c.renamed π = d.renamed π) : c = d := by
  obtain ⟨hp, hdot⟩ := Core.mk.inj he
  exact Core.ext_of_toNat (hst.inj hc hd hp) (congrArg UInt16.toNat hdot)

theorem lookaheads_eq (hst : Counterpart g h π s t) {i j : Item} (hi : i ∈ t.toList)
    (hj : j ∈ s.toList) (hc : j.core.renamed π = i.core) : i.lookaheads = j.lookaheads := by
  refine TerminalSet.ext fun k => ?_
  rw [← has_of_mem hi, ← has_of_mem hj, hst.has_iff]
  constructor
  · rintro ⟨c, he, hk⟩
    rwa [hst.renamed_inj hk.mem_cores (mem_cores_of_mem hj) (he.trans hc.symm)] at hk
  · exact fun hk => ⟨j.core, hc, hk⟩

/-- The items of `t` are those of `s` renamed. -/
theorem mem_toList_iff (hst : Counterpart g h π s t) {i : Item} :
    i ∈ t.toList ↔ ∃ j ∈ s.toList, j.renamed π = i := by
  constructor
  · intro hi
    obtain ⟨c, hc, hm⟩ := hst.mem_cores_iff.mp (mem_cores_of_mem hi)
    obtain ⟨j, hj, rfl⟩ := Items.mem_cores_iff.mp hm
    refine ⟨j, hj, ?_⟩
    rw [Item.renamed, hc, ← hst.lookaheads_eq hi hj hc]
  · rintro ⟨j, hj, rfl⟩
    have hm := hst.mem_cores_iff.mpr ⟨j.core, rfl, mem_cores_of_mem hj⟩
    obtain ⟨i, hi, hc⟩ := Items.mem_cores_iff.mp hm
    rwa [Item.renamed, ← hc, ← hst.lookaheads_eq hi hj hc.symm]

/-- The reductions are those by the renamed productions. -/
theorem reduces_iff (hst : Counterpart g h π s t) :
    t.Reduces h q k ↔ ∃ p, π p = q ∧ s.Reduces g p k := by
  have complete {c : Core} (hc : c ∈ s.cores) : h.isComplete (c.renamed π) = g.isComplete c :=
    congrArg _ (hst.production?_eq hc)
  constructor
  · rintro ⟨d, hd, hcomplete, rfl⟩
    obtain ⟨c, rfl, hc⟩ := hst.has_iff.mp hd
    exact ⟨c.production, rfl, c, hc, (complete hc.mem_cores).symm.trans hcomplete, rfl⟩
  · rintro ⟨p, rfl, c, hc, hcomplete, rfl⟩
    exact ⟨c.renamed π, hst.has_iff.mpr ⟨c, rfl, hc⟩, (complete hc.mem_cores).trans hcomplete, rfl⟩

theorem reducer_inj (hst : Counterpart g h π s t) (hp : s.Reduces g p k) (hp' : s.Reduces g p' k)
    (he : π p = π p') : p = p' := by
  obtain ⟨c, hc, -, rfl⟩ := hp
  obtain ⟨c', hc', -, rfl⟩ := hp'
  exact hst.inj hc.mem_cores hc'.mem_cores he

theorem reductionSet_eq (hst : Counterpart g h π s t) : t.reductionSet h = s.reductionSet g := by
  refine TerminalSet.ext fun k => ?_
  rw [mem_reductionSet_iff, mem_reductionSet_iff]
  simp only [hst.reduces_iff]
  exact ⟨fun ⟨_, p, _, hp⟩ => ⟨p, hp⟩, fun ⟨p, hp⟩ => ⟨π p, p, rfl, hp⟩⟩

/-- There is more than one production to reduce by in the one if there is in the other. -/
theorem one_lt_length_reducers_iff (hst : Counterpart g h π s t) :
    1 < (t.reducers h k).length ↔ 1 < (s.reducers g k).length := by
  rw [Items.one_lt_length_reducers_iff, Items.one_lt_length_reducers_iff]
  constructor
  · rintro ⟨q, q', hne, hq, hq'⟩
    obtain ⟨p, rfl, hp⟩ := hst.reduces_iff.mp hq
    obtain ⟨p', rfl, hp'⟩ := hst.reduces_iff.mp hq'
    exact ⟨p, p', fun he => hne (congrArg π he), hp, hp'⟩
  · rintro ⟨p, p', hne, hp, hp'⟩
    exact ⟨π p, π p', fun he => hne (hst.reducer_inj hp hp' he),
      hst.reduces_iff.mpr ⟨p, rfl, hp⟩, hst.reduces_iff.mpr ⟨p', rfl, hp'⟩⟩

/-- States with the same transitions and renamed items have the same conflicts. -/
theorem conflicts {x y : State} (hxy : Counterpart g h π x.items y.items)
    (htr : y.transitions = x.transitions) :
    (y.items.reductionSet h).toList.filter (y.hasConflict h) =
      (x.items.reductionSet g).toList.filter (x.hasConflict g) := by
  rw [hxy.reductionSet_eq]
  refine List.filter_congr fun k _ => ?_
  rw [State.hasConflict, State.hasConflict, htr, decide_eq_decide.mpr hxy.one_lt_length_reducers_iff]

end Items.Counterpart

end

/-! ## Automata with renamed productions -/

/-- `m` is `n` with the productions of its items renamed. -/
structure Node.Renamed (π : ProductionId → ProductionId) (n m : Node) : Prop where
  transitions_eq : m.transitions = n.transitions
  successors_eq : m.successors = n.successors
  mem_items_iff (i : Item) : i ∈ m.items.toList ↔ ∃ j ∈ n.items.toList, j.renamed π = i

namespace Automaton

variable {g h : Grammar} {o : Options} {a b : Automaton} {s t : StateId} {n m : Node}
  {u v path : List Symbol} {X : Symbol} {π : ProductionId → ProductionId}

/-- `b` is `a` with the productions of all items renamed; no conflict comes or goes. -/
structure Alike (g h : Grammar) (π : ProductionId → ProductionId) (a b : Automaton) : Prop where
  size_eq : b.size = a.size
  renamed {s : StateId} {n m : Node} : a.node? s = some n → b.node? s = some m → n.Renamed π m
  conflicts {s : StateId} {n m : Node} : a.node? s = some n → b.node? s = some m →
    ∃ ts, n.toState.conflicts g = .ok ts ∧ m.toState.conflicts h = .ok ts

section

variable [WordHash]

/-- Two paths lead to one state just if the same items are valid for them. -/
theorem eq_iff_sameAfter (hg : g.WellFormed) (h : generate o g = .ok a)
    (hu : a.walk? u = some s) (hv : a.walk? v = some t) :
    s = t ↔ g.SameAfter o.method.countsLookaheads u v := by
  have tracks := tracks_of_generate hg h
  have canonical (hm : o.method.countsLookaheads = true) : a.Canonical g := by
    refine canonical_of_generate hg ?_ h
    cases ho : o.method with
    | canonical => rfl
    | lalr => rw [ho] at hm; cases hm
  have has (hm : o.method.countsLookaheads = true) {w : List Symbol} {r : StateId} {k : Node}
      (hw : a.walk? w = some r) (hk : a.node? r = some k) (c : Core) (x : Terminal) :
      k.items.Has c x ↔ g.ItemAt w c x :=
    ⟨(canonical hm).itemAt hg hw hk, (canonical hm).carries.has_of_itemAt hg hw hk⟩
  obtain ⟨n, hn⟩ := tracks.exists_node? hu
  obtain ⟨m, hm⟩ := tracks.exists_node? hv
  constructor
  · rintro rfl
    obtain rfl : n = m := Option.mem_unique hn hm
    refine ⟨fun c => ?_, fun hcounts c x => ?_⟩
    · rw [← tracks.mem_cores_iff hg hu hn, ← tracks.mem_cores_iff hg hv hn]
    · rw [← has hcounts hu hn, ← has hcounts hv hn]
  · intro hs
    have hcores (c : Core) : c ∈ n.items.cores ↔ c ∈ m.items.cores := by
      rw [tracks.mem_cores_iff hg hu hn, tracks.mem_cores_iff hg hv hm]
      exact hs.shapeAt_iff c
    have ha := annotated_of_generate hg h
    refine ha.indexed.distinct hn hm ?_
    rw [ha.signature_eq hn, ha.signature_eq hm, signatureFor, signatureFor,
      method_of_generate hg h]
    cases hcounts : o.method.countsLookaheads with
    | false => exact Signature.ofItems_false_eq_iff.mpr (Items.cores_eq_iff.mpr hcores)
    | true =>
      refine congrArg _ (Items.eq_of_views hcores fun c x => ?_)
      rw [has hcounts hu hn, has hcounts hv hm]
      exact hs.itemAt_iff hcounts c x

section

variable (hg : g.Defined) (hh : h.Defined) (hgh : g.Agrees h) (ha : generate o g = .ok a)
  (hb : generate o h = .ok b)

include hg hh hgh ha hb

/-- All paths lead to the same states. -/
theorem walk?_eq_of_agrees (path : List Symbol) : b.walk? path = a.walk? path := by
  have ta := tracks_of_generate hg.wellFormed ha
  have tb := tracks_of_generate hh.wellFormed hb
  refine (inTurn_of_generate hg.wellFormed ha).walk?_eq (inTurn_of_generate hh.wellFormed hb)
    (fun path => Bool.eq_iff_iff.mpr ?_) (fun u v s t q r hu hv hq hr => ?_) path
  · rw [ta.walk?_isSome_iff hg.wellFormed, tb.walk?_isSome_iff hh.wellFormed]
    obtain ⟨π, hπ⟩ := hgh.exists_renames
    obtain ⟨σ, hσ⟩ := hgh.symm.exists_renames
    constructor
    · rintro ⟨p, i, hv⟩
      exact ⟨π p, i, hπ.validShape hg.wellFormed hh.wellFormed hv⟩
    · rintro ⟨q, i, hv⟩
      exact ⟨σ q, i, hσ.validShape hh.wellFormed hg.wellFormed hv⟩
  · rw [eq_iff_sameAfter hg.wellFormed ha hu hv, eq_iff_sameAfter hh.wellFormed hb hq hr]
    exact hgh.sameAfter_iff hg hh

theorem exists_node?_of_agrees (hn : a.node? s = some n) : ∃ m, b.node? s = some m := by
  obtain ⟨path, hs⟩ := (tracks_of_generate hg.wellFormed ha).reached hn
  rw [← walk?_eq_of_agrees hg hh hgh ha hb] at hs
  exact (tracks_of_generate hh.wellFormed hb).exists_node? hs

theorem size_eq_of_agrees : b.size = a.size :=
  Nat.le_antisymm
    (size_le_of_node? fun _ _ => exists_node?_of_agrees hh hg hgh.symm hb ha)
    (size_le_of_node? fun _ _ => exists_node?_of_agrees hg hh hgh ha hb)

theorem goto?_eq_of_agrees (hn : a.node? s = some n) (X : Symbol) : b.goto? s X = a.goto? s X := by
  obtain ⟨path, hs⟩ := (tracks_of_generate hg.wellFormed ha).reached hn
  have hwalk := walk?_eq_of_agrees hg hh hgh ha hb
  have hs' : b.walk? path = some s := (hwalk path).trans hs
  have hX := hwalk (path ++ [X])
  rwa [walk?_concat, walk?_concat, hs, hs', Option.bind_some, Option.bind_some] at hX

/-! ## State by state -/

/-- The items of a state are those that are valid for the paths to it, and these are the same,
renamed. -/
theorem counterpart_of_agrees (hπ : g.Renames h π) (hn : a.node? s = some n)
    (hm : b.node? s = some m) : Items.Counterpart g h π n.items m.items := by
  have ca := carries_of_generate hg.wellFormed ha
  have cb := carries_of_generate hh.wellFormed hb
  have hwalk := walk?_eq_of_agrees hg hh hgh ha hb
  obtain ⟨path, hs⟩ := ca.tracks.reached hn
  have hcores (c : Core) : c ∈ n.items.cores ↔ g.ShapeAt path c :=
    ca.tracks.mem_cores_iff hg.wellFormed hs hn
  have hrule {c : Core} (hc : c ∈ n.items.cores) :
      ∃ rule, g.production? c.production = some rule ∧ g.InUse rule.left := by
    have hshape := (hcores c).mp hc
    obtain ⟨rule, hp, -⟩ := hshape.exists_production hg.wellFormed
    exact ⟨rule, hp, hshape.inUse hg.wellFormed hp⟩
  refine ⟨fun {d} => ?_, fun {d k} => ?_, fun {c} hc => ?_, fun {c d} hc hd he => ?_⟩
  · rw [cb.tracks.mem_cores_iff hh.wellFormed ((hwalk path).trans hs) hm, hπ.shapeAt_iff hg hh hgh]
    exact exists_congr fun c => and_congr_right fun _ => (hcores c).symm
  · constructor
    · intro hd
      obtain ⟨path', hs', hi⟩ := exists_itemAt_of_generate hh.wellFormed hb hm hd
      obtain ⟨c, hc, hi⟩ := (hπ.itemAt_iff hg hh hgh).mp hi
      exact ⟨c, hc, ca.has_of_itemAt hg.wellFormed ((hwalk path').symm.trans hs') hn hi⟩
    · rintro ⟨c, hc, hk⟩
      obtain ⟨path', hs', hi⟩ := exists_itemAt_of_generate hg.wellFormed ha hn hk
      exact cb.has_of_itemAt hh.wellFormed ((hwalk path').trans hs') hm
        ((hπ.itemAt_iff hg hh hgh).mpr ⟨c, hc, hi⟩)
  · obtain ⟨rule, hp, hu⟩ := hrule hc
    rw [hp, hπ _ rule hp hu]
  · obtain ⟨rule, hp, hu⟩ := hrule hc
    obtain ⟨rule', hq, hu'⟩ := hrule hd
    exact hπ.inj hg hp hu hq hu' he

theorem transitions_eq_of_agrees (hn : a.node? s = some n) (hm : b.node? s = some m) :
    m.transitions = n.transitions := by
  refine Transitions.ext_target? fun X => ?_
  rw [← goto?_of_node? hm, ← goto?_of_node? hn]
  exact goto?_eq_of_agrees hg hh hgh ha hb hn X

/-- What comes after a dot is what there is a transition on. -/
theorem successors_eq_of_agrees (hn : a.node? s = some n) (hm : b.node? s = some m) :
    m.successors = n.successors := by
  have ta := tracks_of_generate hg.wellFormed ha
  have tb := tracks_of_generate hh.wellFormed hb
  have hgoto := goto?_eq_of_agrees hg hh hgh ha hb hn
  rw [(annotated_of_generate hg.wellFormed ha).successors_eq hn,
    (annotated_of_generate hh.wellFormed hb).successors_eq hm]
  refine Items.nextSymbols_eq_of_mem_iff fun X => ?_
  constructor
  · intro hX
    obtain ⟨t, ht⟩ := tb.total hm hX
    exact (ta.edge hn ((hgoto X).symm.trans ht)).1
  · intro hX
    obtain ⟨t, ht⟩ := ta.total hn hX
    exact (tb.edge hm ((hgoto X).trans ht)).1

theorem alike_of_renames (hπ : g.Renames h π) : Alike g h π a b := by
  have ta := tracks_of_generate hg.wellFormed ha
  have tb := tracks_of_generate hh.wellFormed hb
  refine ⟨size_eq_of_agrees hg hh hgh ha hb, fun {s n m} hn hm => ?_, fun {s n m} hn hm => ?_⟩
  · exact ⟨transitions_eq_of_agrees hg hh hgh ha hb hn hm,
      successors_eq_of_agrees hg hh hgh ha hb hn hm,
      fun i => (counterpart_of_agrees hg hh hgh ha hb hπ hn hm).mem_toList_iff⟩
  · have hts := State.conflicts_eq (s := n.toState) (ta.production?_isSome hg.wellFormed hn)
    have hus := State.conflicts_eq (s := m.toState) (tb.production?_isSome hh.wellFormed hm)
    refine ⟨_, hts, hus.trans (congrArg Except.ok ?_)⟩
    exact Items.Counterpart.conflicts (x := n.toState) (y := m.toState)
      (counterpart_of_agrees hg hh hgh ha hb hπ hn hm)
      (transitions_eq_of_agrees hg hh hgh ha hb hn hm)

end

/-! ## Whether there is an automaton -/

theorem exists_generate_of_agrees (hg : g.Defined) (hh : h.Defined) (hgh : g.Agrees h)
    (ha : generate o g = .ok a) : ∃ b, generate o h = .ok b := by
  obtain ⟨m, maxStates⟩ := o
  have hle : a.size ≤ maxStates := size_le_of_generate hg.wellFormed ha
  -- with so many states allowed that there cannot be too many, both grammars have an automaton
  have ha' : generate ⟨m, max maxStates (Nat.card Items)⟩ g = .ok a :=
    generate_of_size_le hg.wellFormed ha (Nat.le_trans hle (Nat.le_max_left ..))
  obtain ⟨b, hb⟩ : ∃ b, generate ⟨m, max maxStates (Nat.card Items)⟩ h = .ok b := by
    cases hb : generate ⟨m, max maxStates (Nat.card Items)⟩ h with
    | ok b => exact ⟨b, rfl⟩
    | error f =>
      rcases failsOnly_generate hh.wellFormed _ f hb with ⟨q, -, rule, hq, hu, hlong⟩ | ⟨-, hlt⟩
      · obtain ⟨σ, hσ⟩ := hgh.symm.exists_renames
        exact absurd ⟨rule, hσ q rule hq hu, hgh.symm.inUse hh.wellFormed hu, hlong⟩
          (not_tooLong_of_generate hg.wellFormed ha (p := σ q))
      · exact absurd (Nat.le_max_right maxStates (Nat.card Items)) (Nat.not_le.mpr hlt)
  refine ⟨b, generate_of_size_le hh.wellFormed hb ?_⟩
  rw [size_eq_of_agrees hg hh hgh ha' hb]
  exact hle

end

/-- Two grammars with the same start symbol and the same rules in use have automata that are alike,
however their productions are numbered and whatever else they declare; and if the one has an
automaton so does the other. -/
theorem alike_of_agrees [WordHash] (hg : g.Defined) (hh : h.Defined) (hgh : g.Agrees h) :
    (∃ π, g.Renames h π) ∧ ∀ π, g.Renames h π → ∀ o,
      ((∃ a, generate o g = .ok a) ↔ ∃ b, generate o h = .ok b) ∧
      ∀ a b, generate o g = .ok a → generate o h = .ok b → Alike g h π a b := by
  refine ⟨hgh.exists_renames, fun π hπ o => ⟨⟨?_, ?_⟩, fun a b ha hb => ?_⟩⟩
  · rintro ⟨a, ha⟩
    exact exists_generate_of_agrees hg hh hgh ha
  · rintro ⟨b, hb⟩
    exact exists_generate_of_agrees hh hg hgh.symm hb
  · exact alike_of_renames hg hh hgh ha hb hπ

end Automaton

namespace Grammar

/-- The two words of `twoWords` with the rules in another order, and with a terminal, a nonterminal
and a rule that the start symbol never comes to. -/
def twoWordsAside : Grammar where
  terminals := #["$eoi", "#", "c", "d", "e"]
  nonterminals := #["$start", "S", "W", "U"]
  productions := #[
    ⟨⟨0⟩, [.nonterminal ⟨1⟩, .terminal ⟨0⟩]⟩,
    ⟨⟨2⟩, [.terminal ⟨3⟩]⟩,
    ⟨⟨3⟩, [.nonterminal ⟨2⟩, .terminal ⟨4⟩]⟩,
    ⟨⟨2⟩, [.terminal ⟨2⟩, .nonterminal ⟨2⟩]⟩,
    ⟨⟨1⟩, [.nonterminal ⟨2⟩, .nonterminal ⟨2⟩]⟩]
  start := ⟨1⟩

theorem defined_twoWordsAside : twoWordsAside.Defined := by
  refine ⟨[.terminal "c", .terminal "d", .terminal "e", .nonterminal "S", .nonterminal "W",
    .nonterminal "U", .rule ⟨2⟩ [.terminal ⟨3⟩], .rule ⟨3⟩ [.nonterminal ⟨2⟩, .terminal ⟨4⟩],
    .rule ⟨2⟩ [.terminal ⟨2⟩, .nonterminal ⟨2⟩],
    .rule ⟨1⟩ [.nonterminal ⟨2⟩, .nonterminal ⟨2⟩]], ?_⟩
  decide +kernel

/-- A rule is in use if its left side occurs on the right side of one in use. -/
theorem WellFormed.uses_of_right {g : Grammar} (hg : g.WellFormed) {rule rule' : Production}
    {p : ProductionId} (hu : g.Uses rule) (hp : g.production? p = some rule')
    (hn : .nonterminal rule'.left ∈ rule.right) : g.Uses rule' := by
  obtain ⟨hu, q, hq⟩ := hu
  exact ⟨hg.usesOnly_right hu hq _ hn, p, hp⟩

theorem uses_twoWordsAside {rule : Production} (h : rule ∈ twoWords.productions.toList) :
    twoWordsAside.Uses rule := by
  have hg := defined_twoWordsAside.wellFormed
  have start : twoWordsAside.Uses ⟨⟨0⟩, [.nonterminal ⟨1⟩, .terminal ⟨0⟩]⟩ :=
    ⟨.inl rfl, _, hg.accept⟩
  have two := hg.uses_of_right start (p := ⟨4⟩) rfl (by decide)
  simp only [twoWords, List.mem_cons, List.not_mem_nil, or_false] at h
  rcases h with rfl | rfl | rfl | rfl
  · exact start
  · exact two
  · exact hg.uses_of_right two (p := ⟨3⟩) rfl (by decide)
  · exact hg.uses_of_right two (p := ⟨1⟩) rfl (by decide)

theorem uses_twoWords {rule : Production} (h : rule ∈ twoWords.productions.toList) :
    twoWords.Uses rule := by
  have hg := defined_twoWords.wellFormed
  have start : twoWords.Uses ⟨⟨0⟩, [.nonterminal ⟨1⟩, .terminal ⟨0⟩]⟩ := ⟨.inl rfl, _, hg.accept⟩
  have two := hg.uses_of_right start (p := ⟨1⟩) rfl (by decide)
  simp only [twoWords, List.mem_cons, List.not_mem_nil, or_false] at h
  rcases h with rfl | rfl | rfl | rfl
  · exact start
  · exact two
  · exact hg.uses_of_right two (p := ⟨2⟩) rfl (by decide)
  · exact hg.uses_of_right two (p := ⟨3⟩) rfl (by decide)

/-- No right side has the nonterminal of the further rule. -/
theorem mem_of_uses_twoWordsAside {rule : Production} (h : twoWordsAside.Uses rule) :
    rule ∈ twoWords.productions.toList := by
  have hg := defined_twoWordsAside.wellFormed
  have unreachable : ¬ twoWordsAside.InUse ⟨3⟩ := by
    rintro (h | h)
    · cases h
    · obtain ⟨rule, hm, hn⟩ := hg.exists_right_of_reachable h
      have places : ∀ rule ∈ twoWordsAside.productions.toList, .nonterminal ⟨3⟩ ∉ rule.right := by
        decide +kernel
      exact places rule hm hn
  have others : ∀ rule ∈ twoWordsAside.productions.toList,
      rule.left = ⟨3⟩ ∨ rule ∈ twoWords.productions.toList := by decide +kernel
  obtain ⟨hu, hp⟩ := h
  exact (others rule (hg.mem_productions_iff.mpr hp)).resolve_left fun he => unreachable (he ▸ hu)

theorem agrees_twoWordsAside : twoWords.Agrees twoWordsAside where
  start_eq := rfl
  uses_iff _ :=
    ⟨fun hu => uses_twoWordsAside (defined_twoWords.wellFormed.mem_productions_iff.mpr hu.2),
      fun hu => uses_twoWords (mem_of_uses_twoWordsAside hu)⟩

end Grammar

namespace Automaton

theorem alike_twoWordsAside : ∃ π a b, Grammar.twoWords.Renames .twoWordsAside π ∧
    generate ⟨.lalr, 64⟩ .twoWords = .ok a ∧ a.size = 8 ∧
    generate ⟨.lalr, 64⟩ .twoWordsAside = .ok b ∧ Alike .twoWords .twoWordsAside π a b := by
  obtain ⟨a, ha, hsize⟩ := exists_ok_of_any (e := generate ⟨.lalr, 64⟩ .twoWords)
    (P := fun a => a.size = 8) (by decide +kernel)
  obtain ⟨⟨π, hπ⟩, hall⟩ := alike_of_agrees Grammar.defined_twoWords Grammar.defined_twoWordsAside
    Grammar.agrees_twoWordsAside
  obtain ⟨hiff, halike⟩ := hall π hπ ⟨.lalr, 64⟩
  obtain ⟨b, hb⟩ := hiff.mp ⟨a, ha⟩
  exact ⟨π, a, b, hπ, ha, of_decide_eq_true hsize, hb, halike a b ha hb⟩

end Automaton

end LRAutomata
