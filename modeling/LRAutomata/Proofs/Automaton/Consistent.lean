import LRAutomata.Proofs.Automaton.Generate

/-!
# What a finished automaton keeps right

* `Node.Consistent`: the items of a state are valid and closed from its kernel, its successors and
  transitions fit them, and it is found by the signature of its items;
* `Automaton.Annotated`: what exploring and assigning lookaheads write down about every state;
* `consistent_of_generate`: all states that are generated are consistent, and no two of them have
  the same signature.
-/

namespace LRAutomata

/-- All that an automaton keeps about a state fits the items of the state. -/
structure Node.Consistent [WordHash] (g : Grammar) (a : Automaton) (s : StateId) (n : Node) :
    Prop where
  valid {i : Item} : i ∈ n.items.toList →
    ∃ rule, g.production? i.core.production = some rule ∧ i.core.dot.toNat ≤ rule.right.length
  closed : n.items.kernel.close g g.firstSets = .ok n.items
  unmarked {i : Item} : i ∈ n.items.toList → Terminal.marker ∉ i.lookaheads
  ascending : n.successors.Pairwise fun X Y => X.rank < Y.rank
  mem_successors_iff {X : Symbol} : X ∈ n.successors ↔
    ∃ i ∈ n.items.toList, g.next? i.core = some X
  transition_iff {X : Symbol} : (n.transitions.target? X).isSome = true ↔ X ∈ n.successors
  target {X : Symbol} {t : StateId} : n.transitions.target? X = some t →
    ∃ m, a.node? t = some m
  signature_eq : n.signature = a.signatureFor n.toState
  find?_eq : a.find? n.signature = some s

namespace Automaton

variable {g : Grammar} {o : Options} {a : Automaton} {s : StateId} {n : Node}

/-- What is written down about the states: they are closed from kernel items, and are filed under
the signatures of their items. -/
structure Annotated [WordHash] (g : Grammar) (a : Automaton) : Prop where
  indexed : a.Indexed
  signature_eq {s : StateId} {n : Node} : a.node? s = some n →
    n.signature = a.signatureFor n.toState
  successors_eq {s : StateId} {n : Node} : a.node? s = some n →
    n.successors = n.items.nextSymbols g
  kernel {s : StateId} {n : Node} : a.node? s = some n →
    ∃ k : Items, (∀ c ∈ k.cores, c.isKernel = true) ∧ n.items = k.closed g g.firstSets

theorem Canonical.exists_kernel (ha : a.Canonical g) (hn : a.node? s = some n) :
    ∃ k : Items, (∀ c ∈ k.cores, c.isKernel = true) ∧ n.items = k.closed g g.firstSets := by
  rcases ha.tracks.initial_or_edge hn with rfl | ⟨r, m, X, hm, ht⟩
  · refine ⟨_, fun c hc => ?_, ha.start hn⟩
    rw [Generator.mem_cores_startItems.mp hc]
    decide
  · obtain ⟨-, hd, -⟩ := ha.tracks.edge hm ht
    exact ⟨_, fun c hc => Grammar.isKernel_of_mem_shifted hd hc, ha.edge hm ht hn⟩

theorem annotated_of_generate [WordHash] (hg : g.WellFormed) (h : generate o g = .ok a) :
    a.Annotated g := by
  obtain ⟨a', ea, ra, fa, hc, hl⟩ := generate_eq_ok h
  cases hm : o.method with
  | canonical =>
    obtain rfl := hc hm
    refine ⟨ea.indexed, fun hn => (ea.node hn).1, fun hn => (ea.node hn).2, fun hn => ?_⟩
    exact (canonical_of_generate hg hm h).exists_kernel hn
  | lalr =>
    obtain ⟨table, links, hs, hb⟩ := Generator.assigned_of_assignLookaheads hg (hl hm)
    have bare : a'.method.countsLookaheads = false := by
      rw [ea.method_eq]
      show o.method.countsLookaheads = false
      rw [hm]
      rfl
    refine ⟨hb.indexed ea.indexed, fun {s m} hn => ?_, hb.successors_eq, fun {s m} hn => ?_⟩
    · -- the signature was that of the items before they got their lookaheads
      obtain ⟨n, hn', hcores, -⟩ := exists_node?_of_outline hb.outline_eq.symm hn
      have hsig : a.signature? s = a'.signature? s := congrFun hb.signature?_eq s
      rw [signature?, hn, signature?, hn', Option.map_some, Option.map_some] at hsig
      rw [Option.some.inj hsig, (ea.node hn').1, signatureFor, signatureFor, hb.method_eq, bare]
      exact Signature.ofItems_false_eq_iff.mpr hcores
    · exact ⟨_, fun c hc => Generator.isKernel_of_mem_row hs hc, hb.items_eq hn⟩

/-- Every state of a generated automaton is consistent, and no two states have one signature. -/
theorem consistent_of_generate [WordHash] (hg : g.Defined) (h : generate o g = .ok a) :
    (∀ s n, a.node? s = some n → n.Consistent g a s) ∧
    ∀ s t n m, a.node? s = some n → a.node? t = some m → n.signature = m.signature → s = t := by
  have hg := hg.wellFormed
  have ha := annotated_of_generate hg h
  have tracks := tracks_of_generate hg h
  refine ⟨fun s n hn => ?_, fun s t n m hs ht hk => ha.indexed.distinct hs ht hk⟩
  have hvalid := tracks.isValid hg hn
  have transition {X : Symbol} : n.transitions.target? X = a.goto? s X := (goto?_of_node? hn X).symm
  refine ⟨fun {i} hi => ?_, ?_, fun {i} hi hu => ?_, ?_, ?_, ?_, fun {X t} ht => ?_,
    ha.signature_eq hn, ha.indexed.find?_eq hn⟩
  · obtain ⟨rule, hp, hd⟩ := (Option.any_eq_true _ _).mp (hvalid _ (Items.mem_cores_of_mem hi))
    exact ⟨rule, hp, of_decide_eq_true hd⟩
  · obtain ⟨k, hk, hi⟩ := ha.kernel hn
    have hsub : ∀ c ∈ k.cores, g.isValid c = true := fun c hc =>
      hvalid c (hi ▸ (Items.le_closed g _ k).1 c hc)
    rw [hi, Items.kernel_closed_eq_self hg hk, Items.close_eq _ hsub]
  · obtain ⟨path, -, hv⟩ := exists_itemAt_of_generate hg h hn ((Items.has_of_mem hi).mpr hu)
    exact Grammar.Valid.ne_marker hg hv rfl
  · rw [ha.successors_eq hn]
    exact Items.ascending_nextSymbols g n.items
  · intro X
    rw [ha.successors_eq hn, Items.mem_nextSymbols_iff, Items.exists_mem_cores_iff]
  · intro X
    rw [ha.successors_eq hn, transition, Option.isSome_iff_exists]
    constructor
    · rintro ⟨t, ht⟩
      exact (tracks.edge hn ht).1
    · exact tracks.total hn
  · rw [transition] at ht
    obtain ⟨-, -, m, hm, -⟩ := tracks.edge hn ht
    exact ⟨m, hm⟩

theorem consistent_twoWords : ∃ a, generate ⟨.lalr, 64⟩ .twoWords = .ok a ∧ a.size = 8 ∧
    (∀ s n, a.node? s = some n → n.Consistent .twoWords a s) ∧
    ∀ s t n m, a.node? s = some n → a.node? t = some m → n.signature = m.signature → s = t := by
  obtain ⟨a, ha, hsize⟩ := exists_ok_of_any (e := generate ⟨.lalr, 64⟩ .twoWords)
    (P := fun a => a.size = 8) (by decide +kernel)
  exact ⟨a, ha, of_decide_eq_true hsize, consistent_of_generate Grammar.defined_twoWords ha⟩

end Automaton

end LRAutomata
