import LRAutomata.Proofs.Automaton.Discovery
import LRAutomata.Proofs.Automaton.Merge
import LRAutomata.Proofs.Repetition

/-!
# How states are numbered

* `Automaton.BreadthFirst`: states have numbers in the order of the least paths to them;
* `breadthFirst_of_generate`: what is generated is numbered breadth-first, so that the LALR method
  gives its states the order in which those of the canonical method bring their cores up.
-/

namespace LRAutomata

namespace Automaton

variable {g : Grammar} {o : Options} {a b : Automaton} {φ : StateId → StateId} {s t q : StateId}
  {n m : Node} {path : List Symbol}

/-- There is a least path to every state, and the least paths are in the order of the states. -/
structure BreadthFirst (a : Automaton) : Prop where
  exists_leastPath {s : StateId} {n : Node} : a.node? s = some n → ∃ path, a.LeastPath s path
  precedes {s t : StateId} {u v : List Symbol} : a.LeastPath s u → a.LeastPath t v →
    s.number < t.number → Precedes u v

/-- The cores of the states, by number. -/
def coresByNumber (a : Automaton) : List (List Core) := a.nodes.toList.map fun n => n.items.cores

theorem getElem?_coresByNumber (a : Automaton) (i : Nat) :
    a.coresByNumber[i]? = (a.node? ⟨i⟩).map fun n => n.items.cores := by
  rw [coresByNumber, List.getElem?_map, Array.getElem?_toList, node?]

theorem mem_coresByNumber {cs : List Core} :
    cs ∈ a.coresByNumber ↔ ∃ s n, a.node? s = some n ∧ n.items.cores = cs := by
  rw [List.mem_iff_getElem?]
  simp only [getElem?_coresByNumber, Option.map_eq_some_iff]
  exact ⟨fun ⟨i, h⟩ => ⟨⟨i⟩, h⟩, fun ⟨s, h⟩ => ⟨s.number, h⟩⟩

/-- A map that keeps cores takes the ends of all paths to their ends. -/
theorem KeepsCores.walk?_eq_map (hg : g.WellFormed) (ha : a.Tracks g) (hb : b.Tracks g)
    (h : KeepsCores a b φ) (path : List Symbol) : b.walk? path = (a.walk? path).map φ := by
  cases hs : a.walk? path with
  | some s => exact h.walk?_eq hg ha hb hs
  | none =>
    cases hq : b.walk? path with
    | none => rfl
    | some q =>
      obtain ⟨s, n, hs', -⟩ := h.exists_walk? hg ha hb hq
      rw [hs] at hs'
      cases hs'

/-- The states of `b` are in the order in which those of `a` bring their cores up. -/
theorem KeepsCores.coresByNumber_eq (hg : g.WellFormed) (ha : a.Tracks g) (hb : b.Tracks g)
    (h : KeepsCores a b φ) (ia : a.InTurn) (ib : b.InTurn) :
    b.coresByNumber = a.coresByNumber.eraseDups := by
  have hφ := h.walk?_eq_map hg ha hb
  have place {i : Nat} (hi : i < b.coresByNumber.length) :
      ∃ m, b.node? ⟨i⟩ = some m ∧ m.items.cores = b.coresByNumber[i] :=
    Option.map_eq_some_iff.mp ((getElem?_coresByNumber b i).symm.trans (List.getElem?_eq_getElem hi))
  refine eq_eraseDups ?_ (fun cs => ?_) ?_
  · refine List.pairwise_iff_getElem.mpr fun i j hi hj hij he => ?_
    obtain ⟨m, hm, hc⟩ := place hi
    obtain ⟨m', hm', hc'⟩ := place hj
    have same := h.distinct _ _ m m' hm hm' (hc.trans (he.trans hc'.symm))
    exact Nat.ne_of_lt hij (congrArg StateId.number same)
  · rw [mem_coresByNumber, mem_coresByNumber]
    constructor
    · rintro ⟨q, m, hm, rfl⟩
      obtain ⟨path, hq⟩ := hb.reached hm
      obtain ⟨s, n, -, hn, rfl⟩ := h.exists_walk? hg ha hb hq
      exact ⟨s, n, hn, (h.cores_eq hn hm).symm⟩
    · rintro ⟨s, n, hn, rfl⟩
      obtain ⟨m, hm, hc⟩ := h.maps hn
      exact ⟨φ s, m, hm, hc⟩
  · refine List.pairwise_iff_getElem.mpr fun i j hi hj hij front rest he => ?_
    obtain ⟨m, hm, hc⟩ := place hi
    obtain ⟨m', hm', hc'⟩ := place hj
    -- the state of `a` where the later cores stand
    have hstands : a.coresByNumber[front.length]? = some b.coresByNumber[j] := by
      rw [he, List.getElem?_append_right (Nat.le_refl _), Nat.sub_self]
      rfl
    rw [getElem?_coresByNumber] at hstands
    obtain ⟨n, hn, hcn⟩ := Option.map_eq_some_iff.mp hstands
    have hj' : φ ⟨front.length⟩ = ⟨j⟩ := h.eq_of_cores_eq hn hm' (hc'.trans hcn.symm)
    obtain ⟨r, hr, hi'⟩ := ia.exists_lt ib hφ (ha.reached hn) (q := ⟨i⟩) (hj'.symm ▸ hij)
    obtain ⟨n', hn'⟩ := exists_node?_of_lt (Nat.lt_trans hr (lt_size_of_node? hn))
    have hfront : front[r.number]? = some n'.items.cores := by
      rw [← List.getElem?_append_left hr, ← he, getElem?_coresByNumber, hn', Option.map_some]
    rw [← hc, h.cores_eq hn' (hi'.symm ▸ hm)]
    exact List.mem_of_getElem? hfront

/-- Either method numbers its states breadth-first. The LALR method has one state for all states of
the canonical method with the same cores, in the order in which these bring their cores up. -/
theorem breadthFirst_of_generate [WordHash] (hg : g.Defined) :
    (∀ o a, generate o g = .ok a → a.BreadthFirst) ∧
    ∀ maxStates maxStates' a b, generate ⟨.canonical, maxStates⟩ g = .ok a →
      generate ⟨.lalr, maxStates'⟩ g = .ok b → b.coresByNumber = a.coresByNumber.eraseDups := by
  have hg := hg.wellFormed
  refine ⟨fun o a h => ?_, fun maxStates maxStates' a b ha hb => ?_⟩
  · refine ⟨fun hn => ?_, fun hs ht => ?_⟩
    · exact exists_leastPath ((tracks_of_generate hg h).reached hn)
    · exact (inTurn_of_generate hg h).precedes_of_leastPath hs ht.leads
  · have ca := tracks_of_generate hg ha
    have cb := tracks_of_generate hg hb
    have hd : b.Distinct := fun s t n m hs ht => eq_of_cores_eq hg rfl hb hs ht
    obtain ⟨φ, hφ⟩ := exists_keepsCores hg ca cb hd
    exact hφ.coresByNumber_eq hg ca cb (inTurn_of_generate hg ha) (inTurn_of_generate hg hb)

theorem breadthFirst_twoWords : ∃ a b, generate ⟨.canonical, 64⟩ .twoWords = .ok a ∧
    generate ⟨.lalr, 64⟩ .twoWords = .ok b ∧ a.size = 11 ∧ b.size = 8 ∧
    a.BreadthFirst ∧ b.BreadthFirst ∧ b.coresByNumber = a.coresByNumber.eraseDups := by
  obtain ⟨a, ha, hsize⟩ := exists_ok_of_any (e := generate ⟨.canonical, 64⟩ .twoWords)
    (P := fun a => a.size = 11) (by decide +kernel)
  obtain ⟨b, hb, hsize'⟩ := exists_ok_of_any (e := generate ⟨.lalr, 64⟩ .twoWords)
    (P := fun b => b.size = 8) (by decide +kernel)
  obtain ⟨hbreadth, hcores⟩ := breadthFirst_of_generate Grammar.defined_twoWords
  exact ⟨a, b, ha, hb, of_decide_eq_true hsize, of_decide_eq_true hsize', hbreadth _ a ha,
    hbreadth _ b hb, hcores 64 64 a b ha hb⟩

end Automaton

end LRAutomata
