import LRAutomata.Proofs.Automaton.Generate

/-!
# Merging states with the same cores

The automaton of the LALR method is that of the canonical method with the states that have the same
cores made one, and with the lookaheads of these states together.

* `Merging`: what it is for a map of states to make one automaton out of another in this way;
* `KeepsCores.walk?_eq`: a map that keeps cores takes the end of a path to the end of the path;
* `exists_merging`: there is such a map between the automata of the two methods.
-/

namespace LRAutomata

namespace Automaton

/-- A map from the states of `a` onto those of `b` which makes states one if they have the same
cores, keeps cores and transitions, and brings the lookaheads together. -/
structure Merging (a b : Automaton) (φ : StateId → StateId) : Prop where
  start : φ StateId.initial = StateId.initial
  maps {s : StateId} {n : Node} : a.node? s = some n →
    ∃ m, b.node? (φ s) = some m ∧ m.items.cores = n.items.cores
  onto {q : StateId} {m : Node} : b.node? q = some m → ∃ s n, a.node? s = some n ∧ φ s = q
  eq_iff {s s' : StateId} {n n' : Node} : a.node? s = some n → a.node? s' = some n' →
    (φ s = φ s' ↔ n.items.cores = n'.items.cores)
  goto?_eq {s : StateId} {n : Node} (X : Symbol) : a.node? s = some n →
    b.goto? (φ s) X = (a.goto? s X).map φ
  has_iff {q : StateId} {m : Node} {c : Core} {t : Terminal} : b.node? q = some m →
    (m.items.Has c t ↔ ∃ s n, a.node? s = some n ∧ φ s = q ∧ n.items.Has c t)

variable {g : Grammar} {a b : Automaton} {φ : StateId → StateId} {s s' q : StateId}
  {n n' m : Node} {path : List Symbol}

/-- States with the same cores are the same. -/
def Distinct (b : Automaton) : Prop :=
  ∀ s t n m, b.node? s = some n → b.node? t = some m → n.items.cores = m.items.cores → s = t

/-- Every state of `a` is mapped to one of `b` with the same cores, and no other one has these. -/
structure KeepsCores (a b : Automaton) (φ : StateId → StateId) : Prop where
  distinct : b.Distinct
  maps {s : StateId} {n : Node} : a.node? s = some n →
    ∃ m, b.node? (φ s) = some m ∧ m.items.cores = n.items.cores

theorem exists_keepsCores (hg : g.WellFormed) (ha : a.Tracks g) (hb : b.Tracks g)
    (hd : b.Distinct) : ∃ φ, KeepsCores a b φ := by
  have target : ∀ s, ∃ q, ∀ n, a.node? s = some n →
      ∃ m, b.node? q = some m ∧ m.items.cores = n.items.cores := by
    intro s
    cases hn : a.node? s with
    | none => exact ⟨StateId.initial, fun n h => by cases h⟩
    | some n =>
      obtain ⟨path, hs⟩ := ha.reached hn
      obtain ⟨q, m, -, hm, hc⟩ := ha.exists_walk? hg hb hs hn
      refine ⟨q, fun n' h => ?_⟩
      cases h
      exact ⟨m, hm, hc⟩
  choose φ hφ using target
  exact ⟨φ, hd, fun {s n} hn => hφ s n hn⟩

/-- The state of `b` with the cores of a state is the one that the state is mapped to. -/
theorem KeepsCores.eq_of_cores_eq (h : KeepsCores a b φ) (hn : a.node? s = some n)
    (hm : b.node? q = some m) (hc : m.items.cores = n.items.cores) : φ s = q := by
  obtain ⟨m', hm', hc'⟩ := h.maps hn
  exact h.distinct _ _ m' m hm' hm (hc'.trans hc.symm)

theorem KeepsCores.cores_eq (h : KeepsCores a b φ) (hn : a.node? s = some n)
    (hm : b.node? (φ s) = some m) : m.items.cores = n.items.cores := by
  obtain ⟨m', hm', hc⟩ := h.maps hn
  rw [Option.mem_unique hm hm', hc]

theorem KeepsCores.eq_iff (h : KeepsCores a b φ) (hn : a.node? s = some n)
    (hn' : a.node? s' = some n') : φ s = φ s' ↔ n.items.cores = n'.items.cores := by
  obtain ⟨m, hm, hc⟩ := h.maps hn
  obtain ⟨m', hm', hc'⟩ := h.maps hn'
  refine ⟨fun he => ?_, fun he => h.eq_of_cores_eq hn hm' (hc'.trans he.symm)⟩
  rw [he] at hm
  rw [← hc, ← hc', Option.mem_unique hm hm']

/-- The end of a path is mapped to the end of the path. -/
theorem KeepsCores.walk?_eq (hg : g.WellFormed) (ha : a.Tracks g) (hb : b.Tracks g)
    (h : KeepsCores a b φ) (hs : a.walk? path = some s) : b.walk? path = some (φ s) := by
  obtain ⟨n, hn⟩ := ha.exists_node? hs
  obtain ⟨q, m, hq, hm, hc⟩ := ha.exists_walk? hg hb hs hn
  rw [hq, h.eq_of_cores_eq hn hm hc]

/-- A path to a state of `b` leads to a state of `a` that is mapped to it. -/
theorem KeepsCores.exists_walk? (hg : g.WellFormed) (ha : a.Tracks g) (hb : b.Tracks g)
    (h : KeepsCores a b φ) (hq : b.walk? path = some q) :
    ∃ s n, a.walk? path = some s ∧ a.node? s = some n ∧ φ s = q := by
  obtain ⟨m, hm⟩ := hb.exists_node? hq
  obtain ⟨s, n, hs, hn, -⟩ := hb.exists_walk? hg ha hq hm
  exact ⟨s, n, hs, hn, Option.some.inj ((h.walk?_eq hg ha hb hs).symm.trans hq)⟩

/-- The symbols that lead somewhere depend on the cores only, and so do the cores they lead to. -/
theorem KeepsCores.goto?_eq (hg : g.WellFormed) (ha : a.Tracks g) (hb : b.Tracks g)
    (h : KeepsCores a b φ) (hn : a.node? s = some n) (X : Symbol) :
    b.goto? (φ s) X = (a.goto? s X).map φ := by
  obtain ⟨m, hm, hc⟩ := h.maps hn
  cases ht : a.goto? s X with
  | none =>
    cases hq : b.goto? (φ s) X with
    | none => rfl
    | some q =>
      have hX := (nextSymbols_congr hc).mp (hb.edge hm hq).1
      obtain ⟨t, ht'⟩ := ha.total hn hX
      rw [ht] at ht'
      cases ht'
  | some t =>
    obtain ⟨hX, -, n', hn', hcn⟩ := ha.edge hn ht
    obtain ⟨q, hq⟩ := hb.total hm ((nextSymbols_congr hc).mpr hX)
    obtain ⟨-, -, m', hm', hcm⟩ := hb.edge hm hq
    have same : m'.items.cores = n'.items.cores := by
      rw [hcm, hcn]
      exact Items.cores_closed_congr hg (cores_shifted_congr hc X)
    rw [hq, Option.map_some, h.eq_of_cores_eq hn' hm' same]

/-- A lookahead of a merged state is one of a state that it is made from: both are those of the
items that are valid for the paths to the state. -/
theorem KeepsCores.has_iff [WordHash] {o : Options} (hg : g.WellFormed) (ha : a.Canonical g)
    (hb : generate o g = .ok b) (h : KeepsCores a b φ) {c : Core} {t : Terminal}
    (hm : b.node? q = some m) :
    m.items.Has c t ↔ ∃ s n, a.node? s = some n ∧ φ s = q ∧ n.items.Has c t := by
  have cb := carries_of_generate hg hb
  refine ⟨fun hu => ?_, fun hu => ?_⟩
  · obtain ⟨path, hq, hi⟩ := exists_itemAt_of_generate hg hb hm hu
    obtain ⟨s, n, hs, hn, hφ⟩ := h.exists_walk? hg ha.tracks cb.tracks hq
    exact ⟨s, n, hn, hφ, ha.carries.has_of_itemAt hg hs hn hi⟩
  · obtain ⟨s, n, hn, rfl, hu⟩ := hu
    obtain ⟨path, hs⟩ := ha.tracks.reached hn
    have hq := h.walk?_eq hg ha.tracks cb.tracks hs
    exact cb.has_of_itemAt hg hq hm (ha.itemAt hg hs hn hu)

/-- The automaton of the LALR method is that of the canonical method with states merged. -/
theorem exists_merging [WordHash] {maxStates maxStates' : Nat} (hg : g.Defined)
    (ha : generate ⟨.canonical, maxStates⟩ g = .ok a)
    (hb : generate ⟨.lalr, maxStates'⟩ g = .ok b) : ∃ φ, Merging a b φ := by
  have hg := hg.wellFormed
  have ca := canonical_of_generate hg rfl ha
  have cb := carries_of_generate hg hb
  have hd : b.Distinct := fun s t n m hs ht => eq_of_cores_eq hg rfl hb hs ht
  obtain ⟨φ, hφ⟩ := exists_keepsCores hg ca.tracks cb.tracks hd
  refine ⟨φ, ?_, hφ.maps, fun {q m} hm => ?_, hφ.eq_iff,
    fun X hn => hφ.goto?_eq hg ca.tracks cb.tracks hn X, hφ.has_iff hg ca hb⟩
  · have hs : a.walk? [] = some StateId.initial := rfl
    exact Option.some.inj (hφ.walk?_eq hg ca.tracks cb.tracks hs).symm
  · obtain ⟨path, hq⟩ := cb.tracks.reached hm
    obtain ⟨s, n, -, hn, hs⟩ := hφ.exists_walk? hg ca.tracks cb.tracks hq
    exact ⟨s, n, hn, hs⟩

theorem exists_merging_twoWords : ∃ a b, generate ⟨.canonical, 64⟩ .twoWords = .ok a ∧
    generate ⟨.lalr, 64⟩ .twoWords = .ok b ∧ a.size = 11 ∧ b.size = 8 ∧ ∃ φ, Merging a b φ := by
  obtain ⟨a, ha, hsize⟩ := exists_ok_of_any (e := generate ⟨.canonical, 64⟩ .twoWords)
    (P := fun a => a.size = 11) (by decide +kernel)
  obtain ⟨b, hb, hsize'⟩ := exists_ok_of_any (e := generate ⟨.lalr, 64⟩ .twoWords)
    (P := fun b => b.size = 8) (by decide +kernel)
  exact ⟨a, b, ha, hb, of_decide_eq_true hsize, of_decide_eq_true hsize',
    exists_merging Grammar.defined_twoWords ha hb⟩

end Automaton

end LRAutomata
