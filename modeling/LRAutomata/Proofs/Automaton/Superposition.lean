import LRAutomata.Proofs.Automaton.Lookaheads

/-!
# Closures are put together from those of single cores

A core closed with the propagation marker as its only lookahead (`Generator.alone`) shows all that
there is to closing items with that core: the marker stands for their lookaheads, whatever these
are.

* `TerminalSet.resolve`: a set with other terminals in place of the marker;
* `Items.mem_resolve_closed_iff`: what the marker of a closed core gives way to;
* `Items.mem_cores_closed_iff_alone`, `Items.has_closed_iff_alone`: the cores and the lookaheads of
  closed items, each of them from one of the items alone;
* `Items.exists_superposed`: valid items are closed to what their cores alone determine.
-/

namespace LRAutomata

open Relation (ReflTransGen)

namespace TerminalSet

/-- The set with the terminals `own` in place of the propagation marker. -/
def resolve (m own : TerminalSet) : TerminalSet :=
  if Terminal.marker ∈ m then m.withoutMarker ∪ own else m.withoutMarker

theorem mem_resolve {m own : TerminalSet} {t : Terminal} :
    t ∈ m.resolve own ↔ t ∈ m ∧ t ≠ Terminal.marker ∨ Terminal.marker ∈ m ∧ t ∈ own := by
  rw [resolve]
  split
  next h => rw [mem_union, mem_withoutMarker, and_iff_right h]
  next h => rw [mem_withoutMarker, or_iff_left fun hm => h hm.1]

end TerminalSet

namespace Items

open Generator (alone)

variable {g : Grammar} {s : Items} {c d : Core} {u : Terminal} {own : TerminalSet}

/-- The marker comes with the cores that inherit it. -/
theorem has_closed_alone_marker_iff (hg : g.WellFormed) :
    ((alone c).closed g g.firstSets).Has d Terminal.marker ↔ ReflTransGen g.Passes c d := by
  rw [Generator.has_closed_alone_iff hg, and_iff_right rfl, or_iff_left (hg.not_arises_marker c d)]

/-- Other lookaheads have arisen. -/
theorem has_closed_alone_iff_of_ne (hg : g.WellFormed) (hu : u ≠ Terminal.marker) :
    ((alone c).closed g g.firstSets).Has d u ↔ g.Arises c d u := by
  rw [Generator.has_closed_alone_iff hg, or_iff_right fun h => hu h.1]

/-- With lookaheads in place of the marker, a core comes with those that it inherits and those that
have arisen. -/
theorem mem_resolve_closed_iff (hg : g.WellFormed) :
    (∃ m, ((alone c).closed g g.firstSets).lookaheads? d = some m ∧ u ∈ m.resolve own) ↔
      u ∈ own ∧ ReflTransGen g.Passes c d ∨ g.Arises c d u := by
  constructor
  · rintro ⟨m, hm, hu⟩
    rcases TerminalSet.mem_resolve.mp hu with ⟨hu, hne⟩ | ⟨hmark, hu⟩
    · exact .inr ((has_closed_alone_iff_of_ne hg hne).mp ⟨m, hm, hu⟩)
    · exact .inl ⟨hu, (has_closed_alone_marker_iff hg).mp ⟨m, hm, hmark⟩⟩
  · rintro (⟨hu, hp⟩ | ha)
    · obtain ⟨m, hm, hmark⟩ := (has_closed_alone_marker_iff hg).mpr hp
      exact ⟨m, hm, TerminalSet.mem_resolve.mpr (.inr ⟨hmark, hu⟩)⟩
    · have hne : u ≠ Terminal.marker := by
        rintro rfl
        exact hg.not_arises_marker c d ha
      obtain ⟨m, hm, hu⟩ := (has_closed_alone_iff_of_ne hg hne).mpr ha
      exact ⟨m, hm, TerminalSet.mem_resolve.mpr (.inl ⟨hu, hne⟩)⟩

theorem mem_cores_closed_iff_alone (hg : g.WellFormed) :
    d ∈ (s.closed g g.firstSets).cores ↔
      ∃ i ∈ s.toList, d ∈ ((alone i.core).closed g g.firstSets).cores := by
  simp only [mem_cores_closed_iff hg, Generator.mem_cores_alone, exists_eq_left,
    exists_mem_cores_iff]

theorem has_closed_iff_alone (hg : g.WellFormed) :
    (s.closed g g.firstSets).Has d u ↔ ∃ i ∈ s.toList,
      ∃ m, ((alone i.core).closed g g.firstSets).lookaheads? d = some m ∧
        u ∈ m.resolve i.lookaheads := by
  simp only [mem_resolve_closed_iff hg, has_closed_iff hg]
  constructor
  · rintro (⟨c, hc, hp⟩ | ⟨c, hc, ha⟩)
    · obtain ⟨i, hi, rfl, hu⟩ := has_iff.mp hc
      exact ⟨i, hi, .inl ⟨hu, hp⟩⟩
    · obtain ⟨i, hi, rfl⟩ := mem_cores_iff.mp hc
      exact ⟨i, hi, .inr ha⟩
  · rintro ⟨i, hi, ⟨hu, hp⟩ | ha⟩
    · exact .inl ⟨i.core, (has_of_mem hi).mpr hu, hp⟩
    · exact .inr ⟨i.core, mem_cores_of_mem hi, ha⟩

/-- How `closed`, to which `s` is closed, is put together from what each core of `s` is closed to
with the propagation marker as its only lookahead. -/
structure Superposed (g : Grammar) (f : FirstSets) (s closed : Items) (single : Core → Items) :
    Prop where
  close_eq : s.close g f = .ok closed
  close_single_eq {i : Item} : i ∈ s.toList →
    (ofList [⟨i.core, TerminalSet.single Terminal.marker⟩]).close g f = .ok (single i.core)
  mem_cores_iff {c : Core} : c ∈ closed.cores ↔ ∃ i ∈ s.toList, c ∈ (single i.core).cores
  /-- The lookaheads with a core are those with it in the closures of the single cores, with the
  lookaheads of the items in place of the marker. -/
  mem_lookaheads_iff {c : Core} {a : TerminalSet} {u : Terminal} : closed.lookaheads? c = some a →
    (u ∈ a ↔ ∃ i ∈ s.toList, ∃ m,
      (single i.core).lookaheads? c = some m ∧ u ∈ m.resolve i.lookaheads)
  /-- Whatever the lookaheads, the cores are the same. -/
  cores_eq {t : Items} : t.cores = s.cores →
    ∃ closed', t.close g f = .ok closed' ∧ closed'.cores = closed.cores

/-- Valid items are closed to what their cores, each closed with the marker, say that they are. -/
theorem exists_superposed (hg : g.Defined) (hs : ∀ c ∈ s.cores, g.isValid c = true) :
    ∃ closed single, s.Superposed g g.firstSets closed single := by
  have hg := hg.wellFormed
  refine ⟨s.closed g g.firstSets, fun c => (alone c).closed g g.firstSets,
    Items.close_eq _ hs, fun hi => Generator.close_alone_eq _ (hs _ (mem_cores_of_mem hi)),
    mem_cores_closed_iff_alone hg, fun {c a u} ha => ?_, fun {t} ht => ?_⟩
  · have hm : ⟨c, a⟩ ∈ (s.closed g g.firstSets).toList := lookaheads?_eq_some_iff.mp ha
    exact (has_of_mem hm).symm.trans (has_closed_iff_alone hg)
  · exact ⟨t.closed g g.firstSets, Items.close_eq _ (ht ▸ hs), cores_closed_congr hg ht⟩

theorem exists_superposed_hollow : ∃ closed single,
    (ofList [⟨⟨⟨1⟩, 1⟩, .single .endOfInput⟩, ⟨⟨⟨4⟩, 0⟩, .single .marker⟩]).Superposed .hollow
      Grammar.hollow.firstSets closed single :=
  exists_superposed Grammar.defined_hollow (by decide +kernel)

end Items

end LRAutomata
