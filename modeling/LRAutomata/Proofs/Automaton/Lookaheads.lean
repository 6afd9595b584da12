import LRAutomata.Proofs.Automaton.Propagation
import LRAutomata.Proofs.Automaton.Tracks

/-!
# The lookaheads of merged states

When lookaheads do not count in telling states apart, they are found afterwards. An entry, closed
with the propagation marker as its only lookahead, shows where its lookaheads go: the marker comes
with the cores that inherit them.

* `Generator.has_closed_alone_iff`: what closing with the marker shows;
* `Generator.Spread`: the lookaheads that arise at once and the links (`spread_eq_ok`);
* `Generator.Assigned`: the states with their new lookaheads (`assigned_of_assignLookaheads`).
-/

namespace LRAutomata

open Relation (ReflTransGen)

namespace Grammar

variable {g : Grammar}

/-- The propagation marker is in no production, and so in nothing derived without it. -/
theorem WellFormed.marker_not_mem (hg : g.WellFormed) {Xs Ys : List Symbol}
    (h : g.Derives Xs Ys) (hX : .terminal Terminal.marker ∉ Xs) :
    .terminal Terminal.marker ∉ Ys := by
  induction h with
  | refl => exact hX
  | tail _ hs ih =>
    obtain ⟨hp, before, after⟩ := hs
    simp only [List.mem_append, List.mem_cons, not_or] at ih ⊢
    exact ⟨⟨ih.1, hg.unmarked hp⟩, ih.2.2⟩

theorem WellFormed.not_canBegin_marker (hg : g.WellFormed) (p : ProductionId) (d : Nat) :
    ¬ g.CanBegin (g.after p d) Terminal.marker := by
  intro h
  obtain ⟨Ys, h⟩ := h
  refine hg.marker_not_mem h ?_ List.mem_cons_self
  rw [after]
  split
  next rule hp => exact fun hm => hg.unmarked hp (List.mem_of_mem_drop hm)
  next => exact List.not_mem_nil

/-- The propagation marker is no lookahead of a valid item. -/
theorem Valid.ne_marker (hg : g.WellFormed) {path : List Symbol} {p : ProductionId} {d : Nat}
    {t : Terminal} (h : g.Valid path p d t) : t ≠ Terminal.marker := by
  induction h with
  | start => decide
  | shift _ _ ih => exact ih
  | arise _ _ _ hb =>
    rintro rfl
    exact hg.not_canBegin_marker _ _ hb
  | inherit _ _ _ _ ih => exact ih

theorem WellFormed.not_arises_marker (hg : g.WellFormed) (c d : Core) :
    ¬ g.Arises c d Terminal.marker := by
  intro h
  obtain ⟨c₁, c₂, -, hr, -⟩ := h
  exact hg.not_canBegin_marker c₁.production c₁.dot.toNat hr.2

end Grammar

namespace Generator

variable {g : Grammar} {o : Options} {a b : Automaton} {table : LookaheadTable} {A B : Anchor}
  {u : Terminal}

/-! ## One entry -/

/-- A core with the propagation marker as its only lookahead. -/
def alone (c : Core) : Items := Items.ofList [⟨c, TerminalSet.single Terminal.marker⟩]

theorem mem_cores_alone {c d : Core} : d ∈ (alone c).cores ↔ d = c := Items.mem_cores_singleton

theorem has_alone {c d : Core} : (alone c).Has d u ↔ d = c ∧ u = Terminal.marker :=
  Items.has_singleton (by decide)

theorem close_alone_eq {c : Core} (f : FirstSets) (h : g.isValid c = true) :
    (alone c).close g f = .ok ((alone c).closed g f) :=
  Items.close_eq f fun d hd => by rwa [mem_cores_alone.mp hd]

/-- Closing a core with the marker shows which cores inherit its lookaheads, and which lookaheads
arise. -/
theorem has_closed_alone_iff (hg : g.WellFormed) {c d : Core} :
    ((alone c).closed g g.firstSets).Has d u ↔
      u = Terminal.marker ∧ ReflTransGen g.Passes c d ∨ g.Arises c d u := by
  rw [Items.has_closed_iff hg]
  simp only [has_alone, mem_cores_alone, exists_eq_left]
  refine or_congr_left ⟨fun h => ?_, fun h => ⟨c, ⟨rfl, h.1⟩, h.2⟩⟩
  obtain ⟨_, ⟨rfl, hu⟩, hp⟩ := h
  exact ⟨hu, hp⟩

/-- A core in the state of `A` moves to the entry `B` when the dot moves over the next symbol. -/
def Moves (g : Grammar) (a : Automaton) (s : StateId) (d : Core) (B : Anchor) : Prop :=
  ∃ X, g.next? d = some X ∧ a.goto? s X = some B.state ∧ B.core = d.advanced

theorem contribution_eq_ok {e : Generator} {s : StateId} {i : Item} {k? : Option Contribution}
    (h : e.contribution a table s i = .ok k?) :
    e.grammar.next? i.core = none ∧ k? = none ∨ ∃ X t, e.grammar.next? i.core = some X ∧
      a.goto? s X = some t ∧ (table.lookaheads? ⟨t, i.core.advanced⟩).isSome = true ∧
        k? = some ⟨⟨t, i.core.advanced⟩, i.lookaheads⟩ := by
  simp only [contribution] at h
  split at h
  next hX =>
    cases h
    exact .inl ⟨hX, rfl⟩
  next X hX =>
    obtain ⟨t?, ht, h⟩ := bind_eq_ok.mp h
    obtain ⟨n, hn, ht⟩ := bind_eq_ok.mp ht
    cases ht
    split at h <;> [skip; cases h]
    next t ht =>
      obtain ⟨moved, hm, h⟩ := bind_eq_ok.mp h
      rw [Item.advance] at hm
      split at hm <;> cases hm
      split at h <;> [skip; cases h]
      next hs =>
        cases h
        have hgoto : a.goto? s X = some t :=
          Automaton.goto?_eq_some_iff.mpr ⟨n, Automaton.node_eq_ok.mp hn, ht⟩
        exact .inr ⟨X, t, hX, hgoto, hs, rfl⟩

theorem mem_contributions_iff {ks : List Contribution}
    (h : (ofGrammar g o).contributions a table A = .ok ks) {k : Contribution} :
    k ∈ ks ↔ ∃ i ∈ ((alone A.core).closed g g.firstSets).toList,
      (ofGrammar g o).contribution a table A.state i = .ok (some k) := by
  obtain ⟨closed, hc, h⟩ := bind_eq_ok.mp h
  obtain ⟨found, hf, h⟩ := bind_eq_ok.mp h
  cases h
  obtain rfl := Items.close_eq_ok hc
  simp only [List.mem_filterMap, id_eq, exists_eq_right, mem_of_mapM_eq_ok hf]
  rfl

/-- Every item of the closure that moves elsewhere is contributed there. -/
theorem exists_contribution_of_moves {ks : List Contribution} {d : Core}
    (h : (ofGrammar g o).contributions a table A = .ok ks) (hd : Moves g a A.state d B)
    (hu : ((alone A.core).closed g g.firstSets).Has d u) :
    ∃ k ∈ ks, k.target = B ∧ u ∈ k.lookaheads := by
  obtain ⟨closed, hc, hall⟩ := bind_eq_ok.mp h
  obtain ⟨found, hf, -⟩ := bind_eq_ok.mp hall
  obtain rfl := Items.close_eq_ok hc
  obtain ⟨X, hX, ht, hB⟩ := hd
  obtain ⟨i, hi, rfl, hl⟩ := Items.has_iff.mp hu
  obtain ⟨k?, -, hk⟩ := exists_of_mapM_eq_ok hf hi
  rcases contribution_eq_ok hk with ⟨hn, -⟩ | ⟨X', t, hX', ht', -, rfl⟩
  · exact absurd (hX.symm.trans hn) (Option.some_ne_none X)
  · obtain rfl : X = X' := Option.mem_unique hX hX'
    obtain rfl : B.state = t := Option.mem_unique ht ht'
    refine ⟨_, (mem_contributions_iff h).mpr ⟨i, hi, hk⟩, ?_, hl⟩
    rw [← hB]

/-- An entry contributes what its closure moves elsewhere. -/
theorem contributions_eq_ok {ks : List Contribution}
    (h : (ofGrammar g o).contributions a table A = .ok ks) :
    (∀ k ∈ ks, (table.lookaheads? k.target).isSome = true) ∧
    ∀ B u, (∃ k ∈ ks, k.target = B ∧ u ∈ k.lookaheads) ↔
      ∃ d, Moves g a A.state d B ∧ ((alone A.core).closed g g.firstSets).Has d u := by
  refine ⟨fun k hk => ?_, fun B u => ⟨fun hk => ?_, fun hd => ?_⟩⟩
  · obtain ⟨i, -, hi⟩ := (mem_contributions_iff h).mp hk
    rcases contribution_eq_ok hi with ⟨-, hn⟩ | ⟨X, t, -, -, hs, hk⟩
    · cases hn
    · cases hk
      exact hs
  · obtain ⟨k, hk, rfl, hu⟩ := hk
    obtain ⟨i, hi, hc⟩ := (mem_contributions_iff h).mp hk
    rcases contribution_eq_ok hc with ⟨-, hn⟩ | ⟨X, t, hX, ht, -, hk⟩
    · cases hn
    · cases hk
      exact ⟨i.core, ⟨X, hX, ht, rfl⟩, (Items.has_of_mem hi).mpr hu⟩
  · obtain ⟨d, hd, hu⟩ := hd
    exact exists_contribution_of_moves h hd hu

/-! ## All entries -/

theorem sameAnchors_foldl_merge (ks : List Contribution) (t : LookaheadTable) :
    LookaheadTable.SameAnchors
      (ks.foldl (fun t k => (t.merge k.target k.lookaheads).value) t) t := by
  induction ks generalizing t with
  | nil => exact fun _ => rfl
  | cons k ks ih => exact fun A => (ih _ A).trans (LookaheadTable.sameAnchors_merge t _ _ A)

theorem has_foldl_merge (ks : List Contribution) {t : LookaheadTable}
    (ht : ∀ k ∈ ks, (t.lookaheads? k.target).isSome = true) :
    (ks.foldl (fun t k => (t.merge k.target k.lookaheads).value) t).Has B u ↔
      t.Has B u ∨ ∃ k ∈ ks, k.target = B ∧ u ∈ k.lookaheads ∧ u ≠ Terminal.marker := by
  induction ks generalizing t with
  | nil => simp
  | cons k ks ih =>
    have hk := ht k List.mem_cons_self
    have same := LookaheadTable.sameAnchors_merge t k.target k.lookaheads
    rw [List.foldl_cons, ih fun k' hk' => (same _).trans (ht k' (List.mem_cons_of_mem _ hk')),
      LookaheadTable.has_merge, List.exists_mem_cons_iff, or_assoc]
    simp only [hk, true_and]

/-- What the entries of `table` bring about: the lookaheads that arise are in `final`, the links
are those along which lookaheads are inherited. -/
structure Spread (g : Grammar) (a : Automaton) (table final : LookaheadTable)
    (links : List Link) : Prop where
  sameAnchors : LookaheadTable.SameAnchors final table
  target {l : Link} : l ∈ links → (table.lookaheads? l.target).isSome = true
  link_iff {A B : Anchor} : ⟨A, B⟩ ∈ links ↔ A ∈ table.anchors ∧
    ∃ d, ReflTransGen g.Passes A.core d ∧ Moves g a A.state d B
  has_iff {B : Anchor} {u : Terminal} : final.Has B u ↔ table.Has B u ∨
    ∃ A ∈ table.anchors, ∃ d, g.Arises A.core d u ∧ Moves g a A.state d B

/-- The entries with their contributions: they contribute what their closures move elsewhere. -/
structure Found (g : Grammar) (a : Automaton) (table : LookaheadTable)
    (found : List (Anchor × List Contribution)) : Prop where
  target {A : Anchor} {ks : List Contribution} : (A, ks) ∈ found → ∀ k ∈ ks,
    (table.lookaheads? k.target).isSome = true
  contributes_iff {A B : Anchor} {u : Terminal} :
    (∃ ks, (A, ks) ∈ found ∧ ∃ k ∈ ks, k.target = B ∧ u ∈ k.lookaheads) ↔ A ∈ table.anchors ∧
      ∃ d, Moves g a A.state d B ∧ ((alone A.core).closed g g.firstSets).Has d u

theorem found_of_mapM_eq_ok {found : List (Anchor × List Contribution)}
    (h : (table.anchors.mapM fun source => do
      return (source, ← (ofGrammar g o).contributions a table source)) = .ok found) :
    Found g a table found := by
  have back : ∀ {A ks}, (A, ks) ∈ found → A ∈ table.anchors ∧
      (ofGrammar g o).contributions a table A = .ok ks := by
    intro A ks hm
    obtain ⟨A', hA, hk⟩ := (mem_of_mapM_eq_ok h).mp hm
    obtain ⟨ks', hk, he⟩ := bind_eq_ok.mp hk
    cases he
    exact ⟨hA, hk⟩
  have forth : ∀ {A}, A ∈ table.anchors → ∃ ks, (A, ks) ∈ found := by
    intro A hA
    obtain ⟨pair, hm, hk⟩ := exists_of_mapM_eq_ok h hA
    obtain ⟨ks, -, he⟩ := bind_eq_ok.mp hk
    cases he
    exact ⟨ks, hm⟩
  refine ⟨fun hm => (contributions_eq_ok (back hm).2).1, fun {A B u} => ⟨fun hc => ?_, fun hc => ?_⟩⟩
  · obtain ⟨ks, hm, hk⟩ := hc
    exact ⟨(back hm).1, ((contributions_eq_ok (back hm).2).2 B u).mp hk⟩
  · obtain ⟨hA, hd⟩ := hc
    obtain ⟨ks, hm⟩ := forth hA
    exact ⟨ks, hm, ((contributions_eq_ok (back hm).2).2 B u).mpr hd⟩

/-- The marker does not arise, so it comes with the cores that inherit it. -/
theorem Found.inherits_iff (hg : g.WellFormed) {found : List (Anchor × List Contribution)}
    (h : Found g a table found) :
    (∃ ks, (A, ks) ∈ found ∧ ∃ k ∈ ks, k.target = B ∧ Terminal.marker ∈ k.lookaheads) ↔
      A ∈ table.anchors ∧ ∃ d, ReflTransGen g.Passes A.core d ∧ Moves g a A.state d B := by
  rw [h.contributes_iff]
  refine and_congr_right fun _ => exists_congr fun d => ?_
  rw [has_closed_alone_iff hg, or_iff_left (hg.not_arises_marker _ _), and_iff_right rfl, and_comm]

/-- Any other lookahead arises. -/
theorem Found.arises_iff (hg : g.WellFormed) {found : List (Anchor × List Contribution)}
    (h : Found g a table found) :
    (∃ ks, (A, ks) ∈ found ∧ ∃ k ∈ ks, k.target = B ∧ u ∈ k.lookaheads) ∧ u ≠ Terminal.marker ↔
      A ∈ table.anchors ∧ ∃ d, g.Arises A.core d u ∧ Moves g a A.state d B := by
  rw [h.contributes_iff]
  refine ⟨fun hc => ?_, fun hc => ?_⟩
  · obtain ⟨⟨hA, d, hd, hu⟩, hne⟩ := hc
    rcases (has_closed_alone_iff hg).mp hu with ⟨he, -⟩ | ha
    · exact absurd he hne
    · exact ⟨hA, d, ha, hd⟩
  · obtain ⟨hA, d, ha, hd⟩ := hc
    refine ⟨⟨hA, d, hd, (has_closed_alone_iff hg).mpr (.inr ha)⟩, ?_⟩
    intro he
    exact hg.not_arises_marker _ _ (he ▸ ha)

theorem spread_eq_ok (hg : g.WellFormed) {final : LookaheadTable} {links : IndexedSet Link}
    (h : (ofGrammar g o).spread a table = .ok (final, links)) :
    Spread g a table final links.entries := by
  obtain ⟨found, hf, h⟩ := bind_eq_ok.mp h
  cases h
  have hf := found_of_mapM_eq_ok hf
  have arising : ∀ k ∈ found.flatMap Prod.snd, (table.lookaheads? k.target).isSome = true := by
    intro k hk
    obtain ⟨⟨A, ks⟩, hm, hk⟩ := List.mem_flatMap.mp hk
    exact hf.target hm k hk
  refine ⟨sameAnchors_foldl_merge _ _, fun {l} hl => ?_, fun {A B} => ?_, fun {B u} => ?_⟩
  · obtain ⟨⟨A, ks⟩, hm, hl⟩ := List.mem_flatMap.mp (IndexedSet.mem_ofList.mp hl)
    obtain ⟨k, hk, rfl⟩ := List.mem_map.mp hl
    exact hf.target hm k (List.mem_filter.mp hk).1
  · rw [← hf.inherits_iff hg]
    refine IndexedSet.mem_ofList.trans ?_
    simp only [List.mem_flatMap, List.mem_map, List.mem_filter, TerminalSet.contains_iff]
    refine ⟨fun hl => ?_, fun hl => ?_⟩
    · obtain ⟨⟨A', ks⟩, hm, k, ⟨hk, hu⟩, he⟩ := hl
      cases he
      exact ⟨ks, hm, k, hk, rfl, hu⟩
    · obtain ⟨ks, hm, k, hk, rfl, hu⟩ := hl
      exact ⟨_, hm, k, ⟨hk, hu⟩, rfl⟩
  · rw [has_foldl_merge _ arising]
    refine or_congr_right ⟨fun hk => ?_, fun hd => ?_⟩
    · obtain ⟨k, hk, rfl, hu, hne⟩ := hk
      obtain ⟨⟨A, ks⟩, hm, hk⟩ := List.mem_flatMap.mp hk
      obtain ⟨hA, hd⟩ := (hf.arises_iff hg).mp ⟨⟨ks, hm, k, hk, rfl, hu⟩, hne⟩
      exact ⟨A, hA, hd⟩
    · obtain ⟨A, hA, hd⟩ := hd
      obtain ⟨⟨ks, hm, k, hk, he, hu⟩, hne⟩ := (hf.arises_iff hg).mpr ⟨hA, hd⟩
      exact ⟨k, List.mem_flatMap.mpr ⟨_, hm, hk⟩, he, hu, hne⟩

theorem row_bare (a : Automaton) (s : StateId) :
    (⟨a.nodes.map fun n => n.items.kernel.withoutLookaheads⟩ : LookaheadTable).row s =
      ((a.node? s).map fun n => n.items.kernel.withoutLookaheads).getD ∅ := by
  rw [LookaheadTable.row, Array.getElem?_map]
  rfl

/-- There is an entry for every kernel core of every state. -/
theorem mem_anchors_initialTable : A ∈ (initialTable a).anchors ↔
    ∃ n, a.node? A.state = some n ∧ A.core ∈ n.items.cores ∧ A.core.isKernel = true := by
  rw [LookaheadTable.mem_anchors_iff, initialTable, LookaheadTable.sameAnchors_merge,
    LookaheadTable.lookaheads?, ← Items.mem_cores_iff_isSome, row_bare]
  cases hn : a.node? A.state with
  | none =>
    refine ⟨fun h => ?_, fun h => ?_⟩
    · exact absurd h List.not_mem_nil
    · obtain ⟨n, hn, -⟩ := h
      cases hn
  | some n =>
    simp only [Option.map_some, Option.getD_some, Items.cores_withoutLookaheads,
      Items.mem_cores_kernel, Option.some.injEq, exists_eq_left']

/-- Only the start item has a lookahead, the end of input. -/
theorem has_initialTable : (initialTable a).Has A u ↔
    A ∈ (initialTable a).anchors ∧ A = ⟨StateId.initial, ⟨ProductionId.accept, 0⟩⟩ ∧
      u = Terminal.endOfInput := by
  have bare : ¬ (⟨a.nodes.map fun n => n.items.kernel.withoutLookaheads⟩ : LookaheadTable).Has
      A u := by
    rw [LookaheadTable.Has, row_bare]
    cases a.node? A.state with
    | none => exact fun h => absurd h.mem_cores List.not_mem_nil
    | some n => exact Items.not_has_withoutLookaheads
  have hu : u ∈ TerminalSet.single Terminal.endOfInput ↔ u = Terminal.endOfInput :=
    TerminalSet.mem_single.trans (and_iff_left (by decide))
  rw [LookaheadTable.mem_anchors_iff, initialTable, LookaheadTable.has_merge, or_iff_right bare,
    hu, LookaheadTable.sameAnchors_merge]
  refine ⟨fun h => ?_, fun h => ?_⟩
  · obtain ⟨rfl, hs, rfl, -⟩ := h
    exact ⟨hs, rfl, rfl⟩
  · obtain ⟨hs, rfl, rfl⟩ := h
    exact ⟨rfl, hs, rfl, by decide⟩

/-! ## The states with their lookaheads -/

/-- `b` is `a` with the items closed from the rows of a table; the states keep their signatures. -/
structure Assigned (g : Grammar) (a : Automaton) (final : LookaheadTable) (b : Automaton) :
    Prop where
  method_eq : b.method = a.method
  index_eq : b.index = a.index
  size_eq : b.size = a.size
  signature?_eq : b.signature? = a.signature?
  outline_eq : b.outline = a.outline
  items_eq {s : StateId} {m : Node} : b.node? s = some m →
    m.items = (final.row s).closed g g.firstSets
  successors_eq {s : StateId} {m : Node} : b.node? s = some m →
    m.successors = m.items.nextSymbols g

/-- A node with its items closed from a kernel. -/
def relabelled (g : Grammar) (n : Node) (kernel : Items) : Node :=
  { n with
    items := kernel.closed g g.firstSets
    successors := (kernel.closed g g.firstSets).nextSymbols g }

theorem relabel_eq_ok {s : StateId} {n m : Node} {kernel : Items}
    (h : (ofGrammar g o).relabel s n kernel = .ok m) :
    m = relabelled g n kernel ∧ m.items.cores = n.items.cores := by
  obtain ⟨items, hi, h⟩ := bind_eq_ok.mp h
  obtain rfl := Items.close_eq_ok hi
  split at h <;> [cases h; skip]
  next hs =>
    obtain ⟨successors, hX, h⟩ := bind_eq_ok.mp h
    obtain ⟨-, -, hX⟩ := bind_eq_ok.mp hX
    cases hX
    cases h
    rw [Bool.not_eq_true, Bool.not_eq_false', Items.sameCores, decide_eq_true_eq] at hs
    exact ⟨rfl, hs.symm⟩

theorem relabelled_of_mapM_eq_ok {final : LookaheadTable} {nodes : List Node}
    (h : (a.stateIds.mapM fun s => do
      (ofGrammar g o).relabel s (← a.node s) (final.row s)) = .ok nodes) (s : StateId) :
    a.node? s = none ∧ nodes[s.number]? = none ∨ ∃ n m, a.node? s = some n ∧
      nodes[s.number]? = some m ∧ (ofGrammar g o).relabel s n (final.row s) = .ok m := by
  have place := congrArg (fun l => l[s.number]?) (mapM_eq_ok.mp h)
  simp only [List.getElem?_map, Automaton.stateIds] at place
  by_cases hs : s.number < a.size
  · obtain ⟨n, hn⟩ := Automaton.exists_node?_of_lt hs
    rw [List.getElem?_range hs, Option.map_some, Option.map_some, Automaton.node_eq_ok.mpr hn]
      at place
    obtain ⟨m, hm, hr⟩ := Option.map_eq_some_iff.mp place.symm
    exact .inr ⟨n, m, hn, hm, hr.symm⟩
  · rw [List.getElem?_eq_none (by rw [List.length_range]; omega), Option.map_none,
      Option.map_none, eq_comm, Option.map_eq_none_iff] at place
    exact .inl ⟨Array.getElem?_eq_none (by unfold Automaton.size at hs; omega), place⟩

theorem assigned_of_assignLookaheads (hg : g.WellFormed)
    (h : (ofGrammar g o).assignLookaheads a = .ok b) : ∃ table links,
      Spread g a (initialTable a) table links ∧ Assigned g a (table.propagate links) b := by
  obtain ⟨⟨table, links⟩, hs, h⟩ := bind_eq_ok.mp h
  obtain ⟨nodes, hn, h⟩ := bind_eq_ok.mp h
  cases h
  have node := relabelled_of_mapM_eq_ok hn
  have back {s : StateId} {m : Node} (hm : nodes[s.number]? = some m) :
      ∃ n, m = relabelled g n ((table.propagate links.entries).row s) := by
    rcases node s with ⟨-, hn⟩ | ⟨n, m', -, hm', hr⟩
    · rw [hn] at hm
      cases hm
    · obtain rfl : m' = m := Option.mem_unique hm' hm
      exact ⟨n, (relabel_eq_ok hr).1⟩
  refine ⟨table, links.entries, spread_eq_ok hg hs, ⟨rfl, rfl, ?_, funext fun s => ?_,
    funext fun s => ?_, fun {s m} hm => ?_, fun {s m} hm => ?_⟩⟩
  · have hlen := congrArg List.length (mapM_eq_ok.mp hn)
    simp only [List.length_map, Automaton.stateIds, List.length_range] at hlen
    exact hlen.symm
  · rw [Automaton.signature?, Automaton.signature?]
    simp only [Automaton.node?, List.getElem?_toArray]
    rcases node s with ⟨hn, hm⟩ | ⟨n, m, hn, hm, hr⟩
    · rw [hm, show a.nodes[s.number]? = none from hn]
    · rw [hm, show a.nodes[s.number]? = some n from hn, (relabel_eq_ok hr).1]
      rfl
  · rw [Automaton.outline, Automaton.outline]
    simp only [Automaton.node?, List.getElem?_toArray]
    rcases node s with ⟨hn, hm⟩ | ⟨n, m, hn, hm, hr⟩
    · rw [hm, show a.nodes[s.number]? = none from hn]
    · obtain ⟨rfl, hc⟩ := relabel_eq_ok hr
      rw [hm, show a.nodes[s.number]? = some n from hn, Option.map_some, Option.map_some, hc]
      rfl
  · simp only [Automaton.node?, List.getElem?_toArray] at hm
    obtain ⟨n, rfl⟩ := back hm
    rfl
  · simp only [Automaton.node?, List.getElem?_toArray] at hm
    obtain ⟨n, rfl⟩ := back hm
    rfl

/-- Every state is found by its signature still. -/
theorem Assigned.indexed [WordHash] {final : LookaheadTable} (hb : Assigned g a final b)
    (ha : a.Indexed) : b.Indexed :=
  ha.congr hb.index_eq hb.size_eq hb.signature?_eq

/-! ## What the lookaheads are -/

section

variable {final : LookaheadTable} {links : List Link} {s : StateId} {n m : Node}

/-- Completing the lookaheads keeps the entries. -/
theorem mem_cores_row_iff (hs : Spread g a (initialTable a) table links) {c : Core} :
    c ∈ ((table.propagate links).row s).cores ↔ ⟨s, c⟩ ∈ (initialTable a).anchors := by
  rw [LookaheadTable.mem_anchors_iff, ← hs.sameAnchors,
    ← LookaheadTable.sameAnchors_propagate links table, LookaheadTable.lookaheads?]
  exact Items.mem_cores_iff_isSome

theorem isKernel_of_mem_row (hs : Spread g a (initialTable a) table links) {c : Core}
    (hc : c ∈ ((table.propagate links).row s).cores) : c.isKernel = true := by
  obtain ⟨-, -, -, hk⟩ := mem_anchors_initialTable.mp ((mem_cores_row_iff hs).mp hc)
  exact hk

/-- The marker does not get into the table. -/
theorem ne_marker_of_has (hg : g.WellFormed) (hs : Spread g a (initialTable a) table links)
    (hu : (table.propagate links).Has A u) : u ≠ Terminal.marker := by
  refine LookaheadTable.propagate_induction (P := fun _ u => u ≠ Terminal.marker) ?_
    (fun _ _ _ => id) hu
  intro A u hu
  rcases hs.has_iff.mp hu with hu | ⟨A', -, d, ha, -⟩
  · rw [(has_initialTable.mp hu).2.2]
    decide
  · intro he
    exact hg.not_arises_marker _ _ (he ▸ ha)

/-- The items have handed on their lookaheads along every transition. -/
theorem has_row_of_moves (hg : g.WellFormed) (hs : Spread g a (initialTable a) table links)
    {c : Core} (hc : (((table.propagate links).row s).closed g g.firstSets).Has c u)
    (hm : Moves g a s c B) : (table.propagate links).Has B u := by
  rcases (Items.has_closed_iff hg).mp hc with ⟨c₀, hu, hp⟩ | ⟨c₀, hc₀, ha⟩
  · have hl : (⟨⟨s, c₀⟩, B⟩ : Link) ∈ links :=
      hs.link_iff.mpr ⟨(mem_cores_row_iff hs).mp hu.mem_cores, c, hp, hm⟩
    have hmarker : u ≠ Terminal.marker := ne_marker_of_has hg hs (A := ⟨s, c₀⟩) hu
    have htarget : (table.lookaheads? B).isSome = true := by
      have hB := hs.target hl
      rwa [← hs.sameAnchors] at hB
    exact LookaheadTable.has_propagate_of_link (l := ⟨⟨s, c₀⟩, B⟩) hl htarget hu hmarker
  · exact LookaheadTable.has_propagate_of_has
      (hs.has_iff.mpr (.inr ⟨⟨s, c₀⟩, (mem_cores_row_iff hs).mp hc₀, c, ha, hm⟩))

/-- Every item that is valid for a path gets into the state at the end of the path. -/
theorem Assigned.carries (hg : g.WellFormed) (ha : a.Tracks g)
    (hs : Spread g a (initialTable a) table links)
    (hb : Assigned g a (table.propagate links) b) : b.Carries g := by
  refine ⟨ha.congr hg hb.outline_eq, fun {m} hm => ?_, fun hm => ⟨_, hb.items_eq hm⟩,
    fun {s t m m' X c u} hm ht hm' hu hX => ?_⟩
  · rw [hb.items_eq hm]
    refine (Items.le_closed g _ _).2 _ _ ?_
    have anchor : (⟨StateId.initial, ⟨ProductionId.accept, 0⟩⟩ : Anchor) ∈
        (initialTable a).anchors := by
      obtain ⟨n, hn, hc⟩ := ha.start
      refine mem_anchors_initialTable.mpr ⟨n, hn, ?_, by decide⟩
      rw [hc]
      exact (Items.le_closed g _ _).1 _ (mem_cores_startItems.mpr rfl)
    exact LookaheadTable.has_propagate_of_has (A := ⟨StateId.initial, ⟨ProductionId.accept, 0⟩⟩)
      (hs.has_iff.mpr (.inl (has_initialTable.mpr ⟨anchor, rfl, rfl⟩)))
  · rw [hb.items_eq hm] at hu
    rw [Automaton.goto?_congr hb.outline_eq] at ht
    rw [hb.items_eq hm']
    refine (Items.le_closed g _ _).2 _ _ ?_
    exact has_row_of_moves hg hs (B := ⟨t, c.advanced⟩) hu ⟨X, hX, ht, rfl⟩

/-- A move along a transition takes a valid item to a valid item. -/
theorem itemAt_of_moves (ha : a.Tracks g) {path : List Symbol} {d : Core}
    (hs : a.walk? path = some s) (hn : a.node? s = some n) (hd : d ∈ n.items.cores)
    (hi : g.ItemAt path d u) (hm : Moves g a s d B) :
    ∃ path, a.walk? path = some B.state ∧ g.ItemAt path B.core u := by
  obtain ⟨X, hX, ht, hB⟩ := hm
  obtain ⟨-, hdot, -⟩ := ha.edge hn ht
  refine ⟨path ++ [X], Automaton.walk?_concat_eq_some.mpr ⟨s, hs, ht⟩, ?_⟩
  rw [hB]
  exact hi.advanced hX (hdot d hd hX)

/-- Every lookahead in the table is one of an item that is valid for some path to the state. -/
theorem exists_itemAt_of_has (hg : g.WellFormed) (ha : a.Tracks g)
    (hs : Spread g a (initialTable a) table links) (hu : (table.propagate links).Has A u) :
    ∃ path, a.walk? path = some A.state ∧ g.ItemAt path A.core u := by
  refine LookaheadTable.propagate_induction
    (P := fun A u => ∃ path, a.walk? path = some A.state ∧ g.ItemAt path A.core u) ?_ ?_ hu
  · intro B u hu
    rcases hs.has_iff.mp hu with hu | ⟨A, hA, d, harises, hm⟩
    · obtain ⟨-, rfl, rfl⟩ := has_initialTable.mp hu
      exact ⟨[], rfl, .start⟩
    · obtain ⟨n, hn, hc, -⟩ := mem_anchors_initialTable.mp hA
      obtain ⟨path, hp⟩ := ha.reached hn
      have hi := (ha.shapeAt hg hp hn A.core hc).of_arises hg harises
      exact itemAt_of_moves ha hp hn
        (ha.mem_cores_of_reflTransGen hg hn hc harises.asks) hi hm
  · intro l hl u h
    obtain ⟨path, hp, hi⟩ := h
    obtain ⟨hA, d, hpass, hm⟩ := hs.link_iff.mp hl
    obtain ⟨n, hn, hc, -⟩ := mem_anchors_initialTable.mp hA
    exact itemAt_of_moves ha hp hn
      (ha.mem_cores_of_reflTransGen hg hn hc (Grammar.asks_of_passes hpass))
      (hi.of_passes hg hpass) hm

/-- Every lookahead of a state is one of an item that is valid for some path to the state. -/
theorem Assigned.exists_itemAt (hg : g.WellFormed) (ha : a.Tracks g)
    (hs : Spread g a (initialTable a) table links)
    (hb : Assigned g a (table.propagate links) b) (hm : b.node? s = some m) {c : Core}
    (hu : m.items.Has c u) : ∃ path, b.walk? path = some s ∧ g.ItemAt path c u := by
  simp only [Automaton.walk?_congr hb.outline_eq]
  rw [hb.items_eq hm] at hu
  rcases (Items.has_closed_iff hg).mp hu with ⟨c₀, hu, hp⟩ | ⟨c₀, hc₀, harises⟩
  · obtain ⟨path, hs, hi⟩ := exists_itemAt_of_has hg ha hs (A := ⟨s, c₀⟩) hu
    exact ⟨path, hs, hi.of_passes hg hp⟩
  · obtain ⟨n, hn, hc, -⟩ := mem_anchors_initialTable.mp ((mem_cores_row_iff hs).mp hc₀)
    obtain ⟨path, hp⟩ := ha.reached hn
    exact ⟨path, hp, (ha.shapeAt hg hp hn c₀ hc).of_arises hg harises⟩

end

end Generator

end LRAutomata
