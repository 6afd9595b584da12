import LRAutomata.Proofs.Automaton.Lookaheads

/-!
# What generating finds

* `Automaton.sameOutline_of_generate`: assigning lookaheads leaves states and transitions alone;
* `Automaton.carries_of_generate`: with either method, every item that is valid for a path is in
  the state at the end of the path;
* `Automaton.exists_itemAt_of_generate`: every item of a state is valid for some path to it;
* `Canonical`: with the canonical method, it is valid for every path to it
  (`Canonical.hasAt_iff`).
-/

namespace LRAutomata

namespace Automaton

variable {g : Grammar} {o : Options} {a b : Automaton} {s t : StateId} {n m : Node} {X : Symbol}
  {path : List Symbol} {p : ProductionId} {d : Nat} {u : Terminal}

/-- Generating explores from the start state and, with the LALR method, assigns lookaheads. -/
theorem exists_explore_of_generate [WordHash] (h : generate o g = .ok b) : ∃ a₀ a,
    (Generator.ofGrammar g o).start = .ok a₀ ∧
      (Generator.ofGrammar g o).explore o.maxStates 0 a₀ = .ok a ∧ (o.method = .canonical → a = b) ∧
      (o.method = .lalr → (Generator.ofGrammar g o).assignLookaheads a = .ok b) := by
  obtain ⟨a₀, hs, h⟩ := bind_eq_ok.mp h
  obtain ⟨a, he, h⟩ := bind_eq_ok.mp h
  refine ⟨a₀, a, hs, he, fun hm => ?_, fun hm => ?_⟩
  · rw [hm] at h
    exact Except.ok.inj h
  · rw [hm] at h
    exact h

theorem generate_eq_ok [WordHash] (h : generate o g = .ok b) :
    ∃ a, (Generator.ofGrammar g o).Explored a ∧ Generator.Reached a ∧
      Generator.Finished a a.size ∧ (o.method = .canonical → a = b) ∧
      (o.method = .lalr → (Generator.ofGrammar g o).assignLookaheads a = .ok b) := by
  obtain ⟨a₀, a, hs, he, hc, hl⟩ := exists_explore_of_generate h
  obtain ⟨ea, ra, fa⟩ := Generator.explored_of_explore hs he
  exact ⟨a, ea, ra, fa, hc, hl⟩

/-- The same states and transitions, whatever the lookaheads are. -/
structure SameOutline (a b : Automaton) : Prop where
  method_eq : b.method = a.method
  size_eq : b.size = a.size
  outline_eq : b.outline = a.outline

/-- What is generated has the states and transitions that were found by exploring. -/
theorem sameOutline_of_generate (hg : g.WellFormed) (hc : o.method = .canonical → a = b)
    (hl : o.method = .lalr → (Generator.ofGrammar g o).assignLookaheads a = .ok b) :
    SameOutline a b := by
  cases hm : o.method with
  | canonical =>
    obtain rfl := hc hm
    exact ⟨rfl, rfl, rfl⟩
  | lalr =>
    obtain ⟨table, links, -, hb⟩ := Generator.assigned_of_assignLookaheads hg (hl hm)
    exact ⟨hb.method_eq, hb.size_eq, hb.outline_eq⟩

theorem method_of_generate [WordHash] (hg : g.WellFormed) (h : generate o g = .ok a) :
    a.method = o.method := by
  obtain ⟨a', ea, -, -, hc, hl⟩ := generate_eq_ok h
  exact (sameOutline_of_generate hg hc hl).method_eq.trans ea.method_eq

/-- A transition leads to the closed items of what is shifted, lookaheads included. -/
structure Canonical (g : Grammar) (a : Automaton) : Prop where
  tracks : a.Tracks g
  start {n : Node} : a.node? StateId.initial = some n →
    n.items = Generator.startItems.closed g g.firstSets
  edge {s t : StateId} {n m : Node} {X : Symbol} : a.node? s = some n → a.goto? s X = some t →
    a.node? t = some m → m.items = (n.items.shifted g X).closed g g.firstSets

theorem canonical_of_generate [WordHash] (hg : g.WellFormed) (hm : o.method = .canonical)
    (h : generate o g = .ok a) : a.Canonical g := by
  obtain ⟨a', ea, ra, fa, ha, -⟩ := generate_eq_ok h
  obtain rfl := ha hm
  have counts : o.method.countsLookaheads = true := by rw [hm]; rfl
  refine ⟨tracks_of_explored hg rfl rfl ea ra fa, fun {n} hn => ?_, fun {s t n m X} hn ht hm' => ?_⟩
  · obtain ⟨n', hn', he⟩ := ea.start
    rw [← Option.mem_unique hn' hn]
    exact he
  · rw [goto?_of_node? hn] at ht
    obtain ⟨-, candidate, m', hc, hm'', hk⟩ := ea.edge hn ht
    obtain rfl : m = m' := Option.mem_unique hm' hm''
    obtain ⟨rfl, -⟩ := Generator.successor_eq_ok hc
    rw [(ea.node hm').1, signatureFor, signatureFor, ea.method_eq,
      show (Generator.ofGrammar g o).options.method.countsLookaheads = true from counts] at hk
    have hi := Signature.ofItems_true_inj hk
    rw [show m.items = _ from hi]
    show Generator.target _ _ _ = _
    rw [Generator.target, Generator.mask,
      show (Generator.ofGrammar g o).options.method.countsLookaheads = true from counts, if_pos rfl]
    rfl

theorem Canonical.carries (ha : a.Canonical g) : a.Carries g := by
  refine ⟨ha.tracks, fun {n} hn => ?_, fun {s n} hn => ?_, fun {s t n m X c u} hn ht hm hu hX => ?_⟩
  · rw [ha.start hn]
    exact (Items.le_closed g _ _).2 _ _ (Generator.has_startItems.mpr ⟨rfl, rfl⟩)
  · rcases ha.tracks.initial_or_edge hn with rfl | ⟨r, m, X, hm, ht⟩
    · exact ⟨_, ha.start hn⟩
    · exact ⟨_, ha.edge hm ht hn⟩
  · rw [ha.edge hn ht hm]
    exact (Items.le_closed g _ _).2 _ _ (Items.has_shifted.mpr ⟨c, hu, hX, rfl⟩)

/-- The items of the state at the end of a path are valid for the path. -/
theorem Canonical.itemAt (hg : g.WellFormed) (ha : a.Canonical g) (hs : a.walk? path = some s)
    (hn : a.node? s = some n) {c : Core} (hu : n.items.Has c u) : g.ItemAt path c u := by
  induction path using List.reverseRecOn generalizing s n c u with
  | nil =>
    cases hs
    rw [ha.start hn] at hu
    refine Grammar.ItemAt.of_closed hg (fun c hc => ?_) (fun c u hu => ?_) hu
    · rw [Generator.mem_cores_startItems.mp hc]
      exact .start
    · obtain ⟨rfl, rfl⟩ := Generator.has_startItems.mp hu
      exact .start
  | append_singleton path X ih =>
    obtain ⟨r, hr, ht⟩ := walk?_concat_eq_some.mp hs
    obtain ⟨n', hn'⟩ := ha.tracks.exists_node? hr
    obtain ⟨-, hdot, -⟩ := ha.tracks.edge hn' ht
    rw [ha.edge hn' ht hn] at hu
    refine Grammar.ItemAt.of_closed hg (fun c hc => ?_) (fun c u hu => ?_) hu
    · obtain ⟨c', hc', hX, rfl⟩ := Items.mem_cores_shifted.mp hc
      exact (ha.tracks.shapeAt hg hr hn' c' hc').advanced hX (hdot c' hc' hX)
    · obtain ⟨c', hu', hX, rfl⟩ := Items.has_shifted.mp hu
      exact (ih hr hn' hu').advanced hX (hdot c' hu'.mem_cores hX)

/-- The state at the end of a path has exactly the items that are valid for the path. -/
theorem Canonical.hasAt_iff (hg : g.WellFormed) (ha : a.Canonical g) (hs : a.walk? path = some s)
    (hn : a.node? s = some n) : n.items.HasAt p d u ↔ g.Valid path p d u := by
  refine ⟨fun h => ?_, fun h => ?_⟩
  · obtain ⟨c, hu, rfl, rfl⟩ := h
    exact ha.itemAt hg hs hn hu
  · obtain ⟨s', n', hs', hn', h⟩ := ha.carries.hasAt_of_valid hg h
    obtain rfl : s = s' := Option.mem_unique hs hs'
    obtain rfl : n = n' := Option.mem_unique hn hn'
    exact h

variable [WordHash]

theorem carries_of_generate (hg : g.WellFormed) (h : generate o g = .ok a) : a.Carries g := by
  cases hm : o.method with
  | canonical => exact (canonical_of_generate hg hm h).carries
  | lalr =>
    obtain ⟨a', ea, ra, fa, -, hl⟩ := generate_eq_ok h
    obtain ⟨table, links, hs, hb⟩ := Generator.assigned_of_assignLookaheads hg (hl hm)
    exact hb.carries hg (tracks_of_explored hg rfl rfl ea ra fa) hs

theorem tracks_of_generate (hg : g.WellFormed) (h : generate o g = .ok a) : a.Tracks g :=
  (carries_of_generate hg h).tracks

/-- Every item of a state is valid for some path to the state. -/
theorem exists_itemAt_of_generate (hg : g.WellFormed) (h : generate o g = .ok a)
    (hn : a.node? s = some n) {c : Core} (hu : n.items.Has c u) :
    ∃ path, a.walk? path = some s ∧ g.ItemAt path c u := by
  cases hm : o.method with
  | canonical =>
    have ha := canonical_of_generate hg hm h
    obtain ⟨path, hs⟩ := ha.tracks.reached hn
    exact ⟨path, hs, ha.itemAt hg hs hn hu⟩
  | lalr =>
    obtain ⟨a', ea, ra, fa, -, hl⟩ := generate_eq_ok h
    obtain ⟨table, links, hs, hb⟩ := Generator.assigned_of_assignLookaheads hg (hl hm)
    exact hb.exists_itemAt hg (tracks_of_explored hg rfl rfl ea ra fa) hs hn hu

/-- When lookaheads do not count, states with the same cores are one. -/
theorem eq_of_cores_eq (hg : g.WellFormed) (hm : o.method = .lalr) (h : generate o g = .ok a)
    (hs : a.node? s = some n) (ht : a.node? t = some m) (hc : n.items.cores = m.items.cores) :
    s = t := by
  obtain ⟨a', ea, -, -, -, hl⟩ := generate_eq_ok h
  obtain ⟨table, links, -, hb⟩ := Generator.assigned_of_assignLookaheads hg (hl hm)
  obtain ⟨n', hs', hn', -⟩ := exists_node?_of_outline hb.outline_eq.symm hs
  obtain ⟨m', ht', hm', -⟩ := exists_node?_of_outline hb.outline_eq.symm ht
  refine ea.indexed.distinct hs' ht' ?_
  rw [(ea.node hs').1, (ea.node ht').1, signatureFor, signatureFor, ea.method_eq,
    show (Generator.ofGrammar g o).options.method.countsLookaheads = false by
      rw [show (Generator.ofGrammar g o).options.method = .lalr from hm]; rfl]
  exact Signature.ofItems_false_eq_iff.mpr ((hn'.trans hc).trans hm'.symm)

end Automaton

end LRAutomata
