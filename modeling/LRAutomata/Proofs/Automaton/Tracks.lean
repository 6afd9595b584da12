import LRAutomata.Proofs.Automaton.Explore
import LRAutomata.Proofs.Item.Valid

/-!
# Paths and valid items

Whatever the method, the state at the end of a path has the shapes that are valid for the path, and
there is no such path if there are no such shapes.

* `Automaton.Coherent`, `Automaton.Tracks`: how the cores of the states hang together while states
  are found (`coherent_of_explored`) and when all are (`tracks_of_explored`);
* `Tracks.hasShape_iff`: they are the valid shapes;
* `Automaton.Carries`: lookaheads are handed on in closing and shifting, and then every valid item
  is in the state at the end of its path (`Carries.hasAt_of_valid`).
-/

namespace LRAutomata

open Relation (ReflTransGen)

/-- The items have the production with its dot at that place. -/
def Items.HasShape (s : Items) (p : ProductionId) (d : Nat) : Prop :=
  ∃ c ∈ s.cores, c.production = p ∧ c.dot.toNat = d

/-- The items have the production with its dot at that place, and with that lookahead. -/
def Items.HasAt (s : Items) (p : ProductionId) (d : Nat) (t : Terminal) : Prop :=
  ∃ c, s.Has c t ∧ c.production = p ∧ c.dot.toNat = d

theorem Core.ext_of_toNat {c d : Core} (hp : c.production = d.production)
    (hd : c.dot.toNat = d.dot.toNat) : c = d := by
  obtain ⟨p, i⟩ := c
  obtain ⟨q, j⟩ := d
  exact congrArg₂ Core.mk hp (UInt16.toNat_inj.mp hd)

namespace Automaton

variable {g : Grammar} {a : Automaton} {s t : StateId} {n : Node} {X : Symbol}
  {path : List Symbol} {p : ProductionId} {d : Nat} {u : Terminal}

/-- The first state has the cores of the closed start item, and a transition leads to the closed
cores of what is shifted. -/
structure Coherent (g : Grammar) (a : Automaton) : Prop where
  start : ∃ n, a.node? StateId.initial = some n ∧
    n.items.cores = (Generator.startItems.closed g g.firstSets).cores
  edge {s t : StateId} {n : Node} {X : Symbol} : a.node? s = some n → a.goto? s X = some t →
    X ∈ n.items.nextSymbols g ∧
    (∀ c ∈ n.items.cores, g.next? c = some X → c.dot ≠ Core.lastDot) ∧
    ∃ m, a.node? t = some m ∧
      m.items.cores = ((n.items.shifted g X).closed g g.firstSets).cores
  reached {s : StateId} {n : Node} : a.node? s = some n → ∃ path, a.walk? path = some s

/-- In addition, there is a transition on every symbol after a dot. -/
structure Tracks (g : Grammar) (a : Automaton) : Prop extends Coherent g a where
  total {s : StateId} {n : Node} {X : Symbol} : a.node? s = some n →
    X ∈ n.items.nextSymbols g → ∃ t, a.goto? s X = some t

theorem cores_target (hg : g.WellFormed) {e : Generator} (he : e.grammar = g)
    (hf : e.first = g.firstSets) (items : Items) (X : Symbol) :
    (e.target items X).cores = ((items.shifted g X).closed g g.firstSets).cores := by
  rw [Generator.target, he, hf]
  refine Items.cores_closed_congr hg ?_
  rw [Generator.mask]
  split
  · rfl
  · exact Items.cores_withoutLookaheads

theorem coherent_of_explored [WordHash] (hg : g.WellFormed) {e : Generator} (he : e.grammar = g)
    (hf : e.first = g.firstSets) (ha : e.Explored a) (hr : Generator.Reached a) :
    a.Coherent g := by
  refine ⟨?_, fun {s t n X} hn ht => ?_, fun hn => hr _ _ hn⟩
  · obtain ⟨n, hn, h⟩ := ha.start
    exact ⟨n, hn, by rw [h, he, hf]⟩
  · rw [goto?_of_node? hn] at ht
    obtain ⟨hX, candidate, m, hc, hm, hk⟩ := ha.edge hn ht
    obtain ⟨rfl, hdot⟩ := Generator.successor_eq_ok hc
    rw [(ha.node hn).2, he] at hX
    rw [he] at hdot
    refine ⟨hX, hdot, m, hm, ?_⟩
    rw [← cores_target hg he hf]
    exact Signature.cores_eq_of_ofItems ((ha.node hm).1.symm.trans hk)

theorem tracks_of_explored [WordHash] (hg : g.WellFormed) {e : Generator} (he : e.grammar = g)
    (hf : e.first = g.firstSets) (ha : e.Explored a) (hr : Generator.Reached a)
    (hd : Generator.Finished a a.size) : a.Tracks g := by
  refine ⟨coherent_of_explored hg he hf ha hr, fun {s n X} hn hX => ?_⟩
  have hs := (ha.node hn).2
  rw [he] at hs
  exact Option.isSome_iff_exists.mp (hd s n (lt_size_of_node? hn) hn X (hs ▸ hX))

/-! ## Outlines -/

/-- What a state is without its lookaheads: its cores and its transitions. -/
def outline (a : Automaton) (s : StateId) : Option (List Core × Transitions) :=
  (a.node? s).map fun n => (n.items.cores, n.transitions)

theorem goto?_congr {b : Automaton} (h : b.outline = a.outline) : b.goto? = a.goto? := by
  have key : ∀ a : Automaton, a.goto? = fun s X => (a.outline s).bind fun o => o.2.target? X := by
    intro a
    funext s X
    rw [goto?, outline]
    cases a.node? s <;> rfl
  rw [key, key, h]

theorem walk?_congr {b : Automaton} (h : b.outline = a.outline) (path : List Symbol) :
    b.walk? path = a.walk? path := by
  induction path using List.reverseRecOn with
  | nil => rfl
  | append_singleton path X ih => rw [walk?_concat, walk?_concat, ih, goto?_congr h]

theorem exists_node?_of_outline {b : Automaton} (h : b.outline = a.outline)
    (hn : a.node? s = some n) :
    ∃ m, b.node? s = some m ∧ m.items.cores = n.items.cores ∧ m.transitions = n.transitions := by
  have hs : b.outline s = a.outline s := congrFun h s
  rw [outline, outline, hn, Option.map_some] at hs
  obtain ⟨m, hm, he⟩ := Option.map_eq_some_iff.mp hs
  exact ⟨m, hm, congrArg Prod.fst he, congrArg Prod.snd he⟩

theorem nextSymbols_congr {k k' : Items} (h : k.cores = k'.cores) :
    X ∈ k.nextSymbols g ↔ X ∈ k'.nextSymbols g := by
  rw [Items.mem_nextSymbols_iff, Items.mem_nextSymbols_iff, h]

theorem cores_shifted_congr {k k' : Items} (h : k.cores = k'.cores) (X : Symbol) :
    (k.shifted g X).cores = (k'.shifted g X).cores := by
  refine Items.cores_eq_iff.mpr fun c => ?_
  rw [Items.mem_cores_shifted, Items.mem_cores_shifted, h]

/-- Lookaheads do not matter for how the cores hang together. -/
theorem Tracks.congr (hg : g.WellFormed) {b : Automaton} (h : b.outline = a.outline)
    (ha : a.Tracks g) : b.Tracks g := by
  have back {s : StateId} {m : Node} (hm : b.node? s = some m) :
      ∃ n, a.node? s = some n ∧ n.items.cores = m.items.cores := by
    obtain ⟨n, hn, hc, -⟩ := exists_node?_of_outline h.symm hm
    exact ⟨n, hn, hc⟩
  refine ⟨⟨?_, fun {s t m X} hm ht => ?_, fun {s m} hm => ?_⟩, fun {s m X} hm hX => ?_⟩
  · obtain ⟨n, hn, hc⟩ := ha.start
    obtain ⟨m, hm, hmc, -⟩ := exists_node?_of_outline h hn
    exact ⟨m, hm, hmc.trans hc⟩
  · obtain ⟨n, hn, hnc⟩ := back hm
    rw [goto?_congr h] at ht
    obtain ⟨hX, hd, n', hn', hc⟩ := ha.edge hn ht
    obtain ⟨m', hm', hmc, -⟩ := exists_node?_of_outline h hn'
    refine ⟨(nextSymbols_congr hnc).mp hX, fun c hc => hd c (hnc ▸ hc), m', hm', ?_⟩
    rw [hmc, hc]
    exact Items.cores_closed_congr hg (cores_shifted_congr hnc X)
  · obtain ⟨n, hn, -⟩ := back hm
    obtain ⟨path, hp⟩ := ha.reached hn
    exact ⟨path, (walk?_congr h path).trans hp⟩
  · obtain ⟨n, hn, hnc⟩ := back hm
    rw [goto?_congr h]
    exact ha.total hn ((nextSymbols_congr hnc).mpr hX)

/-! ## Valid shapes -/

theorem Coherent.exists_node? (ha : a.Coherent g) (hs : a.walk? path = some s) :
    ∃ n, a.node? s = some n := by
  induction path using List.reverseRecOn generalizing s with
  | nil =>
    cases hs
    obtain ⟨n, hn, -⟩ := ha.start
    exact ⟨n, hn⟩
  | append_singleton path X ih =>
    obtain ⟨r, hr, hs⟩ := walk?_concat_eq_some.mp hs
    obtain ⟨n, hn⟩ := ih hr
    obtain ⟨-, -, m, hm, -⟩ := ha.edge hn hs
    exact ⟨m, hm⟩

/-- Every state but the first is where a transition leads to. -/
theorem Coherent.initial_or_edge (ha : a.Coherent g) (hn : a.node? s = some n) :
    s = StateId.initial ∨ ∃ r m X, a.node? r = some m ∧ a.goto? r X = some s := by
  obtain ⟨path, hs⟩ := ha.reached hn
  cases path using List.reverseRecOn with
  | nil =>
    cases hs
    exact .inl rfl
  | append_singleton path X =>
    obtain ⟨r, hr, ht⟩ := walk?_concat_eq_some.mp hs
    obtain ⟨m, hm⟩ := ha.exists_node? hr
    exact .inr ⟨r, m, X, hm, ht⟩

theorem Coherent.exists_kernel (ha : a.Coherent g) (hn : a.node? s = some n) :
    ∃ k : Items, (∀ c ∈ k.cores, c.isKernel = true) ∧
      n.items.cores = (k.closed g g.firstSets).cores := by
  rcases ha.initial_or_edge hn with rfl | ⟨r, m, X, hm, ht⟩
  · obtain ⟨n', hn', h⟩ := ha.start
    obtain rfl : n = n' := Option.mem_unique hn hn'
    refine ⟨_, fun c hc => ?_, h⟩
    rw [Generator.mem_cores_startItems.mp hc]
    decide
  · obtain ⟨-, hd, n', hn', h⟩ := ha.edge hm ht
    obtain rfl : n = n' := Option.mem_unique hn hn'
    exact ⟨_, fun c hc => Grammar.isKernel_of_mem_shifted hd hc, h⟩

/-- The cores of every state are closed from those of the kernel. -/
theorem Coherent.cores_eq_closed (hg : g.WellFormed) (ha : a.Coherent g)
    (hn : a.node? s = some n) : n.items.cores = (n.items.kernel.closed g g.firstSets).cores := by
  obtain ⟨k, hk, h⟩ := ha.exists_kernel hn
  have same : n.items.kernel.cores = k.cores := by
    rw [Items.cores_kernel_congr h, Items.kernel_closed_eq_self hg hk]
  rw [h]
  exact (Items.cores_closed_congr hg same).symm

theorem Coherent.mem_cores_of_asks (hg : g.WellFormed) (ha : a.Coherent g)
    (hn : a.node? s = some n) {c c' : Core} (hc : c ∈ n.items.cores) (hq : g.Asks c c') :
    c' ∈ n.items.cores := by
  rw [ha.cores_eq_closed hg hn] at hc ⊢
  exact Items.mem_cores_closed_of_asks hg hc hq

theorem Coherent.mem_cores_of_reflTransGen (hg : g.WellFormed) (ha : a.Coherent g)
    (hn : a.node? s = some n) {c c' : Core} (hc : c ∈ n.items.cores)
    (hq : ReflTransGen g.Asks c c') : c' ∈ n.items.cores := by
  induction hq with
  | refl => exact hc
  | tail _ hq ih => exact ha.mem_cores_of_asks hg hn ih hq

theorem Tracks.mem_cores_advanced (ha : a.Tracks g) (hn : a.node? s = some n)
    {c : Core} (hc : c ∈ n.items.cores) (hX : g.next? c = some X) :
    ∃ t m, a.goto? s X = some t ∧ a.node? t = some m ∧ c.advanced ∈ m.items.cores ∧
      c.advanced.dot.toNat = c.dot.toNat + 1 := by
  obtain ⟨t, ht⟩ := ha.total hn (Items.mem_nextSymbols_iff.mpr ⟨c, hc, hX⟩)
  obtain ⟨-, hd, m, hm, h⟩ := ha.edge hn ht
  refine ⟨t, m, ht, hm, ?_, Grammar.dot_advanced (hd c hc hX)⟩
  rw [h]
  exact (Items.le_closed g _ _).1 _ (Items.mem_cores_shifted.mpr ⟨c, hc, hX, rfl⟩)

/-- The cores of the state at the end of a path are valid for the path. -/
theorem Coherent.shapeAt (hg : g.WellFormed) (ha : a.Coherent g) (hs : a.walk? path = some s)
    (hn : a.node? s = some n) : ∀ c ∈ n.items.cores, g.ShapeAt path c := by
  induction path using List.reverseRecOn generalizing s n with
  | nil =>
    cases hs
    obtain ⟨m, hm, h⟩ := ha.start
    obtain rfl : n = m := Option.mem_unique hn hm
    intro c hc
    rw [h, Items.mem_cores_closed_iff hg] at hc
    obtain ⟨c₀, hc₀, hq⟩ := hc
    obtain rfl := Generator.mem_cores_startItems.mp hc₀
    exact Grammar.ShapeAt.start.of_asks hg hq
  | append_singleton path X ih =>
    obtain ⟨r, hr, hs⟩ := walk?_concat_eq_some.mp hs
    obtain ⟨n', hn'⟩ := ha.exists_node? hr
    obtain ⟨-, hd, m, hm, h⟩ := ha.edge hn' hs
    obtain rfl : n = m := Option.mem_unique hn hm
    intro c hc
    rw [h, Items.mem_cores_closed_iff hg] at hc
    obtain ⟨c₀, hc₀, hq⟩ := hc
    obtain ⟨c', hc', hX, rfl⟩ := Items.mem_cores_shifted.mp hc₀
    exact ((ih hr hn' c' hc').advanced hX (hd c' hc' hX)).of_asks hg hq

/-- The items of every state are valid. -/
theorem Coherent.isValid (hg : g.WellFormed) (ha : a.Coherent g) (hn : a.node? s = some n) :
    ∀ c ∈ n.items.cores, g.isValid c = true := by
  intro c hc
  obtain ⟨path, hs⟩ := ha.reached hn
  obtain ⟨rule, hp, hd⟩ := (ha.shapeAt hg hs hn c hc).exists_production hg
  exact (Option.any_eq_true _ _).mpr ⟨rule, hp, decide_eq_true hd⟩

/-- A shape that is valid for a path is in the state at the end of the path. -/
theorem Tracks.hasShape_of_validShape (hg : g.WellFormed) (ha : a.Tracks g)
    (h : g.ValidShape path p d) :
    ∃ s n, a.walk? path = some s ∧ a.node? s = some n ∧ n.items.HasShape p d := by
  induction h with
  | start =>
    obtain ⟨n, hn, h⟩ := ha.start
    refine ⟨_, n, rfl, hn, ⟨ProductionId.accept, 0⟩, ?_, rfl, rfl⟩
    rw [h]
    exact (Items.le_closed g _ _).1 _ (Generator.mem_cores_startItems.mpr rfl)
  | shift _ hX ih =>
    obtain ⟨s, n, hs, hn, c, hc, rfl, rfl⟩ := ih
    obtain ⟨t, m, ht, hm, hc', hd⟩ := ha.mem_cores_advanced hn hc hX
    exact ⟨t, m, walk?_concat_eq_some.mpr ⟨s, hs, ht⟩, hm, c.advanced, hc', rfl, hd⟩
  | expand _ hq hX ih =>
    obtain ⟨s, n, hs, hn, c, hc, rfl, rfl⟩ := ih
    have hask : g.Asks c ⟨_, 0⟩ := hg.asks_iff.mpr ⟨_, hq, hX, rfl⟩
    exact ⟨s, n, hs, hn, _, ha.mem_cores_of_asks hg hn hc hask, rfl, rfl⟩

/-- The state at the end of a path has exactly the shapes that are valid for the path. -/
theorem Tracks.hasShape_iff (hg : g.WellFormed) (ha : a.Tracks g) (hs : a.walk? path = some s)
    (hn : a.node? s = some n) : n.items.HasShape p d ↔ g.ValidShape path p d := by
  refine ⟨fun h => ?_, fun h => ?_⟩
  · obtain ⟨c, hc, rfl, rfl⟩ := h
    exact ha.shapeAt hg hs hn c hc
  · obtain ⟨s', n', hs', hn', h⟩ := ha.hasShape_of_validShape hg h
    obtain rfl : s = s' := Option.mem_unique hs hs'
    obtain rfl : n = n' := Option.mem_unique hn hn'
    exact h

theorem Tracks.exists_mem_cores (ha : a.Tracks g) (hn : a.node? s = some n) :
    ∃ c, c ∈ n.items.cores := by
  rcases ha.initial_or_edge hn with rfl | ⟨r, m, X, hm, ht⟩
  · obtain ⟨n', hn', h⟩ := ha.start
    obtain rfl : n = n' := Option.mem_unique hn hn'
    refine ⟨⟨ProductionId.accept, 0⟩, ?_⟩
    rw [h]
    exact (Items.le_closed g _ _).1 _ (Generator.mem_cores_startItems.mpr rfl)
  · obtain ⟨c, hc, hX⟩ := Items.mem_nextSymbols_iff.mp (ha.edge hm ht).1
    obtain ⟨t, n', ht', hn', hc', -⟩ := ha.mem_cores_advanced hm hc hX
    obtain rfl : s = t := Option.mem_unique ht ht'
    obtain rfl : n = n' := Option.mem_unique hn hn'
    exact ⟨_, hc'⟩

theorem Tracks.mem_cores_iff (hg : g.WellFormed) (ha : a.Tracks g) (hs : a.walk? path = some s)
    (hn : a.node? s = some n) {c : Core} : c ∈ n.items.cores ↔ g.ShapeAt path c := by
  constructor
  · exact ha.shapeAt hg hs hn c
  · intro h
    obtain ⟨c', hc', hp, hd⟩ := (ha.hasShape_iff hg hs hn).mpr h
    obtain rfl : c' = c := Core.ext_of_toNat hp hd
    exact hc'

/-- A path leads somewhere if some shape is valid for it, and only then. -/
theorem Tracks.walk?_isSome_iff (hg : g.WellFormed) (ha : a.Tracks g) :
    (a.walk? path).isSome ↔ ∃ p d, g.ValidShape path p d := by
  refine ⟨fun h => ?_, fun h => ?_⟩
  · obtain ⟨s, hs⟩ := Option.isSome_iff_exists.mp h
    obtain ⟨n, hn⟩ := ha.exists_node? hs
    obtain ⟨c, hc⟩ := ha.exists_mem_cores hn
    exact ⟨_, _, ha.shapeAt hg hs hn c hc⟩
  · obtain ⟨p, d, h⟩ := h
    obtain ⟨s, -, hs, -⟩ := ha.hasShape_of_validShape hg h
    rw [hs]
    rfl

/-- A path that leads somewhere in one automaton leads to the same cores in another. -/
theorem Tracks.exists_walk? (hg : g.WellFormed) (ha : a.Tracks g) {b : Automaton}
    (hb : b.Tracks g) (hs : a.walk? path = some s) (hn : a.node? s = some n) :
    ∃ t m, b.walk? path = some t ∧ b.node? t = some m ∧ m.items.cores = n.items.cores := by
  have hsome : (b.walk? path).isSome := by
    rw [hb.walk?_isSome_iff hg, ← ha.walk?_isSome_iff hg, hs]
    rfl
  obtain ⟨t, ht⟩ := Option.isSome_iff_exists.mp hsome
  obtain ⟨m, hm⟩ := hb.exists_node? ht
  refine ⟨t, m, ht, hm, Items.cores_eq_iff.mpr fun c => ?_⟩
  rw [hb.mem_cores_iff hg ht hm, ha.mem_cores_iff hg hs hn]

/-! ## Lookaheads -/

/-- Lookaheads are handed on along transitions, and the items of every state are closed. -/
structure Carries (g : Grammar) (a : Automaton) : Prop where
  tracks : a.Tracks g
  start {n : Node} : a.node? StateId.initial = some n →
    n.items.Has ⟨ProductionId.accept, 0⟩ Terminal.endOfInput
  closed {s : StateId} {n : Node} : a.node? s = some n →
    ∃ k : Items, n.items = k.closed g g.firstSets
  edge {s t : StateId} {n m : Node} {X : Symbol} {c : Core} {u : Terminal} :
    a.node? s = some n → a.goto? s X = some t → a.node? t = some m → n.items.Has c u →
      g.next? c = some X → m.items.Has c.advanced u

/-- An item that is valid for a path is in the state at the end of the path. -/
theorem Carries.hasAt_of_valid (hg : g.WellFormed) (ha : a.Carries g) (h : g.Valid path p d u) :
    ∃ s n, a.walk? path = some s ∧ a.node? s = some n ∧ n.items.HasAt p d u := by
  induction h with
  | start =>
    obtain ⟨n, hn, -⟩ := ha.tracks.start
    exact ⟨_, n, rfl, hn, _, ha.start hn, rfl, rfl⟩
  | shift _ hX ih =>
    obtain ⟨s, n, hs, hn, c, hc, rfl, rfl⟩ := ih
    obtain ⟨t, m, ht, hm, -, hd⟩ := ha.tracks.mem_cores_advanced hn hc.mem_cores hX
    exact ⟨t, m, walk?_concat_eq_some.mpr ⟨s, hs, ht⟩, hm, c.advanced,
      ha.edge hn ht hm hc hX, rfl, hd⟩
  | arise hv hq hX hb =>
    obtain ⟨s, n, hs, hn, c, hc, rfl, rfl⟩ := ha.tracks.hasShape_of_validShape hg hv
    obtain ⟨k, hk⟩ := ha.closed hn
    have hask : g.Asks c ⟨_, 0⟩ := hg.asks_iff.mpr ⟨_, hq, hX, rfl⟩
    refine ⟨s, n, hs, hn, ⟨_, 0⟩, ?_, rfl, rfl⟩
    rw [hk] at hc ⊢
    exact Items.has_closed_of_raises hg hc ⟨hask, hb⟩
  | inherit _ hq hX hv ih =>
    obtain ⟨s, n, hs, hn, c, hc, rfl, rfl⟩ := ih
    obtain ⟨k, hk⟩ := ha.closed hn
    have hask : g.Asks c ⟨_, 0⟩ := hg.asks_iff.mpr ⟨_, hq, hX, rfl⟩
    refine ⟨s, n, hs, hn, ⟨_, 0⟩, ?_, rfl, rfl⟩
    rw [hk] at hc ⊢
    exact Items.has_closed_of_passes hg hc ⟨hask, hv⟩

/-- An item that is valid for a path is in the state that the path leads to. -/
theorem Carries.has_of_itemAt (hg : g.WellFormed) (ha : a.Carries g) (hs : a.walk? path = some s)
    (hn : a.node? s = some n) {c : Core} (h : g.ItemAt path c u) : n.items.Has c u := by
  obtain ⟨s', n', hs', hn', c', hu, hp, hd⟩ := ha.hasAt_of_valid hg h
  obtain rfl : s = s' := Option.mem_unique hs hs'
  obtain rfl : n = n' := Option.mem_unique hn hn'
  obtain rfl : c' = c := Core.ext_of_toNat hp hd
  exact hu

end Automaton

end LRAutomata
