import LRAutomata.Proofs.Item.Items

/-!
# Items after any operations

Items to begin with, and then operations that put items in, take a part or start afresh: whatever
they were, the list is a finite map from cores to lookaheads, in the order of the cores.

* `Core.Before`: the order of the cores, told by their productions and dots;
* `SortedList.position?_eq_some_iff`: an element is found at its place;
* `Items.Insertion`: putting one item in, as it is or without the propagation marker, and when this
  changes anything (`Insertion.changed_run_iff`);
* `Items.lookaheads?_after`: what the operations do to the map;
* `Items.finiteMap_after`: what is known of the items then, and that the order in which items were
  put in does not show.
-/

namespace LRAutomata

/-- Cores are in the order of their productions, those with one production in that of their dots. -/
def Core.Before (c d : Core) : Prop :=
  c.production.id < d.production.id ∨ c.production = d.production ∧ c.dot < d.dot

theorem Core.before_of_rank_lt {c d : Core} (h : c.rank < d.rank) : c.Before d := by
  have hc := c.dot.toNat_lt
  have hd := d.dot.toNat_lt
  simp only [rank] at h
  rcases Nat.lt_trichotomy c.production.rank d.production.rank with hp | hp | hp
  · exact .inl (UInt16.lt_iff_toNat_lt.mpr hp)
  · exact .inr ⟨ProductionId.rank_inj hp, UInt16.lt_iff_toNat_lt.mpr (by omega)⟩
  · omega

/-- The element of a rank is found at its place. -/
theorem SortedList.position?_eq_some_iff {ε : Type} {rank : ε → Nat} {l : SortedList ε rank}
    {r k : Nat} : l.position? r = some k ↔ ∃ a, l.at? k = some a ∧ rank a = r := by
  rw [position?, List.findIdx?_eq_some_iff_getElem]
  simp only [at?, List.getElem?_eq_some_iff, beq_iff_eq]
  constructor
  · rintro ⟨hk, hr, -⟩
    exact ⟨_, ⟨hk, rfl⟩, hr⟩
  · rintro ⟨a, ⟨hk, rfl⟩, hr⟩
    refine ⟨hk, hr, fun j hj he => ?_⟩
    have hlt := List.pairwise_iff_getElem.mp l.ascending j k (Nat.lt_trans hj hk) hk hj
    omega

namespace Items

variable {s t : Items} {c : Core} {a : TerminalSet} {u : Terminal}

/-! ## Putting one item in -/

/-- An item to be put in, as it is or without the propagation marker. -/
inductive Insertion where
  | whole (i : Item)
  | unmarked (i : Item)

namespace Insertion

variable {n : Insertion} {ns ns' : List Insertion}

def core : Insertion → Core
  | whole i => i.core
  | unmarked i => i.core

/-- The terminal is one of the lookaheads that are put in. -/
def Adds : Insertion → Terminal → Prop
  | whole i, u => u ∈ i.lookaheads
  | unmarked i, u => u ∈ i.lookaheads ∧ u ≠ Terminal.marker

/-- The lookaheads that are put in. -/
def lookaheads : Insertion → TerminalSet
  | whole i => i.lookaheads
  | unmarked i => i.lookaheads.withoutMarker

theorem mem_lookaheads_iff : u ∈ n.lookaheads ↔ n.Adds u := by
  cases n with
  | whole i => exact Iff.rfl
  | unmarked i => exact TerminalSet.mem_withoutMarker

/-- The items after an item was put in, and whether this changed them. -/
def run (s : Items) : Insertion → Update Items
  | whole i => s.insert i
  | unmarked i => s.insertUnmarked i

/-- The map with the lookaheads added to those of the core. -/
def apply (m : Core → Option TerminalSet) (n : Insertion) : Core → Option TerminalSet :=
  fun c => if n.core = c then some ((m c).getD ∅ ∪ n.lookaheads) else m c

theorem lookaheads?_run (s : Items) (n : Insertion) :
    (n.run s).value.lookaheads? = n.apply s.lookaheads? := by
  funext c
  cases n with
  | whole i => exact lookaheads?_insert s i c
  | unmarked i => exact lookaheads?_insertUnmarked s i c

theorem changed_run (s : Items) (n : Insertion) : (n.run s).changed =
    (s.lookaheads? n.core).elim true fun a => (a.merge n.lookaheads).changed := by
  cases n with
  | whole i =>
    simp only [run, insert, core, lookaheads?]
    cases s.item? i.core <;> rfl
  | unmarked i =>
    simp only [run, insertUnmarked, core, lookaheads?]
    cases s.item? i.core <;> rfl

/-- Putting an item in reports a change if its core or one of its lookaheads is new. -/
theorem changed_run_iff : (n.run s).changed = true ↔ s.lookaheads? n.core = none ∨
    ∃ a, s.lookaheads? n.core = some a ∧ ∃ u, n.Adds u ∧ u ∉ a := by
  rw [changed_run]
  cases s.lookaheads? n.core with
  | none => simp
  | some a =>
    simp only [Option.elim_some, TerminalSet.changed_merge, Bool.not_eq_true',
      decide_eq_false_iff_not, TerminalSet.subset_iff, mem_lookaheads_iff, reduceCtorEq, false_or,
      Option.some.injEq, exists_eq_left']
    push Not
    rfl

/-- It reports a change just if it changes the map. -/
theorem changed_run_iff_apply_ne :
    (n.run s).changed = true ↔ n.apply s.lookaheads? ≠ s.lookaheads? := by
  rw [changed_run_iff]
  constructor
  · intro h same
    have at_core := congrFun same n.core
    rw [apply, if_pos rfl] at at_core
    rcases h with hn | ⟨a, ha, u, hu, hua⟩
    · rw [hn] at at_core
      cases at_core
    · rw [ha, Option.getD_some, Option.some.injEq] at at_core
      exact hua (at_core ▸ TerminalSet.mem_union.mpr (.inr (mem_lookaheads_iff.mpr hu)))
  · intro hne
    by_contra h
    push Not at h
    obtain ⟨hn, hsub⟩ := h
    obtain ⟨a, ha⟩ := Option.ne_none_iff_exists'.mp hn
    refine hne (funext fun c => ?_)
    rw [apply]
    split
    next hc =>
      subst hc
      rw [ha, Option.getD_some, TerminalSet.union_eq_left]
      exact TerminalSet.subset_iff.mpr fun u hu => hsub a ha u (mem_lookaheads_iff.mp hu)
    next => rfl

end Insertion

/-! ## Any operations -/

/-- An operation on items: putting one in, taking those that pass a test or those of the kernel, and
starting afresh with those of a list. -/
inductive Call where
  | put (n : Insertion)
  | filter (p : Item → Bool)
  | kernel
  | collect (is : List Item)

/-- The items that an operation leads to. -/
def call (s : Items) : Call → Items
  | .put n => (n.run s).value
  | .filter p => s.filter p
  | .kernel => s.kernel
  | .collect is => ofList is

/-- What an operation does to a map from cores to lookaheads. -/
def Call.onMap (m : Core → Option TerminalSet) : Call → Core → Option TerminalSet
  | .put n => n.apply m
  | .filter p => fun c => (m c).filter fun a => p ⟨c, a⟩
  | .kernel => fun c => if c.isKernel then m c else none
  | .collect is => is.foldl (fun m i => (Insertion.whole i).apply m) fun _ => none

/-- The items after some operations. -/
def after (s : Items) (calls : List Call) : Items := calls.foldl call s

/-- The map from cores to lookaheads after some operations. -/
def mapAfter (m : Core → Option TerminalSet) (calls : List Call) : Core → Option TerminalSet :=
  calls.foldl Call.onMap m

theorem lookaheads?_filter (s : Items) (p : Item → Bool) (c : Core) :
    lookaheads? (s.filter p) c = (s.lookaheads? c).filter fun a => p ⟨c, a⟩ := by
  rw [lookaheads?, item?, SortedList.find?_filter, lookaheads?, item?]
  cases h : s.find? c.rank with
  | none => rfl
  | some i =>
    obtain rfl : i.core = c := core_of_item? h
    simp only [Option.filter_some, Option.map_some]
    split <;> rfl

theorem lookaheads?_ofList (is : List Item) :
    (ofList is).lookaheads? = is.foldl (fun m i => (Insertion.whole i).apply m) fun _ => none :=
  (List.foldl_hom lookaheads? fun s i => (Insertion.lookaheads?_run s (.whole i)).symm).symm

theorem lookaheads?_call (s : Items) (c : Call) :
    (s.call c).lookaheads? = c.onMap s.lookaheads? := by
  cases c with
  | put n => exact Insertion.lookaheads?_run s n
  | filter p => exact funext (lookaheads?_filter s p)
  | kernel =>
    funext c
    refine (lookaheads?_filter s (fun i => i.core.isKernel) c).trans ?_
    simp only [Call.onMap]
    cases s.lookaheads? c <;> simp [Option.filter]
  | collect is => exact lookaheads?_ofList is

/-- After any operations the items are the map that these make of the empty one. -/
theorem lookaheads?_after (s : Items) (calls : List Call) :
    (s.after calls).lookaheads? = mapAfter s.lookaheads? calls :=
  (List.foldl_hom lookaheads? fun s c => (lookaheads?_call s c).symm).symm

theorem Insertion.mem_cores_run {n : Insertion} :
    c ∈ (n.run s).value.cores ↔ c ∈ s.cores ∨ n.core = c := by
  rw [mem_cores_iff_isSome, lookaheads?_run, apply]
  split
  next h => simp [h]
  next h => rw [← mem_cores_iff_isSome, or_iff_left h]

theorem Insertion.has_run {n : Insertion} :
    (n.run s).value.Has c u ↔ s.Has c u ∨ n.core = c ∧ n.Adds u := by
  rw [Has, Has, lookaheads?_run, apply]
  split
  next h =>
    subst h
    cases s.lookaheads? n.core <;> simp [mem_lookaheads_iff]
  next h => simp [h]

section

variable {ns ns' : List Insertion}

theorem mem_cores_after_put : c ∈ (s.after (ns.map .put)).cores ↔
    c ∈ s.cores ∨ ∃ n ∈ ns, n.core = c := by
  rw [after, List.foldl_map]
  refine foldl_iff_or_exists (P := fun s : Items => c ∈ s.cores) (fun s n => ?_) ns s
  exact Insertion.mem_cores_run

theorem has_after_put : (s.after (ns.map .put)).Has c u ↔
    s.Has c u ∨ ∃ n ∈ ns, n.core = c ∧ n.Adds u := by
  rw [after, List.foldl_map]
  refine foldl_iff_or_exists (P := fun s : Items => s.Has c u) (fun s n => ?_) ns s
  exact Insertion.has_run

theorem lookaheads?_eq_some_iff_views :
    s.lookaheads? c = some a ↔ c ∈ s.cores ∧ ∀ u, u ∈ a ↔ s.Has c u := by
  constructor
  · intro h
    exact ⟨mem_cores_iff_isSome.mpr (by rw [h]; rfl), fun u => by simp [Has, h]⟩
  · rintro ⟨hc, hu⟩
    obtain ⟨b, hb⟩ := Option.isSome_iff_exists.mp (mem_cores_iff_isSome.mp hc)
    rw [hb]
    exact congrArg some (TerminalSet.ext fun u => by simp [hu, Has, hb])

/-- Each core that was put in comes with what any of the insertions added to it. -/
theorem lookaheads?_after_put_iff : (after ∅ (ns.map .put)).lookaheads? c = some a ↔
    (∃ n ∈ ns, n.core = c) ∧ ∀ u, u ∈ a ↔ ∃ n ∈ ns, n.core = c ∧ n.Adds u := by
  rw [lookaheads?_eq_some_iff_views]
  simp only [mem_cores_after_put, has_after_put, not_mem_cores_empty, not_has_empty, false_or]

/-- The order in which items were put in does not show. -/
theorem after_put_eq_of_perm (h : ns.Perm ns') :
    after ∅ (ns.map .put) = after ∅ (ns'.map .put) :=
  eq_of_views (fun c => by simp only [mem_cores_after_put, h.mem_iff])
    fun c u => by simp only [has_after_put, h.mem_iff]

end

/-- What is known of items that are the map `m` from cores to lookaheads. -/
structure FiniteMap (s : Items) (m : Core → Option TerminalSet) : Prop where
  /-- The items are in strictly ascending order of their cores. -/
  ascending : s.toList.Pairwise fun i j => i.core.Before j.core
  mem_iff (i : Item) : i ∈ s.toList ↔ m i.core = some i.lookaheads
  lookaheads?_eq (c : Core) : s.lookaheads? c = m c
  /-- A core is found if it occurs, at the place where it stands. -/
  position?_eq_some_iff (c : Core) (k : Nat) :
    s.position? c.rank = some k ↔ ∃ a, m c = some a ∧ s.at? k = some ⟨c, a⟩
  position?_isSome_iff (c : Core) : (s.position? c.rank).isSome = true ↔ ∃ a, m c = some a
  /-- Putting an item in reports a change if it makes one to the map. -/
  changed_iff (n : Insertion) : (n.run s).changed = true ↔ n.apply m ≠ m
  /-- It reports a change if a core is new or gains a lookahead. -/
  changed_iff_gains (n : Insertion) : (n.run s).changed = true ↔
    m n.core = none ∨ ∃ a, m n.core = some a ∧ ∃ u, n.Adds u ∧ u ∉ a

theorem finiteMap_lookaheads? (s : Items) : s.FiniteMap s.lookaheads? where
  ascending := s.ascending.imp Core.before_of_rank_lt
  mem_iff i := lookaheads?_eq_some_iff.symm
  lookaheads?_eq _ := rfl
  position?_eq_some_iff c k := by
    rw [SortedList.position?_eq_some_iff]
    constructor
    · rintro ⟨i, hi, hr⟩
      obtain rfl := Item.rank_eq_iff.mp hr
      exact ⟨i.lookaheads, lookaheads?_of_mem (List.mem_of_getElem? hi), hi⟩
    · rintro ⟨a, -, hk⟩
      exact ⟨_, hk, rfl⟩
  position?_isSome_iff c := by
    rw [Option.isSome_iff_exists]
    simp only [SortedList.position?_eq_some_iff]
    constructor
    · rintro ⟨k, i, hi, hr⟩
      obtain rfl := Item.rank_eq_iff.mp hr
      exact ⟨i.lookaheads, lookaheads?_of_mem (List.mem_of_getElem? hi)⟩
    · rintro ⟨a, ha⟩
      obtain ⟨k, hk⟩ := List.mem_iff_getElem?.mp (lookaheads?_eq_some_iff.mp ha)
      exact ⟨k, _, hk, rfl⟩
  changed_iff _ := Insertion.changed_run_iff_apply_ne
  changed_iff_gains _ := Insertion.changed_run_iff

/-- Whatever was done to the items, they are the map that is left of the empty one. If items were
only put in, each core has the union of what was put in for it, and the order does not show. -/
theorem finiteMap_after :
    (∀ calls, (after ∅ calls).FiniteMap (mapAfter (fun _ => none) calls)) ∧
    ∀ ns : List Insertion,
      (∀ c a, (after ∅ (ns.map .put)).lookaheads? c = some a ↔
        (∃ n ∈ ns, n.core = c) ∧ ∀ u, u ∈ a ↔ ∃ n ∈ ns, n.core = c ∧ n.Adds u) ∧
      ∀ ns', ns.Perm ns' → after ∅ (ns'.map .put) = after ∅ (ns.map .put) := by
  refine ⟨fun calls => ?_, fun ns => ⟨fun c a => lookaheads?_after_put_iff, fun ns' h => ?_⟩⟩
  · rw [show (fun _ => none) = lookaheads? ∅ from rfl, ← lookaheads?_after]
    exact finiteMap_lookaheads? _
  · exact (after_put_eq_of_perm h).symm

/-- Items out of order, two of them with one core, the first of these without the marker. -/
def mixed : List Insertion :=
  [.unmarked ⟨⟨⟨2⟩, 0⟩, .single .marker ∪ .single ⟨3⟩⟩, .whole ⟨⟨⟨1⟩, 2⟩, .single .marker⟩,
    .whole ⟨⟨⟨2⟩, 0⟩, .single ⟨4⟩⟩]

theorem finiteMap_mixed : mixed.Perm mixed.reverse ∧
    after ∅ (mixed.reverse.map .put) = after ∅ (mixed.map .put) ∧
    (after ∅ (mixed.map .put)).toList =
      [⟨⟨⟨1⟩, 2⟩, .single .marker⟩, ⟨⟨⟨2⟩, 0⟩, .single ⟨3⟩ ∪ .single ⟨4⟩⟩] := by
  have reversed : mixed.Perm mixed.reverse := (List.reverse_perm _).symm
  exact ⟨reversed, (finiteMap_after.2 mixed).2 _ reversed, by decide +kernel⟩

end Items

end LRAutomata
