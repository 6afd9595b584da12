import LRAutomata.Item.Basic
import LRAutomata.SortedList

/-!
# Items in order

`Items` holds the items of a state in the order of their cores, one item for a core: an item whose
core is there already adds its lookaheads to that item. It is a finite map from cores to terminal
sets:

* `Items.lookaheads?`: the map;
* `lookaheads?_insert`, `lookaheads?_insertUnmarked`: what inserting does to it;
* `Items.ext_lookaheads?`: the map determines the items.
-/

namespace LRAutomata

/-- The items of a state, in the order of their cores. -/
abbrev Items := SortedList Item Item.rank

namespace Items

/-- The item with the core. -/
def item? (s : Items) (c : Core) : Option Item := s.find? c.rank

/-- The lookaheads that come with the core. -/
def lookaheads? (s : Items) (c : Core) : Option TerminalSet := (s.item? c).map Item.lookaheads

/-- The cores, in order. -/
def cores (s : Items) : List Core := s.toList.map Item.core

/-- Adds an item, or its lookaheads to the item with the same core. -/
def insert (s : Items) (i : Item) : Update Items :=
  match s.item? i.core with
  | none => ⟨s.put i, true⟩
  | some resident =>
    let u := resident.merge i.lookaheads
    ⟨if u.changed then s.put u.value else s, u.changed⟩

/-- Adds an item without the propagation marker, or its lookaheads other than the marker to the
item with the same core. -/
def insertUnmarked (s : Items) (i : Item) : Update Items :=
  match s.item? i.core with
  | none => ⟨s.put i.withoutMarker, true⟩
  | some resident =>
    let u := resident.mergeUnmarked i.lookaheads
    ⟨if u.changed then s.put u.value else s, u.changed⟩

/-- The items of a list, those with the same core made one. -/
def ofList (is : List Item) : Items := is.foldl (fun s i => (s.insert i).value) ∅

/-- The kernel items. -/
def kernel (s : Items) : Items := s.filter fun i => i.core.isKernel

/-- The items with all lookaheads forgotten. -/
def withoutLookaheads (s : Items) : Items := s.map Item.withoutLookaheads fun _ => rfl

/-- Whether two lists have the same cores. -/
def sameCores (s t : Items) : Bool := s.cores = t.cores

/-- The item at a place, which must exist. -/
def itemAt (s : Items) (place : Nat) : Except Fault Item :=
  match s.at? place with
  | some i => .ok i
  | none => .error (.noItemAt place)

/-- Fails unless every item has a production of the grammar. -/
def requireDeclared (g : Grammar) (s : Items) : Except Fault Unit :=
  match s.toList.find? fun i => (g.production? i.core.production).isNone with
  | some i => .error (.undeclaredProduction i.core.production)
  | none => .ok ()

/-- Fails unless every item has a production of the grammar and its dot within it. -/
def requireValid (g : Grammar) (s : Items) : Except Fault Unit := do
  s.requireDeclared g
  match s.toList.find? fun i => !g.isValid i.core with
  | some i => .error (.dotBeyondEnd i.core.production i.core.dot)
  | none => .ok ()

/-- The symbols after a dot, each once and in order. -/
def nextSymbols (g : Grammar) (s : Items) : List Symbol :=
  (SortedList.ofList (s.toList.filterMap fun i => g.next? i.core) :
    SortedList Symbol Symbol.rank).toList

/-- The symbols after a dot; every production must exist. -/
def successors (g : Grammar) (s : Items) : Except Fault (List Symbol) := do
  s.requireDeclared g
  return s.nextSymbols g

/-- The items that have `X` after their dot, with their dots moved over it. -/
def shifted (g : Grammar) (s : Items) (X : Symbol) : Items :=
  ofList ((s.toList.filter fun i => g.next? i.core = some X).map Item.advanced)

/-- The kernel that a transition on `X` leads to; every production must exist and every dot be
able to move. -/
def shift (g : Grammar) (s : Items) (X : Symbol) : Except Fault Items := do
  s.requireDeclared g
  match s.toList.find? fun i => g.next? i.core = some X && i.core.dot = Core.lastDot with
  | some i => .error (.dotOverflow i.core.production)
  | none => .ok (s.shifted g X)

/-- One line for each item. -/
def text (g : Grammar) (s : Items) : Except Fault String := do
  let lines ← s.toList.mapM fun i => do return "- " ++ (← g.itemText i) ++ "\n"
  return String.join lines

theorem core_of_item? {s : Items} {c : Core} {i : Item} (h : s.item? c = some i) : i.core = c :=
  Core.rank_inj (SortedList.find?_eq_some_iff.mp h).2

theorem item?_put (s : Items) (i : Item) (c : Core) :
    item? (s.put i) c = if i.core = c then some i else s.item? c := by
  simp only [item?, SortedList.find?_put, Item.rank_eq_iff]

/-- Replacing a resident item by one with more lookaheads, or leaving it where there is nothing to
add. -/
theorem lookaheads?_enlarge {s : Items} {r : Item} {c : Core} (h : s.item? c = some r)
    (more : TerminalSet) (c' : Core) :
    lookaheads? (if (r.lookaheads.merge more).changed
        then s.put { r with lookaheads := r.lookaheads ∪ more } else s) c' =
      if c = c' then some (r.lookaheads ∪ more) else s.lookaheads? c' := by
  have hr := core_of_item? h
  by_cases hc : c = c'
  · subst hc
    rw [if_pos rfl]
    split
    · simp [lookaheads?, item?_put, hr]
    next hn =>
      have hs : more ⊆ r.lookaheads := by simpa [TerminalSet.changed_merge] using hn
      simp [lookaheads?, h, TerminalSet.union_eq_left hs]
  · rw [if_neg hc]
    split
    · simp [lookaheads?, item?_put, hr, hc]
    · rfl

theorem lookaheads?_insert (s : Items) (i : Item) (c : Core) :
    (s.insert i).value.lookaheads? c =
      if i.core = c then some ((s.lookaheads? c).getD ∅ ∪ i.lookaheads) else s.lookaheads? c := by
  simp only [insert]
  split
  next h =>
    by_cases hc : i.core = c
    · subst hc; simp [lookaheads?, item?_put, h, TerminalSet.empty_union]
    · simp [lookaheads?, item?_put, hc]
  next r h =>
    simp only [Item.merge, TerminalSet.value_merge, lookaheads?_enlarge h]
    by_cases hc : i.core = c
    · subst hc; simp [lookaheads?, h]
    · simp [hc]

theorem lookaheads?_insertUnmarked (s : Items) (i : Item) (c : Core) :
    (s.insertUnmarked i).value.lookaheads? c =
      if i.core = c then some ((s.lookaheads? c).getD ∅ ∪ i.lookaheads.withoutMarker)
      else s.lookaheads? c := by
  simp only [insertUnmarked]
  split
  next h =>
    by_cases hc : i.core = c
    · subst hc; simp [lookaheads?, item?_put, h, Item.withoutMarker, TerminalSet.empty_union]
    · simp [lookaheads?, item?_put, Item.withoutMarker, hc]
  next r h =>
    simp only [Item.mergeUnmarked, TerminalSet.mergeUnmarked, TerminalSet.value_merge,
      lookaheads?_enlarge h]
    by_cases hc : i.core = c
    · subst hc; simp [lookaheads?, h]
    · simp [hc]

theorem ext_lookaheads? {s t : Items} (h : ∀ c, s.lookaheads? c = t.lookaheads? c) : s = t := by
  have key : ∀ c, s.item? c = t.item? c := fun c => by
    have hc := h c
    simp only [lookaheads?] at hc
    cases hs : s.item? c with
    | none => cases ht : t.item? c <;> simp_all
    | some i =>
      cases ht : t.item? c with
      | none => simp_all
      | some j =>
        have hi := core_of_item? hs
        have hj := core_of_item? ht
        simp only [hs, ht, Option.map_some, Option.some.injEq] at hc
        obtain ⟨ic, il⟩ := i
        obtain ⟨jc, jl⟩ := j
        simp only at hi hj hc
        rw [hi, hj, hc]
  refine SortedList.ext ?_
  have mem : ∀ x, x ∈ s.toList ↔ x ∈ t.toList := fun x => by
    have hs : s.item? x.core = some x ↔ x ∈ s.toList :=
      SortedList.find?_eq_some_iff.trans (and_iff_left rfl)
    have ht : t.item? x.core = some x ↔ x ∈ t.toList :=
      SortedList.find?_eq_some_iff.trans (and_iff_left rfl)
    rw [← hs, ← ht, key]
  refine congrArg SortedList.toList (SortedList.eq_of_mem_iff mem)

end Items

end LRAutomata
