import LRAutomata.Proofs.Item.Closure

/-!
# Valid items

What an automaton should find at the end of a path, without mention of any automaton. An item is
given by its production, the place of its dot and a lookahead; a shape has no lookahead.

* `Grammar.ValidShape`, `Grammar.Valid`: the shapes and the items that are valid for a path;
* `ValidShape.of_asks`, `Valid.of_passes`, `Valid.of_arises`: closing stays among these.
-/

namespace LRAutomata

open Relation (ReflTransGen)

namespace Grammar

/-- The symbol at a place of the right side of a production. -/
def symbolAt? (g : Grammar) (p : ProductionId) (d : Nat) : Option Symbol :=
  (g.production? p).bind fun rule => rule.right[d]?

/-- What follows the symbol at a place of the right side of a production. -/
def after (g : Grammar) (p : ProductionId) (d : Nat) : List Symbol :=
  match g.production? p with
  | some rule => rule.right.drop (d + 1)
  | none => []

/-- The shapes that are valid for a path: that of the start item for the empty path, and what
follows from it by moving the dot and by turning to a nonterminal after the dot. -/
inductive ValidShape (g : Grammar) : List Symbol → ProductionId → Nat → Prop where
  | start : ValidShape g [] ProductionId.accept 0
  | shift {path : List Symbol} {p : ProductionId} {d : Nat} {X : Symbol} :
    ValidShape g path p d → g.symbolAt? p d = some X → ValidShape g (path ++ [X]) p (d + 1)
  | expand {path : List Symbol} {p q : ProductionId} {d : Nat} {rule : Production} :
    ValidShape g path p d → g.production? q = some rule →
    g.symbolAt? p d = some (.nonterminal rule.left) → ValidShape g path q 0

/-- The items that are valid for a path. What follows a nonterminal gives its productions their
lookaheads, whether or not the item has lookaheads itself; its own are inherited where nothing
need follow. -/
inductive Valid (g : Grammar) : List Symbol → ProductionId → Nat → Terminal → Prop where
  | start : Valid g [] ProductionId.accept 0 Terminal.endOfInput
  | shift {path : List Symbol} {p : ProductionId} {d : Nat} {t : Terminal} {X : Symbol} :
    Valid g path p d t → g.symbolAt? p d = some X → Valid g (path ++ [X]) p (d + 1) t
  | arise {path : List Symbol} {p q : ProductionId} {d : Nat} {u : Terminal} {rule : Production} :
    ValidShape g path p d → g.production? q = some rule →
    g.symbolAt? p d = some (.nonterminal rule.left) → g.CanBegin (g.after p d) u →
    Valid g path q 0 u
  | inherit {path : List Symbol} {p q : ProductionId} {d : Nat} {t : Terminal}
    {rule : Production} :
    Valid g path p d t → g.production? q = some rule →
    g.symbolAt? p d = some (.nonterminal rule.left) → g.Vanishes (g.after p d) →
    Valid g path q 0 t

section

variable {g : Grammar} {path : List Symbol} {p : ProductionId} {c d : Core} {i : Nat}
  {t : Terminal} {X : Symbol}

/-- A valid item has a valid shape. -/
theorem Valid.validShape (h : g.Valid path p i t) : g.ValidShape path p i := by
  induction h with
  | start => exact .start
  | shift _ hX ih => exact .shift ih hX
  | arise hv hq hX _ => exact .expand hv hq hX
  | inherit _ hq hX _ ih => exact .expand ih hq hX

/-- A valid shape has its dot within a production. -/
theorem ValidShape.exists_production (hg : g.WellFormed) (h : g.ValidShape path p i) :
    ∃ rule, g.production? p = some rule ∧ i ≤ rule.right.length := by
  induction h with
  | start => exact ⟨_, hg.accept, Nat.zero_le _⟩
  | shift _ hX ih =>
    obtain ⟨rule, hp, -⟩ := ih
    rw [symbolAt?, hp, Option.bind_some] at hX
    exact ⟨rule, hp, (List.getElem?_eq_some_iff.mp hX).1⟩
  | expand _ hq _ _ => exact ⟨_, hq, Nat.zero_le _⟩

theorem WellFormed.asks_iff (hg : g.WellFormed) : g.Asks c d ↔ ∃ rule,
    g.production? d.production = some rule ∧
      g.symbolAt? c.production c.dot.toNat = some (.nonterminal rule.left) ∧ d.dot = 0 := by
  refine ⟨fun h => ?_, fun h => ?_⟩
  · obtain ⟨n, p, hn, hp, rfl⟩ := h
    obtain ⟨rule, hr, rfl⟩ := hg.mem_alternatives_iff.mp hp
    exact ⟨rule, hr, hn, rfl⟩
  · obtain ⟨rule, hp, hn, hd⟩ := h
    exact ⟨rule.left, d.production, hn, hg.mem_alternatives_iff.mpr ⟨rule, hp, rfl⟩, by rw [← hd]⟩

/-- The shape of a core is valid for a path. -/
def ShapeAt (g : Grammar) (path : List Symbol) (c : Core) : Prop :=
  g.ValidShape path c.production c.dot.toNat

/-- A core with a lookahead is valid for a path. -/
def ItemAt (g : Grammar) (path : List Symbol) (c : Core) (t : Terminal) : Prop :=
  g.Valid path c.production c.dot.toNat t

theorem ShapeAt.start : g.ShapeAt [] ⟨ProductionId.accept, 0⟩ := ValidShape.start

theorem ItemAt.start : g.ItemAt [] ⟨ProductionId.accept, 0⟩ Terminal.endOfInput := Valid.start

theorem ShapeAt.asks (hg : g.WellFormed) (h : g.ShapeAt path c) (ha : g.Asks c d) :
    g.ShapeAt path d := by
  obtain ⟨rule, hq, hX, hd⟩ := hg.asks_iff.mp ha
  rw [ShapeAt, hd]
  exact .expand h hq hX

theorem ShapeAt.of_asks (hg : g.WellFormed) (h : g.ShapeAt path c)
    (ha : ReflTransGen g.Asks c d) : g.ShapeAt path d := by
  induction ha with
  | refl => exact h
  | tail _ ha ih => exact ih.asks hg ha

theorem ShapeAt.raises (hg : g.WellFormed) (h : g.ShapeAt path c) (hr : g.Raises c d t) :
    g.ItemAt path d t := by
  obtain ⟨rule, hq, hX, hd⟩ := hg.asks_iff.mp hr.1
  rw [ItemAt, hd]
  exact .arise h hq hX hr.2

theorem ItemAt.passes (hg : g.WellFormed) (h : g.ItemAt path c t) (hp : g.Passes c d) :
    g.ItemAt path d t := by
  obtain ⟨rule, hq, hX, hd⟩ := hg.asks_iff.mp hp.1
  rw [ItemAt, hd]
  exact .inherit h hq hX hp.2

theorem ItemAt.of_passes (hg : g.WellFormed) (h : g.ItemAt path c t)
    (hp : ReflTransGen g.Passes c d) : g.ItemAt path d t := by
  induction hp with
  | refl => exact h
  | tail _ hp ih => exact ih.passes hg hp

theorem ShapeAt.of_arises (hg : g.WellFormed) (h : g.ShapeAt path c) (ha : g.Arises c d t) :
    g.ItemAt path d t := by
  obtain ⟨c₁, c₂, h₁, hr, h₂⟩ := ha
  exact ((h.of_asks hg h₁).raises hg hr).of_passes hg h₂

/-- Closing valid items gives valid items. -/
theorem ItemAt.of_closed (hg : g.WellFormed) {s : Items}
    (hc : ∀ c ∈ s.cores, g.ShapeAt path c) (hh : ∀ c t, s.Has c t → g.ItemAt path c t)
    (h : (s.closed g g.firstSets).Has d t) : g.ItemAt path d t := by
  rcases (Items.has_closed_iff hg).mp h with ⟨c, hs, hp⟩ | ⟨c, hs, ha⟩
  · exact (hh c t hs).of_passes hg hp
  · exact (hc c hs).of_arises hg ha

/-- A dot that does not stand at the last place it can have moves by one. -/
theorem dot_advanced (h : c.dot ≠ Core.lastDot) : c.advanced.dot.toNat = c.dot.toNat + 1 := by
  have hlt := c.dot.toNat_lt
  have hne : c.dot.toNat ≠ 65535 := fun he => h (UInt16.toNat_inj.mp he)
  rw [Core.advanced, UInt16.toNat_add, UInt16.toNat_one]
  omega

theorem isKernel_advanced (h : c.dot ≠ Core.lastDot) : c.advanced.isKernel = true := by
  have hpos : 0 < c.advanced.dot := by
    rw [UInt16.lt_iff_toNat_lt, dot_advanced h]
    exact Nat.succ_pos _
  simp [Core.isKernel, hpos]

/-- What is shifted over a symbol are kernel cores. -/
theorem isKernel_of_mem_shifted {s : Items}
    (hd : ∀ c ∈ s.cores, g.next? c = some X → c.dot ≠ Core.lastDot)
    (hc : c ∈ (s.shifted g X).cores) : c.isKernel = true := by
  obtain ⟨c, hm, hX, rfl⟩ := Items.mem_cores_shifted.mp hc
  exact isKernel_advanced (hd c hm hX)

theorem ShapeAt.advanced (h : g.ShapeAt path c) (hX : g.next? c = some X)
    (hd : c.dot ≠ Core.lastDot) : g.ShapeAt (path ++ [X]) c.advanced := by
  rw [ShapeAt, dot_advanced hd]
  exact .shift h hX

theorem ItemAt.advanced (h : g.ItemAt path c t) (hX : g.next? c = some X)
    (hd : c.dot ≠ Core.lastDot) : g.ItemAt (path ++ [X]) c.advanced t := by
  rw [ItemAt, dot_advanced hd]
  exact .shift h hX

end

end Grammar

end LRAutomata
