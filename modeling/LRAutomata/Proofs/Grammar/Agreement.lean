import LRAutomata.Proofs.Automaton.Viable
import LRAutomata.Proofs.Grammar.Declaration

/-!
# Grammars with the same rules in use

Two grammars may number their productions differently, and each may have nonterminals and rules
that the start symbol never comes to. If the rules in use are the same, nothing else matters for
what derives what and for which items are valid.

* `Grammar.Agrees`: the rules in use are the same;
* `Agrees.derives_iff`: strings of symbols in use derive the same strings;
* `Grammar.Renames`: the production of `h` with the sides of a production of `g`;
* `Renames.shapeAt_iff`, `Renames.itemAt_iff`: a path has the same shapes and items, renamed;
* `Agrees.sameAfter_iff`: the same paths are told apart by the items that are valid for them.
-/

namespace LRAutomata

namespace Grammar

/-- The rule is a production, and its left side is in use. -/
def Uses (g : Grammar) (rule : Production) : Prop :=
  g.InUse rule.left ∧ ∃ p, g.production? p = some rule

/-- The start symbol and the rules in use are the same. -/
structure Agrees (g h : Grammar) : Prop where
  start_eq : g.start = h.start
  uses_iff (rule : Production) : g.Uses rule ↔ h.Uses rule

section

variable {g h : Grammar} {Xs Ys : List Symbol} {n : Nonterminal} {t : Terminal}

theorem Agrees.symm (hgh : g.Agrees h) : h.Agrees g where
  start_eq := hgh.start_eq.symm
  uses_iff rule := (hgh.uses_iff rule).symm

theorem Agrees.step (hgh : g.Agrees h) (hX : g.UsesOnly Xs) (hs : g.Step Xs Ys) :
    h.Step Xs Ys := by
  obtain ⟨hp, before, after⟩ := hs
  have hleft := hX _ (List.mem_append_right before List.mem_cons_self)
  obtain ⟨-, q, hq⟩ := (hgh.uses_iff _).mp ⟨hleft, _, hp⟩
  exact Step.mk hq before after

theorem Agrees.derives (hg : g.WellFormed) (hgh : g.Agrees h) (hX : g.UsesOnly Xs)
    (hd : g.Derives Xs Ys) : h.Derives Xs Ys := by
  induction hd with
  | refl => exact .refl _
  | tail hd hs ih => exact Relation.ReflTransGen.tail ih (hgh.step (hX.derives hg hd) hs)

theorem Agrees.reachable (hg : g.WellFormed) (hgh : g.Agrees h) (hn : g.Reachable n) :
    h.Reachable n := by
  obtain ⟨Xs, hd, hm⟩ := hn
  have start : g.UsesOnly [.nonterminal g.start] := by
    intro n hn
    obtain rfl : n = g.start := by simpa using hn
    exact .inr (reachable_start g)
  exact ⟨Xs, hgh.start_eq ▸ hgh.derives hg start hd, hm⟩

theorem Agrees.inUse (hg : g.WellFormed) (hgh : g.Agrees h) (hn : g.InUse n) : h.InUse n :=
  hn.imp id (hgh.reachable hg)

theorem Agrees.vanishes (hg : g.WellFormed) (hgh : g.Agrees h) (hX : g.UsesOnly Xs)
    (hv : g.Vanishes Xs) : h.Vanishes Xs :=
  hgh.derives hg hX hv

theorem Agrees.canBegin (hg : g.WellFormed) (hgh : g.Agrees h) (hX : g.UsesOnly Xs)
    (ht : g.CanBegin Xs t) : h.CanBegin Xs t := by
  obtain ⟨Ys, hd⟩ := ht
  exact ⟨Ys, hgh.derives hg hX hd⟩

end

/-- `π` takes every production of `g` in use to the one of `h` with the same sides. -/
def Renames (g h : Grammar) (π : ProductionId → ProductionId) : Prop :=
  ∀ p rule, g.production? p = some rule → g.InUse rule.left → h.production? (π p) = some rule

end Grammar

/-- The core of the renamed production, with the dot at the same place. -/
def Core.renamed (π : ProductionId → ProductionId) (c : Core) : Core := ⟨π c.production, c.dot⟩

/-- The item with its core renamed. -/
def Item.renamed (π : ProductionId → ProductionId) (i : Item) : Item :=
  ⟨i.core.renamed π, i.lookaheads⟩

namespace Grammar

variable {g h : Grammar} {π σ : ProductionId → ProductionId} {path u v : List Symbol}
  {p q : ProductionId} {c d : Core} {i : Nat} {rule : Production} {t : Terminal}

theorem Agrees.exists_renames (hgh : g.Agrees h) : ∃ π, g.Renames h π := by
  have target (p : ProductionId) : ∃ q, ∀ rule, g.production? p = some rule →
      g.InUse rule.left → h.production? q = some rule := by
    by_cases hp : ∃ rule, g.production? p = some rule ∧ g.InUse rule.left
    · obtain ⟨rule, hp, hu⟩ := hp
      obtain ⟨-, q, hq⟩ := (hgh.uses_iff rule).mp ⟨hu, p, hp⟩
      refine ⟨q, fun rule' hp' _ => ?_⟩
      rw [← Option.mem_unique hp hp']
      exact hq
    · exact ⟨p, fun rule hp' hu => absurd ⟨rule, hp', hu⟩ hp⟩
  choose π hπ using target
  exact ⟨π, hπ⟩

theorem Renames.symbolAt?_eq (hπ : g.Renames h π) (hp : g.production? p = some rule)
    (hu : g.InUse rule.left) (i : Nat) : h.symbolAt? (π p) i = g.symbolAt? p i := by
  rw [symbolAt?, symbolAt?, hp, hπ p rule hp hu]

theorem Renames.after_eq (hπ : g.Renames h π) (hp : g.production? p = some rule)
    (hu : g.InUse rule.left) (i : Nat) : h.after (π p) i = g.after p i := by
  rw [after, after, hp, hπ p rule hp hu]

theorem Renames.accept_eq (hπ : g.Renames h π) (hg : g.WellFormed) (hh : h.WellFormed) :
    π ProductionId.accept = ProductionId.accept :=
  hh.eq_accept_of_left (hπ _ _ hg.accept (.inl rfl)) rfl

/-- Different productions in use stay different. -/
theorem Renames.inj (hπ : g.Renames h π) (hg : g.Defined) {rule' : Production}
    (hp : g.production? p = some rule) (hu : g.InUse rule.left)
    (hq : g.production? q = some rule') (hu' : g.InUse rule'.left) (he : π p = π q) : p = q := by
  have hp' := hπ p rule hp hu
  rw [he, hπ q rule' hq hu'] at hp'
  cases hp'
  exact hg.production?_inj hp hq

/-- Renaming there and back changes nothing. -/
theorem Renames.renamed_back (hπ : g.Renames h π) (hσ : h.Renames g σ) (hh : h.Defined)
    (hgh : g.Agrees h) (hq : h.production? q = some rule) (hu : h.InUse rule.left) :
    π (σ q) = q :=
  hh.production?_inj
    (hπ _ _ (hσ q rule hq hu) (hgh.symm.inUse hh.wellFormed hu)) hq

section

variable (hπ : g.Renames h π) (hg : g.WellFormed) (hh : h.WellFormed)

include hπ hg hh

theorem Renames.validShape (hv : g.ValidShape path p i) : h.ValidShape path (π p) i := by
  induction hv with
  | start => rw [hπ.accept_eq hg hh]; exact .start
  | shift hv hX ih =>
    obtain ⟨rule, hp, -⟩ := hv.exists_production hg
    rw [← hπ.symbolAt?_eq hp (hv.inUse hg hp)] at hX
    exact .shift ih hX
  | expand hv hq hX ih =>
    obtain ⟨rule, hp, -⟩ := hv.exists_production hg
    have hu := (hv.expand hq hX).inUse hg hq
    rw [← hπ.symbolAt?_eq hp (hv.inUse hg hp)] at hX
    exact .expand ih (hπ _ _ hq hu) hX

theorem Renames.valid (hgh : g.Agrees h) (hv : g.Valid path p i t) : h.Valid path (π p) i t := by
  induction hv with
  | start => rw [hπ.accept_eq hg hh]; exact .start
  | shift hv hX ih =>
    obtain ⟨rule, hp, -⟩ := hv.validShape.exists_production hg
    rw [← hπ.symbolAt?_eq hp (hv.validShape.inUse hg hp)] at hX
    exact .shift ih hX
  | arise hv hq hX hb =>
    obtain ⟨rule, hp, -⟩ := hv.exists_production hg
    have hu := (hv.expand hq hX).inUse hg hq
    have hb := hgh.canBegin hg (hv.usesOnly_after hg) hb
    rw [← hπ.symbolAt?_eq hp (hv.inUse hg hp)] at hX
    rw [← hπ.after_eq hp (hv.inUse hg hp)] at hb
    exact .arise (hπ.validShape hg hh hv) (hπ _ _ hq hu) hX hb
  | inherit hv hq hX hn ih =>
    have hs := hv.validShape
    obtain ⟨rule, hp, -⟩ := hs.exists_production hg
    have hu := (hs.expand hq hX).inUse hg hq
    have hn := hgh.vanishes hg (hs.usesOnly_after hg) hn
    rw [← hπ.symbolAt?_eq hp (hs.inUse hg hp)] at hX
    rw [← hπ.after_eq hp (hs.inUse hg hp)] at hn
    exact .inherit ih (hπ _ _ hq hu) hX hn

end

section

variable (hg : g.Defined) (hh : h.Defined) (hgh : g.Agrees h) (hπ : g.Renames h π)

include hg hh hgh hπ

/-- The shapes of a path are the same, renamed. -/
theorem Renames.shapeAt_iff : h.ShapeAt path d ↔ ∃ c, c.renamed π = d ∧ g.ShapeAt path c := by
  constructor
  · intro hd
    obtain ⟨σ, hσ⟩ := hgh.symm.exists_renames
    obtain ⟨rule, hq, -⟩ := hd.exists_production hh.wellFormed
    have back := hπ.renamed_back hσ hh hgh hq (hd.inUse hh.wellFormed hq)
    refine ⟨d.renamed σ, ?_, hσ.validShape hh.wellFormed hg.wellFormed hd⟩
    rw [Core.renamed, Core.renamed, back]
  · rintro ⟨c, rfl, hc⟩
    exact hπ.validShape hg.wellFormed hh.wellFormed hc

/-- The items of a path are the same, renamed. -/
theorem Renames.itemAt_iff : h.ItemAt path d t ↔ ∃ c, c.renamed π = d ∧ g.ItemAt path c t := by
  constructor
  · intro hd
    obtain ⟨σ, hσ⟩ := hgh.symm.exists_renames
    have hs := hd.validShape
    obtain ⟨rule, hq, -⟩ := hs.exists_production hh.wellFormed
    have back := hπ.renamed_back hσ hh hgh hq (hs.inUse hh.wellFormed hq)
    refine ⟨d.renamed σ, ?_, hσ.valid hh.wellFormed hg.wellFormed hgh.symm hd⟩
    rw [Core.renamed, Core.renamed, back]
  · rintro ⟨c, rfl, hc⟩
    exact hπ.valid hg.wellFormed hh.wellFormed hgh hc

end

/-- The same shapes are valid for two paths, and if lookaheads count also the same items. -/
structure SameAfter (g : Grammar) (m : Bool) (u v : List Symbol) : Prop where
  shapeAt_iff (c : Core) : g.ShapeAt u c ↔ g.ShapeAt v c
  itemAt_iff : m = true → ∀ c t, g.ItemAt u c t ↔ g.ItemAt v c t

theorem SameAfter.of_agrees {m : Bool} (hg : g.Defined) (hh : h.Defined) (hgh : g.Agrees h)
    (hs : g.SameAfter m u v) : h.SameAfter m u v := by
  obtain ⟨π, hπ⟩ := hgh.exists_renames
  refine ⟨fun d => ?_, fun hm d t => ?_⟩
  · rw [hπ.shapeAt_iff hg hh hgh, hπ.shapeAt_iff hg hh hgh]
    exact exists_congr fun c => and_congr_right fun _ => hs.shapeAt_iff c
  · rw [hπ.itemAt_iff hg hh hgh, hπ.itemAt_iff hg hh hgh]
    exact exists_congr fun c => and_congr_right fun _ => hs.itemAt_iff hm c t

theorem Agrees.sameAfter_iff {m : Bool} (hg : g.Defined) (hh : h.Defined) (hgh : g.Agrees h) :
    g.SameAfter m u v ↔ h.SameAfter m u v :=
  ⟨fun hs => hs.of_agrees hg hh hgh, fun hs => hs.of_agrees hh hg hgh.symm⟩

end Grammar

end LRAutomata
