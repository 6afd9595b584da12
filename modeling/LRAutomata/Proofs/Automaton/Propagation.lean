import LRAutomata.Automaton.Propagation
import LRAutomata.Proofs.Item.Items
import LRAutomata.Proofs.Settling
import Mathlib.Logic.Relation

/-!
# What propagating brings about

* `LookaheadTable.Has`: an entry of a table has a lookahead;
* `lookaheads?_merge`: merging adds to one entry and makes no new one;
* `has_propagate_of_link`: in the end every link has passed on all lookaheads of its source;
* `propagate_induction`: what propagating brings about has come along the links;
* `propagate_exact`: in the end an entry has the lookaheads of all entries that lead to it, whatever
  the order of the links.

Propagating ends because a pass that changes the table adds a terminal to an entry, and there are
only so many entries and terminals (`progress_passOn`).
-/

namespace LRAutomata

namespace LookaheadTable

variable {t t₀ : LookaheadTable} {A B : Anchor} {more : TerminalSet} {u : Terminal} {l : Link}
  {links : List Link}

/-- The entry has the lookahead. -/
def Has (t : LookaheadTable) (A : Anchor) (u : Terminal) : Prop := (t.row A.state).Has A.core u

/-- The lookaheads of an entry; none if there is no such entry. -/
def look (t : LookaheadTable) (A : Anchor) : TerminalSet := (t.lookaheads? A).getD ∅

/-- The same entries, perhaps with other lookaheads. -/
def SameAnchors (t t' : LookaheadTable) : Prop :=
  ∀ A, (t.lookaheads? A).isSome = (t'.lookaheads? A).isSome

theorem mem_look_iff : u ∈ t.look A ↔ t.Has A u := by
  show _ ↔ ∃ a, t.lookaheads? A = some a ∧ u ∈ a
  rw [look]
  cases t.lookaheads? A <;> simp

theorem mem_anchors_iff : A ∈ t.anchors ↔ (t.lookaheads? A).isSome = true := by
  obtain ⟨⟨i⟩, c⟩ := A
  rw [lookaheads?, ← Items.mem_cores_iff_isSome]
  simp only [anchors, List.mem_flatMap, List.mem_map, Prod.exists, List.mem_zipIdx_iff_getElem?,
    Anchor.mk.injEq, StateId.mk.injEq, row, Array.getElem?_toList]
  refine ⟨fun h => ?_, fun h => ?_⟩
  · obtain ⟨items, i, hi, c, hc, rfl, rfl⟩ := h
    rw [hi]
    exact hc
  · cases hi : t.rows[i]? with
    | none =>
      rw [hi] at h
      exact absurd h List.not_mem_nil
    | some items =>
      rw [hi] at h
      exact ⟨items, i, hi, c, h, rfl, rfl⟩

/-! ## Merging -/

theorem lt_size_of_item? {i : Item} (h : (t.row A.state).item? A.core = some i) :
    A.state.number < t.rows.size := by
  by_contra hn
  rw [row, Array.getElem?_eq_none (Nat.le_of_not_lt hn)] at h
  cases h

/-- Replacing the row of an entry. -/
theorem lookaheads?_setIfInBounds {i : Item} (h : (t.row A.state).item? A.core = some i)
    (items : Items) (B : Anchor) :
    (⟨t.rows.setIfInBounds A.state.number items⟩ : LookaheadTable).lookaheads? B =
      if A.state = B.state then items.lookaheads? B.core else t.lookaheads? B := by
  have hs := lt_size_of_item? h
  obtain ⟨⟨i⟩, c⟩ := A
  obtain ⟨⟨j⟩, d⟩ := B
  simp only at hs
  simp only [lookaheads?, row, Array.getElem?_setIfInBounds, hs, if_true, StateId.mk.injEq]
  split <;> rfl

theorem lookaheads?_of_item? {i : Item} (h : (t.row A.state).item? A.core = some i) :
    t.lookaheads? A = some i.lookaheads := by
  rw [lookaheads?, Items.lookaheads?, h, Option.map_some]

/-- Merging adds to an entry, if there is that entry. -/
theorem lookaheads?_merge (t : LookaheadTable) (A : Anchor) (more : TerminalSet) (B : Anchor) :
    (t.merge A more).value.lookaheads? B =
      if A = B then (t.lookaheads? A).map (· ∪ more.withoutMarker) else t.lookaheads? B := by
  unfold merge
  split
  next hi =>
    have hn : t.lookaheads? A = none := by
      rw [lookaheads?, Items.lookaheads?, hi, Option.map_none]
    by_cases hAB : A = B
    · rw [if_pos hAB, ← hAB, hn]
      rfl
    · rw [if_neg hAB]
  next i hi =>
    have enlarge := Items.lookaheads?_enlarge hi more.withoutMarker B.core
    simp only [Item.mergeUnmarked, TerminalSet.mergeUnmarked, TerminalSet.value_merge]
    rw [lookaheads?_of_item? hi, Option.map_some]
    split at enlarge
    next hc =>
      obtain ⟨s, c⟩ := A
      obtain ⟨s', c'⟩ := B
      rw [if_pos hc, lookaheads?_setIfInBounds hi]
      simp only [Anchor.mk.injEq] at enlarge ⊢
      by_cases he : s = s'
      · subst he
        rw [if_pos rfl, enlarge]
        simp only [true_and]
        rfl
      · rw [if_neg he, if_neg fun h => he h.1]
    next hc =>
      have hsub : more.withoutMarker ⊆ i.lookaheads := by
        simpa [TerminalSet.changed_merge] using hc
      rw [if_neg hc, TerminalSet.union_eq_left hsub]
      split
      next h => rw [← h, lookaheads?_of_item? hi]
      next => rfl

theorem has_merge : (t.merge A more).value.Has B u ↔
    t.Has B u ∨ (A = B ∧ (t.lookaheads? A).isSome = true ∧ u ∈ more ∧ u ≠ Terminal.marker) := by
  simp only [← mem_look_iff, look, lookaheads?_merge]
  by_cases hAB : A = B
  · subst hAB
    cases t.lookaheads? A <;> simp
  · simp [hAB]

theorem sameAnchors_merge (t : LookaheadTable) (A : Anchor) (more : TerminalSet) :
    SameAnchors (t.merge A more).value t := by
  intro B
  rw [lookaheads?_merge]
  split
  next h => rw [← h, Option.isSome_map]
  next => rfl

theorem merge_of_unchanged (h : (t.merge A more).changed = false) : (t.merge A more).value = t := by
  simp only [merge] at h ⊢
  split at h
  next => rfl
  next i hi =>
    split at h
    · cases h
    next hc => rw [if_neg hc]

/-- A change is one of an entry that lacked one of the lookaheads. -/
theorem of_changed_merge (h : (t.merge A more).changed = true) :
    (t.lookaheads? A).isSome = true ∧ ¬ (t.merge A more).value.look A ⊆ t.look A := by
  have hchanged := h
  simp only [merge] at h
  split at h <;> [cases h; skip]
  next i hi =>
    have hs := lookaheads?_of_item? hi
    split at h <;> [skip; cases h]
    next hc =>
      refine ⟨by rw [hs]; rfl, fun hsub => ?_⟩
      simp only [Item.mergeUnmarked, TerminalSet.mergeUnmarked, TerminalSet.changed_merge,
        Bool.not_eq_true', decide_eq_false_iff_not, TerminalSet.subset_iff] at hc
      refine hc fun u hu => ?_
      have hu := TerminalSet.mem_withoutMarker.mp hu
      have := TerminalSet.subset_iff.mp hsub u
        (mem_look_iff.mpr (has_merge.mpr (.inr ⟨rfl, by rw [hs]; rfl, hu⟩)))
      rwa [look, hs] at this

/-! ## Propagating -/

/-- An entry has nothing to pass on to itself. -/
theorem merge_look_self (t : LookaheadTable) (A : Anchor) : t.merge A (t.look A) = ⟨t, false⟩ := by
  unfold merge
  split
  next => rfl
  next i hi =>
    have hlook : t.look A = i.lookaheads := by rw [look, lookaheads?_of_item? hi, Option.getD_some]
    have hsub : i.lookaheads.withoutMarker ⊆ i.lookaheads :=
      TerminalSet.subset_iff.mpr fun u hu => (TerminalSet.mem_withoutMarker.mp hu).1
    refine if_neg ?_
    simpa [Item.mergeUnmarked, TerminalSet.mergeUnmarked, TerminalSet.changed_merge, hlook] using
      hsub

/-- To leave out links from an entry to itself changes nothing. -/
theorem passOn_eq_merge (l : Link) (t : LookaheadTable) :
    passOn l t = t.merge l.target (t.look l.source) := by
  unfold passOn
  split
  next h => rw [h, merge_look_self]
  next => rfl

/-- Passing on along a link keeps the entries and adds to their lookaheads. -/
theorem progress_passOn (t₀ : LookaheadTable) (l : Link) :
    Progress (fun t => SameAnchors t t₀) (fun t => TerminalSet.total t.look t₀.anchors)
      (passOn l) where
  keeps {t} h := by
    rw [passOn_eq_merge]
    exact fun A => (sameAnchors_merge t _ _ A).trans (h A)
  same {t} _ h := by
    rw [passOn_eq_merge] at h ⊢
    exact merge_of_unchanged h
  grows {t} h hc := by
    rw [passOn_eq_merge] at hc ⊢
    obtain ⟨hs, hn⟩ := of_changed_merge hc
    refine TerminalSet.total_lt (fun A _ => TerminalSet.subset_iff.mpr fun u hu => ?_)
      (mem_anchors_iff.mpr ((h l.target).symm.trans hs)) hn
    exact mem_look_iff.mpr (has_merge.mpr (.inl (mem_look_iff.mp hu)))

theorem sameAnchors_propagate (links : List Link) (t : LookaheadTable) :
    SameAnchors (t.propagate links) t :=
  (Progress.pass fun l _ => progress_passOn t l).settle_keeps t.passBound (fun _ => rfl)

/-- A property of lookaheads that the links hand on holds of all that propagating brings about. -/
theorem propagate_induction {P : Anchor → Terminal → Prop} (h : ∀ A u, t.Has A u → P A u)
    (hl : ∀ l ∈ links, ∀ u, P l.source u → P l.target u) {A : Anchor} {u : Terminal}
    (hu : (t.propagate links).Has A u) : P A u := by
  suffices hall : ∀ A u, (t.propagate links).Has A u → P A u from hall A u hu
  refine settle_induction (P := fun t : LookaheadTable => ∀ A u, t.Has A u → P A u) ?_ _ h
  intro t ht
  refine Update.pass_induction (P := fun t : LookaheadTable => ∀ A u, t.Has A u → P A u) ?_ ht
  intro l hmem t ht A u hu
  rw [passOn_eq_merge] at hu
  rcases has_merge.mp hu with hu | ⟨rfl, -, hu, -⟩
  · exact ht A u hu
  · exact hl l hmem u (ht l.source u (mem_look_iff.mp hu))

/-- Propagating takes nothing away. -/
theorem has_propagate_of_has (hu : t.Has A u) : (t.propagate links).Has A u := by
  refine settle_induction (P := fun t : LookaheadTable => t.Has A u) ?_ _ hu
  intro t ht
  exact Update.pass_induction (P := fun t : LookaheadTable => t.Has A u)
    (fun l _ t ht => passOn_eq_merge l t ▸ has_merge.mpr (.inl ht)) ht

/-- Lookaheads are passed on along the links for as long as that changes anything. -/
theorem settles_propagate (links : List Link) (t : LookaheadTable) :
    Settles (Update.pass passOn links) t (t.propagate links) :=
  (Progress.pass fun l (_ : l ∈ links) => progress_passOn t l).settles
    (fun t' _ => TerminalSet.total_le t'.look t.anchors) (fun _ => rfl)

/-- In the end every link has passed on all lookaheads of its source. -/
theorem has_propagate_of_link (hl : l ∈ links) (ht : (t.lookaheads? l.target).isSome = true)
    (hu : (t.propagate links).Has l.source u) (hm : u ≠ Terminal.marker) :
    (t.propagate links).Has l.target u := by
  have progress := Progress.pass fun l (_ : l ∈ links) => progress_passOn t l
  have fixed := progress.fixed_of_settles (fun _ => rfl) (settles_propagate links t)
  have same := Progress.of_pass_eq (fun l (_ : l ∈ links) => progress_passOn t l)
    (sameAnchors_propagate links t) fixed l hl
  have hv : (passOn l (t.propagate links)).value = t.propagate links := by rw [same]
  rw [← hv, passOn_eq_merge]
  refine has_merge.mpr (.inr ⟨rfl, ?_, mem_look_iff.mpr hu, hm⟩)
  rw [sameAnchors_propagate links t, ht]

/-! ## Along the links -/

/-- There is a way from one entry to another along links, perhaps along none. -/
def Leads (links : List Link) : Anchor → Anchor → Prop :=
  Relation.ReflTransGen fun A B => ⟨A, B⟩ ∈ links

/-- What an entry has in the end, an entry that leads to it had at the beginning. -/
theorem exists_leads_of_has_propagate (h : (t.propagate links).Has A u) :
    ∃ B, t.Has B u ∧ Leads links B A := by
  refine propagate_induction (P := fun A u => ∃ B, t.Has B u ∧ Leads links B A) ?_ ?_ h
  · exact fun A u h => ⟨A, h, .refl⟩
  · rintro l hl u ⟨B, hB, hlead⟩
    exact ⟨B, hB, hlead.tail hl⟩

/-- Lookaheads other than the marker go as far as links between entries lead. -/
theorem has_propagate_of_leads (inside : ∀ l ∈ links, l.target ∈ t.anchors)
    (hu : u ≠ Terminal.marker) (h : t.Has B u) (hlead : Leads links B A) :
    (t.propagate links).Has A u := by
  induction hlead with
  | refl => exact has_propagate_of_has h
  | tail _ hl ih =>
    exact has_propagate_of_link (l := ⟨_, _⟩) hl (mem_anchors_iff.mp (inside _ hl)) ih hu

theorem mem_anchors_of_has (h : t.Has A u) : A ∈ t.anchors := by
  obtain ⟨a, ha, -⟩ := h
  exact mem_anchors_iff.mpr (Option.isSome_of_eq_some ha)

theorem mem_look_propagate_iff (unmarked : ∀ A ∈ t.anchors, Terminal.marker ∉ t.look A)
    (inside : ∀ l ∈ links, l.target ∈ t.anchors) : u ∈ (t.propagate links).look A ↔
      ∃ B ∈ t.anchors, Leads links B A ∧ u ∈ t.look B := by
  rw [mem_look_iff]
  constructor
  · intro h
    obtain ⟨B, hB, hlead⟩ := exists_leads_of_has_propagate h
    exact ⟨B, mem_anchors_of_has hB, hlead, mem_look_iff.mpr hB⟩
  · rintro ⟨B, hentry, hlead, hB⟩
    have hu : u ≠ Terminal.marker := by
      rintro rfl
      exact unmarked B hentry hB
    exact has_propagate_of_leads inside hu (mem_look_iff.mp hB) hlead

theorem size_merge (t : LookaheadTable) (A : Anchor) (more : TerminalSet) :
    (t.merge A more).value.rows.size = t.rows.size := by
  simp only [merge]
  split
  next => rfl
  next =>
    split
    next => exact Array.size_setIfInBounds ..
    next => rfl

theorem size_propagate (links : List Link) (t : LookaheadTable) :
    (t.propagate links).rows.size = t.rows.size := by
  refine settle_induction (P := fun t' : LookaheadTable => t'.rows.size = t.rows.size) ?_ _ rfl
  intro t' ht'
  exact Update.pass_induction (P := fun t' : LookaheadTable => t'.rows.size = t.rows.size)
    (fun l _ t' ht' => passOn_eq_merge l t' ▸ (size_merge t' ..).trans ht') ht'

/-- Tables with the same entries and the same lookaheads are equal. -/
theorem ext_look {t' : LookaheadTable} (hs : t.rows.size = t'.rows.size) (same : SameAnchors t t')
    (hl : ∀ A, t.look A = t'.look A) : t = t' := by
  have entry (A : Anchor) : t.lookaheads? A = t'.lookaheads? A := by
    have hA := same A
    have hl := hl A
    rw [look, look] at hl
    cases ht : t.lookaheads? A <;> cases ht' : t'.lookaheads? A <;> simp_all
  obtain ⟨rows⟩ := t
  obtain ⟨rows'⟩ := t'
  refine congrArg LookaheadTable.mk (Array.ext hs fun i hi hi' => Items.ext_lookaheads? fun c => ?_)
  have hrow := entry ⟨⟨i⟩, c⟩
  rwa [lookaheads?, lookaheads?, row, row, Array.getElem?_eq_getElem hi,
    Array.getElem?_eq_getElem hi'] at hrow

/-- Links between the entries of a table without the marker are followed for as long as anything
changes, and this comes to an end. Then each entry has just the lookaheads of the entries that lead
to it, itself included, and the same links in any other order would have led to the same table. -/
theorem propagate_exact (unmarked : ∀ A ∈ t.anchors, Terminal.marker ∉ t.look A)
    (inside : ∀ l ∈ links, l.target ∈ t.anchors) :
    (∀ t', Settles (Update.pass passOn links) t t' ↔ t' = t.propagate links) ∧
    (∀ A, A ∈ (t.propagate links).anchors ↔ A ∈ t.anchors) ∧
    (∀ A u, u ∈ (t.propagate links).look A ↔ ∃ B ∈ t.anchors, Leads links B A ∧ u ∈ t.look B) ∧
    ∀ links', (∀ l, l ∈ links' ↔ l ∈ links) → t.propagate links' = t.propagate links := by
  have same := sameAnchors_propagate links t
  refine ⟨fun t' => ⟨fun h => h.unique (settles_propagate links t), ?_⟩, fun A => ?_,
    fun A u => mem_look_propagate_iff unmarked inside, fun links' hlinks => ?_⟩
  · rintro rfl
    exact settles_propagate links t
  · rw [mem_anchors_iff, mem_anchors_iff, same A]
  · have inside' : ∀ l ∈ links', l.target ∈ t.anchors := fun l hl => inside l ((hlinks l).mp hl)
    have leads : Leads links' = Leads links := by
      unfold Leads
      simp only [hlinks]
    refine ext_look ?_ (fun A => ?_) fun A => TerminalSet.ext fun u => ?_
    · rw [size_propagate, size_propagate]
    · rw [sameAnchors_propagate links' t A, same A]
    · rw [mem_look_propagate_iff unmarked inside', mem_look_propagate_iff unmarked inside, leads]

/-- Three entries, two of which lead to each other, and one of them to the third. -/
def ring : LookaheadTable where
  rows := #[.ofList [⟨⟨⟨1⟩, 1⟩, .single ⟨2⟩⟩],
    .ofList [⟨⟨⟨1⟩, 2⟩, .single ⟨3⟩⟩, ⟨⟨⟨2⟩, 1⟩, .single ⟨4⟩⟩]]

/-- The links of the ring, and one from the third entry to itself. -/
def ringLinks : List Link :=
  [⟨⟨⟨1⟩, ⟨⟨1⟩, 2⟩⟩, ⟨⟨1⟩, ⟨⟨2⟩, 1⟩⟩⟩, ⟨⟨⟨1⟩, ⟨⟨2⟩, 1⟩⟩, ⟨⟨1⟩, ⟨⟨2⟩, 1⟩⟩⟩,
    ⟨⟨⟨0⟩, ⟨⟨1⟩, 1⟩⟩, ⟨⟨1⟩, ⟨⟨1⟩, 2⟩⟩⟩, ⟨⟨⟨1⟩, ⟨⟨1⟩, 2⟩⟩, ⟨⟨0⟩, ⟨⟨1⟩, 1⟩⟩⟩]

theorem propagate_exact_ring :
    (∀ A ∈ ring.anchors, Terminal.marker ∉ ring.look A) ∧
    (∀ l ∈ ringLinks, l.target ∈ ring.anchors) ∧
    (∀ t', Settles (Update.pass passOn ringLinks) ring t' ↔ t' = ring.propagate ringLinks) ∧
    (⟨2⟩ : Terminal) ∈ (ring.propagate ringLinks).look ⟨⟨1⟩, ⟨⟨2⟩, 1⟩⟩ ∧
    ring.propagate ringLinks.reverse = ring.propagate ringLinks := by
  have unmarked : ∀ A ∈ ring.anchors, Terminal.marker ∉ ring.look A := by decide +kernel
  have inside : ∀ l ∈ ringLinks, l.target ∈ ring.anchors := by decide +kernel
  obtain ⟨ends, -, members, anyOrder⟩ := propagate_exact unmarked inside
  have leads : Leads ringLinks ⟨⟨0⟩, ⟨⟨1⟩, 1⟩⟩ ⟨⟨1⟩, ⟨⟨2⟩, 1⟩⟩ :=
    .tail (.single (b := ⟨⟨1⟩, ⟨⟨1⟩, 2⟩⟩) (by decide)) (by decide)
  exact ⟨unmarked, inside, ends, (members _ _).mpr ⟨_, by decide +kernel, leads, by decide +kernel⟩,
    anyOrder _ fun l => List.mem_reverse⟩

end LookaheadTable

end LRAutomata
