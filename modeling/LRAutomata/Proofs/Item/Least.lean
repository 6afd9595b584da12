import LRAutomata.Proofs.Grammar.Lookups
import LRAutomata.State
import Mathlib.Order.Bounds.Basic

/-!
# Closing finds the least closed items

Items are ordered by what they cover: a core of the smaller ones is one of the larger ones, with no
fewer lookaheads there. `Items.IsClosed` says of items that what any of them asks for is covered.

* `isLeast_closed`: closing finds the least closed items above those that it starts from;
* `Saturation.Turn`, `Saturation.Ends`: demands met in any order whatever, with look-ups that fail
  for what is not there;
* `wellFounded_turn`, `exists_ends`: no order goes on for ever;
* `Ends.isLeast`, `Ends.error_iff`: the order matters neither for the items in the end nor for
  whether there is a fault;
* `State.closing_of_defined`: all that closing does to a state.
-/

namespace LRAutomata

theorem Grammar.isValid_eq_false_iff {g : Grammar} {c : Core} :
    g.isValid c = false ↔ g.production? c.production = none ∨
      ∃ rule, g.production? c.production = some rule ∧ rule.right.length < c.dot.toNat := by
  rw [isValid]
  cases g.production? c.production with
  | none => simp
  | some rule => simp

namespace Items

variable {g : Grammar} {f : FirstSets} {s t : Items} {i j : Item} {c : Core} {a b : TerminalSet}

/-- The core of `i` occurs, with no fewer lookaheads than those of `i`. -/
def Covers (t : Items) (i : Item) : Prop :=
  ∃ a, t.lookaheads? i.core = some a ∧ i.lookaheads ⊆ a

theorem covers_iff : t.Covers i ↔ i.core ∈ t.cores ∧ ∀ u ∈ i.lookaheads, t.Has i.core u := by
  constructor
  · rintro ⟨a, ha, hi⟩
    refine ⟨mem_cores_iff_isSome.mpr (by rw [ha]; rfl), fun u hu => ?_⟩
    exact ⟨a, ha, TerminalSet.subset_iff.mp hi u hu⟩
  · rintro ⟨hc, hh⟩
    obtain ⟨a, ha⟩ := Option.isSome_iff_exists.mp (mem_cores_iff_isSome.mp hc)
    refine ⟨a, ha, TerminalSet.subset_iff.mpr fun u hu => ?_⟩
    obtain ⟨b, hb, hub⟩ := hh u hu
    rw [ha] at hb
    exact Option.some.inj hb ▸ hub

theorem covers_of_mem (h : i ∈ s.toList) : s.Covers i :=
  covers_iff.mpr ⟨mem_cores_of_mem h, fun _ hu => (has_of_mem h).mpr hu⟩

theorem covers_union : t.Covers ⟨c, a ∪ b⟩ ↔ t.Covers ⟨c, a⟩ ∧ t.Covers ⟨c, b⟩ := by
  simp only [covers_iff, TerminalSet.mem_union]
  constructor
  · rintro ⟨hc, hh⟩
    exact ⟨⟨hc, fun u hu => hh u (.inl hu)⟩, hc, fun u hu => hh u (.inr hu)⟩
  · rintro ⟨⟨hc, ha⟩, -, hb⟩
    exact ⟨hc, fun u hu => hu.elim (ha u) (hb u)⟩

/-- Items are below those that cover all of them. -/
instance : LE Items := ⟨fun s t => ∀ i ∈ s.toList, t.Covers i⟩

theorem le_iff_views :
    s ≤ t ↔ (∀ c ∈ s.cores, c ∈ t.cores) ∧ ∀ c u, s.Has c u → t.Has c u := by
  constructor
  · intro h
    refine ⟨fun c hc => ?_, fun c u hu => ?_⟩
    · obtain ⟨i, hi, rfl⟩ := mem_cores_iff.mp hc
      exact (covers_iff.mp (h i hi)).1
    · obtain ⟨i, hi, rfl, hl⟩ := has_iff.mp hu
      exact (covers_iff.mp (h i hi)).2 u hl
  · rintro ⟨hc, hh⟩ i hi
    exact covers_iff.mpr ⟨hc _ (mem_cores_of_mem hi), fun u hu => hh _ u ((has_of_mem hi).mpr hu)⟩

instance : PartialOrder Items where
  le_refl s := fun _ hi => covers_of_mem hi
  le_trans r s t hrs hst := by
    rw [le_iff_views] at hrs hst ⊢
    exact ⟨fun c hc => hst.1 c (hrs.1 c hc), fun c u hu => hst.2 c u (hrs.2 c u hu)⟩
  le_antisymm s t hst hts := by
    rw [le_iff_views] at hst hts
    exact eq_of_views (fun c => ⟨hst.1 c, hts.1 c⟩) fun c u => ⟨hst.2 c u, hts.2 c u⟩

/-! ## Closed items -/

/-- For every item with its dot before a nonterminal, each production of the nonterminal is there
with its dot at the start, and has the terminals that can follow the nonterminal as lookaheads; also
those of the item, where what follows the nonterminal can vanish. -/
def IsClosed (g : Grammar) (f : FirstSets) (s : Items) : Prop :=
  ∀ i ∈ s.toList, ∀ n, g.next? i.core = some (.nonterminal n) →
    ∀ p rule, g.production? p = some rule → rule.left = n →
      s.Covers ⟨⟨p, 0⟩, f.ofSequence (g.rest i.core)⟩ ∧
        (f.allNullable (g.rest i.core) = true → s.Covers ⟨⟨p, 0⟩, i.lookaheads⟩)

theorem covers_handed : s.Covers ⟨c, g.handed f i⟩ ↔
    s.Covers ⟨c, f.ofSequence (g.rest i.core)⟩ ∧
      (f.allNullable (g.rest i.core) = true → s.Covers ⟨c, i.lookaheads⟩) := by
  rw [Grammar.handed]
  split
  next h => rw [covers_union, forall_prop_of_true h]
  next h => exact (and_iff_left fun h' => absurd h' h).symm

theorem isClosed_iff (hg : g.WellFormed) :
    s.IsClosed g f ↔ ∀ i ∈ s.toList, ∀ j ∈ g.demands f i, s.Covers j := by
  constructor
  · intro h i hi j hj
    obtain ⟨⟨n, p, hn, hp, hc⟩, hl⟩ := Grammar.mem_demands_iff.mp hj
    obtain ⟨rule, hr, hleft⟩ := hg.mem_alternatives_iff.mp hp
    obtain rfl : j = ⟨⟨p, 0⟩, g.handed f i⟩ := by rw [← hc, ← hl]
    exact covers_handed.mpr (h i hi n hn p rule hr hleft)
  · intro h i hi n hn p rule hr hleft
    have hp : p ∈ g.alternatives n := hg.mem_alternatives_iff.mpr ⟨rule, hr, hleft⟩
    exact covers_handed.mp (h i hi _ (Grammar.mem_demands_iff.mpr ⟨⟨n, p, hn, hp, rfl⟩, rfl⟩))

theorem isClosed_iff_met (hg : g.WellFormed) :
    s.IsClosed g f ↔ ∀ c, Saturation.Met g f s c := by
  rw [isClosed_iff hg]
  constructor
  · intro h c i hi j hj
    exact covers_iff.mp (h i (item?_eq_some_iff.mp hi).1 j hj)
  · intro h i hi j hj
    exact covers_iff.mpr (h i.core i (item?_of_mem hi) j hj)

/-- An item with more lookaheads hands on no fewer. -/
theorem covers_handed_mono (hs : i.lookaheads ⊆ a)
    (h : t.Covers ⟨c, g.handed f ⟨i.core, a⟩⟩) : t.Covers ⟨c, g.handed f i⟩ := by
  obtain ⟨hfirst, hown⟩ := covers_handed.mp h
  refine covers_handed.mpr ⟨hfirst, fun hn => ?_⟩
  obtain ⟨b, hb, hab⟩ := hown hn
  refine ⟨b, hb, TerminalSet.subset_iff.mpr fun u hu => ?_⟩
  exact TerminalSet.subset_iff.mp hab u (TerminalSet.subset_iff.mp hs u hu)

/-- What an item demands is covered wherever the item is, by closed items. -/
theorem IsClosed.covers_demands (hg : g.WellFormed) (ht : t.IsClosed g f) (hi : t.Covers i)
    (hj : j ∈ g.demands f i) : t.Covers j := by
  obtain ⟨a, ha, hs⟩ := hi
  obtain ⟨hasks, hl⟩ := Grammar.mem_demands_iff.mp hj
  have hm : (⟨i.core, a⟩ : Item) ∈ t.toList := lookaheads?_eq_some_iff.mp ha
  have hcov : t.Covers ⟨j.core, g.handed f ⟨i.core, a⟩⟩ :=
    (isClosed_iff hg).mp ht _ hm _ (Grammar.mem_demands_iff.mpr ⟨hasks, rfl⟩)
  have := covers_handed_mono hs hcov
  rwa [← hl] at this

end Items

namespace Saturation

variable {g : Grammar} {f : FirstSets} {s s' : Saturation} {c : Core} {t : Items}

/-! ## Any order -/

/-- Items, all of whose demands have to be met. -/
def ofItems (s : Items) : Saturation := ⟨s, Agenda.ofList s.cores⟩

/-- What the item with the core demands. -/
def demandedBy (g : Grammar) (f : FirstSets) (s : Items) (c : Core) : List Item :=
  match s.item? c with
  | some i => g.demands f i
  | none => []

/-- What has to be known of a core before its demands are met: its production, how far the dot can
go in it, and what can follow a nonterminal after the dot. -/
def lookUps (g : Grammar) (f : FirstSets) (c : Core) : Except Fault Unit := do
  let rule ← g.production c.production
  if rule.right.length < c.dot.toNat then .error (.dotBeyondEnd c.production c.dot)
  else
    match rule.right.drop c.dot.toNat with
    | .nonterminal _ :: rest => (f.lookupSequence rest).map fun _ => ()
    | _ => .ok ()

/-- Some core of the agenda, whichever, has its demands met, in whatever order; the rest of the
agenda stays. -/
inductive Turn (g : Grammar) (f : FirstSets) (s : Saturation) : Saturation → Prop where
  | mk {c : Core} {agenda : Agenda Core} {demanded : List Item} :
    s.agenda.pending.Perm (c :: agenda.pending) → lookUps g f c = .ok () →
    demanded.Perm (demandedBy g f s.items c) → Turn g f s (demanded.foldl receive ⟨s.items, agenda⟩)

/-- Turn after turn comes to the items when the agenda is empty, or to the fault of a core that is
taken from it. -/
inductive Ends (g : Grammar) (f : FirstSets) : Saturation → Except Fault Items → Prop where
  | done {s : Saturation} : s.agenda.pending = [] → Ends g f s (.ok s.items)
  | fails {s : Saturation} {c : Core} {e : Fault} : c ∈ s.agenda.pending →
    lookUps g f c = .error e → Ends g f s (.error e)
  | turn {s s' : Saturation} {r : Except Fault Items} : Turn g f s s' → Ends g f s' r → Ends g f s r

theorem lookUps_eq_ok_iff (hg : g.WellFormed) :
    lookUps g g.firstSets c = .ok () ↔ g.isValid c = true := by
  rw [lookUps, Grammar.isValid, Grammar.production]
  cases hp : g.production? c.production with
  | none => simp [bind, Except.bind]
  | some rule =>
    simp only [bind, Except.bind, Option.any_some, decide_eq_true_eq]
    split
    next hlt => simp [Nat.not_le.mpr hlt]
    next hle =>
      refine iff_of_true ?_ (Nat.le_of_not_lt hle)
      split
      next n rest hr =>
        have hd : ∀ X ∈ rest, g.declares X = true := fun X hX =>
          hg.declared hp X (List.mem_of_mem_drop (hr ▸ List.mem_cons_of_mem _ hX))
        rw [hg.for_firstSets.lookupSequence hd]
        rfl
      next => rfl

theorem mem_pending_ofItems {s : Items} : c ∈ (ofItems s).agenda.pending ↔ c ∈ s.cores :=
  Agenda.mem_pending_ofList

theorem mem_demandedBy {i : Item} (h : i ∈ demandedBy g f t c) :
    ∃ j ∈ t.toList, j.core = c ∧ i ∈ g.demands f j := by
  unfold demandedBy at h
  split at h
  next j hj =>
    obtain ⟨hm, hc⟩ := Items.item?_eq_some_iff.mp hj
    exact ⟨j, hm, hc, h⟩
  next => exact absurd h List.not_mem_nil

/-- Only what is received gets on the agenda. -/
theorem mem_pending_foldl {is : List Item} (h : c ∈ (is.foldl receive s).agenda.pending) :
    c ∈ s.agenda.pending ∨ ∃ i ∈ is, i.core = c := by
  induction is generalizing s with
  | nil => exact .inl h
  | cons i is ih =>
    rcases ih h with h | ⟨j, hj, hc⟩
    · simp only [receive] at h
      split at h <;> [skip; exact .inl h]
      rcases Agenda.mem_pending_push.mp h with h | h
      · exact .inl h
      · exact .inr ⟨i, List.mem_cons_self, h.symm⟩
    · exact .inr ⟨j, List.mem_cons_of_mem _ hj, hc⟩

/-- How many cores there are on the agenda, and how much the items can still grow. -/
def cost (g : Grammar) (s : Saturation) : Nat :=
  s.agenda.pending.length +
    ((TerminalSet.capacity + 1) * g.productions.size - s.items.startWeight g.productions.size)

theorem Turn.cost_lt (hg : g.WellFormed) (h : Turn g f s s') : s'.cost g < s.cost g := by
  obtain @⟨c, agenda, demanded, hp, -, hd⟩ := h
  have hstart : ∀ i ∈ demanded,
      i.core.dot = 0 ∧ i.core.production.id.toNat < g.productions.size := by
    intro i hi
    obtain ⟨j, -, -, hj⟩ := mem_demandedBy (hd.mem_iff.mp hi)
    exact hg.start_of_mem_demands hj
  have hle := pending_foldl_le hstart ⟨s.items, agenda⟩
  have hbound := (demanded.foldl receive ⟨s.items, agenda⟩).items.startWeight_le g.productions.size
  have hlen := hp.length_eq
  rw [List.length_cons] at hlen
  simp only [cost] at hle ⊢
  omega

theorem wellFounded_turn (hg : g.WellFormed) : WellFounded fun s' s => Turn g f s s' :=
  Subrelation.wf (fun h => h.cost_lt hg) (measure (cost g)).wf

theorem exists_ends (hg : g.WellFormed) (s : Saturation) : ∃ r, Ends g f s r := by
  induction s using (wellFounded_turn (f := f) hg).induction with
  | _ s ih =>
    cases hp : s.agenda.pop? with
    | none => exact ⟨_, .done (Agenda.pop?_eq_none_iff.mp hp)⟩
    | some r =>
      obtain ⟨c, agenda⟩ := r
      have hpend := Agenda.pending_of_pop? hp
      cases hl : lookUps g f c with
      | error e => exact ⟨_, .fails (hpend ▸ List.mem_cons_self) hl⟩
      | ok =>
        have turn : Turn g f s ((demandedBy g f s.items c).foldl receive ⟨s.items, agenda⟩) :=
          .mk (.of_eq hpend) hl (.refl _)
        obtain ⟨r, hr⟩ := ih _ turn
        exact ⟨r, .turn turn hr⟩

/-! ## Every order comes to the same -/

theorem Extends.items_le (h : Extends s s') : s.items ≤ s'.items :=
  Items.le_iff_views.mpr ⟨fun _ hc => h.cores hc, fun _ _ hu => h.has hu⟩

/-- What turns keep of the items that they start from: nothing is lost, everything on the agenda or
met, and nothing added that closed items could do without. -/
structure Between (g : Grammar) (f : FirstSets) (start : Items) (s : Saturation) : Prop where
  above : start ≤ s.items
  met (c : Core) : c ∈ s.agenda.pending ∨ Met g f s.items c
  below {t : Items} : start ≤ t → t.IsClosed g f → s.items ≤ t

theorem between_ofItems (g : Grammar) (f : FirstSets) (s : Items) : Between g f s (ofItems s) where
  above := le_refl s
  met c := by
    by_cases hc : c ∈ s.cores
    · exact .inl (mem_pending_ofItems.mpr hc)
    · refine .inr fun i hi => absurd ?_ hc
      obtain ⟨hm, rfl⟩ := Items.item?_eq_some_iff.mp hi
      exact Items.mem_cores_of_mem hm
  below hle _ := hle

theorem Between.turn {start : Items} (hg : g.WellFormed) (h : Between g f start s)
    (ht : Turn g f s s') : Between g f start s' := by
  obtain @⟨c, agenda, demanded, hp, -, hd⟩ := ht
  refine ⟨?_, foldl_met (c := c) (fun i hi j hj => ?_) fun d => ?_, fun {t} hle hc => ?_⟩
  · exact le_trans h.above (extends_foldl demanded ⟨s.items, agenda⟩).items_le
  · refine hd.mem_iff.mpr ?_
    rw [demandedBy, show s.items.item? c = some i from hi]
    exact hj
  · rcases h.met d with hm | hm
    · exact (List.mem_cons.mp (hp.mem_iff.mp hm)).imp id .inl
    · exact .inr (.inr hm)
  · have start := Items.le_iff_views.mp (h.below hle hc)
    refine Items.le_iff_views.mpr (foldl_within (fun j hj => ?_) start)
    obtain ⟨i, hi, -, hij⟩ := mem_demandedBy (hd.mem_iff.mp hj)
    exact Items.covers_iff.mp (hc.covers_demands hg (h.below hle hc i hi) hij)

/-- Whatever the order, the items in the end are the least closed ones above the first. -/
theorem Ends.isLeast {start : Items} (hg : g.WellFormed) (h : Ends g f s (.ok t))
    (hs : Between g f start s) : IsLeast {t | start ≤ t ∧ t.IsClosed g f} t := by
  generalize hr : Except.ok t = r at h
  induction h with
  | @done s hp =>
    obtain rfl := Except.ok.inj hr
    have hmet : ∀ c, Met g f s.items c := fun c =>
      (hs.met c).resolve_left (hp ▸ List.not_mem_nil)
    exact ⟨⟨hs.above, (Items.isClosed_iff_met hg).mpr hmet⟩, fun t ht => hs.below ht.1 ht.2⟩
  | fails => cases hr
  | turn ht _ ih => exact ih (hs.turn hg ht) hr

/-- A core whose look-ups fail stays on the agenda until it is taken. -/
theorem Ends.error_of_mem {r : Except Fault Items} {e : Fault} (h : Ends g f s r)
    (hc : c ∈ s.agenda.pending) (he : lookUps g f c = .error e) : ∃ e, r = .error e := by
  induction h with
  | done hp => exact absurd (hp ▸ hc) List.not_mem_nil
  | fails => exact ⟨_, rfl⟩
  | turn ht _ ih =>
    obtain ⟨hp, hok, -⟩ := ht
    refine ih ((extends_foldl _ _).pending ?_)
    rcases List.mem_cons.mp (hp.mem_iff.mp hc) with rfl | hc
    · rw [hok] at he
      cases he
    · exact hc

/-- If there is a fault, some core on the agenda is not valid. -/
theorem Ends.exists_of_error {e : Fault} (hg : g.WellFormed) (h : Ends g g.firstSets s (.error e)) :
    ∃ c ∈ s.agenda.pending, g.isValid c = false := by
  generalize hr : Except.error e = r at h
  induction h with
  | done => cases hr
  | fails hc he =>
    refine ⟨_, hc, ?_⟩
    by_contra hv
    rw [Bool.not_eq_false, ← lookUps_eq_ok_iff hg, he] at hv
    cases hv
  | turn ht _ ih =>
    obtain ⟨hp, -, hd⟩ := ht
    obtain ⟨c, hc, hv⟩ := ih hr
    rcases mem_pending_foldl hc with hc | ⟨j, hj, rfl⟩
    · exact ⟨c, hp.mem_iff.mpr (List.mem_cons_of_mem _ hc), hv⟩
    · -- what is demanded is valid
      obtain ⟨i, -, -, hij⟩ := mem_demandedBy (hd.mem_iff.mp hj)
      rw [(Grammar.mem_demands_iff.mp hij).1.isValid hg] at hv
      cases hv

/-- There is a fault, whatever the order, just if an item is not valid. -/
theorem Ends.error_iff {start : Items} {r : Except Fault Items} (hg : g.WellFormed)
    (h : Ends g g.firstSets (ofItems start) r) :
    (∃ e, r = .error e) ↔ ∃ c ∈ start.cores, g.isValid c = false := by
  constructor
  · rintro ⟨e, rfl⟩
    obtain ⟨c, hc, hv⟩ := h.exists_of_error hg
    exact ⟨c, mem_pending_ofItems.mp hc, hv⟩
  · rintro ⟨c, hc, hv⟩
    cases hl : lookUps g g.firstSets c with
    | ok => rw [(lookUps_eq_ok_iff hg).mp hl] at hv; cases hv
    | error e => exact h.error_of_mem (mem_pending_ofItems.mpr hc) hl

end Saturation

/-! ## Closing -/

namespace Items

variable {g : Grammar} {s t : Items}

/-- The closed items are the least ones above the items that are closed. -/
theorem isLeast_closed (hg : g.WellFormed) (f : FirstSets) (s : Items) :
    IsLeast {t | s ≤ t ∧ t.IsClosed g f} (s.closed g f) := by
  refine ⟨⟨le_iff_views.mpr (le_closed g f s), (isClosed_iff_met hg).mpr (closed_met hg f s)⟩, ?_⟩
  rintro t ⟨hle, ht⟩
  refine le_iff_views.mpr (Saturation.run_within (fun i hc hl j hj => ?_) _ (le_iff_views.mp hle))
  exact covers_iff.mp (ht.covers_demands hg (covers_iff.mpr ⟨hc, hl⟩) hj)

theorem closed_mono (hg : g.WellFormed) (f : FirstSets) (h : s ≤ t) :
    s.closed g f ≤ t.closed g f := by
  obtain ⟨⟨hle, hc⟩, -⟩ := isLeast_closed hg f t
  exact (isLeast_closed hg f s).2 ⟨le_trans h hle, hc⟩

theorem closed_closed (hg : g.WellFormed) (f : FirstSets) (s : Items) :
    (s.closed g f).closed g f = s.closed g f := by
  obtain ⟨⟨-, hc⟩, -⟩ := isLeast_closed hg f s
  exact le_antisymm ((isLeast_closed hg f _).2 ⟨le_refl _, hc⟩) (isLeast_closed hg f _).1.1

/-- Items can be closed only if they are valid. -/
theorem isValid_of_close_eq_ok {f : FirstSets} {k : Items} (h : s.close g f = .ok k) :
    ∀ c ∈ s.cores, g.isValid c = true := by
  obtain ⟨u, hu, -⟩ := bind_eq_ok.mp h
  exact isValid_of_requireValid hu

/-- The fault of closing is that of one of the items. -/
theorem exists_lookUps_of_close_eq_error {f : FirstSets} {e : Fault} (h : s.close g f = .error e) :
    ∃ c ∈ s.cores, Saturation.lookUps g f c = .error e := by
  have hv : s.requireValid g = .error e := (bind_eq_error.mp h).resolve_right fun ⟨_, _, h⟩ => by
    cases h
  rcases requireValid_eq_error hv with ⟨c, hc, hp, rfl⟩ | ⟨c, hc, rule, hp, hlt, rfl⟩
  · refine ⟨c, hc, ?_⟩
    rw [Saturation.lookUps, Grammar.production, hp]
    rfl
  · refine ⟨c, hc, ?_⟩
    rw [Saturation.lookUps, Grammar.production, hp]
    exact if_pos hlt

/-- Closing comes to what meeting demands comes to. -/
theorem ends_close (hg : g.WellFormed) (s : Items) :
    Saturation.Ends g g.firstSets (.ofItems s) (s.close g g.firstSets) := by
  cases h : s.close g g.firstSets with
  | error e =>
    obtain ⟨c, hc, he⟩ := exists_lookUps_of_close_eq_error h
    exact .fails (Saturation.mem_pending_ofItems.mpr hc) he
  | ok k =>
    obtain ⟨r, hr⟩ := Saturation.exists_ends (f := g.firstSets) hg (.ofItems s)
    cases r with
    | error e =>
      obtain ⟨c, hc, hv⟩ := (hr.error_iff hg).mp ⟨e, rfl⟩
      rw [isValid_of_close_eq_ok h c hc] at hv
      cases hv
    | ok t =>
      have hleast := hr.isLeast hg (Saturation.between_ofItems g _ s)
      rw [close_eq_ok h, (isLeast_closed hg _ s).unique hleast]
      exact hr

end Items

namespace State

variable {g : Grammar} {f : FirstSets} {s closed : State}

theorem close_eq_ok_iff :
    s.close g f = .ok closed ↔
      s.items.close g f = .ok closed.items ∧ closed.transitions = s.transitions := by
  simp only [close, bind, Except.bind]
  cases s.items.close g f with
  | error e => simp
  | ok k =>
    obtain ⟨items, transitions⟩ := closed
    simp [pure, Except.pure, eq_comm]

theorem close_eq_error_iff {e : Fault} :
    s.close g f = .error e ↔ s.items.close g f = .error e := by
  simp only [close, bind, Except.bind]
  cases s.items.close g f with
  | error e => simp
  | ok k => simp [pure, Except.pure]

/-- What closing does to a state. -/
structure Closing (g : Grammar) (f : FirstSets) (s : State) : Prop where
  /-- Meeting demands comes to an end in every order. -/
  terminates : Acc (fun s' s => Saturation.Turn g f s s') (.ofItems s.items)
  ends : Saturation.Ends g f (.ofItems s.items) (s.items.close g f)
  /-- Every order ends in a fault, or else every order ends with the items of the closed state. -/
  anyOrder {r : Except Fault Items} : Saturation.Ends g f (.ofItems s.items) r →
    (∃ e e', r = .error e ∧ s.close g f = .error e') ∨
      ∃ t, r = .ok t ∧ s.close g f = .ok ⟨t, s.transitions⟩
  fails_iff : (∃ e, s.close g f = .error e) ↔ ∃ i ∈ s.items.toList,
    g.production? i.core.production = none ∨
      ∃ rule, g.production? i.core.production = some rule ∧ rule.right.length < i.core.dot.toNat
  isLeast {closed : State} : s.close g f = .ok closed →
    IsLeast {t | s.items ≤ t ∧ t.IsClosed g f} closed.items
  idempotent {closed : State} : s.close g f = .ok closed → closed.close g f = .ok closed
  monotone {closed s' closed' : State} : s.close g f = .ok closed → s'.close g f = .ok closed' →
    s.items ≤ s'.items → closed.items ≤ closed'.items
  transitions_eq {closed : State} : s.close g f = .ok closed → closed.transitions = s.transitions
  successors {closed : State} : s.close g f = .ok closed →
    ∃ Xs, closed.items.successors g = .ok Xs ∧ (Xs.Pairwise fun X Y => X.rank < Y.rank) ∧
      ∀ X, X ∈ Xs ↔ ∃ i ∈ closed.items.toList, g.next? i.core = some X

/-- Whatever the order in which demands are met, they come to what closing comes to. -/
theorem anyOrder_of_ends (hg : g.WellFormed) {r : Except Fault Items}
    (h : Saturation.Ends g g.firstSets (.ofItems s.items) r) :
    (∃ e e', r = .error e ∧ s.close g g.firstSets = .error e') ∨
      ∃ t, r = .ok t ∧ s.close g g.firstSets = .ok ⟨t, s.transitions⟩ := by
  have hends := Items.ends_close hg s.items
  have hiff := (h.error_iff hg).trans (hends.error_iff hg).symm
  cases r with
  | error e =>
    obtain ⟨e', he⟩ := hiff.mp ⟨e, rfl⟩
    exact .inl ⟨e, e', rfl, close_eq_error_iff.mpr he⟩
  | ok t =>
    cases hc : s.items.close g g.firstSets with
    | error e =>
      obtain ⟨e', he⟩ := hiff.mpr ⟨e, hc⟩
      cases he
    | ok k =>
      rw [hc] at hends
      have start := Saturation.between_ofItems g g.firstSets s.items
      obtain rfl := (h.isLeast hg start).unique (hends.isLeast hg start)
      exact .inr ⟨t, rfl, close_eq_ok_iff.mpr ⟨hc, rfl⟩⟩

/-- Closing a state comes, in every order, to the least closed items above its own, or to a fault if
an item is not valid. -/
theorem closing_of_defined (hg : g.Defined) (s : State) : s.Closing g g.firstSets := by
  have hg := hg.wellFormed
  have items_eq {s closed : State} (h : s.close g g.firstSets = .ok closed) :
      closed.items = s.items.closed g g.firstSets := Items.close_eq_ok (close_eq_ok_iff.mp h).1
  have isValid {s closed : State} (h : s.close g g.firstSets = .ok closed) :
      ∀ c ∈ closed.items.cores, g.isValid c = true := by
    rw [items_eq h]
    intro c
    exact Items.isValid_of_mem_closed hg (Items.isValid_of_close_eq_ok (close_eq_ok_iff.mp h).1)
  have hends := Items.ends_close hg s.items
  refine ⟨(Saturation.wellFounded_turn hg).apply _, hends, anyOrder_of_ends hg, ?_, fun h => ?_,
    fun h => ?_, fun h h' hle => ?_, fun h => (close_eq_ok_iff.mp h).2, fun {closed} h => ?_⟩
  · simp only [close_eq_error_iff, hends.error_iff hg, Items.exists_mem_cores_iff,
      Grammar.isValid_eq_false_iff]
  · rw [items_eq h]
    exact Items.isLeast_closed hg _ s.items
  · refine close_eq_ok_iff.mpr ⟨?_, rfl⟩
    rw [Items.close_eq _ (isValid h), items_eq h, Items.closed_closed hg]
  · rw [items_eq h, items_eq h']
    exact Items.closed_mono hg _ hle
  · refine ⟨closed.items.nextSymbols g, Items.successors_eq (isValid h),
      Items.ascending_nextSymbols g _, fun X => ?_⟩
    rw [Items.mem_nextSymbols_iff, Items.exists_mem_cores_iff]

theorem closing_hollow :
    (ofItems (.ofList [⟨⟨⟨1⟩, 1⟩, .single .marker⟩])).Closing .hollow Grammar.hollow.firstSets ∧
      (((ofItems (.ofList [⟨⟨⟨1⟩, 1⟩, .single .marker⟩])).close .hollow
        Grammar.hollow.firstSets).toOption.any fun closed => closed.items.size = 6) = true :=
  ⟨closing_of_defined Grammar.defined_hollow _, by decide +kernel⟩

end State

end LRAutomata
