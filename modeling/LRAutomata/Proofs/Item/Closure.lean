import LRAutomata.Item.Closure
import LRAutomata.Proofs.Agenda
import LRAutomata.Proofs.Grammar.First
import LRAutomata.Proofs.Item.Items

/-!
# What closing adds

A core asks for cores at the start of productions (`Grammar.Asks`); the lookaheads that come with
them arise from what follows the nonterminal (`Grammar.Raises`) or are handed on where that can
vanish (`Grammar.Passes`). Closing adds exactly what can be reached in this way:

* `mem_cores_closed_iff`: the cores of the closed items are those that the cores of the items lead
  to by asking;
* `has_closed_iff`: a lookahead of the closed items is a lookahead of the items, or arises on the
  way (`Grammar.Arises`), and is handed on from there;
* `kernel_closed`: the kernel items stay as they are.

The agenda is empty in the end because every core put on it makes the items grow, and the items
that can be asked for are bounded (`Saturation.runs_run`). Nothing is added without a reason because
demands stay within every pair of views that is closed under them (`Saturation.run_within`).
-/

namespace LRAutomata

open Relation (ReflTransGen)

namespace Grammar

/-- `c` has its dot before the left side of the production of `d`, and `d` its dot at the start. -/
def Asks (g : Grammar) (c d : Core) : Prop :=
  ∃ n p, g.next? c = some (.nonterminal n) ∧ p ∈ g.alternatives n ∧ d = ⟨p, 0⟩

/-- `c` asks for `d` and hands its own lookaheads on to it. -/
def Passes (g : Grammar) (c d : Core) : Prop := g.Asks c d ∧ g.Vanishes (g.rest c)

/-- `c` asks for `d`, with the lookahead `t` from what follows the nonterminal in `c`. -/
def Raises (g : Grammar) (c d : Core) (t : Terminal) : Prop :=
  g.Asks c d ∧ g.CanBegin (g.rest c) t

/-- The lookahead `t` arises among what `c` leads to and is handed on to `d`. -/
def Arises (g : Grammar) (c d : Core) (t : Terminal) : Prop :=
  ∃ c₁ c₂, ReflTransGen g.Asks c c₁ ∧ g.Raises c₁ c₂ t ∧ ReflTransGen g.Passes c₂ d

theorem asks_of_passes {g : Grammar} {c d : Core} (h : ReflTransGen g.Passes c d) :
    ReflTransGen g.Asks c d := Relation.ReflTransGen.mono (fun _ _ hp => hp.1) _ _ h

theorem Arises.asks {g : Grammar} {c d : Core} {t : Terminal} (h : g.Arises c d t) :
    ReflTransGen g.Asks c d := by
  obtain ⟨c₁, c₂, h₁, hr, h₂⟩ := h
  exact (h₁.tail hr.1).trans (asks_of_passes h₂)

/-- The lookaheads of the items that an item demands. -/
def handed (g : Grammar) (f : FirstSets) (i : Item) : TerminalSet :=
  if f.allNullable (g.rest i.core) then f.ofSequence (g.rest i.core) ∪ i.lookaheads
  else f.ofSequence (g.rest i.core)

theorem mem_demands_iff {g : Grammar} {f : FirstSets} {i j : Item} :
    j ∈ g.demands f i ↔ g.Asks i.core j.core ∧ j.lookaheads = g.handed f i := by
  simp only [demands, Asks, handed]
  split
  next n hn =>
    simp only [hn, Option.some.injEq, Symbol.nonterminal.injEq, List.mem_map]
    refine ⟨fun h => ?_, fun h => ?_⟩
    · obtain ⟨p, hp, rfl⟩ := h
      exact ⟨⟨n, p, rfl, hp, rfl⟩, rfl⟩
    · obtain ⟨⟨m, p, rfl, hp, hc⟩, hl⟩ := h
      exact ⟨p, hp, by rw [← hc, ← hl]⟩
  next hn =>
    constructor
    · exact fun h => absurd h List.not_mem_nil
    · rintro ⟨⟨n, p, hX, -, -⟩, -⟩
      exact absurd hX (hn n)

section

variable {g : Grammar}

theorem WellFormed.declares_rest (hg : g.WellFormed) (c : Core) :
    ∀ X ∈ g.rest c, g.declares X = true := by
  intro X hX
  unfold rest at hX
  split at hX
  next rule hp => exact hg.declared hp X (List.mem_of_mem_drop hX)
  next => exact absurd hX List.not_mem_nil

theorem WellFormed.mem_handed_iff (hg : g.WellFormed) {i : Item} {u : Terminal} :
    u ∈ g.handed g.firstSets i ↔ g.CanBegin (g.rest i.core) u ∨
      g.Vanishes (g.rest i.core) ∧ u ∈ i.lookaheads := by
  rw [handed, ← hg.mem_ofSequence_iff (hg.declares_rest i.core), ← hg.allNullable_iff]
  split
  next h => rw [TerminalSet.mem_union, h]; simp
  next h => simp [h]

theorem Asks.start {c d : Core} (h : g.Asks c d) : d.dot = 0 := by
  obtain ⟨n, p, -, -, rfl⟩ := h
  rfl

/-- A core that is asked for is no kernel core: its dot is at the start, and the augmented start
symbol is on no right side. -/
theorem Asks.isKernel_eq_false {c d : Core} (hg : g.WellFormed) (h : g.Asks c d) :
    d.isKernel = false := by
  obtain ⟨n, p, hn, hp, rfl⟩ := h
  obtain ⟨rule, hr, hX⟩ := Option.bind_eq_some_iff.mp hn
  obtain ⟨rule', hr', rfl⟩ := hg.mem_alternatives_iff.mp hp
  have hne : p ≠ ProductionId.accept := by
    rintro rfl
    rw [hg.accept] at hr'
    cases hr'
    exact hg.unaugmented hr (List.mem_of_getElem? hX)
  simp [Core.isKernel, hne]

theorem Asks.isValid {c d : Core} (hg : g.WellFormed) (h : g.Asks c d) : g.isValid d = true := by
  obtain ⟨n, p, -, hp, rfl⟩ := h
  obtain ⟨rule, hp, -⟩ := hg.mem_alternatives_iff.mp hp
  exact (Option.any_eq_true _ _).mpr ⟨rule, hp, decide_eq_true (Nat.zero_le _)⟩

theorem eq_of_asks_kernel {c d : Core} (hg : g.WellFormed) (h : ReflTransGen g.Asks c d)
    (hd : d.isKernel = true) : c = d := by
  cases h with
  | refl => rfl
  | tail _ ha =>
    rw [ha.isKernel_eq_false hg] at hd
    cases hd

theorem Asks.production_lt {c d : Core} (hg : g.WellFormed) (h : g.Asks c d) :
    d.production.id.toNat < g.productions.size := by
  obtain ⟨n, p, -, hp, rfl⟩ := h
  obtain ⟨rule, hp, -⟩ := hg.mem_alternatives_iff.mp hp
  exact WellFormed.lt_of_production? hp

/-- What is demanded is a production with its dot at the start. -/
theorem WellFormed.start_of_mem_demands (hg : g.WellFormed) {f : FirstSets} {i j : Item}
    (h : j ∈ g.demands f i) :
    j.core.dot = 0 ∧ j.core.production.id.toNat < g.productions.size := by
  obtain ⟨ha, -⟩ := mem_demands_iff.mp h
  exact ⟨ha.start, ha.production_lt hg⟩

end

end Grammar

namespace Items

/-! ## How much can be asked for -/

/-- A core counts once for being there and once for each lookahead. -/
def coreWeight : Option TerminalSet → Nat
  | none => 0
  | some a => 1 + a.size

/-- The core at the start of a production. -/
def startCore (p : Nat) : Core := ⟨⟨UInt16.ofNat p⟩, 0⟩

/-- What the cores at the start of the first `count` productions count for together. -/
def startWeight (count : Nat) (s : Items) : Nat :=
  ((List.range count).map fun p => coreWeight (s.lookaheads? (startCore p))).sum

theorem startWeight_le (count : Nat) (s : Items) :
    s.startWeight count ≤ (TerminalSet.capacity + 1) * count := by
  have bound : ∀ o : Option TerminalSet, coreWeight o ≤ TerminalSet.capacity + 1 := by
    intro o
    cases o with
    | none => exact Nat.zero_le _
    | some a => have := a.size_le_capacity; simp only [coreWeight]; omega
  have := List.sum_le_card_nsmul
    ((List.range count).map fun p => coreWeight (s.lookaheads? (startCore p)))
    (TerminalSet.capacity + 1) (by simpa using fun p _ => bound _)
  simpa [startWeight, Nat.mul_comm] using this

theorem coreWeight_insert_le (s : Items) (i : Item) (c : Core) :
    coreWeight (s.lookaheads? c) ≤ coreWeight ((s.insert i).value.lookaheads? c) := by
  rw [lookaheads?_insert]
  split <;> [skip; exact Nat.le_refl _]
  cases s.lookaheads? c with
  | none => exact Nat.zero_le _
  | some a =>
    have := TerminalSet.size_mono (s := a) (t := a ∪ i.lookaheads)
      (TerminalSet.subset_iff.mpr fun u hu => TerminalSet.mem_union.mpr (.inl hu))
    simp only [coreWeight, Option.getD_some]
    omega

theorem coreWeight_insert_lt {s : Items} {i : Item} (h : (s.insert i).changed = true) :
    coreWeight (s.lookaheads? i.core) < coreWeight ((s.insert i).value.lookaheads? i.core) := by
  rw [lookaheads?_insert, if_pos rfl]
  cases hs : s.lookaheads? i.core with
  | none => simp only [coreWeight]; omega
  | some a =>
    have hnew : ∃ u ∈ i.lookaheads, u ∉ a := by
      rcases new_of_changed_insert h with hn | ⟨u, hu, hn⟩
      · rw [lookaheads?_eq_none_iff.mpr hn] at hs; cases hs
      · exact ⟨u, hu, fun ha => hn ⟨a, hs, ha⟩⟩
    obtain ⟨u, hu, hn⟩ := hnew
    have := TerminalSet.size_lt_of_subset (s := a) (t := a ∪ i.lookaheads)
      (TerminalSet.subset_iff.mpr fun v hv => TerminalSet.mem_union.mpr (.inl hv))
      (fun hsub => hn (TerminalSet.subset_iff.mp hsub u (TerminalSet.mem_union.mpr (.inr hu))))
    simp only [coreWeight, Option.getD_some]
    omega

theorem startWeight_insert_le (count : Nat) (s : Items) (i : Item) :
    s.startWeight count ≤ (s.insert i).value.startWeight count :=
  List.sum_le_sum fun _ _ => coreWeight_insert_le s i _

theorem startWeight_insert_lt {count : Nat} {s : Items} {i : Item} (hd : i.core.dot = 0)
    (hp : i.core.production.id.toNat < count) (h : (s.insert i).changed = true) :
    s.startWeight count < (s.insert i).value.startWeight count := by
  refine List.sum_lt_sum _ _ (fun _ _ => coreWeight_insert_le s i _)
    ⟨i.core.production.id.toNat, List.mem_range.mpr hp, ?_⟩
  have hc : startCore i.core.production.id.toNat = i.core := by
    rw [startCore, UInt16.ofNat_toNat, ← hd]
  rw [hc]
  exact coreWeight_insert_lt h

end Items

namespace Saturation

variable {g : Grammar} {f : FirstSets}

/-! ## What one core on the agenda brings about -/

/-- Nothing is lost from `s` to `s'`, and an item that differs has its core on the agenda. -/
structure Extends (s s' : Saturation) : Prop where
  cores {c : Core} : c ∈ s.items.cores → c ∈ s'.items.cores
  has {c : Core} {u : Terminal} : s.items.Has c u → s'.items.Has c u
  pending {c : Core} : c ∈ s.agenda.pending → c ∈ s'.agenda.pending
  fresh (c : Core) : s'.items.item? c = s.items.item? c ∨ c ∈ s'.agenda.pending

theorem Extends.refl (s : Saturation) : Extends s s := ⟨id, id, id, fun _ => .inl rfl⟩

theorem Extends.trans {s s' s'' : Saturation} (h : Extends s s') (h' : Extends s' s'') :
    Extends s s'' where
  cores hc := h'.cores (h.cores hc)
  has hu := h'.has (h.has hu)
  pending hc := h'.pending (h.pending hc)
  fresh c := by
    rcases h'.fresh c with h₁ | h₁
    · exact (h.fresh c).imp (h₁.trans ·) h'.pending
    · exact .inr h₁

theorem extends_receive (s : Saturation) (i : Item) : Extends s (s.receive i) where
  cores hc := Items.mem_cores_insert.mpr (.inr hc)
  has hu := Items.has_insert.mpr (.inl hu)
  pending {c} hc := by
    simp only [receive]
    split <;> [skip; exact hc]
    exact Agenda.mem_pending_push.mpr (.inl hc)
  fresh c := by
    simp only [receive]
    by_cases hc : c = i.core
    · cases hch : (s.items.insert i).changed with
      | false => exact .inl (by rw [Items.insert_of_unchanged hch])
      | true =>
        rw [if_pos rfl]
        exact .inr (Agenda.mem_pending_push.mpr (.inr hc))
    · exact .inl (Items.item?_insert_of_ne hc)

theorem extends_foldl (is : List Item) (s : Saturation) : Extends s (is.foldl receive s) := by
  induction is generalizing s with
  | nil => exact .refl s
  | cons i is ih => exact (extends_receive s i).trans (ih _)

theorem items_foldl (is : List Item) (s : Saturation) :
    (is.foldl receive s).items = is.foldl (fun t i => (t.insert i).value) s.items := by
  induction is generalizing s with
  | nil => rfl
  | cons i is ih => rw [List.foldl_cons, ih]; rfl

/-- Every core that gets on the agenda makes the items count for more. -/
theorem pending_receive_le {count : Nat} {i : Item} (hd : i.core.dot = 0)
    (hp : i.core.production.id.toNat < count) (s : Saturation) :
    (s.receive i).agenda.pending.length + s.items.startWeight count ≤
      s.agenda.pending.length + (s.receive i).items.startWeight count := by
  simp only [receive]
  cases hc : (s.items.insert i).changed with
  | false =>
    have := Items.startWeight_insert_le count s.items i
    simp only [Bool.false_eq_true, if_false]
    omega
  | true =>
    have := Items.startWeight_insert_lt hd hp hc
    simp only [if_true, Agenda.pending_push]
    split
    · omega
    · simp only [List.length_append, List.length_singleton]; omega

theorem pending_foldl_le {count : Nat} {is : List Item}
    (h : ∀ i ∈ is, i.core.dot = 0 ∧ i.core.production.id.toNat < count) (s : Saturation) :
    (is.foldl receive s).agenda.pending.length + s.items.startWeight count ≤
      s.agenda.pending.length + (is.foldl receive s).items.startWeight count := by
  induction is generalizing s with
  | nil => exact Nat.le_refl _
  | cons i is ih =>
    obtain ⟨hd, hp⟩ := h i List.mem_cons_self
    have h₁ := pending_receive_le hd hp s
    have h₂ := ih (fun j hj => h j (List.mem_cons_of_mem _ hj)) (s.receive i)
    rw [List.foldl_cons]
    omega

/-! ## Whole runs -/

/-- What the item with core `c` demands is there. -/
def Met (g : Grammar) (f : FirstSets) (s : Items) (c : Core) : Prop :=
  ∀ i, s.item? c = some i → ∀ j ∈ g.demands f i,
    j.core ∈ s.cores ∧ ∀ u ∈ j.lookaheads, s.Has j.core u

/-- What is done for one core on the agenda. -/
def expand (g : Grammar) (f : FirstSets) (c : Core) (s : Saturation) : Saturation :=
  (match s.items.item? c with
    | some i => g.demands f i
    | none => []).foldl receive s

theorem run_of_pop?_none {s : Saturation} (h : s.agenda.pop? = none) (bound : Nat) :
    run g f bound s = s.items := by
  cases bound with
  | zero => rfl
  | succ n => rw [run, h]

theorem run_succ {s : Saturation} {c : Core} {agenda : Agenda Core}
    (h : s.agenda.pop? = some (c, agenda)) (bound : Nat) :
    run g f (bound + 1) s = run g f bound (expand g f c ⟨s.items, agenda⟩) := by
  rw [run, h]; rfl

/-- Receiving all that a core demands meets its demands, and leaves those met that were. -/
theorem foldl_met {s : Saturation} {c : Core} {is : List Item}
    (his : ∀ i, s.items.item? c = some i → ∀ j ∈ g.demands f i, j ∈ is)
    (h : ∀ d, d = c ∨ d ∈ s.agenda.pending ∨ Met g f s.items d) :
    ∀ d, d ∈ (is.foldl receive s).agenda.pending ∨ Met g f (is.foldl receive s).items d := by
  have ext : Extends s (is.foldl receive s) := extends_foldl is s
  intro d
  rcases ext.fresh d with hd | hd <;> [skip; exact .inl hd]
  rcases h d with rfl | hp | hm
  · refine .inr fun i hi j hj => ?_
    rw [hd] at hi
    have hjs : j ∈ is := his i hi j hj
    rw [items_foldl]
    refine ⟨(Items.mem_cores_foldl_insert _).mpr (.inr ⟨j, hjs, rfl⟩), fun u hu => ?_⟩
    exact (Items.has_foldl_insert _).mpr (.inr ⟨j, hjs, rfl, hu⟩)
  · exact .inl (ext.pending hp)
  · refine .inr fun i hi j hj => ?_
    obtain ⟨hc, hu⟩ := hm i (hd ▸ hi) j hj
    exact ⟨ext.cores hc, fun u h => ext.has (hu u h)⟩

/-- Expanding a core meets its demands, and leaves those met that were. -/
theorem expand_met {s : Saturation} {c : Core}
    (h : ∀ d, d = c ∨ d ∈ s.agenda.pending ∨ Met g f s.items d) :
    ∀ d, d ∈ (expand g f c s).agenda.pending ∨ Met g f (expand g f c s).items d :=
  foldl_met (fun i hi j hj => by rw [hi]; exact hj) h

theorem pending_expand_le (hg : g.WellFormed) (c : Core) (s : Saturation) :
    (expand g f c s).agenda.pending.length + s.items.startWeight g.productions.size ≤
      s.agenda.pending.length + (expand g f c s).items.startWeight g.productions.size := by
  refine pending_foldl_le (fun j hj => ?_) s
  split at hj
  next i hi => exact hg.start_of_mem_demands hj
  next => exact absurd hj List.not_mem_nil

/-- Meeting demands for as long as there are cores on the agenda leads from `s` to the items. -/
inductive Runs (g : Grammar) (f : FirstSets) : Saturation → Items → Prop where
  | done {s : Saturation} : s.agenda.pop? = none → Runs g f s s.items
  | more {s : Saturation} {c : Core} {agenda : Agenda Core} {items : Items} :
    s.agenda.pop? = some (c, agenda) → Runs g f (expand g f c ⟨s.items, agenda⟩) items →
    Runs g f s items

/-- With enough cores to take from the agenda, a run goes on for as long as there are any. -/
theorem runs_run (hg : g.WellFormed) (bound : Nat) {s : Saturation}
    (hb : s.agenda.pending.length + (TerminalSet.capacity + 1) * g.productions.size ≤
      bound + s.items.startWeight g.productions.size) : Runs g f s (run g f bound s) := by
  induction bound generalizing s with
  | zero =>
    have := s.items.startWeight_le g.productions.size
    have hnil : s.agenda.pending = [] := List.eq_nil_of_length_eq_zero (by omega)
    exact .done (Agenda.pop?_eq_none_iff.mpr hnil)
  | succ n ih =>
    cases hp : s.agenda.pop? with
    | none =>
      rw [run_of_pop?_none hp]
      exact .done hp
    | some r =>
      obtain ⟨c, agenda⟩ := r
      have hpend := Agenda.pending_of_pop? hp
      rw [run_succ hp]
      refine .more hp (ih ?_)
      have := pending_expand_le (f := f) hg c ⟨s.items, agenda⟩
      rw [hpend, List.length_cons] at hb
      simp only at this
      omega

/-- In the end all demands are met. -/
theorem Runs.met {s : Saturation} {items : Items} (h : Runs g f s items)
    (hm : ∀ c, c ∈ s.agenda.pending ∨ Met g f s.items c) : ∀ c, Met g f items c := by
  induction h with
  | done hp =>
    intro c
    exact (hm c).resolve_left (Agenda.pop?_eq_none_iff.mp hp ▸ List.not_mem_nil)
  | more hp _ ih =>
    have hpend := Agenda.pending_of_pop? hp
    refine ih (expand_met fun d => ?_)
    rcases hm d with hd | hd
    · rw [hpend] at hd
      exact (List.mem_cons.mp hd).imp id .inl
    · exact .inr (.inr hd)

/-- A run loses nothing. -/
theorem run_extends (bound : Nat) (s : Saturation) :
    (∀ c ∈ s.items.cores, c ∈ (run g f bound s).cores) ∧
      ∀ c u, s.items.Has c u → (run g f bound s).Has c u := by
  induction bound generalizing s with
  | zero => exact ⟨fun _ h => h, fun _ _ h => h⟩
  | succ n ih =>
    cases hp : s.agenda.pop? with
    | none =>
      rw [run_of_pop?_none hp]
      exact ⟨fun _ h => h, fun _ _ h => h⟩
    | some r =>
      obtain ⟨c, agenda⟩ := r
      have ext : Extends ⟨s.items, agenda⟩ (expand g f c ⟨s.items, agenda⟩) := extends_foldl _ _
      rw [run_succ hp]
      obtain ⟨hc, hu⟩ := ih (expand g f c ⟨s.items, agenda⟩)
      exact ⟨fun c h => hc c (ext.cores h), fun c u h => hu c u (ext.has h)⟩

/-- Every core is among `K`, and every core with a lookahead among `L`. -/
def Within (K : Core → Prop) (L : Core → Terminal → Prop) (s : Items) : Prop :=
  (∀ c ∈ s.cores, K c) ∧ ∀ c u, s.Has c u → L c u

section

variable {K : Core → Prop} {L : Core → Terminal → Prop}

/-- Receiving items that are within adds nothing else. -/
theorem foldl_within {is : List Item}
    (his : ∀ j ∈ is, K j.core ∧ ∀ u ∈ j.lookaheads, L j.core u) {s : Saturation}
    (h : Within K L s.items) : Within K L (is.foldl receive s).items := by
  rw [Within, items_foldl]
  constructor
  · intro d hd
    rcases (Items.mem_cores_foldl_insert _).mp hd with hd | ⟨j, hj, rfl⟩
    · exact h.1 d hd
    · exact (his j hj).1
  · intro d u hu
    rcases (Items.has_foldl_insert _).mp hu with hu | ⟨j, hj, rfl, hl⟩
    · exact h.2 d u hu
    · exact (his j hj).2 u hl

/-- What a core demands is within all that is closed under demands. -/
theorem expand_within
    (closed : ∀ i : Item, K i.core → (∀ u ∈ i.lookaheads, L i.core u) →
      ∀ j ∈ g.demands f i, K j.core ∧ ∀ u ∈ j.lookaheads, L j.core u)
    (c : Core) {s : Saturation} (h : Within K L s.items) :
    Within K L (expand g f c s).items := by
  refine foldl_within (fun j hj => ?_) h
  split at hj
  next i hi =>
    obtain ⟨hm, rfl⟩ := Items.item?_eq_some_iff.mp hi
    exact closed i (h.1 _ (Items.mem_cores_of_mem hm))
      (fun u hu => h.2 _ u ((Items.has_of_mem hm).mpr hu)) j hj
  next => exact absurd hj List.not_mem_nil

/-- A run stays within all that is closed under demands. -/
theorem run_within
    (closed : ∀ i : Item, K i.core → (∀ u ∈ i.lookaheads, L i.core u) →
      ∀ j ∈ g.demands f i, K j.core ∧ ∀ u ∈ j.lookaheads, L j.core u)
    (bound : Nat) {s : Saturation} (h : Within K L s.items) : Within K L (run g f bound s) := by
  induction bound generalizing s with
  | zero => exact h
  | succ n ih =>
    cases hp : s.agenda.pop? with
    | none => rwa [run_of_pop?_none hp]
    | some r =>
      obtain ⟨c, agenda⟩ := r
      have step : Within K L (expand g f c ⟨s.items, agenda⟩).items := expand_within closed c h
      rw [run_succ hp]
      exact ih step

end

end Saturation

/-! ## The closed items -/

namespace Items

variable {g : Grammar} {s t : Items} {c d : Core} {u : Terminal}

open Grammar

/-- Closing goes on for as long as there are demands to be met. -/
theorem runs_closed (hg : g.WellFormed) (f : FirstSets) (s : Items) :
    Saturation.Runs g f ⟨s, Agenda.ofList s.cores⟩ (s.closed g f) := by
  have hl := Agenda.length_pending_ofList_le s.cores
  have : s.cores.length = s.size := List.length_map ..
  refine Saturation.runs_run hg _ ?_
  simp only [closureBound]
  omega

theorem closed_met (hg : g.WellFormed) (f : FirstSets) (s : Items) (c : Core) :
    Saturation.Met g f (s.closed g f) c := by
  refine (runs_closed hg f s).met (fun c => ?_) c
  by_cases hc : c ∈ s.cores
  · exact .inl (Agenda.mem_pending_ofList.mpr hc)
  · refine .inr fun i hi => absurd ?_ hc
    obtain ⟨hs, rfl⟩ := item?_eq_some_iff.mp hi
    exact mem_cores_of_mem hs

/-- What is asked for in the closed items is there. -/
theorem mem_cores_closed_of_asks (hg : g.WellFormed) (h : c ∈ (s.closed g g.firstSets).cores)
    (ha : g.Asks c d) : d ∈ (s.closed g g.firstSets).cores := by
  obtain ⟨i, hi, rfl⟩ := mem_cores_iff.mp h
  exact (closed_met hg _ s _ i (item?_of_mem hi) ⟨d, g.handed g.firstSets i⟩
    (mem_demands_iff.mpr ⟨ha, rfl⟩)).1

theorem has_closed_of_handed (hg : g.WellFormed) {i : Item}
    (hi : i ∈ (s.closed g g.firstSets).toList) (ha : g.Asks i.core d)
    (hu : u ∈ g.handed g.firstSets i) : (s.closed g g.firstSets).Has d u :=
  (closed_met hg _ s _ i (item?_of_mem hi) ⟨d, g.handed g.firstSets i⟩
    (mem_demands_iff.mpr ⟨ha, rfl⟩)).2 u hu

theorem has_closed_of_raises (hg : g.WellFormed) (h : c ∈ (s.closed g g.firstSets).cores)
    (hr : g.Raises c d u) : (s.closed g g.firstSets).Has d u := by
  obtain ⟨i, hi, rfl⟩ := mem_cores_iff.mp h
  exact has_closed_of_handed hg hi hr.1 (hg.mem_handed_iff.mpr (.inl hr.2))

theorem has_closed_of_passes (hg : g.WellFormed) (h : (s.closed g g.firstSets).Has c u)
    (hp : g.Passes c d) : (s.closed g g.firstSets).Has d u := by
  obtain ⟨i, hi, rfl, hu⟩ := has_iff.mp h
  exact has_closed_of_handed hg hi hp.1 (hg.mem_handed_iff.mpr (.inr ⟨hp.2, hu⟩))

/-- What closing adds is justified by the items it starts from. -/
theorem closed_within (hg : g.WellFormed) (s : Items) :
    Saturation.Within (fun d => ∃ c ∈ s.cores, ReflTransGen g.Asks c d)
      (fun d u => (∃ c, s.Has c u ∧ ReflTransGen g.Passes c d) ∨ ∃ c ∈ s.cores, g.Arises c d u)
      (s.closed g g.firstSets) := by
  refine Saturation.run_within (fun i hK hL j hj => ?_) _
    ⟨fun c hc => ⟨c, hc, .refl⟩, fun c u hu => .inl ⟨c, hu, .refl⟩⟩
  obtain ⟨ha, hl⟩ := mem_demands_iff.mp hj
  obtain ⟨c, hc, hci⟩ := hK
  refine ⟨⟨c, hc, hci.tail ha⟩, fun u hu => ?_⟩
  rw [hl] at hu
  rcases hg.mem_handed_iff.mp hu with hb | ⟨hv, hu⟩
  · exact .inr ⟨c, hc, i.core, j.core, hci, ⟨ha, hb⟩, .refl⟩
  · rcases hL u hu with ⟨c', hc', hp⟩ | ⟨c', hc', c₁, c₂, h₁, hr, h₂⟩
    · exact .inl ⟨c', hc', hp.tail ⟨ha, hv⟩⟩
    · exact .inr ⟨c', hc', c₁, c₂, h₁, hr, h₂.tail ⟨ha, hv⟩⟩

theorem le_closed (g : Grammar) (f : FirstSets) (s : Items) :
    (∀ c ∈ s.cores, c ∈ (s.closed g f).cores) ∧ ∀ c u, s.Has c u → (s.closed g f).Has c u :=
  Saturation.run_extends _ ⟨s, _⟩

/-- The cores of the closed items are those that asking leads to. -/
theorem mem_cores_closed_iff (hg : g.WellFormed) :
    d ∈ (s.closed g g.firstSets).cores ↔ ∃ c ∈ s.cores, ReflTransGen g.Asks c d := by
  constructor
  · exact (closed_within hg s).1 d
  · rintro ⟨c, hc, h⟩
    induction h with
    | refl => exact (le_closed g _ s).1 c hc
    | tail _ ha ih => exact mem_cores_closed_of_asks hg ih ha

/-- Closing valid cores gives valid cores. -/
theorem isValid_of_mem_closed (hg : g.WellFormed) (hs : ∀ c ∈ s.cores, g.isValid c = true)
    (h : d ∈ (s.closed g g.firstSets).cores) : g.isValid d = true := by
  obtain ⟨c, hc, ha⟩ := (mem_cores_closed_iff hg).mp h
  cases ha with
  | refl => exact hs d hc
  | tail _ ha => exact ha.isValid hg

/-- A lookahead of the closed items comes from the items or arises on the way. -/
theorem has_closed_iff (hg : g.WellFormed) :
    (s.closed g g.firstSets).Has d u ↔
      (∃ c, s.Has c u ∧ ReflTransGen g.Passes c d) ∨ ∃ c ∈ s.cores, g.Arises c d u := by
  constructor
  · exact (closed_within hg s).2 d u
  · have pass : ∀ {c d}, (s.closed g g.firstSets).Has c u → ReflTransGen g.Passes c d →
        (s.closed g g.firstSets).Has d u := by
      intro c d h hp
      induction hp with
      | refl => exact h
      | tail _ hs ih => exact has_closed_of_passes hg ih hs
    rintro (⟨c, hc, hp⟩ | ⟨c, hc, c₁, c₂, h₁, hr, h₂⟩)
    · exact pass ((le_closed g _ s).2 c u hc) hp
    · exact pass (has_closed_of_raises hg (mem_cores_closed_iff hg |>.mpr ⟨c, hc, h₁⟩) hr) h₂

/-- Closing makes the same cores out of the same cores. -/
theorem cores_closed_congr (hg : g.WellFormed) (h : s.cores = t.cores) :
    (s.closed g g.firstSets).cores = (t.closed g g.firstSets).cores := by
  refine cores_eq_iff.mpr fun c => ?_
  rw [mem_cores_closed_iff hg, mem_cores_closed_iff hg, h]

/-- Closing neither adds kernel items nor changes those that there are. -/
theorem kernel_closed (hg : g.WellFormed) (s : Items) :
    (s.closed g g.firstSets).kernel = s.kernel := by
  refine eq_of_views (fun d => ?_) (fun d u => ?_)
  · rw [mem_cores_kernel, mem_cores_kernel]
    refine and_congr_left fun hk => ⟨fun h => ?_, (le_closed g _ s).1 d⟩
    obtain ⟨c, hc, ha⟩ := (mem_cores_closed_iff hg).mp h
    rwa [← eq_of_asks_kernel hg ha hk]
  · rw [has_kernel, has_kernel]
    refine and_congr_left fun hk => ⟨fun h => ?_, (le_closed g _ s).2 d u⟩
    rcases (has_closed_iff hg).mp h with ⟨c, hc, hp⟩ | ⟨c, -, c₁, c₂, -, hr, hp⟩
    · rwa [← eq_of_asks_kernel hg (asks_of_passes hp) hk]
    · -- nothing arises at a kernel core
      obtain rfl := eq_of_asks_kernel hg (asks_of_passes hp) hk
      rw [hr.1.isKernel_eq_false hg] at hk
      cases hk

/-- Kernel items are the kernel of what they are closed to. -/
theorem kernel_closed_eq_self (hg : g.WellFormed) (hs : ∀ c ∈ s.cores, c.isKernel = true) :
    (s.closed g g.firstSets).kernel = s := by
  rw [kernel_closed hg, kernel_eq_self hs]

/-- Valid items can be closed. -/
theorem close_eq (f : FirstSets) (h : ∀ c ∈ s.cores, g.isValid c = true) :
    s.close g f = .ok (s.closed g f) := by
  rw [close, requireValid_eq_ok h]
  rfl

/-- Items can be closed only if they are valid, and then they are. -/
theorem close_eq_ok {f : FirstSets} {k : Items} (h : s.close g f = .ok k) : k = s.closed g f := by
  simp only [close, bind, Except.bind] at h
  split at h <;> [cases h; skip]
  exact (Except.ok.inj h).symm

end Items

end LRAutomata
