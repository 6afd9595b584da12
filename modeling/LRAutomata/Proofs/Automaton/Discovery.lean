import LRAutomata.Proofs.Automaton.Generate
import Mathlib.Data.List.Shortlex

/-!
# The order in which states are found

States are visited by number, and the symbols of each in order, so that transitions are found in the
order `EdgeLt` of their sources and symbols.

* `Automaton.InTurn`: before a transition leads to a state, others have led to all the states with
  smaller numbers; following one symbol keeps this (`Explored.inTurn_step`), and so it holds of
  what is generated (`inTurn_of_generate`);
* `Precedes`: shorter paths come first, and paths of one length in the order of their symbols;
* `InTurn.exists_precedes`: a path to a state comes after a path to any earlier state;
* `InTurn.exists_lt`: what this says of two automata in which the same paths lead somewhere;
* `InTurn.walk?_eq`: if they lead to one state in the one where they do in the other, all numbers
  are the same.
-/

namespace LRAutomata

instance trichotomous_rank : Std.Trichotomous fun X Y : Symbol => X.rank < Y.rank :=
  ⟨fun _ _ h h' => Symbol.rank_inj (Nat.le_antisymm (Nat.le_of_not_lt h') (Nat.le_of_not_lt h))⟩

/-- A path is shorter than another, or as long and at the first difference has the symbol that
comes first. -/
def Precedes (u v : List Symbol) : Prop := List.Shortlex (fun X Y => X.rank < Y.rank) u v

section

variable {u v w : List Symbol} {X Y : Symbol}

theorem wellFounded_precedes : WellFounded Precedes :=
  List.Shortlex.wf (InvImage.wf Symbol.rank Nat.lt_wfRel.wf)

theorem precedes_trichotomy (u v : List Symbol) : Precedes u v ∨ u = v ∨ Precedes v u :=
  trichotomous_of (List.Shortlex fun X Y : Symbol => X.rank < Y.rank) u v

theorem precedes_nil (h : v ≠ []) : Precedes [] v :=
  .of_length_lt (List.length_pos_iff.mpr h)

theorem Precedes.trans (h : Precedes u v) (h' : Precedes v w) : Precedes u w := by
  rcases List.shortlex_def.mp h with h | ⟨hlen, hlex⟩
  · rcases List.shortlex_def.mp h' with h' | ⟨hlen', -⟩
    · exact .of_length_lt (Nat.lt_trans h h')
    · exact .of_length_lt (hlen' ▸ h)
  · rcases List.shortlex_def.mp h' with h' | ⟨hlen', hlex'⟩
    · exact .of_length_lt (hlen ▸ h')
    · exact .of_lex (hlen.trans hlen') (List.lex_trans Nat.lt_trans hlex hlex')

theorem Precedes.irrefl (u : List Symbol) : ¬ Precedes u u :=
  wellFounded_precedes.irrefl.irrefl u

/-- One more symbol on the same path. -/
theorem precedes_concat (h : X.rank < Y.rank) : Precedes (u ++ [X]) (u ++ [Y]) :=
  .append_left ((List.shortlex_singleton_iff X Y).mpr h) u

/-- One more symbol, whichever it is, on two different paths. -/
theorem Precedes.concat (h : Precedes u v) (X Y : Symbol) : Precedes (u ++ [X]) (v ++ [Y]) := by
  rcases List.shortlex_def.mp h with h | ⟨hlen, hlex⟩
  · refine .of_length_lt ?_
    rw [List.length_append, List.length_append]
    exact Nat.add_lt_add_right h 1
  · refine .of_lex ?_ ?_
    · rw [List.length_append, List.length_append, hlen]
      rfl
    · clear h
      induction hlex with
      | nil => cases hlen
      | cons _ ih => exact .cons (ih (Nat.succ.inj hlen))
      | rel hr => exact .rel hr

end

/-- The transition from `s` on `X` is found before that from `t` on `Y`. -/
def EdgeLt (s : StateId) (X : Symbol) (t : StateId) (Y : Symbol) : Prop :=
  s.number < t.number ∨ s = t ∧ X.rank < Y.rank

namespace Automaton

variable {g : Grammar} {o : Options} {a b : Automaton} {s t q r : StateId} {n : Node} {X : Symbol}
  {path : List Symbol}

/-! ## States in turn -/

/-- Before a transition leads to a state, others have led to all the states with smaller numbers, the
first state apart. -/
def InTurn (a : Automaton) : Prop := ∀ s X t, a.goto? s X = some t → ∀ r : StateId,
  0 < r.number → r.number < t.number → ∃ q Y, a.goto? q Y = some r ∧ EdgeLt q Y s X

/-- A path to a state comes after some path to any earlier state. -/
theorem InTurn.exists_precedes (ha : a.InTurn) (ht : a.walk? path = some t)
    (hlt : r.number < t.number) : ∃ path', a.walk? path' = some r ∧ Precedes path' path := by
  induction path using List.reverseRecOn generalizing t r with
  | nil =>
    cases ht
    exact absurd hlt (Nat.not_lt_zero _)
  | append_singleton path X ih =>
    obtain ⟨s, hs, ht⟩ := walk?_concat_eq_some.mp ht
    rcases Nat.eq_zero_or_pos r.number with hz | hpos
    · obtain rfl : r = StateId.initial := congrArg StateId.mk hz
      exact ⟨[], rfl, precedes_nil (List.append_ne_nil_of_right_ne_nil _ (List.cons_ne_nil _ _))⟩
    · -- the edge that led to `r` leaves an earlier state, or the same one on an earlier symbol
      obtain ⟨q, Y, hq, hlt⟩ := ha s X t ht r hpos hlt
      rcases hlt with hlt | ⟨rfl, hY⟩
      · obtain ⟨path', hp, hprec⟩ := ih hs hlt
        exact ⟨path' ++ [Y], walk?_concat_eq_some.mpr ⟨q, hp, hq⟩, hprec.concat Y X⟩
      · exact ⟨path ++ [Y], walk?_concat_eq_some.mpr ⟨q, hs, hq⟩, precedes_concat hY⟩

/-- The path leads to the state, and every other path to it comes later. -/
structure LeastPath (a : Automaton) (s : StateId) (path : List Symbol) : Prop where
  leads : a.walk? path = some s
  least {other : List Symbol} : a.walk? other = some s → other = path ∨ Precedes path other

theorem exists_leastPath (h : ∃ path, a.walk? path = some s) : ∃ path, a.LeastPath s path := by
  obtain ⟨path, hs, hmin⟩ := wellFounded_precedes.has_min {path | a.walk? path = some s} h
  refine ⟨path, hs, fun {other} ho => ?_⟩
  rcases precedes_trichotomy other path with hlt | he | hlt
  · exact absurd hlt (hmin other ho)
  · exact .inl he
  · exact .inr hlt

/-- The least path to a state comes before all paths to later states. -/
theorem InTurn.precedes_of_leastPath (ha : a.InTurn) (hs : a.LeastPath s path)
    {other : List Symbol} (ht : a.walk? other = some t) (hlt : s.number < t.number) :
    Precedes path other := by
  obtain ⟨between, hb, hprec⟩ := ha.exists_precedes ht hlt
  rcases hs.least hb with rfl | hleast
  · exact hprec
  · exact hleast.trans hprec

/-- If a state of `b` is earlier than the one that `s` stands for, it is one that an earlier state
than `s` stands for: the least path to `s` comes after a path to it. -/
theorem InTurn.exists_lt (ha : a.InTurn) (hb : b.InTurn) {φ : StateId → StateId}
    (hφ : ∀ path, b.walk? path = (a.walk? path).map φ) (hs : ∃ path, a.walk? path = some s)
    (hlt : q.number < (φ s).number) : ∃ r, r.number < s.number ∧ φ r = q := by
  obtain ⟨path, hpath⟩ := exists_leastPath hs
  have hφs : b.walk? path = some (φ s) := by rw [hφ, hpath.leads, Option.map_some]
  obtain ⟨path', hq, hprec⟩ := hb.exists_precedes hφs hlt
  rw [hφ] at hq
  obtain ⟨r, hr, rfl⟩ := Option.map_eq_some_iff.mp hq
  refine ⟨r, ?_, rfl⟩
  by_contra hnot
  have hle : s.number ≤ r.number := Nat.le_of_not_lt hnot
  rcases Nat.lt_or_eq_of_le hle with hsr | he
  · exact Precedes.irrefl _ ((ha.precedes_of_leastPath hpath hr hsr).trans hprec)
  · obtain rfl : s = r := congrArg StateId.mk he
    exact Nat.lt_irrefl _ hlt

/-- If different states stand for different ones, every state stands for that of its own number. -/
theorem InTurn.eq_self (ha : a.InTurn) (hb : b.InTurn) {φ : StateId → StateId}
    (hφ : ∀ path, b.walk? path = (a.walk? path).map φ)
    (hinj : ∀ u v s t, a.walk? u = some s → a.walk? v = some t → φ s = φ t → s = t)
    (hs : a.walk? path = some s) : φ s = s := by
  induction hk : s.number using Nat.strongRecOn generalizing s path with
  | ind k ih =>
  subst hk
  rcases Nat.lt_trichotomy (φ s).number s.number with hlt | he | hlt
  · -- the earlier state of that number stands for itself already
    obtain ⟨path', hr, -⟩ := ha.exists_precedes hs hlt
    exact hinj path' path _ s hr hs (ih _ hlt hr rfl)
  · exact congrArg StateId.mk he
  · -- what stands for `s` would be an earlier state, which stands for itself
    obtain ⟨r, hr, hφr⟩ := ha.exists_lt hb hφ ⟨path, hs⟩ hlt
    obtain ⟨path', hr', -⟩ := ha.exists_precedes hs hr
    rw [ih _ hr hr' rfl] at hφr
    exact absurd (hφr ▸ hr) (Nat.lt_irrefl _)

/-- Two automata whose states were found in turn give them the same numbers, provided that the same
paths lead somewhere and the same paths lead to one state. -/
theorem InTurn.walk?_eq (ha : a.InTurn) (hb : b.InTurn)
    (hsome : ∀ path, (a.walk? path).isSome = (b.walk? path).isSome)
    (hsame : ∀ u v s t q r, a.walk? u = some s → a.walk? v = some t → b.walk? u = some q →
      b.walk? v = some r → (s = t ↔ q = r)) (path : List Symbol) :
    b.walk? path = a.walk? path := by
  have target (s : StateId) : ∃ q, ∀ u, a.walk? u = some s → b.walk? u = some q := by
    by_cases hs : ∃ u, a.walk? u = some s
    · obtain ⟨u, hu⟩ := hs
      obtain ⟨q, hq⟩ := Option.isSome_iff_exists.mp (hsome u ▸ Option.isSome_of_eq_some hu)
      refine ⟨q, fun v hv => ?_⟩
      obtain ⟨r, hr⟩ := Option.isSome_iff_exists.mp (hsome v ▸ Option.isSome_of_eq_some hv)
      rw [hr, (hsame u v s s q r hu hv hq hr).mp rfl]
    · exact ⟨s, fun u hu => absurd ⟨u, hu⟩ hs⟩
  choose φ hφ using target
  have hmap (path : List Symbol) : b.walk? path = (a.walk? path).map φ := by
    cases hs : a.walk? path with
    | some s => exact hφ s path hs
    | none => rw [Option.map_none, ← Option.not_isSome_iff_eq_none, ← hsome, hs]; simp
  have hinj (u v : List Symbol) (s t : StateId) (hu : a.walk? u = some s)
      (hv : a.walk? v = some t) (he : φ s = φ t) : s = t :=
    (hsame u v s t _ _ hu hv (hφ s u hu) (hφ t v hv)).mpr he
  rw [hmap]
  cases hs : a.walk? path with
  | none => rfl
  | some s => rw [Option.map_some, ha.eq_self hb hmap hinj hs]

end Automaton

/-! ## While states are found -/

namespace Generator

variable {g : Grammar} {o : Options} {e : Generator} {a b : Automaton} {s t q r : StateId}
  {n : Node} {X Y : Symbol}

/-- The states found so far came in turn, and each but the first has a transition to it. -/
structure Discovering (a : Automaton) : Prop where
  inTurn : a.InTurn
  entered {s : StateId} {n : Node} : a.node? s = some n → 0 < s.number →
    ∃ q Y, a.goto? q Y = some s

/-- A symbol is followed by adding a transition, and the state that it leads to may be new. -/
structure Followed (a : Automaton) (s : StateId) (X : Symbol) (t : StateId) (b : Automaton) :
    Prop where
  grows : a.Grows b
  goto?_eq : b.goto? s X = some t
  back {q r : StateId} {Y : Symbol} : b.goto? q Y = some r →
    a.goto? q Y = some r ∨ q = s ∧ Y = X ∧ r = t
  cases {r : StateId} {n : Node} : b.node? r = some n → r = t ∨ ∃ m, a.node? r = some m
  target : t.number < b.size

/-- A transition that comes after all others may be followed. -/
theorem Discovering.followed (ha : Discovering a)
    (hlast : ∀ q Y r, a.goto? q Y = some r → EdgeLt q Y s X) (h : Followed a s X t b) :
    Discovering b := by
  have led {r : StateId} {m : Node} (hm : a.node? r = some m) (hr : 0 < r.number) :
      ∃ q Y, b.goto? q Y = some r ∧ EdgeLt q Y s X := by
    obtain ⟨q, Y, hq⟩ := ha.entered hm hr
    exact ⟨q, Y, h.grows.goto? hq, hlast q Y r hq⟩
  refine ⟨fun q Y t' hq r hr hlt => ?_, fun {r m} hm hr => ?_⟩
  · rcases h.back hq with hq | ⟨rfl, rfl, rfl⟩
    · obtain ⟨q', Y', hq', hedge⟩ := ha.inTurn q Y t' hq r hr hlt
      exact ⟨q', Y', h.grows.goto? hq', hedge⟩
    · -- all states before the target were there before
      obtain ⟨m, hm⟩ := Automaton.exists_node?_of_lt (Nat.lt_trans hlt h.target)
      rcases h.cases hm with rfl | ⟨m', hm'⟩
      · exact absurd hlt (Nat.lt_irrefl _)
      · exact led hm' hr
  · rcases h.cases hm with rfl | ⟨m', hm'⟩
    · exact ⟨s, X, h.goto?_eq⟩
    · obtain ⟨q, Y, hq, -⟩ := led hm' hr
      exact ⟨q, Y, hq⟩

/-- The transitions found so far leave states before number `k`. -/
def LeavesBefore (a : Automaton) (k : Nat) : Prop :=
  ∀ q Y r, a.goto? q Y = some r → q.number < k

variable [WordHash]

theorem followed_of_step (ha : a.Indexed) (h : e.step s a X = .ok b) : ∃ t, Followed a s X t b := by
  obtain ⟨n, candidate, t, c, hn, hc, hi, hl⟩ := step_eq_ok ha h
  refine ⟨t, hi.grows.trans hl.grows, hl.goto?_eq, fun {q r Y} hY => ?_, fun {r m} hm => ?_, ?_⟩
  · obtain ⟨m, hm, hY⟩ := Automaton.goto?_eq_some_iff.mp hY
    obtain ⟨tr, hm, old⟩ := hl.back hm
    rcases old Y r hY with hY | hnew
    · refine .inl ?_
      rcases hi.cases hm with hm | ⟨-, -, hnew⟩
      · exact Automaton.goto?_eq_some_iff.mpr ⟨_, hm, hY⟩
      · -- a state that is new has no transitions
        obtain rfl : tr = candidate.transitions := congrArg (·.transitions) hnew
        rw [(successor_eq_ok hc).1] at hY
        cases hY
    · exact .inr hnew
  · obtain ⟨tr, hm, -⟩ := hl.back hm
    rcases hi.cases hm with hm | ⟨hr, -, -⟩
    · exact .inr ⟨_, hm⟩
    · exact .inl hr
  · obtain ⟨m, hm, -⟩ := hi.target
    rw [hl.size_eq]
    exact Automaton.lt_size_of_node? hm

theorem Discovering.foldlM_step {Xs : List Symbol} (da : Discovering a) (ha : e.Explored a)
    (hr : Reached a) (hn : a.node? s = some n) (hX : ∀ X ∈ Xs, X ∈ n.successors)
    (hlast : ∀ X ∈ Xs, ∀ q Y r, a.goto? q Y = some r → EdgeLt q Y s X)
    (hsorted : Xs.Pairwise fun X Y => X.rank < Y.rank) (h : Xs.foldlM (e.step s) a = .ok b) :
    Discovering b ∧ ∀ q Y r, b.goto? q Y = some r → a.goto? q Y = some r ∨ q = s := by
  induction Xs generalizing a n with
  | nil =>
    cases h
    exact ⟨da, fun q Y r hq => .inl hq⟩
  | cons X Xs ih =>
    rw [List.foldlM_cons] at h
    obtain ⟨c, hc, h⟩ := bind_eq_ok.mp h
    obtain ⟨hX, hXs⟩ := List.forall_mem_cons.mp hX
    obtain ⟨hfirst, hrest⟩ := List.forall_mem_cons.mp hlast
    obtain ⟨hbefore, hsorted⟩ := List.pairwise_cons.mp hsorted
    obtain ⟨ec, rc, grows, -⟩ := ha.step hr hn hX hc
    obtain ⟨t, hf⟩ := followed_of_step ha.indexed hc
    obtain ⟨tr, hm, -⟩ := grows s n hn
    have later : ∀ Z ∈ Xs, ∀ q Y r, c.goto? q Y = some r → EdgeLt q Y s Z := by
      intro Z hZ q Y r hq
      rcases hf.back hq with hq | ⟨rfl, rfl, -⟩
      · exact hrest Z hZ q Y r hq
      · exact .inr ⟨rfl, hbefore Z hZ⟩
    obtain ⟨db, hb⟩ := ih (da.followed hfirst hf) ec rc hm hXs later hsorted h
    refine ⟨db, fun q Y r hq => ?_⟩
    rcases hb q Y r hq with hq | hs
    · exact (hf.back hq).imp id fun h => h.1
    · exact .inr hs

theorem Discovering.visit {k : Nat} (da : Discovering a) (ha : e.Explored a) (hr : Reached a)
    (hl : LeavesBefore a k) (h : e.visit a ⟨k⟩ = .ok b) :
    Discovering b ∧ LeavesBefore b (k + 1) := by
  obtain ⟨n, hn, h⟩ := bind_eq_ok.mp h
  rw [Automaton.node_eq_ok] at hn
  have hsorted : n.successors.Pairwise fun X Y => X.rank < Y.rank := by
    rw [(ha.node hn).2]
    exact Items.ascending_nextSymbols _ _
  obtain ⟨db, hb⟩ := da.foldlM_step ha hr hn (fun _ => id)
    (fun X _ q Y r hq => .inl (hl q Y r hq)) hsorted h
  refine ⟨db, fun q Y r hq => ?_⟩
  rcases hb q Y r hq with hq | rfl
  · exact Nat.lt_succ_of_lt (hl q Y r hq)
  · exact Nat.lt_succ_self k

theorem Discovering.explore (budget : Nat) {k : Nat} (da : Discovering a) (ha : e.Explored a)
    (hr : Reached a) (hf : Finished a k) (hl : LeavesBefore a k)
    (h : e.explore budget k a = .ok b) : Discovering b := by
  induction budget generalizing k a with
  | zero =>
    simp only [Generator.explore] at h
    split at h <;> cases h
    exact da
  | succ budget ih =>
    simp only [Generator.explore] at h
    split at h
    next hk =>
      obtain ⟨c, hc, h⟩ := bind_eq_ok.mp h
      obtain ⟨ec, rc, fc⟩ := ha.visit hr hf hk hc
      obtain ⟨dc, lc⟩ := da.visit ha hr hl hc
      exact ih dc ec rc fc lc h
    next =>
      cases h
      exact da

/-- The start state is alone and leads nowhere yet. -/
theorem discovering_of_start (h : e.start = .ok a) : Discovering a ∧ LeavesBefore a 0 := by
  obtain ⟨candidate, hc, h⟩ := bind_eq_ok.mp h
  obtain rfl := close_eq_ok hc
  have hi := (Automaton.indexed_empty e.options.method).interned_of_add h
  have only {s : StateId} {n : Node} (hn : a.node? s = some n) :
      s = StateId.initial ∧ n.transitions = ∅ := by
    rcases hi.cases hn with hn | ⟨hs, -, rfl⟩
    · simp [Automaton.empty, Automaton.node?] at hn
    · exact ⟨hs, rfl⟩
  have nowhere (q : StateId) (Y : Symbol) (r : StateId) : a.goto? q Y ≠ some r := by
    intro hq
    obtain ⟨m, hm, hY⟩ := Automaton.goto?_eq_some_iff.mp hq
    rw [(only hm).2] at hY
    cases hY
  refine ⟨⟨fun q Y t hq => absurd hq (nowhere q Y t), fun {s n} hn hs => ?_⟩,
    fun q Y r hq => absurd hq (nowhere q Y r)⟩
  rw [(only hn).1] at hs
  exact absurd hs (Nat.lt_irrefl 0)

theorem inTurn_of_explore {budget : Nat} (hs : e.start = .ok a)
    (h : e.explore budget 0 a = .ok b) : b.InTurn := by
  obtain ⟨ea, ra⟩ := explored_of_start hs
  obtain ⟨da, la⟩ := discovering_of_start hs
  exact (da.explore budget ea ra (finished_zero a) la h).inTurn

end Generator

namespace Automaton

variable {g : Grammar} {o : Options} {a b : Automaton}

/-- States are generated in turn, for assigning lookaheads leaves transitions as they are. -/
theorem inTurn_of_generate [WordHash] (hg : g.WellFormed) (h : generate o g = .ok b) :
    b.InTurn := by
  obtain ⟨a₀, a, hs, he, hc, hl⟩ := exists_explore_of_generate h
  rw [InTurn, goto?_congr (sameOutline_of_generate hg hc hl).outline_eq]
  exact Generator.inTurn_of_explore hs he

end Automaton

end LRAutomata
