import LRAutomata.State
import Mathlib.Data.List.Basic

/-!
# Transitions after any insertions

Insertions into a table without edges, those that are refused left out: whatever they were, a
symbol leads where the first of them for it had it lead.

* `Symbol.Before`: the order of the edges, told by the kinds and numbers of their symbols;
* `Transitions.insert_eq_ok_iff`, `insert_eq_error_iff`: all that an insertion can come to;
* `target?_after`: where a symbol leads after some insertions;
* `writeOnce_after`: what is known of the edges then, and that insertions none of which contradict
  each other lead to the same edges in any order.
-/

namespace LRAutomata

/-- Terminals come before nonterminals, and symbols of one kind in the order of their numbers. -/
inductive Symbol.Before : Symbol → Symbol → Prop where
  | terminals {s t : Terminal} : s.id < t.id → Before (.terminal s) (.terminal t)
  | kinds (t : Terminal) (n : Nonterminal) : Before (.terminal t) (.nonterminal n)
  | nonterminals {m n : Nonterminal} : m.id < n.id → Before (.nonterminal m) (.nonterminal n)

theorem Symbol.before_of_rank_lt {X Y : Symbol} (h : X.rank < Y.rank) : X.Before Y := by
  cases X with
  | terminal s =>
    cases Y with
    | terminal t => exact .terminals (UInt16.lt_iff_toNat_lt.mpr h)
    | nonterminal n => exact .kinds s n
  | nonterminal m =>
    cases Y with
    | terminal t =>
      have ht := t.rank_lt
      simp only [rank] at h
      omega
    | nonterminal n =>
      simp only [rank, Nat.add_lt_add_iff_left] at h
      exact .nonterminals (UInt16.lt_iff_toNat_lt.mpr h)

namespace Transitions

variable {t t' : Transitions} {X : Symbol} {s : StateId} {e : Transition}
  {calls calls' : List Transition}

theorem mem_toList_iff : e ∈ t.toList ↔ t.target? e.symbol = some e.target := by
  rw [target?, Option.map_eq_some_iff]
  constructor
  · intro he
    exact ⟨e, SortedList.find?_eq_some_iff.mpr ⟨he, rfl⟩, rfl⟩
  · rintro ⟨⟨X, s⟩, he, rfl⟩
    obtain ⟨hm, hr⟩ := SortedList.find?_eq_some_iff.mp he
    obtain rfl : X = e.symbol := Symbol.rank_inj hr
    exact hm

theorem ext_target? (h : ∀ X, t.target? X = t'.target? X) : t = t' :=
  SortedList.eq_of_mem_iff fun e => by rw [mem_toList_iff, mem_toList_iff, h]

theorem insert_eq_ok_iff {u : Update Transitions} : t.insert X s = .ok u ↔
    t.target? X = none ∧ u = ⟨t.put ⟨X, s⟩, true⟩ ∨ t.target? X = some s ∧ u = ⟨t, false⟩ := by
  rw [insert]
  cases hX : t.target? X with
  | none => simp [eq_comm]
  | some existing =>
    by_cases he : existing = s
    · simp [he, eq_comm]
    · simp [he]

theorem insert_eq_error_iff {f : Fault} : t.insert X s = .error f ↔ ∃ existing,
    t.target? X = some existing ∧ existing ≠ s ∧ f = .conflictingTransition X existing s := by
  rw [insert]
  cases hX : t.target? X with
  | none => simp
  | some existing =>
    by_cases he : existing = s
    · simp [he]
    · simp [he, eq_comm (b := f)]

/-- The transitions after some insertions, each of which changes nothing if it is refused. -/
def after (t : Transitions) (calls : List Transition) : Transitions :=
  calls.foldl (fun t e => ((t.insert e.symbol e.target).map Update.value).toOption.getD t) t

/-- After one insertion, refused or not, a symbol that led somewhere leads there still. -/
theorem target?_attempt (t : Transitions) (e : Transition) (X : Symbol) :
    target? (((t.insert e.symbol e.target).map Update.value).toOption.getD t) X =
      (t.target? X).or (if e.symbol = X then some e.target else none) := by
  cases h : t.insert e.symbol e.target with
  | ok u =>
    show u.value.target? X = _
    rw [target?_insert h]
    split
    next hX =>
      subst hX
      rcases insert_eq_ok_iff.mp h with ⟨hn, -⟩ | ⟨hs, -⟩
      · rw [hn, Option.none_or]
      · rw [hs, Option.some_or]
    next => rw [Option.or_none]
  | error f =>
    show t.target? X = _
    obtain ⟨existing, hs, -⟩ := insert_eq_error_iff.mp h
    split
    next hX => rw [← hX, hs, Option.some_or]
    next => rw [Option.or_none]

theorem target?_after (t : Transitions) (calls : List Transition) (X : Symbol) :
    (t.after calls).target? X =
      (t.target? X).or ((calls.find? fun e => e.symbol = X).map Transition.target) := by
  induction calls generalizing t with
  | nil => rw [after, List.foldl_nil, List.find?_nil, Option.map_none, Option.or_none]
  | cons e calls ih =>
    rw [after, List.foldl_cons]
    refine (ih _).trans ?_
    rw [target?_attempt, Option.or_assoc]
    by_cases hX : e.symbol = X
    · rw [if_pos hX, Option.some_or, List.find?_cons_of_pos (by simpa using hX), Option.map_some]
    · rw [if_neg hX, Option.none_or, List.find?_cons_of_neg (by simpa using hX)]

/-- No two insertions have one symbol lead to two states. -/
def Agree (calls : List Transition) : Prop :=
  ∀ e ∈ calls, ∀ e' ∈ calls, e.symbol = e'.symbol → e.target = e'.target

instance (calls : List Transition) : Decidable (Agree calls) :=
  inferInstanceAs (Decidable (∀ e ∈ calls, ∀ e' ∈ calls, e.symbol = e'.symbol → e.target = e'.target))

/-- If no two insertions contradict each other, all of them have come true. -/
theorem Agree.target?_after_eq_some_iff (h : Agree calls) :
    (after ∅ calls).target? X = some s ↔ ⟨X, s⟩ ∈ calls := by
  have hnone : target? ∅ X = none := rfl
  rw [target?_after, hnone, Option.none_or, Option.map_eq_some_iff]
  constructor
  · rintro ⟨e, he, rfl⟩
    obtain rfl : e.symbol = X := by simpa using List.find?_some he
    exact List.mem_of_find?_eq_some he
  · intro hm
    cases he : calls.find? fun e => e.symbol = X with
    | none => simpa using List.find?_eq_none.mp he _ hm
    | some e =>
      have hX : e.symbol = X := by simpa using List.find?_some he
      exact ⟨e, rfl, h e (List.mem_of_find?_eq_some he) _ hm hX⟩

theorem Agree.after_eq_of_perm (h : Agree calls) (hp : calls.Perm calls') :
    after ∅ calls = after ∅ calls' := by
  have h' : Agree calls' := fun e he e' he' => h e (hp.mem_iff.mpr he) e' (hp.mem_iff.mpr he')
  refine ext_target? fun X => Option.ext fun s => ?_
  rw [h.target?_after_eq_some_iff, h'.target?_after_eq_some_iff, hp.mem_iff]

/-- What is known of edges each of which stays as it was first inserted. -/
structure WriteOnce (t : Transitions) (calls : List Transition) : Prop where
  /-- The edges are in strictly ascending order of their symbols. -/
  ascending : t.toList.Pairwise fun e e' => e.symbol.Before e'.symbol
  /-- They are the insertions that were the first ones for their symbols. -/
  mem_iff (e : Transition) : e ∈ t.toList ↔ calls.find? (fun e' => e'.symbol = e.symbol) = some e
  /-- A symbol leads where the first insertion for it said, and nowhere if there was none. -/
  target?_eq (X : Symbol) :
    t.target? X = (calls.find? fun e => e.symbol = X).map Transition.target
  /-- One more insertion is refused if its symbol already leads to another state. -/
  refuses_iff (X : Symbol) (s : StateId) (f : Fault) : t.insert X s = .error f ↔ ∃ existing,
    t.target? X = some existing ∧ existing ≠ s ∧ f = .conflictingTransition X existing s
  /-- It makes no change, and says so, if its symbol already leads to its state. -/
  repeats_iff (X : Symbol) (s : StateId) : t.insert X s = .ok ⟨t, false⟩ ↔ t.target? X = some s
  /-- It reports a change if its symbol leads nowhere yet. -/
  adds_iff (X : Symbol) (s : StateId) :
    (∃ u, t.insert X s = .ok u ∧ u.changed = true) ↔ t.target? X = none

/-- Whatever was inserted, each symbol leads where it was first made to lead; and the order does not
show if no insertion contradicts another. -/
theorem writeOnce_after (calls : List Transition) : (after ∅ calls).WriteOnce calls ∧
    (Agree calls → ∀ calls', calls.Perm calls' → after ∅ calls' = after ∅ calls) := by
  have target (X : Symbol) :
      (after ∅ calls).target? X = (calls.find? fun e => e.symbol = X).map Transition.target :=
    (target?_after ∅ calls X).trans (Option.none_or ..)
  refine ⟨⟨?_, fun e => ?_, target, fun X s f => insert_eq_error_iff, fun X s => ?_, fun X s => ?_⟩,
    fun h calls' hp => (h.after_eq_of_perm hp).symm⟩
  · exact (after ∅ calls).ascending.imp Symbol.before_of_rank_lt
  · rw [mem_toList_iff, target, Option.map_eq_some_iff]
    constructor
    · rintro ⟨e', he', ht⟩
      have hX : e'.symbol = e.symbol := by simpa using List.find?_some he'
      obtain rfl : e' = e := by
        cases e
        cases e'
        exact congrArg₂ Transition.mk hX ht
      exact he'
    · exact fun he => ⟨e, he, rfl⟩
  · rw [insert_eq_ok_iff]
    simp
  · simp only [insert_eq_ok_iff]
    constructor
    · rintro ⟨u, ⟨hn, -⟩ | ⟨-, rfl⟩, hu⟩
      · exact hn
      · cases hu
    · exact fun hn => ⟨_, .inl ⟨hn, rfl⟩, rfl⟩

/-- Insertions out of order, one of them made twice. -/
def shuffled : List Transition :=
  [⟨.terminal ⟨3⟩, ⟨7⟩⟩, ⟨.nonterminal ⟨1⟩, ⟨2⟩⟩, ⟨.terminal ⟨3⟩, ⟨7⟩⟩, ⟨.terminal ⟨2⟩, ⟨5⟩⟩]

theorem writeOnce_shuffled : Agree shuffled ∧ (after ∅ shuffled).WriteOnce shuffled ∧
    (after ∅ shuffled).toList =
      [⟨.terminal ⟨2⟩, ⟨5⟩⟩, ⟨.terminal ⟨3⟩, ⟨7⟩⟩, ⟨.nonterminal ⟨1⟩, ⟨2⟩⟩] ∧
    after ∅ shuffled.reverse = after ∅ shuffled := by
  have agree : Agree shuffled := by decide
  obtain ⟨once, anyOrder⟩ := writeOnce_after shuffled
  exact ⟨agree, once, by decide, anyOrder agree _ (List.reverse_perm _).symm⟩

end Transitions

end LRAutomata
