import LRAutomata.Agenda
import LRAutomata.Proofs.Repetition
import Mathlib.Data.List.Induction

/-!
# Agendas after any calls

An agenda that has collected some values, and then calls that put values on it and take values from
it: whatever the calls were, the values come off in the order in which they were accepted, each as
many times as it was accepted.

* `pending_ofList`: collecting values takes the repetitions out;
* `Log`: an agenda and what has happened to it;
* `Log.call_cases`: all that a call can do;
* `Log.InOrder`: what every call keeps (`InOrder.call`), and so any calls (`InOrder.after`);
* `Log.firstInFirstOut_after`: what is known of the agenda then.
-/

namespace LRAutomata

namespace Agenda

variable {α : Type}

section

variable [DecidableEq α] {xs : List α} {x : α}

theorem ofList_concat (xs : List α) (x : α) :
    ofList (xs ++ [x]) = ((ofList xs).push x).value := by
  rw [ofList, List.foldl_append, List.foldl_cons, List.foldl_nil, ofList]

theorem pending_ofList (xs : List α) : (ofList xs).pending = xs.eraseDups := by
  induction xs using List.reverseRecOn with
  | nil => rfl
  | append_singleton xs x ih =>
    rw [ofList_concat, pending_push, ih, eraseDups_concat]
    simp only [List.mem_eraseDups]

theorem mem_pending_ofList : x ∈ (ofList xs).pending ↔ x ∈ xs := by
  rw [pending_ofList, List.mem_eraseDups]

theorem length_pending_ofList_le (xs : List α) : (ofList xs).pending.length ≤ xs.length := by
  rw [pending_ofList]
  exact length_eraseDups_le xs

end

/-! ## What happens to an agenda -/

inductive Call (α : Type) where
  | push (x : α)
  | pop

/-- What a call can bring about: a value is accepted, or one is taken. -/
inductive Event (α : Type) where
  | accepted (x : α)
  | taken (x : α)
deriving DecidableEq

/-- The values that were accepted, in this order. -/
def accepted (events : List (Event α)) : List α :=
  events.filterMap fun
    | .accepted x => some x
    | .taken _ => none

/-- The values that were taken, in this order. -/
def taken (events : List (Event α)) : List α :=
  events.filterMap fun
    | .accepted _ => none
    | .taken x => some x

theorem accepted_append (events more : List (Event α)) :
    accepted (events ++ more) = accepted events ++ accepted more := List.filterMap_append ..

theorem taken_append (events more : List (Event α)) :
    taken (events ++ more) = taken events ++ taken more := List.filterMap_append ..

/-- The value was accepted at some time and has not been taken since. -/
def Awaited (events : List (Event α)) (x : α) : Prop :=
  ∃ before since, events = before ++ .accepted x :: since ∧ .taken x ∉ since

theorem not_awaited_nil {x : α} : ¬ Awaited [] x := by
  rintro ⟨before, since, h, -⟩
  exact List.append_ne_nil_of_right_ne_nil before (List.cons_ne_nil _ since) h.symm

theorem awaited_concat {events : List (Event α)} {e : Event α} {x : α} :
    Awaited (events ++ [e]) x ↔ e = .accepted x ∨ Awaited events x ∧ e ≠ .taken x := by
  constructor
  · rintro ⟨before, since, h, hs⟩
    -- the value was accepted by the last event, or that is one of those since
    cases since using List.reverseRecOn with
    | nil =>
      obtain ⟨-, he⟩ := List.append_inj' h rfl
      exact .inl (List.singleton_inj.mp he)
    | append_singleton since last =>
      rw [← List.cons_append, ← List.append_assoc] at h
      obtain ⟨hevents, he⟩ := List.append_inj' h rfl
      obtain rfl := List.singleton_inj.mp he
      rw [List.mem_append, List.mem_singleton, not_or] at hs
      exact .inr ⟨⟨before, since, hevents, hs.1⟩, fun ht => hs.2 ht.symm⟩
  · rintro (rfl | ⟨⟨before, since, rfl, hs⟩, ht⟩)
    · exact ⟨events, [], rfl, List.not_mem_nil⟩
    · refine ⟨before, since ++ [e], by rw [List.append_assoc, List.cons_append], ?_⟩
      rw [List.mem_append, List.mem_singleton, not_or]
      exact ⟨hs, fun h => ht h.symm⟩

/-- An agenda and what has happened to it, the earliest first. -/
structure Log (α : Type) where
  agenda : Agenda α
  events : List (Event α)

namespace Log

variable [DecidableEq α] {l : Log α}

/-- Makes a call, and notes what its answer says. -/
def call (l : Log α) : Call α → Log α
  | .push x =>
    let u := l.agenda.push x
    ⟨u.value, if u.changed then l.events ++ [.accepted x] else l.events⟩
  | .pop =>
    match l.agenda.pop? with
    | none => l
    | some (x, a) => ⟨a, l.events ++ [.taken x]⟩

def after (l : Log α) (calls : List (Call α)) : Log α := calls.foldl call l

/-- The values of a list are put on an agenda that is empty. -/
def collected (xs : List α) : Log α := after ⟨empty, []⟩ (xs.map .push)

/-- A call makes no difference, or it accepts a value behind those that are pending, or it takes the
first of these. -/
theorem call_cases (l : Log α) (c : Call α) :
    l.call c = l ∨
    (∃ x, (l.call c).events = l.events ++ [.accepted x] ∧
      (l.call c).agenda.pending = l.agenda.pending ++ [x]) ∨
    ∃ x, (l.call c).events = l.events ++ [.taken x] ∧
      l.agenda.pending = x :: (l.call c).agenda.pending := by
  cases c with
  | push x =>
    by_cases hx : x ∈ l.agenda.pending
    · exact .inl (by simp [call, push_of_mem hx])
    · refine .inr (.inl ⟨x, ?_, ?_⟩)
      · simp [call, changed_push, hx]
      · rw [call, pending_push, if_neg hx]
  | pop =>
    cases hp : l.agenda.pop? with
    | none => exact .inl (by simp only [call, hp])
    | some r =>
      obtain ⟨x, a⟩ := r
      have hcall : l.call .pop = ⟨a, l.events ++ [.taken x]⟩ := by simp only [call, hp]
      rw [hcall]
      exact .inr (.inr ⟨x, rfl, pending_of_pop? hp⟩)

/-- What was accepted has been taken or is pending, in this order, and what is awaited is pending.
-/
structure InOrder (l : Log α) : Prop where
  accepted_eq : accepted l.events = taken l.events ++ l.agenda.pending
  awaited_iff (x : α) : Awaited l.events x ↔ x ∈ l.agenda.pending

theorem InOrder.call (h : l.InOrder) (c : Call α) : (l.call c).InOrder := by
  rcases l.call_cases c with hc | ⟨x, he, hp⟩ | ⟨x, he, hp⟩
  · rwa [hc]
  · constructor
    · rw [he, hp, accepted_append, taken_append, h.accepted_eq, List.append_assoc]
      simp [accepted, taken]
    · intro y
      have hne : Event.accepted x ≠ .taken y := nofun
      rw [he, hp, awaited_concat, h.awaited_iff, and_iff_left hne, Event.accepted.injEq,
        List.mem_append, List.mem_singleton, or_comm, eq_comm (a := x)]
  · have hx : x ∉ (l.call c).agenda.pending := (List.nodup_cons.mp (hp ▸ l.agenda.nodup)).1
    constructor
    · rw [he, accepted_append, taken_append, h.accepted_eq, hp]
      simp [accepted, taken]
    · intro y
      rw [he, awaited_concat, h.awaited_iff, hp, List.mem_cons]
      constructor
      · rintro (ht | ⟨rfl | hy, ht⟩)
        · cases ht
        · exact absurd rfl ht
        · exact hy
      · exact fun hy => .inr ⟨.inr hy, fun ht => hx (Event.taken.inj ht ▸ hy)⟩

theorem InOrder.after (h : l.InOrder) (calls : List (Call α)) : (l.after calls).InOrder := by
  induction calls generalizing l with
  | nil => exact h
  | cons c calls ih => exact ih (h.call c)

theorem inOrder_collected (xs : List α) : (collected xs).InOrder :=
  InOrder.after ⟨rfl, fun _ => iff_of_false not_awaited_nil List.not_mem_nil⟩ _

theorem collected_concat (xs : List α) (x : α) :
    collected (xs ++ [x]) = (collected xs).call (.push x) := by
  rw [collected, List.map_append, after, List.foldl_append]
  rfl

theorem collected_eq (xs : List α) :
    collected xs = ⟨ofList xs, xs.eraseDups.map .accepted⟩ := by
  induction xs using List.reverseRecOn with
  | nil => rfl
  | append_singleton xs x ih =>
    rw [collected_concat, ih, ofList_concat, eraseDups_concat]
    simp only [call, changed_push, mem_pending_ofList]
    by_cases hx : x ∈ xs <;> simp [hx]

/-- What is known of an agenda and what has happened to it. -/
structure FirstInFirstOut (l : Log α) : Prop where
  nodup : l.agenda.pending.Nodup
  mem_scheduled_iff (x : α) : x ∈ l.agenda.scheduled ↔ x ∈ l.agenda.pending
  /-- A value that is awaited is refused, and nothing changes. -/
  push_eq_iff (x : α) : l.agenda.push x = ⟨l.agenda, false⟩ ↔ Awaited l.events x
  /-- Any other value is accepted. -/
  changed_push_iff (x : α) : (l.agenda.push x).changed = true ↔ ¬ Awaited l.events x
  /-- What has been taken is what was accepted first, and what is pending is the rest. -/
  accepted_eq : accepted l.events = taken l.events ++ l.agenda.pending
  /-- The next value to be taken is the first accepted one that has not been. -/
  pop?_eq : l.agenda.pop?.map Prod.fst = (accepted l.events)[(taken l.events).length]?
  pop?_eq_none_iff : l.agenda.pop? = none ↔ taken l.events = accepted l.events
  isEmpty_iff : l.agenda.isEmpty = true ↔ taken l.events = accepted l.events

theorem InOrder.firstInFirstOut (h : l.InOrder) : l.FirstInFirstOut := by
  have taken_eq_iff : taken l.events = accepted l.events ↔ l.agenda.pending = [] := by
    rw [h.accepted_eq, List.self_eq_append_right]
  constructor
  case nodup => exact l.agenda.nodup
  case mem_scheduled_iff => exact fun x => mem_scheduled
  case push_eq_iff =>
    intro x
    rw [h.awaited_iff]
    refine ⟨fun he => ?_, push_of_mem⟩
    have hc := changed_push l.agenda x
    rw [he] at hc
    simpa using hc.symm
  case changed_push_iff =>
    intro x
    rw [h.awaited_iff, changed_push, decide_eq_true_eq]
  case accepted_eq => exact h.accepted_eq
  case pop?_eq =>
    rw [map_fst_pop?, h.accepted_eq, List.getElem?_append_right (Nat.le_refl _), Nat.sub_self,
      List.head?_eq_getElem?]
  case pop?_eq_none_iff => rw [pop?_eq_none_iff, taken_eq_iff]
  case isEmpty_iff => rw [isEmpty, List.isEmpty_iff, taken_eq_iff]

/-- Whatever calls were made on an agenda that has collected some values, the values come off in the
order in which they were accepted. -/
theorem firstInFirstOut_after (initial : List α) (calls : List (Call α)) :
    collected initial = ⟨ofList initial, initial.eraseDups.map .accepted⟩ ∧
    ((collected initial).after calls).FirstInFirstOut :=
  ⟨collected_eq initial, ((inOrder_collected initial).after calls).firstInFirstOut⟩

/-- A pending value is refused; once taken it is accepted again, behind the others. -/
example : ((collected [1, 2, 1, 3]).after [.push 2, .pop, .push 1, .pop, .pop, .pop, .pop]).events =
    [.accepted 1, .accepted 2, .accepted 3, .taken 1, .accepted 1, .taken 2, .taken 3, .taken 1] := by
  decide

end Log

end Agenda

end LRAutomata
