import LRAutomata.IndexedSet

/-!
# Agendas

An `Agenda` is a first-in, first-out queue that never holds a value twice: what is already pending
is not queued again, and what has been taken may come back. The pending values are kept twice, in
the order in which they are to be taken and as a set that is asked whether a value is among them:

* `pending_push`, `changed_push`: a value is refused if it is pending;
* `pending_of_pop?`: the value taken is the oldest one.
-/

namespace LRAutomata

/-- The pending values, the oldest first, and the same values as a set, in an order of its own. -/
structure Agenda (α : Type) where
  pending : List α
  scheduled : IndexedSet α
  perm : scheduled.entries.Perm pending

namespace Agenda

variable {α : Type}

def empty : Agenda α := ⟨[], .empty, .nil⟩

def isEmpty (a : Agenda α) : Bool := a.pending.isEmpty

theorem mem_scheduled {a : Agenda α} {x : α} : x ∈ a.scheduled ↔ x ∈ a.pending := a.perm.mem_iff

theorem nodup (a : Agenda α) : a.pending.Nodup := a.perm.nodup_iff.mp a.scheduled.nodup

variable [DecidableEq α]

/-- Queues a value unless it is scheduled already. -/
def push (a : Agenda α) (x : α) : Update (Agenda α) :=
  let u := a.scheduled.insert x
  ⟨⟨if u.changed then a.pending ++ [x] else a.pending, u.value, IndexedSet.perm_insert a.perm x⟩,
    u.changed⟩

/-- Takes the oldest value. -/
def pop? (a : Agenda α) : Option (α × Agenda α) :=
  match a with
  | ⟨[], _, _⟩ => none
  | ⟨x :: xs, scheduled, h⟩ => some (x, ⟨xs, scheduled.swapRemove x, IndexedSet.perm_swapRemove h⟩)

/-- Queues the values of a list in turn. -/
def ofList (xs : List α) : Agenda α :=
  xs.foldl (fun a x => (a.push x).value) empty

theorem changed_push (a : Agenda α) (x : α) :
    (a.push x).changed = decide (x ∉ a.pending) := by
  simp only [push, IndexedSet.changed_insert, mem_scheduled]

theorem pending_push (a : Agenda α) (x : α) :
    (a.push x).value.pending = if x ∈ a.pending then a.pending else a.pending ++ [x] := by
  simp only [push, IndexedSet.changed_insert, mem_scheduled, decide_eq_true_eq]
  split <;> simp_all

theorem mem_pending_push {a : Agenda α} {x y : α} :
    y ∈ (a.push x).value.pending ↔ y ∈ a.pending ∨ y = x := by
  rw [pending_push]
  split
  next hx => exact (or_iff_left_of_imp fun h => h ▸ hx).symm
  next => rw [List.mem_append, List.mem_singleton]

theorem push_of_mem {a : Agenda α} {x : α} (h : x ∈ a.pending) : a.push x = ⟨a, false⟩ := by
  simp [push, IndexedSet.insert_of_mem (mem_scheduled.mpr h)]

theorem pop?_eq_none_iff {a : Agenda α} : a.pop? = none ↔ a.pending = [] := by
  obtain ⟨_ | ⟨x, xs⟩, s, h⟩ := a <;> simp [pop?]

theorem map_fst_pop? (a : Agenda α) : a.pop?.map Prod.fst = a.pending.head? := by
  obtain ⟨_ | ⟨x, xs⟩, s, h⟩ := a <;> rfl

theorem pending_of_pop? {a b : Agenda α} {x : α} (h : a.pop? = some (x, b)) :
    a.pending = x :: b.pending := by
  obtain ⟨_ | ⟨y, ys⟩, s, hs⟩ := a
  · simp [pop?] at h
  · simp only [pop?, Option.some.injEq, Prod.mk.injEq] at h
    obtain ⟨rfl, rfl⟩ := h
    rfl

end Agenda

end LRAutomata
