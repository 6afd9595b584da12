import LRAutomata.Fault
import Mathlib.Data.List.Basic

/-!
# Computations that can fail

What is known of a computation in `Except` that returns a value:

* `bind_eq_ok`: of one that follows another, and `bind_eq_error` if there is a fault;
* `mapM_eq_ok`, `mem_of_mapM_eq_ok`, `exists_of_mapM_eq_ok`, `exists_mapM_eq_ok`: of one for each
  element of a list;
* `exists_ok_of_any`: of one that can be evaluated.
-/

namespace LRAutomata

theorem bind_eq_ok {ε α β : Type} {x : Except ε α} {f : α → Except ε β} {b : β} :
    x >>= f = .ok b ↔ ∃ a, x = .ok a ∧ f a = .ok b := by
  cases x <;> simp [bind, Except.bind]

theorem bind_eq_error {α β : Type} {x : Except Fault α} {f : α → Except Fault β} {e : Fault} :
    x >>= f = .error e ↔ x = .error e ∨ ∃ a, x = .ok a ∧ f a = .error e := by
  cases x <;> simp [bind, Except.bind]

theorem mapM_eq_ok {α β : Type} {f : α → Except Fault β} {xs : List α} {ys : List β} :
    xs.mapM f = .ok ys ↔ xs.map f = ys.map .ok := by
  induction xs generalizing ys with
  | nil => cases ys <;> simp [pure, Except.pure]
  | cons x xs ih =>
    rw [List.mapM_cons, bind_eq_ok]
    simp only [bind_eq_ok, ih]
    refine ⟨fun h => ?_, fun h => ?_⟩
    · obtain ⟨y, hy, zs, hzs, h⟩ := h
      cases h
      rw [List.map_cons, List.map_cons, hy, hzs]
    · cases ys with
      | nil => cases h
      | cons y ys =>
        obtain ⟨hy, hys⟩ := List.cons.inj h
        exact ⟨y, hy, ys, hys, rfl⟩

theorem mem_of_mapM_eq_ok {α β : Type} {f : α → Except Fault β} {xs : List α} {ys : List β}
    (h : xs.mapM f = .ok ys) {y : β} : y ∈ ys ↔ ∃ x ∈ xs, f x = .ok y := by
  rw [← List.mem_map_of_injective fun _ _ => Except.ok.inj, ← mapM_eq_ok.mp h, List.mem_map]

theorem exists_of_mapM_eq_ok {α β : Type} {f : α → Except Fault β} {xs : List α} {ys : List β}
    (h : xs.mapM f = .ok ys) {x : α} (hx : x ∈ xs) : ∃ y ∈ ys, f x = .ok y := by
  have hm : f x ∈ ys.map .ok := mapM_eq_ok.mp h ▸ List.mem_map_of_mem hx
  obtain ⟨y, hy, he⟩ := List.mem_map.mp hm
  exact ⟨y, hy, he.symm⟩

/-- What can be computed of an outcome holds of the value, if there is one. -/
theorem exists_ok_of_any {α : Type} {e : Except Fault α} {P : α → Bool}
    (h : e.toOption.any P = true) : ∃ a, e = .ok a ∧ P a = true := by
  cases e with
  | error e => cases h
  | ok a => exact ⟨a, rfl, h⟩

theorem exists_mapM_eq_ok {α β : Type} {f : α → Except Fault β} {xs : List α}
    (h : ∀ x ∈ xs, ∃ y, f x = .ok y) : ∃ ys, xs.mapM f = .ok ys := by
  induction xs with
  | nil => exact ⟨[], rfl⟩
  | cons x xs ih =>
    obtain ⟨hx, hxs⟩ := List.forall_mem_cons.mp h
    obtain ⟨y, hy⟩ := hx
    obtain ⟨ys, hys⟩ := ih hxs
    refine ⟨y :: ys, ?_⟩
    rw [List.mapM_cons, hy, hys]
    rfl

end LRAutomata
