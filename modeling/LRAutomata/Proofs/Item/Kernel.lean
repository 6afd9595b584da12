import LRAutomata.Proofs.Item.Closure
import LRAutomata.Proofs.Signature

/-!
# Closed items are told apart by their kernels

Nothing that closing adds is a kernel item, so that what kernel items are closed to still shows
which ones they were.

* `Items.closed_eq_iff`, `Items.cores_closed_eq_iff`: kernels are closed to the same items, or to
  the same cores, just if they are the same or have the same cores;
* `Items.kernels_of_defined`: this for closing that can fail, and for signatures.
-/

namespace LRAutomata

namespace Items

variable {g : Grammar} {k₁ k₂ : Items}

/-- Valid items all of which are kernel items. -/
structure IsKernelOf (g : Grammar) (k : Items) : Prop where
  isValid : ∀ c ∈ k.cores, g.isValid c = true
  isKernel : ∀ c ∈ k.cores, c.isKernel = true

theorem closed_eq_iff (hg : g.WellFormed) (h₁ : k₁.IsKernelOf g) (h₂ : k₂.IsKernelOf g) :
    k₁.closed g g.firstSets = k₂.closed g g.firstSets ↔ k₁ = k₂ := by
  constructor
  · intro h
    rw [← kernel_closed_eq_self hg h₁.isKernel, h, kernel_closed_eq_self hg h₂.isKernel]
  · rintro rfl
    rfl

theorem cores_closed_eq_iff (hg : g.WellFormed) (h₁ : k₁.IsKernelOf g) (h₂ : k₂.IsKernelOf g) :
    (k₁.closed g g.firstSets).cores = (k₂.closed g g.firstSets).cores ↔ k₁.cores = k₂.cores := by
  constructor
  · intro h
    have same := cores_kernel_congr h
    rwa [kernel_closed_eq_self hg h₁.isKernel, kernel_closed_eq_self hg h₂.isKernel] at same
  · exact cores_closed_congr hg

/-- Closing valid items keeps their kernel. Two kernels are closed to items with one signature just
if they are equal, and with one signature but for lookaheads just if they have the same cores. -/
theorem kernels_of_defined (hg : g.Defined) :
    (∀ s : Items, (∀ c ∈ s.cores, g.isValid c = true) →
      ∃ closed, s.close g g.firstSets = .ok closed ∧ closed.kernel = s.kernel) ∧
    ∀ k₁ k₂ : Items, k₁.IsKernelOf g → k₂.IsKernelOf g →
      ∃ c₁ c₂, k₁.close g g.firstSets = .ok c₁ ∧ k₂.close g g.firstSets = .ok c₂ ∧
        (Signature.ofItems true c₁ = Signature.ofItems true c₂ ↔ k₁ = k₂) ∧
        (Signature.ofItems false c₁ = Signature.ofItems false c₂ ↔ k₁.sameCores k₂ = true) := by
  have hg := hg.wellFormed
  refine ⟨fun s hs => ⟨_, close_eq _ hs, kernel_closed hg s⟩, fun k₁ k₂ h₁ h₂ => ?_⟩
  refine ⟨_, _, close_eq _ h₁.isValid, close_eq _ h₂.isValid, ?_, ?_⟩
  · rw [Signature.ofItems_true_eq_iff, closed_eq_iff hg h₁ h₂]
  · rw [Signature.ofItems_false_eq_iff, cores_closed_eq_iff hg h₁ h₂, sameCores, decide_eq_true_iff]

theorem kernels_hollow :
    ∃ c₁ c₂, close .hollow Grammar.hollow.firstSets (.ofList [⟨⟨⟨1⟩, 1⟩, .single ⟨2⟩⟩]) = .ok c₁ ∧
      close .hollow Grammar.hollow.firstSets (.ofList [⟨⟨⟨1⟩, 1⟩, .single ⟨3⟩⟩]) = .ok c₂ ∧
      Signature.ofItems true c₁ ≠ Signature.ofItems true c₂ ∧
      Signature.ofItems false c₁ = Signature.ofItems false c₂ := by
  obtain ⟨-, tell⟩ := kernels_of_defined Grammar.defined_hollow
  obtain ⟨c₁, c₂, h₁, h₂, same, sameCores⟩ := tell
    (.ofList [⟨⟨⟨1⟩, 1⟩, .single ⟨2⟩⟩]) (.ofList [⟨⟨⟨1⟩, 1⟩, .single ⟨3⟩⟩])
    ⟨by decide +kernel, by decide⟩ ⟨by decide +kernel, by decide⟩
  exact ⟨c₁, c₂, h₁, h₂, fun h => absurd (same.mp h) (by decide), sameCores.mpr (by decide)⟩

end Items

end LRAutomata
