/-!
# First appearances

The distinct members of a list in the order in which they first appear.  Ids are renumbered and
entry points are told apart in this order.
-/

namespace ShaderLowering

variable {α : Type} [DecidableEq α]

/-- The distinct members of a list in the order of their first appearance. -/
def firstAppearances : List α → List α
  | [] => []
  | a :: as => a :: (firstAppearances as).filter (· ≠ a)

theorem mem_firstAppearances {as : List α} {a : α} : a ∈ firstAppearances as ↔ a ∈ as := by
  induction as with
  | nil => simp [firstAppearances]
  | cons b bs ih =>
    by_cases h : a = b
    · simp [firstAppearances, h]
    · simp [firstAppearances, h, ih]

theorem nodup_firstAppearances (as : List α) : (firstAppearances as).Nodup := by
  induction as with
  | nil => exact List.nodup_nil
  | cons b bs ih =>
    rw [firstAppearances, List.nodup_cons]
    exact ⟨by simp, ih.filter _⟩

end ShaderLowering
