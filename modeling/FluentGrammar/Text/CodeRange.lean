/-!
# Ranges of code points

A class of characters is kept as an ascending list of closed ranges of code points.

* `CodeRange.covers`: membership, which stops at the first range beyond the point.
* `CodeRange.isAscending`: the order of a list, checked by neighbours.
* `CodeRange.covers_eq_any`: on an ascending list this is membership in one of the ranges.
-/

namespace FluentGrammar.Text

/-- The code points from the first number to the second, both included. -/
abbrev CodeRange := Nat × Nat

namespace CodeRange

/-- Membership of `n` in one of the ranges of an ascending list. -/
def covers : List CodeRange → Nat → Bool
  | [], _ => false
  | (lo, hi) :: ranges, n => if n < lo then false else n ≤ hi || covers ranges n

theorem covers_cons_of_mem {lo hi n : Nat} {ranges : List CodeRange} (h₁ : lo ≤ n) (h₂ : n ≤ hi) :
    covers ((lo, hi) :: ranges) n = true := by
  simp [covers, h₂, Nat.not_lt.mpr h₁]

theorem covers_cons_of_lt {lo hi n : Nat} {ranges : List CodeRange} (h : max lo (hi + 1) ≤ n) :
    covers ((lo, hi) :: ranges) n = covers ranges n := by
  have h₁ : ¬ n < lo := by omega
  have h₂ : ¬ n ≤ hi := by omega
  simp [covers, h₁, h₂]

/-- Every range begins beyond all those before it. -/
def Ascending (ranges : List CodeRange) : Prop :=
  ranges.Pairwise fun r s => r.1 ≤ s.1

/-- Every range begins beyond the one before it, as far as a look at neighbours tells. -/
def isAscending : List CodeRange → Bool
  | r :: s :: ranges => r.1 ≤ s.1 && isAscending (s :: ranges)
  | _ => true

theorem ascending_of_isAscending {ranges : List CodeRange} (h : isAscending ranges = true) :
    Ascending ranges := by
  induction ranges with
  | nil => exact List.Pairwise.nil
  | cons r ranges ih =>
    cases ranges with
    | nil => exact List.pairwise_singleton _ _
    | cons s ranges =>
      simp only [isAscending, Bool.and_eq_true, decide_eq_true_eq] at h
      have hs : Ascending (s :: ranges) := ih h.2
      refine List.pairwise_cons.mpr ⟨fun t ht => ?_, hs⟩
      rcases List.mem_cons.mp ht with rfl | ht
      · exact h.1
      · exact Nat.le_trans h.1 ((List.pairwise_cons.mp hs).1 t ht)

theorem covers_eq_any {ranges : List CodeRange} (h : Ascending ranges) (n : Nat) :
    covers ranges n = ranges.any fun r => r.1 ≤ n && n ≤ r.2 := by
  induction ranges with
  | nil => rfl
  | cons r ranges ih =>
    obtain ⟨lo, hi⟩ := r
    obtain ⟨h₁, h₂⟩ := List.pairwise_cons.mp h
    by_cases hn : n < lo
    · have : ∀ s ∈ ranges, ¬ s.1 ≤ n := fun s hs => by have := h₁ s hs; simp at this; omega
      simp only [covers, hn, if_true, List.any_cons]
      symm
      rw [Bool.or_eq_false_iff]
      refine ⟨by simp; omega, List.any_eq_false.mpr fun s hs => by simp [this s hs]⟩
    · simp [covers, hn, ih h₂, Nat.le_of_not_lt hn]

end CodeRange

end FluentGrammar.Text
