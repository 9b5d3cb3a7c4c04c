import FluentGrammar.TypeExpr.Basic

/-!
# The order of types

Types are ordered totally: by name, then by arguments, then by dimensions. So a set of types lists
every member once, and its size is the number of its members.

* `TypeExpr.compare`: the order.
* `Std.LawfulEqOrd TypeExpr`, `Std.TransOrd TypeExpr`: the order is lawful.
-/

namespace FluentGrammar

/-! ## Definition -/

/-- Plain types come before wildcards, and an unbounded wildcard before bounded ones. -/
def TypeArg.rank : TypeArg → Nat
  | .plain _ => 0
  | .any => 1
  | .upper _ => 2
  | .lower _ => 3

mutual

/-- Types are ordered by name, then by arguments, then by dimensions. -/
def TypeExpr.compare : TypeExpr → TypeExpr → Ordering
  | ⟨n, as, d⟩, ⟨m, bs, e⟩ =>
    (Ord.compare n m).then ((TypeArg.compareList as bs).then (Ord.compare d e))

/-- Arguments are ordered by rank, then by the type they hold. -/
def TypeArg.compare : TypeArg → TypeArg → Ordering
  | .plain s, .plain t | .upper s, .upper t | .lower s, .lower t => TypeExpr.compare s t
  | a, b => Ord.compare a.rank b.rank

/-- Argument lists are ordered lexicographically. -/
def TypeArg.compareList : List TypeArg → List TypeArg → Ordering
  | [], [] => .eq
  | [], _ :: _ => .lt
  | _ :: _, [] => .gt
  | a :: as, b :: bs => (TypeArg.compare a b).then (TypeArg.compareList as bs)

end

instance : Ord TypeExpr := ⟨TypeExpr.compare⟩

instance : Ord TypeArg := ⟨TypeArg.compare⟩

/-! ## Laws of the order -/

theorem TypeArg.compareList_cons (a b : TypeArg) (as bs : List TypeArg) :
    compareList (a :: as) (b :: bs) = (compare a b).then (compareList as bs) := by
  rw [compareList]

theorem TypeExpr.compare_mk (n m : String) (as bs : List TypeArg) (d e : Nat) :
    compare ⟨n, as, d⟩ ⟨m, bs, e⟩ =
      (Ord.compare n m).then ((TypeArg.compareList as bs).then (Ord.compare d e)) := by
  rw [compare]

/-- Equality in the order is equality, for arguments that hold such types. -/
theorem TypeArg.compare_eq_iff {a : TypeArg}
    (h : ∀ t, a.type? = some t → ∀ u, t.compare u = .eq ↔ t = u) (b : TypeArg) :
    a.compare b = .eq ↔ a = b := by
  cases a <;> cases b <;> simp_all [compare, type?, rank]

theorem TypeArg.compareList_eq_iff {as : List TypeArg}
    (h : ∀ a ∈ as, ∀ b, a.compare b = .eq ↔ a = b) (bs : List TypeArg) :
    compareList as bs = .eq ↔ as = bs := by
  induction as generalizing bs with
  | nil => cases bs <;> simp [compareList]
  | cons a as ih =>
    obtain ⟨ha, has⟩ := List.forall_mem_cons.mp h
    cases bs with
    | nil => simp [compareList]
    | cons b bs => rw [compareList_cons, Ordering.then_eq_eq, ha, ih has, List.cons.injEq]

theorem TypeExpr.compare_eq_iff (t u : TypeExpr) : t.compare u = .eq ↔ t = u := by
  induction t using TypeExpr.induction generalizing u with
  | step name args dims ih =>
    obtain ⟨m, bs, e⟩ := u
    have hargs := TypeArg.compareList_eq_iff (fun a ha => TypeArg.compare_eq_iff (ih a ha)) bs
    rw [compare_mk, Ordering.then_eq_eq, Ordering.then_eq_eq, hargs]
    simp

instance : Std.LawfulEqOrd TypeExpr where
  compare_self := (TypeExpr.compare_eq_iff _ _).mpr rfl
  eq_of_compare := (TypeExpr.compare_eq_iff _ _).mp

/-- The order may be read in the other direction, for arguments that hold such types. -/
theorem TypeArg.compare_swap {a : TypeArg}
    (h : ∀ t, a.type? = some t → ∀ u, t.compare u = (u.compare t).swap) (b : TypeArg) :
    a.compare b = (b.compare a).swap := by
  cases a <;> cases b <;> simp_all [compare, type?, rank] <;> rfl

theorem TypeArg.compareList_swap {as : List TypeArg}
    (h : ∀ a ∈ as, ∀ b, a.compare b = (b.compare a).swap) (bs : List TypeArg) :
    compareList as bs = (compareList bs as).swap := by
  induction as generalizing bs with
  | nil => cases bs <;> simp [compareList]
  | cons a as ih =>
    obtain ⟨ha, has⟩ := List.forall_mem_cons.mp h
    cases bs with
    | nil => simp [compareList]
    | cons b bs => rw [compareList_cons, compareList_cons, Ordering.swap_then, ha, ih has]

theorem TypeExpr.compare_swap (t u : TypeExpr) : t.compare u = (u.compare t).swap := by
  induction t using TypeExpr.induction generalizing u with
  | step name args dims ih =>
    obtain ⟨m, bs, e⟩ := u
    rw [compare_mk, compare_mk, Ordering.swap_then, Ordering.swap_then, Std.OrientedOrd.eq_swap,
      TypeArg.compareList_swap fun a ha => TypeArg.compare_swap (ih a ha),
      Std.OrientedOrd.eq_swap (a := dims)]

/-- The comparisons of three things in turn: of the first two, of the last two, and of the first and
the last. -/
def Chained (x y z : Ordering) : Prop :=
  (x = .eq → z = y) ∧ (y = .eq → z = x) ∧ (x = .lt → y = .lt → z = .lt)

theorem Chained.then {x y z x' y' z' : Ordering} (h : Chained x y z) (h' : Chained x' y' z') :
    Chained (x.then x') (y.then y') (z.then z') := by
  cases x <;> cases y <;> simp_all [Chained]

theorem chained_compare {α : Type} [Ord α] [Std.TransOrd α] (a b c : α) :
    Chained (compare a b) (compare b c) (compare a c) :=
  ⟨Std.TransCmp.congr_left, fun h => (Std.TransCmp.congr_right h).symm, Std.TransCmp.lt_trans⟩

/-- Arguments are compared by rank and then by what they hold. -/
def TypeArg.compareHeld : Option TypeExpr → Option TypeExpr → Ordering
  | none, none => .eq
  | none, some _ => .lt
  | some _, none => .gt
  | some t, some u => t.compare u

theorem TypeArg.compare_eq_then (a b : TypeArg) :
    a.compare b = (Ord.compare a.rank b.rank).then (compareHeld a.type? b.type?) := by
  cases a <;> cases b <;> simp only [compare] <;> rfl

theorem TypeArg.chained_compare {a : TypeArg}
    (h : ∀ t, a.type? = some t → ∀ u v, Chained (t.compare u) (u.compare v) (t.compare v))
    (b c : TypeArg) : Chained (a.compare b) (b.compare c) (a.compare c) := by
  have hheld : Chained (compareHeld a.type? b.type?) (compareHeld b.type? c.type?)
      (compareHeld a.type? c.type?) := by
    cases ha : a.type? <;> cases b.type? <;> cases c.type? <;>
      simp only [compareHeld] <;> first | exact h _ ha _ _ | simp [Chained]
  rw [compare_eq_then, compare_eq_then, compare_eq_then]
  exact (FluentGrammar.chained_compare a.rank b.rank c.rank).then hheld

theorem TypeArg.chained_compareList {as : List TypeArg}
    (h : ∀ a ∈ as, ∀ b c, Chained (a.compare b) (b.compare c) (a.compare c))
    (bs cs : List TypeArg) :
    Chained (compareList as bs) (compareList bs cs) (compareList as cs) := by
  induction as generalizing bs cs with
  | nil => cases bs <;> cases cs <;> simp [compareList, Chained]
  | cons a as ih =>
    obtain ⟨ha, has⟩ := List.forall_mem_cons.mp h
    cases bs with
    | nil => cases cs <;> simp [compareList, Chained]
    | cons b bs =>
      cases cs with
      | nil => simp [compareList, Chained]
      | cons c cs =>
        rw [compareList_cons, compareList_cons, compareList_cons]
        exact (ha b c).then (ih has bs cs)

theorem TypeExpr.chained_compare (t u v : TypeExpr) :
    Chained (t.compare u) (u.compare v) (t.compare v) := by
  induction t using TypeExpr.induction generalizing u v with
  | step name args dims ih =>
    obtain ⟨m, bs, e⟩ := u
    obtain ⟨k, cs, f⟩ := v
    rw [compare_mk, compare_mk, compare_mk]
    have hargs := TypeArg.chained_compareList (fun a ha => TypeArg.chained_compare (ih a ha)) bs cs
    exact (FluentGrammar.chained_compare name m k).then
      (hargs.then (FluentGrammar.chained_compare dims e f))

instance : Std.TransOrd TypeExpr where
  eq_swap := TypeExpr.compare_swap _ _
  isLE_trans {t u v} h h' := by
    obtain ⟨hleft, hright, hlt⟩ := TypeExpr.chained_compare t u v
    change (t.compare u).isLE = true at h
    change (u.compare v).isLE = true at h'
    change (t.compare v).isLE = true
    cases htu : t.compare u with
    | eq => rwa [hleft htu]
    | gt => simp [htu] at h
    | lt =>
      cases huv : u.compare v with
      | eq => rwa [hright huv]
      | gt => simp [huv] at h'
      | lt => simp [hlt htu huv]

end FluentGrammar
