/-!
# Ordered sets

Finite sets whose members are listed in ascending order, each once. Modifiers, imports and thrown
types are such sets, so that what is printed does not depend on the order of declaration.

* `OrderedSet.insert`, `OrderedSet.erase`, `OrderedSet.ofList`: the operations.
* `OrderedSet.mem_insert`, `OrderedSet.mem_ofList`: their members.
* `OrderedSet.nodup`: no member is listed twice.
-/

namespace FluentGrammar

/-- A finite set, listed in ascending order. -/
structure OrderedSet (α : Type) [Ord α] where
  toList : List α
  ascending : toList.Pairwise (compare · · = .lt)
deriving DecidableEq

namespace OrderedSet

variable {α : Type} [Ord α]

instance : EmptyCollection (OrderedSet α) := ⟨⟨[], .nil⟩⟩

instance : Inhabited (OrderedSet α) := ⟨∅⟩

instance : Membership α (OrderedSet α) := ⟨fun s a => a ∈ s.toList⟩

instance [DecidableEq α] (a : α) (s : OrderedSet α) : Decidable (a ∈ s) :=
  inferInstanceAs (Decidable (a ∈ s.toList))

/-- An ascending list with one more member; a member that is there already stays as it is. -/
def insertList (a : α) : List α → List α
  | [] => [a]
  | b :: bs =>
    match compare a b with
    | .lt => a :: b :: bs
    | .eq => b :: bs
    | .gt => b :: insertList a bs

theorem mem_insertList [Std.LawfulEqOrd α] {a b : α} {bs : List α} :
    b ∈ insertList a bs ↔ b = a ∨ b ∈ bs := by
  induction bs with
  | nil => simp [insertList]
  | cons c cs ih =>
    rw [insertList]
    split
    · simp
    · rename_i h
      have := Std.LawfulEqOrd.eq_of_compare h
      subst this
      simp
    · simp only [List.mem_cons, ih]
      grind

/-- The set without one member. -/
def erase [DecidableEq α] (s : OrderedSet α) (a : α) : OrderedSet α where
  toList := s.toList.filter (· ≠ a)
  ascending := s.ascending.filter _

/-- The number of members. -/
def size (s : OrderedSet α) : Nat :=
  s.toList.length

/-- A set without members. -/
def isEmpty (s : OrderedSet α) : Bool :=
  s.toList.isEmpty

theorem mem_def {a : α} {s : OrderedSet α} : a ∈ s ↔ a ∈ s.toList := Iff.rfl

theorem mem_erase [DecidableEq α] {a b : α} {s : OrderedSet α} :
    b ∈ s.erase a ↔ b ∈ s ∧ b ≠ a := by
  simp [mem_def, erase]

/-! ## Sets over a lawful order -/

variable [Std.TransOrd α] [Std.LawfulEqOrd α]

theorem ascending_insertList {a : α} {bs : List α} (h : bs.Pairwise (compare · · = .lt)) :
    (insertList a bs).Pairwise (compare · · = .lt) := by
  induction bs with
  | nil => simp [insertList]
  | cons b bs ih =>
    obtain ⟨hb, hbs⟩ := List.pairwise_cons.mp h
    rw [insertList]
    split <;> rename_i hc
    · refine List.pairwise_cons.mpr ⟨fun c hm => ?_, h⟩
      rcases List.mem_cons.mp hm with rfl | hm
      · exact hc
      · exact Std.TransCmp.lt_trans hc (hb c hm)
    · exact h
    · refine List.pairwise_cons.mpr ⟨fun c hm => ?_, ih hbs⟩
      rcases mem_insertList.mp hm with rfl | hm
      · exact Std.OrientedCmp.lt_of_gt hc
      · exact hb c hm

/-- The set with one more member. -/
def insert (s : OrderedSet α) (a : α) : OrderedSet α where
  toList := insertList a s.toList
  ascending := ascending_insertList s.ascending

/-- The set with all members of a list. -/
def insertMany (s : OrderedSet α) (as : List α) : OrderedSet α :=
  as.foldl insert s

/-- The set of the members of a list. -/
def ofList (as : List α) : OrderedSet α :=
  insertMany ∅ as

theorem mem_insert {a b : α} {s : OrderedSet α} : b ∈ s.insert a ↔ b = a ∨ b ∈ s :=
  mem_insertList

theorem mem_insertMany {b : α} {as : List α} {s : OrderedSet α} :
    b ∈ s.insertMany as ↔ b ∈ as ∨ b ∈ s := by
  induction as generalizing s with
  | nil => simp [insertMany]
  | cons a as ih =>
    have : s.insertMany (a :: as) = (s.insert a).insertMany as := rfl
    rw [this, ih, mem_insert]
    simp only [List.mem_cons]
    grind

theorem mem_ofList {b : α} {as : List α} : b ∈ (ofList as : OrderedSet α) ↔ b ∈ as := by
  rw [ofList, mem_insertMany]
  simp [mem_def, EmptyCollection.emptyCollection]

omit [Std.TransOrd α] in
theorem nodup (s : OrderedSet α) : s.toList.Nodup := by
  refine s.ascending.imp fun {a b} hlt => ?_
  rintro rfl
  have heq : compare a a = .eq := Std.ReflCmp.compare_self
  rw [heq] at hlt
  cases hlt

end OrderedSet

end FluentGrammar
