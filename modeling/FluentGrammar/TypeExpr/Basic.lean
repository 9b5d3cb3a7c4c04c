import FluentGrammar.Text.Pieces

/-!
# Type expressions

Types as they are written: a simple name, type arguments and array dimensions. Nothing here knows
whether a name belongs to an interface, a class or a type parameter.

* `TypeExpr`, `TypeArg`: types and their arguments, among them wildcards.
* `TypeExpr.induction`: induction on types, with the types in the arguments below.
* `TypeExpr.text`: the written form, `Map<K, List<? extends V>>[]`.
* `TypeExpr.erasure`: the written form without arguments, parameters replaced by the top type.
* `TypeExpr.wrapped`, `TypeExpr.Fits`: numbers of dimensions as 32 bits hold them.
-/

namespace FluentGrammar

mutual

/-- A simple name applied to arguments, with a number of array dimensions. -/
structure TypeExpr where
  name : String
  args : List TypeArg
  dims : Nat

/-- An argument is a type or a wildcard, which may have an upper or a lower bound. -/
inductive TypeArg where
  | plain (type : TypeExpr)
  | any
  | upper (bound : TypeExpr)
  | lower (bound : TypeExpr)

end

/-! ## Equality -/

mutual

/-- Equality of types is decided name by name. -/
def TypeExpr.decEq : (s t : TypeExpr) → Decidable (s = t)
  | ⟨n, as, d⟩, ⟨m, bs, e⟩ =>
    if hn : n = m then
      match TypeArg.decEqList as bs with
      | isTrue h => decidable_of_iff (d = e) (by simp [h, hn])
      | isFalse h => isFalse (by simp [h])
    else isFalse (by simp [hn])

/-- Equality of arguments. -/
def TypeArg.decEq : (a b : TypeArg) → Decidable (a = b)
  | .plain s, .plain t =>
    match TypeExpr.decEq s t with
    | isTrue h => isTrue (by rw [h])
    | isFalse h => isFalse (by simp [h])
  | .any, .any => isTrue rfl
  | .upper s, .upper t =>
    match TypeExpr.decEq s t with
    | isTrue h => isTrue (by rw [h])
    | isFalse h => isFalse (by simp [h])
  | .lower s, .lower t =>
    match TypeExpr.decEq s t with
    | isTrue h => isTrue (by rw [h])
    | isFalse h => isFalse (by simp [h])
  | .plain _, .any | .plain _, .upper _ | .plain _, .lower _
  | .any, .plain _ | .any, .upper _ | .any, .lower _
  | .upper _, .plain _ | .upper _, .any | .upper _, .lower _
  | .lower _, .plain _ | .lower _, .any | .lower _, .upper _ => isFalse (by simp)

/-- Equality of argument lists. -/
def TypeArg.decEqList : (as bs : List TypeArg) → Decidable (as = bs)
  | [], [] => isTrue rfl
  | [], _ :: _ | _ :: _, [] => isFalse (by simp)
  | a :: as, b :: bs =>
    match TypeArg.decEq a b, TypeArg.decEqList as bs with
    | isTrue h, isTrue h' => isTrue (by rw [h, h'])
    | isFalse h, _ => isFalse (by simp [h])
    | _, isFalse h => isFalse (by simp [h])

end

instance : DecidableEq TypeExpr := TypeExpr.decEq

instance : DecidableEq TypeArg := TypeArg.decEq

/-! ## Induction -/

/-- The type that an argument holds. -/
def TypeArg.type? : TypeArg → Option TypeExpr
  | .plain t | .upper t | .lower t => some t
  | .any => none

mutual

/-- A property holds of all types if it holds of each whose arguments hold only such types. -/
theorem TypeExpr.induction {motive : TypeExpr → Prop}
    (step : ∀ name args dims, (∀ a ∈ args, ∀ t, a.type? = some t → motive t) →
      motive ⟨name, args, dims⟩) : (t : TypeExpr) → motive t
  | ⟨name, args, dims⟩ => step name args dims fun a ha t ht => TypeArg.induction step args a ha t ht

theorem TypeArg.induction {motive : TypeExpr → Prop}
    (step : ∀ name args dims, (∀ a ∈ args, ∀ t, a.type? = some t → motive t) →
      motive ⟨name, args, dims⟩) :
    (args : List TypeArg) → ∀ a ∈ args, ∀ t, a.type? = some t → motive t
  | [], _, ha, _, _ => by cases ha
  | .plain u :: as, a, ha, t, ht => by
    rcases List.mem_cons.mp ha with rfl | ha
    · cases ht
      exact TypeExpr.induction step u
    · exact TypeArg.induction step as a ha t ht
  | .upper u :: as, a, ha, t, ht => by
    rcases List.mem_cons.mp ha with rfl | ha
    · cases ht
      exact TypeExpr.induction step u
    · exact TypeArg.induction step as a ha t ht
  | .lower u :: as, a, ha, t, ht => by
    rcases List.mem_cons.mp ha with rfl | ha
    · cases ht
      exact TypeExpr.induction step u
    · exact TypeArg.induction step as a ha t ht
  | .any :: as, a, ha, t, ht => by
    rcases List.mem_cons.mp ha with rfl | ha
    · cases ht
    · exact TypeArg.induction step as a ha t ht

end

/-! ## Written form -/

/-- One pair of brackets for every array dimension. -/
def brackets (dims : Nat) : String :=
  String.join (List.replicate dims "[]")

/-- The pieces between angle brackets, separated by commas; nothing if there are none. -/
def angled (pieces : List String) : String :=
  if pieces.isEmpty then "" else "<" ++ Text.joinWith ", " pieces ++ ">"

mutual

/-- The written form of a type. -/
def TypeExpr.text : TypeExpr → String
  | ⟨name, args, dims⟩ => name ++ angled (TypeArg.texts args) ++ brackets dims

/-- The written form of an argument. -/
def TypeArg.text : TypeArg → String
  | .plain t => TypeExpr.text t
  | .any => "?"
  | .upper t => "? extends " ++ TypeExpr.text t
  | .lower t => "? super " ++ TypeExpr.text t

/-- The written forms of several arguments. -/
def TypeArg.texts : List TypeArg → List String
  | [] => []
  | a :: as => TypeArg.text a :: TypeArg.texts as

end

theorem TypeArg.texts_eq_map (as : List TypeArg) : texts as = as.map text := by
  induction as with
  | nil => rfl
  | cons a as ih => simp [texts, ih]

/-! ## Occurrence of names -/

mutual

/-- The name occurs in the type, possibly within arguments. -/
def TypeExpr.mentions (name : String) : TypeExpr → Bool
  | ⟨n, args, _⟩ => n == name || TypeArg.anyMentions name args

/-- The name occurs in the argument. -/
def TypeArg.mentions (name : String) : TypeArg → Bool
  | .plain t | .upper t | .lower t => TypeExpr.mentions name t
  | .any => false

/-- The name occurs in one of the arguments. -/
def TypeArg.anyMentions (name : String) : List TypeArg → Bool
  | [] => false
  | a :: as => TypeArg.mentions name a || TypeArg.anyMentions name as

end

theorem TypeArg.anyMentions_eq_any (name : String) (as : List TypeArg) :
    anyMentions name as = as.any (mentions name) := by
  induction as with
  | nil => rfl
  | cons a as ih => simp [anyMentions, ih]

mutual

/-- All names that occur in the type, the outermost first. -/
def TypeExpr.allNames : TypeExpr → List String
  | ⟨n, args, _⟩ => n :: TypeArg.allNamesOf args

/-- All names that occur in the argument. -/
def TypeArg.allNames : TypeArg → List String
  | .plain t | .upper t | .lower t => TypeExpr.allNames t
  | .any => []

/-- All names that occur in the arguments. -/
def TypeArg.allNamesOf : List TypeArg → List String
  | [] => []
  | a :: as => TypeArg.allNames a ++ TypeArg.allNamesOf as

end

mutual

theorem TypeExpr.mem_allNames (name : String) :
    (t : TypeExpr) → (name ∈ t.allNames ↔ t.mentions name = true)
  | ⟨n, args, _⟩ => by
    simp only [TypeExpr.allNames, TypeExpr.mentions, List.mem_cons, Bool.or_eq_true, beq_iff_eq,
      TypeArg.mem_allNamesOf name args, @eq_comm _ name]

theorem TypeArg.mem_allNames (name : String) :
    (a : TypeArg) → (name ∈ a.allNames ↔ a.mentions name = true)
  | .plain t | .upper t | .lower t => by
    simpa only [TypeArg.allNames, TypeArg.mentions] using TypeExpr.mem_allNames name t
  | .any => by simp [TypeArg.allNames, TypeArg.mentions]

theorem TypeArg.mem_allNamesOf (name : String) :
    (as : List TypeArg) → (name ∈ TypeArg.allNamesOf as ↔ TypeArg.anyMentions name as = true)
  | [] => by simp [TypeArg.allNamesOf, TypeArg.anyMentions]
  | a :: as => by
    simp only [TypeArg.allNamesOf, TypeArg.anyMentions, List.mem_append, Bool.or_eq_true,
      TypeArg.mem_allNames name a, TypeArg.mem_allNamesOf name as]

end

/-! ## Small operations -/

namespace TypeExpr

/-- The name of the type that every type extends. -/
def topName : String := "Object"

/-- The name that stands for the absence of a value. -/
def voidName : String := "void"

/-- A name without arguments and dimensions. -/
def named (name : String) : TypeExpr :=
  ⟨name, [], 0⟩

/-- A name with arguments and without dimensions. -/
def generic (name : String) (args : List TypeArg) : TypeExpr :=
  ⟨name, args, 0⟩

/-- The type that every type extends. -/
def top : TypeExpr :=
  named topName

/-- The result of a method that returns nothing. -/
def void : TypeExpr :=
  named voidName

instance : Inhabited TypeExpr := ⟨top⟩

/-- The result of a method that returns nothing; arguments do not matter. -/
def isVoid (t : TypeExpr) : Bool :=
  t.name == voidName && t.dims == 0

/-- A type with array dimensions. -/
def isArray (t : TypeExpr) : Bool :=
  0 < t.dims

/-- A bare name. -/
def isBare (t : TypeExpr) : Bool :=
  t.args.isEmpty && t.dims == 0

/-- The type with `n` more array dimensions. -/
def arrayOf (t : TypeExpr) (n : Nat) : TypeExpr :=
  { t with dims := t.dims + n }

/-- The name and dimensions without arguments, where the names in `params` become the top type. -/
def erasure (params : List String) (t : TypeExpr) : String :=
  (if t.name ∈ params then topName else t.name) ++ brackets t.dims

end TypeExpr

namespace TypeArg

/-- A wildcard of any kind. -/
def isWildcard : TypeArg → Bool
  | .plain _ => false
  | .any | .upper _ | .lower _ => true

/-- The argument seen as a type: a wildcard is its upper bound, which is the top type unless it is
given. -/
def toType : TypeArg → TypeExpr
  | .plain t => t
  | .upper t => t
  | .any | .lower _ => TypeExpr.top

end TypeArg

/-! ## Dimensions in 32 bits -/

mutual

/-- The type as it is stored: numbers of dimensions have 32 bits and wrap around. -/
def TypeExpr.wrapped : TypeExpr → TypeExpr
  | ⟨name, args, dims⟩ => ⟨name, TypeArg.wrappedAll args, dims % UInt32.size⟩

/-- The argument as it is stored. -/
def TypeArg.wrapped : TypeArg → TypeArg
  | .plain t => .plain (TypeExpr.wrapped t)
  | .any => .any
  | .upper t => .upper (TypeExpr.wrapped t)
  | .lower t => .lower (TypeExpr.wrapped t)

/-- The arguments as they are stored. -/
def TypeArg.wrappedAll : List TypeArg → List TypeArg
  | [] => []
  | a :: as => TypeArg.wrapped a :: TypeArg.wrappedAll as

end

/-- A type that is stored as it is: all of its numbers of dimensions are below 2^32. -/
def TypeExpr.Fits (t : TypeExpr) : Prop :=
  t.wrapped = t
deriving Decidable

/-- An argument that is stored as it is. -/
def TypeArg.Fits (a : TypeArg) : Prop :=
  a.wrapped = a
deriving Decidable

theorem TypeExpr.fits_mk_iff {name : String} {args : List TypeArg} {dims : Nat} :
    TypeExpr.Fits ⟨name, args, dims⟩ ↔ TypeArg.wrappedAll args = args ∧ dims < UInt32.size := by
  simp [Fits, wrapped]

theorem TypeArg.wrappedAll_cons_eq_iff {a : TypeArg} {as : List TypeArg} :
    wrappedAll (a :: as) = a :: as ↔ a.Fits ∧ wrappedAll as = as := by
  rw [wrappedAll, List.cons.injEq, Fits]

theorem TypeArg.length_wrappedAll (as : List TypeArg) : (wrappedAll as).length = as.length := by
  induction as with
  | nil => rfl
  | cons a as ih => rw [wrappedAll, List.length_cons, ih, List.length_cons]

@[simp]
theorem TypeArg.fits_plain {t : TypeExpr} : (plain t).Fits ↔ t.Fits := by
  rw [Fits, wrapped, plain.injEq, TypeExpr.Fits]

@[simp]
theorem TypeArg.fits_upper {t : TypeExpr} : (upper t).Fits ↔ t.Fits := by
  rw [Fits, wrapped, upper.injEq, TypeExpr.Fits]

@[simp]
theorem TypeArg.fits_lower {t : TypeExpr} : (lower t).Fits ↔ t.Fits := by
  rw [Fits, wrapped, lower.injEq, TypeExpr.Fits]

end FluentGrammar
