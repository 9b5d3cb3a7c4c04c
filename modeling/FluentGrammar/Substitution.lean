import FluentGrammar.Fault

/-!
# Substitutions

A substitution gives each of its names a type argument or leaves it *unresolved*. A wildcard that
was captured stands under a name of its own, which begins with a mark that no written name has; a
name bound to a captured wildcard is looked up through it.

* `Substitution.get?`, `Substitution.set`: the entries.
* `Substitution.lookup`: the entry of a name, followed through a captured wildcard.
* `TypeExpr.replace`: a type with the names of a substitution replaced.
-/

namespace FluentGrammar

/-- The beginning of the names of captured wildcards. -/
def captureMark : String := "capture#"

/-- The name of a captured wildcard. -/
def isCapture (name : String) : Bool :=
  captureMark.toList.isPrefixOf name.toList

/-- Names with their arguments, in ascending order of the names. -/
structure Substitution where
  entries : List (String × Option TypeArg)
deriving DecidableEq

namespace Substitution

instance : EmptyCollection Substitution := ⟨⟨[]⟩⟩

instance : Inhabited Substitution := ⟨∅⟩

/-- Ascending entries with the entry of `name` replaced or added. -/
def insertEntry (name : String) (value : Option TypeArg) :
    List (String × Option TypeArg) → List (String × Option TypeArg)
  | [] => [(name, value)]
  | (n, v) :: es =>
    match compare name n with
    | .lt => (name, value) :: (n, v) :: es
    | .eq => (name, value) :: es
    | .gt => (n, v) :: insertEntry name value es

/-- The substitution with the entry of `name` replaced or added. -/
def insert (s : Substitution) (name : String) (value : Option TypeArg) : Substitution :=
  ⟨insertEntry name value s.entries⟩

/-- The substitution with `name` bound to an argument. -/
def set (s : Substitution) (name : String) (arg : TypeArg) : Substitution :=
  s.insert name (some arg)

/-- All of the names present and unresolved. -/
def unresolved (names : List String) : Substitution :=
  names.foldl (fun s name => s.insert name none) ∅

/-- The entry of a name, which is `some none` if the name is unresolved. -/
def get? (s : Substitution) (name : String) : Option (Option TypeArg) :=
  s.entries.lookup name

/-- A name that has an entry. -/
def contains (s : Substitution) (name : String) : Bool :=
  (s.get? name).isSome

/-- A name that is bound to an argument. -/
def isBound (s : Substitution) (name : String) : Bool :=
  ((s.get? name).getD none).isSome

/-- What an argument stands for: a bare captured name that is bound stands for its wildcard. -/
def follow (s : Substitution) (arg : TypeArg) : TypeArg :=
  match arg with
  | .plain t =>
    if isCapture t.name && t.isBare then ((s.get? t.name).getD none).getD arg else arg
  | _ => arg

/-- The entry of a name, followed through a captured wildcard. -/
def lookup (s : Substitution) (name : String) : Option (Option TypeArg) :=
  (s.get? name).map fun entry => entry.map s.follow

/-- The entries that do not belong to captured wildcards. -/
def ordinary (s : Substitution) : List (String × Option TypeArg) :=
  s.entries.filter fun e => !isCapture e.1

/-- No name is unresolved. -/
def isResolved (s : Substitution) : Bool :=
  s.entries.all fun e => e.2.isSome

/-- The written form, `\x7bA := X, B := _\x7d`. -/
def text (s : Substitution) : String :=
  let entry := fun (e : String × Option TypeArg) =>
    e.1 ++ " := " ++ (e.2.map TypeArg.text).getD "_"
  "\x7b" ++ Text.joinWith ", " (s.entries.map entry) ++ "\x7d"

/-! ## Entries after a change -/

theorem get?_insert (s : Substitution) (name other : String) (value : Option TypeArg) :
    (s.insert name value).get? other = if other = name then some value else s.get? other := by
  obtain ⟨es⟩ := s
  simp only [get?, insert]
  induction es with
  | nil =>
    by_cases h : other = name
    · simp [insertEntry, h]
    · have : (other == name) = false := by simpa using h
      simp [insertEntry, List.lookup_cons, this, h]
  | cons e es ih =>
    obtain ⟨n, v⟩ := e
    simp only [insertEntry]
    split <;> rename_i hc
    · by_cases h : other = name
      · simp [h]
      · have : (other == name) = false := by simpa using h
        simp [List.lookup_cons, this, h]
    · obtain rfl := Std.LawfulEqOrd.eq_of_compare hc
      by_cases h : other = name
      · simp [h]
      · have : (other == name) = false := by simpa using h
        simp [List.lookup_cons, this, h]
    · simp only [List.lookup_cons, ih]
      by_cases h : other = name
      · subst h
        have : (other == n) = false := by
          have hne : other ≠ n := fun he => by
            subst he
            simp at hc
          simpa using hne
        simp [this]
      · simp [h]

@[simp] theorem get?_set (s : Substitution) (name other : String) (arg : TypeArg) :
    (s.set name arg).get? other = if other = name then some (some arg) else s.get? other :=
  get?_insert ..

end Substitution

/-! ## Replacement -/

mutual

/-- The type with every name of the substitution replaced. A name that is unresolved stays; a
wildcard in the place of a whole type becomes its upper bound; a replaced name takes no
arguments. -/
def TypeExpr.replace (s : Substitution) : TypeExpr → Except ModelFault TypeExpr
  | ⟨name, args, dims⟩ =>
    match s.lookup name with
    | some entry =>
      if args.isEmpty then
        match entry with
        | none => .ok ⟨name, args, dims⟩
        | some arg => .ok (arg.toType.arrayOf dims)
      else .error (.arityMismatch name 0 args.length)
    | none =>
      match TypeArg.replaceAll s args with
      | .ok args => .ok ⟨name, args, dims⟩
      | .error e => .error e

/-- The argument with every name of the substitution replaced. A bare name in this place becomes
the whole argument it is bound to, also if that is a wildcard. -/
def TypeArg.replace (s : Substitution) : TypeArg → Except ModelFault TypeArg
  | .plain t =>
    match (if t.isBare then s.lookup t.name else none) with
    | some (some arg) => .ok arg
    | _ => (TypeExpr.replace s t).map .plain
  | .any => .ok .any
  | .upper t => (TypeExpr.replace s t).map .upper
  | .lower t => (TypeExpr.replace s t).map .lower

/-- All arguments with every name of the substitution replaced. -/
def TypeArg.replaceAll (s : Substitution) : List TypeArg → Except ModelFault (List TypeArg)
  | [] => .ok []
  | a :: as =>
    match TypeArg.replace s a with
    | .ok a =>
      match TypeArg.replaceAll s as with
      | .ok as => .ok (a :: as)
      | .error e => .error e
    | .error e => .error e

end

mutual

/-- A substitution without names leaves every type as it is. -/
theorem TypeExpr.replace_empty : (t : TypeExpr) → t.replace ∅ = .ok t
  | ⟨name, args, dims⟩ => by
    have hl : Substitution.lookup ∅ name = none := rfl
    simp only [TypeExpr.replace, hl, TypeArg.replaceAll_empty args]

theorem TypeArg.replace_empty : (a : TypeArg) → a.replace ∅ = .ok a
  | .plain t => by
    have hl : (if t.isBare then Substitution.lookup ∅ t.name else none) = none := by
      split <;> rfl
    simp only [TypeArg.replace, hl, TypeExpr.replace_empty t, Except.map]
  | .any => by simp only [TypeArg.replace]
  | .upper t => by simp only [TypeArg.replace, TypeExpr.replace_empty t, Except.map]
  | .lower t => by simp only [TypeArg.replace, TypeExpr.replace_empty t, Except.map]

theorem TypeArg.replaceAll_empty : (as : List TypeArg) → TypeArg.replaceAll ∅ as = .ok as
  | [] => by simp only [TypeArg.replaceAll]
  | a :: as => by
    simp only [TypeArg.replaceAll, TypeArg.replace_empty a, TypeArg.replaceAll_empty as]

end

end FluentGrammar
