import FluentGrammar.Substitution

/-!
# Type parameters

The parameters of a generic definition or method: names with upper bounds.

* `TypeParam`, `TypeParams`: a parameter and a list of them.
* `TypeParams.bind`: the substitution that gives each parameter the argument at its position.
-/

namespace FluentGrammar

/-- A type parameter and the types that bound it from above. -/
structure TypeParam where
  name : String
  bounds : List TypeExpr
deriving DecidableEq

namespace TypeParam

/-- The parameter under another name. -/
def rename (p : TypeParam) (name : String) : TypeParam :=
  { p with name := name }

/-- The parameter with the names of a substitution replaced in its bounds. -/
def replace (s : Substitution) (p : TypeParam) : Except ModelFault TypeParam := do
  return { p with bounds := ← p.bounds.mapM (TypeExpr.replace s) }

/-- The written form, `T extends A & B`. -/
def text (p : TypeParam) : String :=
  if p.bounds.isEmpty then p.name
  else p.name ++ " extends " ++ Text.joinWith " & " (p.bounds.map TypeExpr.text)

end TypeParam

/-- The parameters of one definition or method. -/
abbrev TypeParams := List TypeParam

namespace TypeParams

/-- The names of the parameters. -/
def names (ps : TypeParams) : List String :=
  ps.map TypeParam.name

/-- Parameters of the given names without bounds. -/
def ofNames (names : List String) : TypeParams :=
  names.map fun name => ⟨name, []⟩

/-- A name that one of the parameters has. -/
def has (ps : TypeParams) (name : String) : Bool :=
  name ∈ ps.names

/-- The parameters as arguments of their own definition. -/
def asArgs (ps : TypeParams) : List TypeArg :=
  ps.map fun p => .plain (TypeExpr.named p.name)

/-- The written form, `<K, V extends A>`; nothing if there are no parameters. -/
def text (ps : TypeParams) : String :=
  angled (ps.map TypeParam.text)

/-- The parameters with the names of a substitution replaced in their bounds. -/
def replace (s : Substitution) (ps : TypeParams) : Except ModelFault TypeParams :=
  ps.mapM (TypeParam.replace s)

/-- Each parameter bound to the argument at its position. The use without arguments leaves all of
them unresolved. -/
def bind (ps : TypeParams) (owner : String) (args : List TypeArg) :
    Except ModelFault Substitution :=
  if args.isEmpty then .ok (.unresolved ps.names)
  else if args.length ≠ ps.length then .error (.arityMismatch owner ps.length args.length)
  else .ok ((ps.names.zip args).foldl (fun s e => s.set e.1 e.2) (.unresolved ps.names))

end TypeParams

end FluentGrammar
