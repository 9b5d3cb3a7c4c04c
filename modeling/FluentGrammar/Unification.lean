import FluentGrammar.TypeParam

/-!
# Unification

Bindings of type parameters under which a formal type becomes an actual one. Only types of the
same shape unify: nothing is inferred through inheritance, and a parameter that occurs twice has to
meet the same argument twice. A wildcard in the actual type is *captured*: it gets a name of its
own, so two wildcards never count as the same argument.

* `unify`: extends the bindings found so far.
* `TypeParams.infer`: the bindings of the parameters for a formal and an actual type.
-/

namespace FluentGrammar

/-- The bindings found so far and the number of wildcards captured. -/
structure Inference where
  bindings : Substitution
  captures : Nat

namespace Inference

/-- The name of the next captured wildcard. -/
def nextCapture (i : Inference) : String :=
  captureMark ++ toString (i.captures + 1)

/-- A wildcard under a name of its own. -/
def capture (i : Inference) (wildcard : TypeArg) : Inference :=
  ⟨i.bindings.set i.nextCapture wildcard, i.captures + 1⟩

/-- The parameter `formal`, whose entry so far is `entry`, meets `actual`. The dimensions of the
parameter are taken off those of the type. -/
def meet (i : Inference) (formal actual : TypeExpr) (entry : Option TypeArg) :
    Except ModelFault Inference :=
  if !formal.args.isEmpty then .error (.arityMismatch formal.name 0 formal.args.length)
  else if actual.dims < formal.dims then .error (.unification formal actual .tooFewDimensions)
  else
    let arg := TypeArg.plain { actual with dims := actual.dims - formal.dims }
    match entry with
    | none => .ok { i with bindings := i.bindings.set formal.name arg }
    | some bound =>
      if bound = arg then .ok i
      else .error (.unification formal actual (.alreadyBound formal.name bound))

end Inference

mutual

/-- Extend the bindings so that `formal` becomes `actual`. -/
def unify (formal actual : TypeExpr) (i : Inference) : Except ModelFault Inference :=
  match formal with
  | ⟨name, args, dims⟩ =>
    match i.bindings.get? name with
    | some entry => i.meet ⟨name, args, dims⟩ actual entry
    | none =>
      if name ≠ actual.name then .error (.unification ⟨name, args, dims⟩ actual .differentTypes)
      else if dims ≠ actual.dims then
        .error (.unification ⟨name, args, dims⟩ actual .differentDimensions)
      else if args.length ≠ actual.args.length then
        .error (.arityMismatch actual.name args.length actual.args.length)
      else unifyArgs (⟨name, args, dims⟩, actual) args actual.args i

/-- Extend the bindings so that one argument becomes another. The owners are the types whose
arguments they are. -/
def unifyArg (owners : TypeExpr × TypeExpr) (formal actual : TypeArg) (i : Inference) :
    Except ModelFault Inference :=
  match formal, actual with
  | .plain f, .plain a => unify f a i
  | .plain f, wildcard => unify f (.named i.nextCapture) (i.capture wildcard)
  | .any, .any => .ok i
  | .upper f, .upper a => unify f a i
  | .lower f, .lower a => unify f a i
  | _, .plain _ => .error (.unification owners.1 owners.2 .wildcardAgainstType)
  | _, _ => .error (.unification owners.1 owners.2 .differentBounds)

/-- Extend the bindings so that the arguments become others, one after the other. -/
def unifyArgs (owners : TypeExpr × TypeExpr) (formal actual : List TypeArg) (i : Inference) :
    Except ModelFault Inference :=
  match formal, actual with
  | f :: fs, a :: as =>
    match unifyArg owners f a i with
    | .ok i => unifyArgs owners fs as i
    | .error e => .error e
  | _, _ => .ok i

end

/-- The bindings of the parameters under which `formal` becomes `actual`. Parameters that do not
occur in `formal` stay unresolved. -/
def TypeParams.infer (ps : TypeParams) (formal actual : TypeExpr) :
    Except ModelFault Substitution :=
  (unify formal actual ⟨.unresolved ps.names, 0⟩).map Inference.bindings

end FluentGrammar
