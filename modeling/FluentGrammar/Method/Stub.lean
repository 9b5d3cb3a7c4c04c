import FluentGrammar.Method.Basic
import FluentGrammar.Unification

/-!
# Inherited methods

What becomes of a method on a definition that inherits it: a *stub* without a body, in which the
type parameters of the declaring definition are replaced by the arguments that the inheriting one
gives them. Type parameters of the method that collide with those of the inheriting definition get
fresh names. Two methods of one signature that a definition inherits have to declare the same
*contract*: they may differ in the names of their parameters and type parameters at most.

* `freshName`: a name that is not taken.
* `Method.stub`: the stub on a definition whose ancestor type for the owner is given.
* `Method.matchesContract`: methods of the same contract.
-/

namespace FluentGrammar

/-! ## Fresh names -/

/-- The names made from `base` by the numbers from one to `n`. -/
def numberedNames (base : String) (n : Nat) : List String :=
  (List.range n).map fun k => base ++ toString (k + 1)

/-- The first of `base1`, `base2`, ... that is not taken. -/
def freshName (base : String) (taken : List String) : String :=
  ((numberedNames base (taken.length + 1)).find? (· ∉ taken)).getD base

namespace Method

/-! ## Stubs -/

/-- Access of the stub of a method on a definition of the given kind. -/
def inheritedAccess (m : Method) : Kind → Access
  | .interface => m.access
  | .namedClass => if m.isPublic then .publicAccess else m.access
  | .anonymousClass => .publicAccess

/-- Modifiers of the stub of a method on a definition of the given kind. -/
def inheritedModifiers (m : Method) : Kind → Modifiers
  | .interface => m.modifiers
  | .namedClass | .anonymousClass =>
    let modifiers := m.modifiers.erase "default"
    if m.isAbstract then modifiers.insert "abstract" else modifiers

/-- What the type parameters of the owner become under its ancestor type. An ancestor without
arguments makes all of them the top type. -/
def ownerBindings (owner : Owner) (ancestor : TypeExpr) : Except ModelFault Substitution :=
  if ancestor.args.isEmpty && !owner.typeParams.isEmpty then
    .ok (owner.typeParams.foldl (fun s name => s.set name (.plain .top))
      (.unresolved owner.typeParams))
  else (TypeParams.ofNames owner.typeParams).infer owner.selfType ancestor

/-- The name that a type parameter of a method gets among the names `outer`, which it must not
hide: its own unless that collides. The names `inner` belong to the method. -/
def uncapturedName (outer inner : List String) (name : String) : String :=
  if name ∈ outer then freshName name (outer ++ inner) else name

/-- Type parameters renamed apart from the names `outer`, and the substitution extended by their
new names. The names `inner` are all those of the method they belong to. -/
def renameApart (outer inner : List String) (ps : TypeParams) (s : Substitution) :
    TypeParams × Substitution :=
  let renamed := ps.map fun p => p.rename (uncapturedName outer inner p.name)
  (renamed, (ps.zip renamed).foldl (fun s e => s.set e.1.name (.plain (.named e.2.name))) s)

/-- The stub of the method on `target`, whose ancestor type for the method's owner is `ancestor`. -/
def stub (m : Method) (target : Owner) (ancestor : TypeExpr) : Except ModelFault Method := do
  let bindings ← ownerBindings m.owner ancestor
  let (typeParams, s) := renameApart target.typeParams m.typeParams.names m.typeParams bindings
  let access := m.inheritedAccess target.kind
  let modifiers := m.inheritedModifiers target.kind
  let typeParams ← TypeParams.replace s typeParams
  let result ← m.result.replace s
  let params ← m.params.mapM (Param.replace s)
  let throws ← m.throws.toList.mapM (TypeExpr.replace s)
  return { m with
    access := access
    modifiers := modifiers
    typeParams := typeParams
    result := result
    params := params
    throws := .ofList throws
    body := none
    owner := target
    isPublic := target.kind.isPublic access
    isAbstract := target.kind.isAbstract modifiers
    state := .placeholder }

/-! ## Contracts -/

/-- The substitution that renames the type parameters of `other` to those of `m`. -/
def renameTo (m other : Method) : Substitution :=
  (m.typeParams.names.zip other.typeParams.names).foldl
    (fun s e => s.set e.2 (.plain (.named e.1))) (.unresolved other.typeParams.names)

/-- A type equals another after renaming. -/
def agrees (rename : Substitution) (mine theirs : TypeExpr) : Bool :=
  match theirs.replace rename with
  | .ok t => mine = t
  | .error _ => false

/-- Both methods have the same signature and, with the type parameters of `other` renamed to those
of `m`, the same result, parameter and thrown types. -/
def matchesContract (m other : Method) : Bool :=
  let rename := renameTo m other
  m.signature = other.signature && m.typeParams.length = other.typeParams.length &&
    m.params.length = other.params.length && m.throws.size = other.throws.size &&
    agrees rename m.result other.result &&
    (m.params.zip other.params).all (fun p => agrees rename p.1.callType p.2.callType) &&
    other.throws.toList.all fun t =>
      match t.replace rename with
      | .ok t => t ∈ m.throws
      | .error _ => false

end Method

end FluentGrammar
