import FluentGrammar.Method.Basic
import FluentGrammar.Registry.Methods
import FluentGrammar.Resolution.Basic

/-!
# Selection among explicit methods

Explicit methods that share a reduced signature cannot be members of interfaces, since a class could
inherit several of them. Instead every class gets at most one of each group as a member of its own:
of those whose receiver is an ancestor of the class, the one that is reached by the fewest
conversions and, among those, the one whose result type has the most methods. A tie is a fault.

* `select`: the explicit method that suits a class best.
* `materialize`: that method as a member of the class.
* `selectMethods`: the step that handles all classes.
-/

namespace FluentGrammar

/-- An explicit method that suits a class, the ancestor that its receiver matches, and what its type
parameters are bound to by that. -/
structure Candidate where
  method : Method
  ancestor : TypeExpr
  bindings : Substitution

/-- An explicit method as a candidate for a class with the given ancestors. -/
def candidate? (ancestors : List TypeExpr) (m : Method) : Option Candidate := do
  let receiver := (← m.params.head?).callType
  let ancestor ← ancestors.find? (·.name = receiver.name)
  match m.typeParams.infer receiver ancestor with
  | .ok bindings => some ⟨m, ancestor, bindings⟩
  | .error _ => none

/-- The number of conversions by which the class reaches the receiver. -/
def Candidate.distance (d : Definition) (c : Candidate) : Nat :=
  d.distanceTo c.ancestor.name

/-- How much a result type offers: zero for a type that is not registered, otherwise one more than
the number of its methods. -/
def TableSource.richness (tables : TableSource) (r : Registry) (result : TypeExpr) :
    Except ModelFault Nat :=
  match r.get? result.name with
  | some d => (tables r d).map (·.size + 1)
  | none => .ok 0

/-- Those of least distance. -/
def nearest (d : Definition) (cs : List Candidate) : List Candidate :=
  match (cs.map (·.distance d)).min? with
  | some least => cs.filter fun c => c.distance d = least
  | none => []

/-- Those of greatest richness. -/
def richest (cs : List (Nat × Candidate)) : List Candidate :=
  match (cs.map Prod.fst).max? with
  | some most => (cs.filter fun c => c.1 = most).map Prod.snd
  | none => []

/-- The explicit method among `ms` that suits a class best, if any does. -/
def TableSource.select (tables : TableSource) (r : Registry) (d : Definition) (ms : List Method) :
    Except ModelFault (Option Candidate) := do
  let ancestors ← r.ancestors d
  let near := nearest d (ms.filterMap (candidate? ancestors))
  let scored ← near.mapM fun c => do return (← tables.richness r c.method.result, c)
  match richest scored with
  | [] => return none
  | [best] => return some best
  | best :: others =>
    throw (.ambiguous d.name best.method.reducedSignature
      ((best :: others).map (·.method.declaration)))

/-- A selected method as a member of the class: the receiver is the class itself, seen as the
ancestor that was matched. -/
def materialize (d : Definition) (c : Candidate) (utility : String) : Except ModelFault Method := do
  let m := c.method
  let remaining := m.typeParams.filter fun p => !c.bindings.isBound p.name
  let (typeParams, s) :=
    Method.renameApart d.typeParams.names m.typeParams.names remaining c.bindings
  let params ← (m.params.drop 1).mapM (Param.replace s)
  let throws ← m.throws.toList.mapM (TypeExpr.replace s)
  let result ← m.result.replace s
  let typeParams ← TypeParams.replace s typeParams
  let member : Method := { (Method.make d.owner m.name result params).withWords
      ["public", "final"] with
    typeParams := typeParams
    throws := .ofList throws
    comment := m.comment
    source := m.source }
  let receiver := "(" ++ c.ancestor.text ++ ") this"
  return { member with body := some (member.forward (utility ++ "." ++ m.name) (some receiver)) }

/-- The member that a class gets out of a group, with the method it is made of; none if the class
has a method of that signature or no method suits. -/
def TableSource.memberFor? (tables : TableSource) (r : Registry) (d : Definition)
    (ms : List Method) : Except ModelFault (Option (Method × Method)) := do
  match ← tables.select r d ms with
  | none => return none
  | some c =>
    let member ← materialize d c r.utility
    if (← tables r d).contains member.signature then return none
    return some (c.method, member)

/-- Give a class the best method of one group. -/
def TableSource.selectFor (tables : TableSource) (name : String) (group : String × List Method) :
    Resolution Fault Unit := do
  let d ← Resolution.unlocated (Resolution.inspect (·.require name "ambiguity resolution"))
  if d.methods.contains group.1 then return ()
  Resolution.located d.source do
    match ← Resolution.inspect (tables.memberFor? · d group.2) with
    | none => return ()
    | some (explicit, member) =>
      modify (·.recordPromotion explicit name member)
      Resolution.addMethod name "ambiguity resolution" member

/-- Give every class but the utility class the best method of each group. -/
def TableSource.selectMethods (tables : TableSource) : Resolution Fault Unit := do
  let r ← get
  let groups := r.ambiguousGroups.entries
  ((r.classes.map Definition.name).filter (· ≠ r.utility)).forM fun name =>
    groups.forM (tables.selectFor name)

/-! ## With the tables of the registry -/

@[inherit_doc TableSource.richness]
abbrev richness := TableSource.richness Registry.allMethods

@[inherit_doc TableSource.select]
abbrev select := TableSource.select Registry.allMethods

@[inherit_doc TableSource.memberFor?]
abbrev memberFor? := TableSource.memberFor? Registry.allMethods

@[inherit_doc TableSource.selectFor]
abbrev selectFor := TableSource.selectFor Registry.allMethods

@[inherit_doc TableSource.selectMethods]
abbrev selectMethods := TableSource.selectMethods Registry.allMethods

end FluentGrammar
