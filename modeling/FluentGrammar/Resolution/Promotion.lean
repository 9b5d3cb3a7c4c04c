import FluentGrammar.Method.Stub
import FluentGrammar.Resolution.Basic

/-!
# Promotion to interfaces

An explicit method that is the only one of its reduced signature, and whose first parameter is of an
interface type, becomes an instance method of that interface. The arguments of the parameter's type
have to be type parameters of the method, each at one place, or wildcards; they become the
parameters of the interface. The promoted method delegates to the explicit one.

* `interfaceMember?`: an explicit method as a member of an interface.
* `promoteMethods`: the step that handles all explicit methods.
-/

namespace FluentGrammar

/-- The parameters of a list, each name once. -/
def TypeParams.distinct : TypeParams → TypeParams
  | [] => []
  | p :: ps => p :: (distinct ps).filter (·.name ≠ p.name)

/-- The renaming of the type parameters `names` of a method to those of the interface, given what
the parameters of the interface are bound to; none if some binding is not a parameter of the method
or a wildcard, or a parameter occurs twice. -/
def receiverRenaming? (names : List String) :
    Substitution → List (String × Option TypeArg) → Option Substitution
  | s, [] => some s
  | s, (_, none) :: rest => receiverRenaming? names s rest
  | s, (param, some (.plain t)) :: rest =>
    if isCapture t.name then receiverRenaming? names s rest
    else if t.isBare && t.name ∈ names && !s.isBound t.name then
      receiverRenaming? names (s.set t.name (.plain (.named param))) rest
    else none
  | _, (_, some _) :: _ => none

/-- An explicit method as a member of an interface, where its type parameters are renamed. -/
def memberUnder (d : Definition) (m : Method) (utility : String) (s : Substitution) :
    Except ModelFault Method := do
  let remaining := TypeParams.distinct (m.typeParams.filter fun p => !s.isBound p.name)
  let (typeParams, s) := Method.renameApart d.typeParams.names m.typeParams.names remaining s
  let params ← (m.params.drop 1).mapM (Param.replace s)
  let throws ← m.throws.toList.mapM (TypeExpr.replace s)
  let result ← m.result.replace s
  let typeParams ← TypeParams.replace s typeParams
  return { Method.make d.owner m.name result params with
    typeParams := typeParams
    throws := .ofList throws
    comment := m.comment
    delegate := some ⟨utility, m.name⟩
    source := m.source }

/-- An explicit method as a member of the interface of its receiver; none if the type of the
receiver does not fit the parameters of the interface. -/
def interfaceMember? (d : Definition) (m : Method) (receiver : TypeExpr) (utility : String) :
    Except ModelFault (Option Method) :=
  match d.typeParams.infer d.selfType receiver with
  | .error _ => .ok none
  | .ok bindings =>
    let names := m.typeParams.names
    match receiverRenaming? names (.unresolved names) bindings.ordinary with
    | none => .ok none
    | some s => (memberUnder d m utility s).map some

/-- The interface of the receiver of an explicit method. -/
def receiverInterface? (r : Registry) (m : Method) : Option (Definition × TypeExpr) := do
  let receiver := (← m.params.head?).callType
  guard (!m.typeParams.has receiver.name)
  let d ← r.get? receiver.name
  guard d.isInterface
  return (d, receiver)

/-- The interface has a method of the same contract already. -/
def declares (d : Definition) (member : Method) : Bool :=
  match d.methods.get? member.signature with
  | some existing => existing.matchesContract member
  | none => false

/-- Promote one explicit method, if its receiver allows it. -/
def promoteMethod (m : Method) : Resolution ModelFault Unit := do
  let r ← get
  match receiverInterface? r m with
  | none => return ()
  | some (d, receiver) =>
    match ← Resolution.check (interfaceMember? d m receiver r.utility) with
    | none => return ()
    | some member =>
      if declares d member then return ()
      modify (·.recordPromotion m d.name member)
      Resolution.addMethod d.name m.name member

/-- Promote all explicit methods that are the only ones of their reduced signatures. -/
def promoteMethods : Resolution Fault Unit := do
  let r ← get
  (r.explicitMethods.filter r.isUnambiguous).forM fun m =>
    Resolution.located m.source (promoteMethod m)

end FluentGrammar
