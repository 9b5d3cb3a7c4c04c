import FluentGrammar.Owner
import FluentGrammar.Text.Body
import FluentGrammar.TypeExpr.Order

/-!
# Methods

A method with its declaration, its body and its *state*. Methods that a definition inherits appear
on it as *placeholders*; an abstract placeholder is settled by giving it a body or by declaring it
abstract, and nothing else can be settled.

The last parameter of a method may be *variadic*: it takes any number of arguments, and callers see
an array.

* `Param`: the formal parameters of methods.
* `Method.signature`: the name with the erased types of the parameters, the key of a method among
  the methods of a definition.
* `Method.implement`, `Method.declareAbstract`: the two ways to settle an abstract placeholder.
* `Method.reown`: the method as part of another definition.
* `Method.declaration`, `Method.render`: how methods are printed.
-/

namespace FluentGrammar

/-! ## Parameters -/

/-- A formal parameter of a method. -/
structure Param where
  type : TypeExpr
  name : String
  modifiers : Modifiers := ∅
  variadic : Bool := false
deriving DecidableEq

namespace Param

/-- The type of the parameter as callers see it. -/
def callType (p : Param) : TypeExpr :=
  if p.variadic then p.type.arrayOf 1 else p.type

/-- The parameter with the names of a substitution replaced in its type. -/
def replace (s : Substitution) (p : Param) : Except ModelFault Param := do
  return { p with type := ← p.type.replace s }

/-- The written form, `final String... parts`. -/
def text (p : Param) : String :=
  String.join (p.modifiers.toList.map (· ++ " ")) ++ p.type.text ++
    (if p.variadic then "..." else "") ++ " " ++ p.name

end Param

/-! ## Methods -/

/-- How a method came to be on its owner. -/
inductive Method.State where
  /-- Written in a grammar file, or made up in its final form. -/
  | declared
  /-- Inherited and not yet settled. -/
  | placeholder
  /-- Inherited, and declared abstract by its owner. -/
  | declaredAbstract
  /-- Inherited, and given a body. -/
  | implemented
deriving DecidableEq, Inhabited

/-- The wording of a state. -/
def Method.State.text : Method.State → String
  | .declared => "declared"
  | .placeholder => "placeholder"
  | .declaredAbstract => "declared-abstract"
  | .implemented => "implemented"

/-- A static method that provides the body of an interface method. -/
structure Delegate where
  utility : String
  method : String
deriving DecidableEq

/-- A method of a definition. -/
structure Method where
  comment : String
  access : Access
  modifiers : Modifiers
  typeParams : TypeParams
  result : TypeExpr
  name : String
  params : List Param
  throws : OrderedSet TypeExpr
  /-- The statements, without braces. -/
  body : Option String
  owner : Owner
  /-- The definition that declared the method first. -/
  origin : String
  /-- Everyone may call the method. -/
  isPublic : Bool
  isAbstract : Bool
  state : Method.State
  delegate : Option Delegate
  source : Location
deriving DecidableEq

namespace Method

/-- A declared method without modifiers, body and documentation. -/
def make (owner : Owner) (name : String) (result : TypeExpr) (params : List Param) : Method where
  comment := ""
  access := .packageAccess
  modifiers := ∅
  typeParams := []
  result := result
  name := name
  params := params
  throws := ∅
  body := none
  owner := owner
  origin := owner.name
  isPublic := owner.kind.isPublic .packageAccess
  isAbstract := owner.kind.isAbstract ∅
  state := .declared
  delegate := none
  source := .synthetic

/-- The method with the access and the modifiers that a list of words gives. -/
def withWords (m : Method) (words : List String) : Method :=
  { m with
    access := accessOf words
    modifiers := modifiersOf words
    isPublic := m.owner.kind.isPublic (accessOf words)
    isAbstract := m.owner.kind.isAbstract (modifiersOf words) }

/-- The method as part of another definition. A method that its owner declared first counts as
declared by the new owner. -/
def reown (m : Method) (owner : Owner) : Method :=
  { m with
    origin := if m.origin = m.owner.name then owner.name else m.origin
    owner := owner
    isPublic := owner.kind.isPublic m.access
    isAbstract := owner.kind.isAbstract m.modifiers }

/-- A method that needs no receiver. -/
def isStatic (m : Method) : Bool :=
  "static" ∈ m.modifiers

/-- A method that returns nothing. -/
def isVoid (m : Method) : Bool :=
  m.result.isVoid

/-- A method that is left out of what subtypes inherit. -/
def isHidden (m : Method) : Bool :=
  m.access = .privateAccess || m.isStatic

/-- An inherited method that still needs a body or an abstract declaration. -/
def isOpen (m : Method) : Bool :=
  m.state = .placeholder && m.isAbstract

/-! ## Signatures -/

/-- The names of the type parameters in scope. -/
def scope (m : Method) : List String :=
  m.typeParams.names ++ m.owner.typeParams

/-- A name with the erased types of parameters. -/
def signatureOf (name : String) (scope : List String) (params : List Param) : String :=
  name ++ "(" ++ Text.joinWith "," (params.map fun p => p.callType.erasure scope) ++ ")"

/-- The name with the erased types of all parameters. -/
def signature (m : Method) : String :=
  signatureOf m.name m.scope m.params

/-- The signature without the first parameter. -/
def reducedSignature (m : Method) : String :=
  signatureOf m.name m.scope (m.params.drop 1)

/-- The signature after the name of the owner. -/
def qualifiedSignature (m : Method) : String :=
  m.owner.name ++ "." ++ m.signature

/-! ## Settling placeholders -/

/-- The fault of settling a method that is not an abstract placeholder. -/
def cannot (m : Method) (action : String) : ModelFault :=
  let what := if m.isAbstract then "a " else "a concrete "
  .illegalTransition m.qualifiedSignature
    ("cannot " ++ action ++ " " ++ what ++ m.state.text ++ " method")

/-- An abstract placeholder with a body. -/
def implement (m : Method) (body : String) : Except ModelFault Method :=
  if m.isOpen then
    .ok { m with
      body := some body
      modifiers := m.modifiers.erase "abstract"
      isAbstract := false
      state := .implemented }
  else .error (m.cannot "implement")

/-- An abstract placeholder as an abstract declaration of its owner. -/
def declareAbstract (m : Method) : Except ModelFault Method :=
  if m.isOpen then
    .ok { m with
      modifiers := if m.owner.kind = .interface then m.modifiers else m.modifiers.insert "abstract"
      state := .declaredAbstract }
  else .error (m.cannot "declare abstract")

/-! ## Written form -/

/-- A call of `callee` with the receiver, if there is one, and all parameters of the method, whose
value is returned unless the method returns nothing. -/
def forward (m : Method) (callee : String) (receiver : Option String) : String :=
  (if m.isVoid then "" else "return ") ++ callee ++ "(" ++
    Text.joinWith ", " (receiver.toList ++ m.params.map Param.name) ++ ");"

/-- Modifiers, type parameters, result, name, parameters and thrown types. -/
def declaration (m : Method) : String :=
  let typeParams := if m.typeParams.isEmpty then [] else [m.typeParams.text]
  let words := m.access.word?.toList ++ m.modifiers.printed ++ typeParams ++ [m.result.text]
  let throws :=
    if m.throws.isEmpty then ""
    else " throws " ++ Text.joinWith ", " (m.throws.toList.map TypeExpr.text)
  Text.joinWith " " words ++ " " ++ m.name ++ "(" ++
    Text.joinWith ", " (m.params.map Param.text) ++ ")" ++ throws

/-- Documentation, declaration and the body in braces, or a semicolon if there is no body. -/
def render (m : Method) (body : Option String) : String :=
  let rest := match body with
    | some body => " " ++ Text.braced body
    | none => ";"
  Text.docBlock m.comment ++ m.declaration ++ rest

end Method

end FluentGrammar
