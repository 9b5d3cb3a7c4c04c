import FluentGrammar.Registry.Methods
import FluentGrammar.Resolution.Basic
import FluentGrammar.Settings

/-!
# Finishing

When all methods are settled, interfaces document the rules that produce them, explicit methods
refer to the members made of them, and every class gets a *test interface* with one method for each
of its public methods.

* `escapeMarkup`: a rule as it is shown in documentation.
* `numberRepeats`: names made different by numbers.
* `classTests`, `utilityTests`: the test interfaces.
* `finish`: the step as a whole.
-/

namespace FluentGrammar

/-! ## Documentation -/

/-- Characters as they are shown in documentation: nothing that begins markup or ends a comment. -/
def escapeMarkupChars : List Char → List Char
  | [] => []
  | '*' :: '/' :: cs => '*' :: '&' :: '#' :: '4' :: '7' :: ';' :: escapeMarkupChars cs
  | '&' :: cs => '&' :: 'a' :: 'm' :: 'p' :: ';' :: escapeMarkupChars cs
  | '<' :: cs => '&' :: 'l' :: 't' :: ';' :: escapeMarkupChars cs
  | '>' :: cs => '&' :: 'g' :: 't' :: ';' :: escapeMarkupChars cs
  | c :: cs => c :: escapeMarkupChars cs

/-- A text as it is shown in documentation. -/
def escapeMarkup (text : String) : String :=
  String.ofList (escapeMarkupChars text.toList)

/-- Documentation followed by grammar rules. -/
def withRules (comment : String) (rules : List String) : String :=
  if rules.isEmpty then comment
  else comment ++ (if comment.isEmpty then "" else "\n\n") ++ "<pre>\n" ++
    Text.joinWith "\n" (rules.map escapeMarkup) ++ "\n</pre>"

/-- Documentation followed by a reference. -/
def withReference (comment target : String) : String :=
  comment ++ (if comment.isEmpty then "" else "\n") ++ "@see " ++ target

/-- The registry with the rules of every interface in its documentation. -/
def documentRules (r : Registry) : Registry :=
  { r with
    definitions := r.definitions.map fun d =>
      if d.isInterface then { d with comment := withRules d.comment (r.rulesFor d.name) } else d }

/-- The registry with references from an explicit method to what was made of it. -/
def documentPromotion (r : Registry) (signature : String) : Registry :=
  let targets := r.promotionsOf signature
  r.modify r.utility fun d =>
    { d with
      methods := d.methods.modify signature fun m =>
        { m with comment := targets.foldl withReference m.comment } }

/-- The registry with references from all explicit methods to what was made of them. -/
def documentPromotions (r : Registry) : Registry :=
  (r.explicitMethods.map Method.signature).foldl documentPromotion r

/-! ## Test interfaces -/

/-- Names made different: the second and later occurrences get their number. The names in `seen`
have occurred before. -/
def numberRepeats (seen : List String) : List String → List String
  | [] => []
  | name :: names =>
    let count := seen.count name
    (if count = 0 then name else name ++ "_" ++ toString (count + 1)) ::
      numberRepeats (name :: seen) names

/-- One method of a test interface. -/
def testMethod (owner : Owner) (name comment : String) : Method :=
  { Method.make owner name .void [] with
    throws := .ofList [.named "Exception"]
    comment := comment }

/-- The test interface with a method for each name and comment, if there are any. -/
def testInterface? (name : String) (tests : List (String × String)) :
    Except ModelFault (Option Definition) :=
  if tests.isEmpty then .ok none
  else
    let d := { Definition.interface name with access := .publicAccess }
    let names := numberRepeats [] (tests.map Prod.fst)
    let methods := (names.zip (tests.map Prod.snd)).map fun (name, comment) =>
      testMethod d.owner name comment
    (d.addMethods methods).map some

/-- The test interface of a class: a method for each public method whose name is not reserved. -/
def TableSource.classTests (tables : TableSource) (r : Registry) (settings : Settings)
    (d : Definition) : Except ModelFault (Option Definition) := do
  let methods := (← tables r d).values.filter fun m =>
    m.isPublic && !settings.isReserved m.name
  testInterface? (d.name ++ settings.testSuffix)
    (methods.map fun m => ("test_" ++ m.name, "@see " ++ d.name ++ "#" ++ m.signature))

/-- The tests of an explicit method: one for each parameter of an interface type. The first
parameter counts only if a member was made of the method. -/
def explicitTests (r : Registry) (m : Method) : List (String × String) :=
  let promoted := !(r.promotionsOf m.signature).isEmpty
  let counted := m.params.zipIdx.filter fun (p, position) =>
    (position ≠ 0 || promoted) && ((r.get? p.callType.name).map Definition.isInterface).getD false
  counted.map fun (p, position) =>
    ("test_" ++ m.name ++ "_" ++ toString position,
      "@see " ++ r.utility ++ "#" ++ m.signature ++ " argument " ++ p.name)

/-- The test interface of the utility class. -/
def utilityTests (r : Registry) (settings : Settings) : Except ModelFault (Option Definition) :=
  testInterface? (r.utility ++ settings.testSuffix) (r.explicitMethods.flatMap (explicitTests r))

/-- The test interfaces of all classes, the one of the utility class last. -/
def TableSource.allTests (tables : TableSource) (r : Registry) (settings : Settings) :
    Except ModelFault (List Definition) := do
  let classes := r.classes.filter (·.name ≠ r.utility)
  let tests ← classes.mapM (tables.classTests r settings)
  return (tests ++ [← utilityTests r settings]).filterMap id

/-- Add one more test interface, whose name no definition may have. -/
def addTestInterface (d : Definition) : Resolution ModelFault Unit := do
  if ((← get).get? d.name).isSome then throw (.duplicateType d.name)
  modify (·.addTest d)

/-- Complete the documentation and add the test interfaces. -/
def TableSource.finish (tables : TableSource) (settings : Settings) : Resolution Fault Unit := do
  modify documentRules
  modify documentPromotions
  Resolution.unlocated do
    let tests ← Resolution.inspect (tables.allTests · settings)
    tests.forM addTestInterface

/-! ## With the tables of the registry -/

@[inherit_doc TableSource.classTests]
abbrev classTests := TableSource.classTests Registry.allMethods

@[inherit_doc TableSource.allTests]
abbrev allTests := TableSource.allTests Registry.allMethods

@[inherit_doc TableSource.finish]
abbrev finish := TableSource.finish Registry.allMethods

end FluentGrammar
