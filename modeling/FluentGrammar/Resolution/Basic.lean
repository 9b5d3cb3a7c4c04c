import FluentGrammar.Registry.Basic

/-!
# Steps of resolution

A step changes the registry and may stop at a fault. What it has changed before the fault stays
changed, so the registry shows how far the step has come.

* `Resolution`: steps that may stop at a fault of a given type.
* `Resolution.located`: a step whose faults get the location of the declaration it handles.
* `Resolution.addDefinition`: one more definition, whose name must differ from all others in more
  than case.
* `Resolution.addMethod`: one more method on a definition.
* `Resolution.addExplicit`: a static method that may become an instance method.
-/

namespace FluentGrammar

/-- A step that works on the registry and may stop at a fault. -/
abbrev Resolution (ε : Type) := EStateM ε Registry

namespace Resolution

variable {ε α : Type}

/-- The value of a check, whose fault stops the step. -/
def check (x : Except ε α) : Resolution ε α :=
  fun r =>
    match x with
    | .ok a => .ok a r
    | .error e => .error e r

/-- The value of a check that looks at the registry. -/
def inspect (f : Registry → Except ε α) : Resolution ε α :=
  fun r => check (f r) r

/-- A step whose faults get a location, if it is known. -/
def located (location : Location) (x : Resolution ModelFault α) : Resolution Fault α :=
  x.adaptExcept fun fault => (Fault.model fault).located location

/-- A step whose faults stay without a location. -/
def unlocated (x : Resolution ModelFault α) : Resolution Fault α :=
  x.adaptExcept Fault.model

/-- The registry after a step, and the fault at which it stopped. -/
def outcome (x : Resolution ε Unit) (r : Registry) : Registry × Option ε :=
  match x r with
  | .ok _ r => (r, none)
  | .error e r => (r, some e)

/-! ## Registration -/

/-- Register an interface or class, whose name must be new, also without case. -/
def addDefinition (d : Definition) : Resolution ModelFault Unit := do
  if d.kind = .anonymousClass then throw (.unregisteredAnonymous d.name)
  let r ← get
  if d.name ∈ r.definitions.map Definition.name then throw (.duplicateType d.name)
  let folded := Text.upperCase d.name
  match r.foldedNames.get? folded with
  | some existing => throw (.caseClash d.name existing)
  | none =>
    modify fun r => { r with foldedNames := r.foldedNames.insert folded d.name }
    modify fun r => { r with definitions := r.definitions ++ [d] }

/-- Register the anonymous class that a factory method makes. -/
def addAnonymous (factory : Method) (d : Definition) : Resolution ModelFault Unit := do
  if ((← get).get? d.name).isSome then throw (.duplicateType d.name)
  modify fun r => { r with factories := r.factories.insert (Registry.factoryKey factory) d.name }
  modify fun r => { r with anonymous := r.anonymous ++ [d] }

/-- Give the definition of a name one more method. -/
def addMethod (name context : String) (m : Method) : Resolution ModelFault Unit := do
  let d ← inspect (·.require name context)
  let d ← check (d.addMethod m)
  modify (·.modify name fun _ => d)

/-- Give the utility class one more method. -/
def addUtilityMethod (m : Method) : Resolution ModelFault Unit := do
  addMethod (← get).utility "the model" m

/-- Register a static method that may become an instance method of its first parameter's type. -/
def addExplicit (m : Method) : Resolution ModelFault Unit := do
  addUtilityMethod m
  modify fun r => { r with explicit := r.explicit ++ [m.signature] }
  modify (·.noteReduced m.reducedSignature)

end Resolution

end FluentGrammar
