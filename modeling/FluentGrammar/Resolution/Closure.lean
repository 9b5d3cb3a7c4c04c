import FluentGrammar.Registry.Methods
import FluentGrammar.Resolution.Basic

/-!
# Conversion closure

A class that implements an interface with an archetype gains every interface that conversions reach
from there. The ancestors to be explored stand in a queue; each conversion that applies to the one
at its head may bring new ancestors, which are explored in turn, every name once. The methods that
come with a gained interface are implemented by converting the receiver and forwarding the call.

The names that have never been in the queue are kept along with it. A name moves from there into
the queue at most once, which is why the exploration ends.

* `gainInterface`: one conversion applied to a class.
* `explore`: all conversions applied to everything in the queue.
* `closeClasses`: the closure of all classes.
-/

namespace FluentGrammar

/-! ## One conversion -/

/-- The type that a conversion makes of an ancestor of a class, unless it does not apply or leads to
what the class is already. -/
def conversionTarget? (r : Registry) (d : Definition) (via : TypeExpr) (c : Conversion) :
    Except ModelFault (Option TypeExpr) :=
  match c.typeParams.infer c.source via with
  | .error _ => .ok none
  | .ok s => do
    let target ← c.target.replace s
    if target.name = d.name then return none
    if (← r.findAncestor d target.name).isSome then return none
    return some target

/-- The ancestors whose names are not among those of `before`. -/
def newAncestors (before after : List TypeExpr) : List TypeExpr :=
  after.filter fun t => before.all fun u => u.name ≠ t.name

/-- The open methods of a table that are not among the known ones, with bodies that forward to the
converted receiver. -/
def convertedMethods (utility conversion : String) (known : List String) (table : Table Method) :
    Except ModelFault (List Method) :=
  (table.values.filter fun m => m.isOpen && m.signature ∉ known).mapM fun m =>
    m.implement (m.forward (utility ++ "." ++ conversion ++ "(this)." ++ m.name) none)

/-- Give a class the interface `target`, which a conversion makes of its ancestor `via`. The answer
is the list of ancestors that come with it. -/
def TableSource.gainInterface (tables : TableSource) (name utility : String)
    (via target : TypeExpr) (c : Conversion) : Resolution ModelFault (List TypeExpr) := do
  let old ← Resolution.inspect (·.require name name)
  let before ← Resolution.inspect (·.ancestors old)
  let known ← Resolution.inspect (tables · old)
  let distance := old.distanceTo via.name + 1
  modify (·.modify name (·.addInterface target))
  let d ← Resolution.inspect (·.require name name)
  let gained := newAncestors before (← Resolution.inspect (·.ancestors d))
  let redundant ← Resolution.inspect (·.redundantInterfaces d)
  let table ← Resolution.inspect (tables · d)
  let methods ← Resolution.check (convertedMethods utility c.method.name known.keys table)
  let paths := gained.map fun t => (⟨via, t, c.method.name, distance⟩ : ConversionPath)
  modify (·.modify name fun d => (d.addPaths paths).removeInterfaces (redundant.map TypeExpr.name))
  methods.forM (Resolution.addMethod name name)
  return gained

/-- Apply one conversion to an ancestor of a class. The answer are the ancestors that come with the
interface it gains; there are none if the conversion does not apply. -/
def TableSource.applyConversion (tables : TableSource) (name utility : String) (via : TypeExpr)
    (c : Conversion) : Resolution ModelFault (List TypeExpr) := do
  let target ← Resolution.inspect fun r => do conversionTarget? r (← r.require name name) via c
  match target with
  | some target => tables.gainInterface name utility via target c
  | none => return []

/-! ## The frontier -/

/-- The types to be explored, and the names of those that have never been among them. -/
structure Frontier where
  queue : List TypeExpr
  unseen : List String

namespace Frontier

/-- The number of types that can still be explored. -/
def size (f : Frontier) : Nat :=
  f.queue.length + f.unseen.length

/-- The frontier with one more type, unless its name has been there. -/
def push (f : Frontier) (t : TypeExpr) : Frontier :=
  if t.name ∈ f.unseen then ⟨f.queue ++ [t], f.unseen.erase t.name⟩ else f

/-- The frontier with several more types. -/
def pushAll (f : Frontier) (ts : List TypeExpr) : Frontier :=
  ts.foldl push f

@[simp] theorem size_push (f : Frontier) (t : TypeExpr) : (f.push t).size = f.size := by
  unfold push
  split <;> rename_i h
  · have := List.length_erase_of_mem h
    have := List.length_pos_of_mem h
    simp only [size, List.length_append, List.length_singleton]
    omega
  · rfl

@[simp] theorem size_pushAll (f : Frontier) (ts : List TypeExpr) :
    (f.pushAll ts).size = f.size := by
  induction ts generalizing f with
  | nil => rfl
  | cons t ts ih => exact (ih (f.push t)).trans (size_push f t)

end Frontier

/-! ## Exploration -/

/-- Apply conversions to one type, one after the other. What they bring joins the frontier. -/
def TableSource.applyConversions (tables : TableSource) (name utility : String) (via : TypeExpr)
    (f : Frontier) : List Conversion → Resolution ModelFault { g : Frontier // g.size = f.size }
  | [] => return ⟨f, rfl⟩
  | c :: cs => do
    let gained ← tables.applyConversion name utility via c
    let ⟨g, h⟩ ← tables.applyConversions name utility via (f.pushAll gained) cs
    return ⟨g, h.trans (f.size_pushAll gained)⟩

/-- Apply all conversions to everything in the queue. -/
def TableSource.explore (tables : TableSource) (name utility : String)
    (conversions : List Conversion) (f : Frontier) : Resolution ModelFault Unit :=
  match _hq : f.queue with
  | [] => return ()
  | via :: queue => do
    let ⟨g, _hg⟩ ← tables.applyConversions name utility via ⟨queue, f.unseen⟩ conversions
    tables.explore name utility conversions g
termination_by f.size
decreasing_by
  rw [_hg]
  simp [Frontier.size, _hq]

/-- An interface with an archetype. -/
def isArchetyped (r : Registry) (t : TypeExpr) : Bool :=
  match r.get? t.name with
  | some d => d.archetype?.isSome
  | none => false

/-- The names that ancestors of a class can have while the conversions are applied. A parameter is
replaced by an argument, by the top type or by a captured wildcard, so no name comes from elsewhere.
A conversion captures no more wildcards than there are names in the arguments of its source. -/
def possibleNames (r : Registry) (conversions : List Conversion) : List String :=
  let parents := (r.definitions ++ r.anonymous).flatMap Definition.supertypes
  let targets := conversions.map Conversion.target
  let captures := conversions.flatMap fun c =>
    numberedNames captureMark (TypeArg.allNamesOf c.source.args).length
  firstOccurrences (TypeExpr.topName :: r.names ++
    ((parents ++ targets).flatMap TypeExpr.allNames ++ captures))

/-- The frontier of a class: its ancestors with an archetype. -/
def startFrontier (r : Registry) (conversions : List Conversion) (ancestors : List TypeExpr) :
    Frontier :=
  let queue := ancestors.filter (isArchetyped r)
  ⟨queue, (possibleNames r conversions).filter (· ∉ queue.map TypeExpr.name)⟩

/-- Give a class all interfaces that conversions reach. -/
def TableSource.closeClass (tables : TableSource) (name utility : String)
    (conversions : List Conversion) : Resolution ModelFault Unit := do
  let d ← Resolution.inspect (·.require name name)
  let ancestors ← Resolution.inspect (·.ancestors d)
  tables.explore name utility conversions (startFrontier (← get) conversions ancestors)

/-- Give every class but the utility class all interfaces that conversions reach. -/
def TableSource.closeClasses (tables : TableSource) : Resolution Fault Unit := do
  let r ← get
  r.classes.forM fun d =>
    if d.name = r.utility then return ()
    else Resolution.located d.source (tables.closeClass d.name r.utility r.conversions)

/-! ## With the tables of the registry -/

@[inherit_doc TableSource.gainInterface]
abbrev gainInterface := TableSource.gainInterface Registry.allMethods

@[inherit_doc TableSource.applyConversion]
abbrev applyConversion := TableSource.applyConversion Registry.allMethods

@[inherit_doc TableSource.applyConversions]
abbrev applyConversions := TableSource.applyConversions Registry.allMethods

@[inherit_doc TableSource.explore]
abbrev explore := TableSource.explore Registry.allMethods

@[inherit_doc TableSource.closeClass]
abbrev closeClass := TableSource.closeClass Registry.allMethods

@[inherit_doc TableSource.closeClasses]
abbrev closeClasses := TableSource.closeClasses Registry.allMethods

end FluentGrammar
