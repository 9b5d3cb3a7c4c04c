import FluentGrammar.Method.Stub
import FluentGrammar.Registry.Ancestors

/-!
# Method tables

All methods that a definition has: its own and the stubs of those it inherits, by signature. What
comes first under a signature stays, and what comes later has to declare the same contract.

* `Registry.overrideFor`: the stub of a method on a definition that inherits it.
* `Registry.allMethods`: the table of all methods of a definition.
* `Registry.inherit`: a table extended by what a definition inherits through given parents.
* `TableSource`: what answers for the tables of definitions in the steps of resolution.
-/

namespace FluentGrammar.Registry

/-- The ancestor type through which `target` inherits from `owner`, given its ancestors. -/
def ancestorFor (target : Definition) (ancestors : Except ModelFault (List TypeExpr))
    (owner : String) : Except ModelFault TypeExpr := do
  if target.name = owner then return target.selfType
  match (← ancestors).find? (·.name = owner) with
  | some ancestor => return ancestor
  | none => throw (.unknownType owner ("ancestors of " ++ target.name))

/-- The stub of a method on `target`, given its ancestors. -/
def stubFor (target : Definition) (ancestors : Except ModelFault (List TypeExpr)) (m : Method) :
    Except ModelFault Method := do
  m.stub target.owner (← ancestorFor target ancestors m.owner.name)

/-- The stub of a method on a definition that inherits it. -/
def overrideFor (r : Registry) (target : Definition) (m : Method) : Except ModelFault Method :=
  stubFor target (r.ancestors target) m

/-- How a method of a table is referred to in a clash. -/
def clashText (m : Method) : String :=
  m.declaration ++ " in " ++ m.origin

/-- A method under its signature, unless one of the same contract is there. -/
def merge (owner : String) (table : Table Method) (m : Method) :
    Except ModelFault (Table Method) :=
  match table.get? m.signature with
  | none => .ok (table.insert m.signature m)
  | some existing =>
    if existing.matchesContract m then .ok table
    else .error (.nameClash owner m.signature (clashText existing) (clashText m))

/-- The ancestors of a definition, found once and only if they are needed. -/
abbrev LazyAncestors := Thunk (Except ModelFault (List TypeExpr))

/-- The ancestors of a definition. -/
def lazyAncestors (r : Registry) (d : Definition) : LazyAncestors :=
  .mk fun _ => r.ancestors d

@[simp] theorem get_lazyAncestors (r : Registry) (d : Definition) :
    (r.lazyAncestors d).get = r.ancestors d := rfl

/-- The table extended by the stub of one method, unless that is hidden from subtypes. -/
def inheritMethod (target : Definition) (ancestors : LazyAncestors) (table : Table Method)
    (m : Method) : Except ModelFault (Table Method) := do
  if m.isHidden then return table
  merge target.name table (← stubFor target ancestors.get m)

/-- The table extended by all methods that `target`, whose ancestors are given, inherits through
`parents`. The definitions whose tables are being made are on the trail, and none of them may be
met again. -/
def inheritVia (r : Registry) (trail : List String) (target : Definition)
    (ancestors : LazyAncestors) (table : Table Method) (parents : List TypeExpr) :
    Except ModelFault (Table Method) :=
  match parents with
  | [] => .ok table
  | parent :: rest =>
    match _hd : r.get? parent.name with
    | none => .error (.unknownType parent.name target.name)
    | some d =>
      if _hn : d.name ∈ trail then .error (.cycle (trail ++ [d.name]))
      else do
        let inherited ←
          inheritVia r (trail ++ [d.name]) d (r.lazyAncestors d) d.methods d.supertypes
        let table ← inherited.values.foldlM (inheritMethod target ancestors) table
        inheritVia r trail target ancestors table rest
termination_by r.workload trail parents
decreasing_by
  · exact workload_lt _hd _hn
  · exact workload_tail_lt r trail parent rest

/-- The table extended by all methods that `target` inherits through `parents`. -/
def inherit (r : Registry) (target : Definition) (table : Table Method)
    (parents : List TypeExpr) : Except ModelFault (Table Method) :=
  r.inheritVia [] target (r.lazyAncestors target) table parents

/-- All methods of a definition, its own first. -/
def allMethods (r : Registry) (d : Definition) : Except ModelFault (Table Method) :=
  r.inheritVia [d.name] d (r.lazyAncestors d) d.methods d.supertypes

end FluentGrammar.Registry

namespace FluentGrammar

/-- What answers for the table of all methods of a definition. Steps of resolution take the tables
from such a source, which is `Registry.allMethods` unless another is given. -/
abbrev TableSource := Registry → Definition → Except ModelFault (Table Method)

end FluentGrammar
