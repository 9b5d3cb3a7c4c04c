import FluentGrammar.Config.Basic
import FluentGrammar.Toml.Reader

/-!
# Configurations in TOML documents

A section of a configuration is a table of named settings, or a list of settings in their fixed
order of which the last ones may be left out. Unknown names and values of a wrong kind are refused.

* `Config.ofText`: the configuration that a document gives.
* `ConfigPlace`, `Config.ofPlace`, `Config.forRoot`: the configuration file of a project.
-/

namespace FluentGrammar

open Toml

namespace Toml.Value

/-- A text. -/
def asText? : Value → Option String
  | .string text => some text
  | _ => none

/-- A truth value. -/
def asFlag? : Value → Option Bool
  | .boolean flag => some flag
  | _ => none

/-- The items of a list, whichever way it is written. -/
def asList? : Value → Option (List Value)
  | .list items => some items
  | .tables elements => some (elements.map (.table .stated))
  | _ => none

/-- The settings of a section whose names are given in order. -/
def asSection? (names : List String) (v : Value) : Option Entries :=
  match v with
  | .inline entries | .table _ entries => do
    guard (entries.all (·.1 ∈ names))
    return entries
  | v => do return names.zip (← v.asList?)

end Toml.Value

/-- A setting that may be missing. -/
def Toml.Entries.optional {α : Type} (es : Entries) (key : String) (read : Value → Option α)
    (fallback : α) : Option α :=
  match es.lookup key with
  | some v => read v
  | none => some fallback

/-- A setting that has to be there. -/
def Toml.Entries.mandatory {α : Type} (es : Entries) (key : String) (read : Value → Option α) :
    Option α :=
  (es.lookup key).bind read

/-- The section on generated names. -/
def GeneratorSection.ofValue? (v : Value) : Option GeneratorSection := do
  let es ← v.asSection? ["utility_class", "reserved_prefix", "test_interface_suffix"]
  let fallback : GeneratorSection := {}
  return {
    utilityClass := ← es.optional "utility_class" Value.asText? fallback.utilityClass
    reservedPrefix := ← es.optional "reserved_prefix" Value.asText? fallback.reservedPrefix
    testSuffix := ← es.optional "test_interface_suffix" Value.asText? fallback.testSuffix }

/-- The section on logging. -/
def LoggingSection.ofValue? (v : Value) : Option LoggingSection := do
  let es ← v.asSection? ["level", "json"]
  let fallback : LoggingSection := {}
  return {
    level := ← es.optional "level" Value.asText? fallback.level
    json := ← es.optional "json" Value.asFlag? fallback.json }

/-- A method of an archetype. -/
def ArchetypeMethodEntry.ofValue? (v : Value) : Option ArchetypeMethodEntry := do
  let es ← v.asSection? ["verb", "result", "params", "compose"]
  return {
    verb := ← es.mandatory "verb" Value.asText?
    result := ← es.optional "result" Value.asText? "void"
    params := ← es.optional "params" (fun v => do (← v.asList?).mapM Value.asText?) []
    compose := ← es.optional "compose" (fun v => v.asText?.map some) none }

/-- An archetype. -/
def ArchetypeEntry.ofValue? (v : Value) : Option ArchetypeEntry := do
  let es ← v.asSection? ["kind", "methods"]
  let readMethods := fun (v : Value) => do (← v.asList?).mapM ArchetypeMethodEntry.ofValue?
  return {
    kind := ← es.mandatory "kind" Value.asText?
    methods := ← es.optional "methods" readMethods [] }

namespace Config

/-- The configuration with the settings of a document. -/
def ofEntries? (es : Entries) : Option Config := do
  guard (es.all (·.1 ∈ ["generator", "logging", "archetypes"]))
  let readArchetypes := fun (v : Value) => do (← v.asList?).mapM ArchetypeEntry.ofValue?
  return {
    generator := ← es.optional "generator" GeneratorSection.ofValue? {}
    logging := ← es.optional "logging" LoggingSection.ofValue? {}
    archetypes := ← es.optional "archetypes" readArchetypes default.archetypes }

/-- The configuration that a document gives, if it keeps all rules. -/
def ofText (text : String) : Except ConfigFault Config :=
  match (Toml.parse? text).bind ofEntries? with
  | some config => config.validate
  | none => .error .malformed

end Config

/-- What stands in the place of the configuration file of a project. -/
inductive ConfigPlace where
  | file (text : String)
  | directory
  | nothing
deriving DecidableEq

namespace Config

/-- The configuration in a place where a file is expected. -/
def ofPlace : ConfigPlace → Except ConfigFault Config
  | .file text => ofText text
  | .directory | .nothing => .error .unreadable

/-- The configuration of a project and whether it comes from a file; without one it is the
default. -/
def forRoot : ConfigPlace → Except ConfigFault (Config × Bool)
  | .file text => (ofText text).map (·, true)
  | .directory | .nothing => .ok (default, false)

end Config

end FluentGrammar
