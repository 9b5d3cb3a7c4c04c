import FluentGrammar.Text.Blank

/-!
# Configurations

The settings under which a grammar is resolved: the names that are generated, the logging, and the
*archetypes*, kinds of interfaces that get methods of their own.

* `Config.default`: the configuration of a project that gives none.
* `Config.validate`: the rules that every configuration has to keep.
-/

namespace FluentGrammar

/-- A method that interfaces of an archetype get. -/
structure ArchetypeMethodEntry where
  verb : String
  /-- The result type as it is written. -/
  result : String := "void"
  /-- The parameters as they are written, each a type and a name. -/
  params : List String := []
  /-- The function that puts the parts of a rule together; needed unless nothing is returned. -/
  compose : Option String := none
deriving DecidableEq

/-- The method returns nothing. -/
def ArchetypeMethodEntry.isVoid (m : ArchetypeMethodEntry) : Bool :=
  Text.trim m.result = "void"

/-- A kind of interfaces and the methods they get. -/
structure ArchetypeEntry where
  kind : String
  methods : List ArchetypeMethodEntry := []
deriving DecidableEq

/-- The names that are generated. -/
structure GeneratorSection where
  /-- The class that takes all static methods. -/
  utilityClass : String := "Symqle"
  /-- The beginning of names that declared methods must not have. -/
  reservedPrefix : String := "z$"
  /-- The end of the names of test interfaces. -/
  testSuffix : String := "Test"
deriving DecidableEq

/-- What is logged and how. -/
structure LoggingSection where
  level : String := "info"
  json : Bool := false
deriving DecidableEq

/-- The settings of a project. -/
structure Config where
  generator : GeneratorSection
  logging : LoggingSection
  archetypes : List ArchetypeEntry
deriving DecidableEq

/-- What a configuration may violate. -/
inductive ConfigProblem where
  | emptyUtilityClass
  | emptyReservedPrefix
  | repeatedKind (kind : String)
  | repeatedVerb (kind verb : String)
  | missingCompose (kind verb result : String)
deriving DecidableEq

/-- The wording of a violation. -/
def ConfigProblem.text : ConfigProblem → String
  | .emptyUtilityClass => "generator.utility_class must not be empty"
  | .emptyReservedPrefix => "generator.reserved_prefix must not be empty"
  | .repeatedKind kind => s!"archetype kind {kind} is declared twice"
  | .repeatedVerb kind verb => s!"archetype {kind} declares verb {verb} twice"
  | .missingCompose kind verb result =>
    s!"archetype {kind} method {verb} returns {result} but has no `compose` function"

/-- Why there is no configuration. -/
inductive ConfigFault where
  /-- The file cannot be read. -/
  | unreadable
  /-- The document does not have the form of a configuration. -/
  | malformed
  /-- The configuration violates a rule. -/
  | invalid (problem : ConfigProblem)
deriving DecidableEq

/-- The wording of a fault. -/
def ConfigFault.message : ConfigFault → String
  | .unreadable => "failed to read config file"
  | .malformed => "failed to parse toml config"
  | .invalid problem => "invalid config: " ++ problem.text

namespace Config

/-- The archetype of interfaces that stand for parts of statements. -/
def statementArchetype : ArchetypeEntry where
  kind := "Sql"
  methods := [
    { verb := "prepare", params := ["SqlContext context"] },
    { verb := "sqlOf", result := "Sql", params := ["SqlContext context"],
      compose := some "SqlTerms.compose" }]

/-- The configuration of a project that gives none. -/
def default : Config :=
  ⟨{}, {}, [statementArchetype]⟩

/-- The archetype of a kind. -/
def archetype? (c : Config) (kind : String) : Option ArchetypeEntry :=
  c.archetypes.find? (·.kind = kind)

/-- The first violation among the methods of an archetype, where `verbs` have occurred before. -/
def checkMethods (kind : String) (verbs : List String) :
    List ArchetypeMethodEntry → Option ConfigProblem
  | [] => none
  | m :: ms =>
    if m.verb ∈ verbs then some (.repeatedVerb kind m.verb)
    else if !m.isVoid && m.compose.isNone then some (.missingCompose kind m.verb m.result)
    else checkMethods kind (m.verb :: verbs) ms

/-- The first violation among archetypes, where `kinds` have occurred before. -/
def checkArchetypes (kinds : List String) : List ArchetypeEntry → Option ConfigProblem
  | [] => none
  | a :: as =>
    if a.kind ∈ kinds then some (.repeatedKind a.kind)
    else (checkMethods a.kind [] a.methods).or (checkArchetypes (a.kind :: kinds) as)

/-- The first rule that a configuration violates. -/
def problem? (c : Config) : Option ConfigProblem :=
  if Text.isAllBlank c.generator.utilityClass then some .emptyUtilityClass
  else if c.generator.reservedPrefix.isEmpty then some .emptyReservedPrefix
  else checkArchetypes [] c.archetypes

/-- The configuration, if it keeps all rules. -/
def validate (c : Config) : Except ConfigFault Config :=
  match c.problem? with
  | some problem => .error (.invalid problem)
  | none => .ok c

end Config

end FluentGrammar
