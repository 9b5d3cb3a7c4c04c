import Mathlib.Data.List.Induction
import FluentGrammar.Proofs.Registry

/-!
# Registered names

Two definitions must not have names that a file system without case takes for the same. The registry
keeps a table of the upper-case forms of all names beside the definitions and looks there before it
takes in another one. The table and the definitions stay in step, whatever is asked of a registry
that starts out with its utility class, and a request that is refused leaves no trace in either.

* `Registry.Request`, `Registry.after`, `Registry.granted`: requests, the registry after several of
  them, and those that were not refused.
* `Registry.Folded`: the table has the upper-case forms of the registered names and nothing else.
* `Registry.Folded.addDefinition`: a definition that is registered keeps the two in step.
* `Registry.Folded.outcome_define_cases`: the two ends of a request to register a definition.
* **`Registry.registered_after_define`**: what is registered after any sequence of such requests.
-/

namespace FluentGrammar

namespace Resolution

variable {ε : Type} {x : Resolution ε Unit} {r r' : Registry}

theorem outcome_eq_none_iff : x.outcome r = (r', none) ↔ x r = .ok () r' := by
  unfold outcome
  cases x r <;> simp

theorem outcome_eq_some_iff {e : ε} : x.outcome r = (r', some e) ↔ x r = .error e r' := by
  unfold outcome
  cases x r <;> simp [and_comm]

end Resolution

namespace Registry

/-! ## Requests -/

/-- What can be asked of a registry before anything is resolved. -/
inductive Request where
  /-- To register a definition. -/
  | define (d : Definition)
  /-- To add a method to the utility class. -/
  | method (m : Method)
  /-- To add an explicit method. -/
  | explicit (m : Method)

namespace Request

/-- What a request does. -/
def run : Request → Resolution ModelFault Unit
  | define d => Resolution.addDefinition d
  | method m => Resolution.addUtilityMethod m
  | explicit m => Resolution.addExplicit m

/-- The definition that a request is about. -/
def definition? : Request → Option Definition
  | define d => some d
  | _ => none

/-- The explicit method that a request is about. -/
def explicit? : Request → Option Method
  | explicit m => some m
  | _ => none

end Request

variable {r r' : Registry} {d : Definition}

/-- The registry after several requests, where it goes on after one that is refused. -/
def after (r : Registry) (requests : List Request) : Registry :=
  requests.foldl (fun r request => (request.run.outcome r).1) r

/-- The requests that are not refused, each asked of the registry after those before it. -/
def granted (r : Registry) : List Request → List Request
  | [] => []
  | request :: rest =>
    let (s, fault) := request.run.outcome r
    if fault.isNone then request :: s.granted rest else s.granted rest

@[simp] theorem after_nil : r.after [] = r := rfl

theorem after_concat (requests : List Request) (request : Request) :
    r.after (requests ++ [request]) = (request.run.outcome (r.after requests)).1 := by
  simp [after]

@[simp] theorem granted_nil : r.granted [] = [] := rfl

theorem granted_concat (requests : List Request) (request : Request) :
    r.granted (requests ++ [request]) = r.granted requests ++
      if (request.run.outcome (r.after requests)).2.isNone then [request] else [] := by
  induction requests generalizing r with
  | nil => simp [granted]
  | cons first rest ih =>
    have hafter : r.after (first :: rest) = (first.run.outcome r).1.after rest := rfl
    rw [List.cons_append, granted, granted, hafter]
    dsimp only
    rw [ih]
    split <;> rfl

/-! ## Upper-case forms -/

/-- The table of upper-case forms has the registered names, in order of registration, and nothing
else. -/
def Folded (r : Registry) : Prop :=
  r.foldedNames.entries = r.definitions.map fun d => (Text.upperCase d.name, d.name)

theorem folded_empty (utility : String) : (empty utility).Folded := rfl

namespace Folded

theorem keys_foldedNames (h : r.Folded) :
    r.foldedNames.keys = r.definitions.map fun d => Text.upperCase d.name := by
  rw [Table.keys, h, List.map_map]
  rfl

/-- No two registered names have the same upper-case form, as no table has a key twice. -/
theorem nodup_upperCase (h : r.Folded) :
    (r.definitions.map fun d => Text.upperCase d.name).Nodup :=
  h.keys_foldedNames ▸ r.foldedNames.nodup_keys

theorem get?_foldedNames_iff (h : r.Folded) {key name : String} :
    r.foldedNames.get? key = some name ↔
      name ∈ r.definitions.map Definition.name ∧ Text.upperCase name = key := by
  rw [Table.get?_eq_some_iff, h, List.mem_map, List.mem_map]
  constructor
  · rintro ⟨d, hd, he⟩
    cases he
    exact ⟨⟨d, hd, rfl⟩, rfl⟩
  · rintro ⟨⟨d, hd, rfl⟩, rfl⟩
    exact ⟨d, hd, rfl⟩

theorem get?_foldedNames_eq_none_iff (h : r.Folded) {key : String} :
    r.foldedNames.get? key = none ↔ ∀ e ∈ r.definitions, Text.upperCase e.name ≠ key := by
  rw [Table.get?_eq_none_iff, h.keys_foldedNames, List.mem_map]
  simp

theorem concat (h : r.Folded) (hnew : r.foldedNames.get? (Text.upperCase d.name) = none) :
    Folded { r with
      foldedNames := r.foldedNames.insert (Text.upperCase d.name) d.name
      definitions := r.definitions ++ [d] } := by
  change (r.foldedNames.insert _ _).entries = (r.definitions ++ [d]).map _
  rw [Table.entries_insert_of_not_mem (Table.get?_eq_none_iff.mp hnew), h, List.map_append,
    List.map_singleton]

theorem addDefinition (h : r.Folded) {u : Unit}
    (hadd : Resolution.addDefinition d r = .ok u r') : r'.Folded := by
  obtain ⟨-, -, hnew, rfl⟩ := Resolution.addDefinition_eq_ok_iff.mp hadd
  exact h.concat hnew

end Folded

/-! ## Requests to register a definition -/

theorem outcome_define_of_anonymous (hk : d.kind = .anonymousClass) :
    (Request.define d).run.outcome r = (r, some (.unregisteredAnonymous d.name)) := by
  rw [Resolution.outcome_eq_some_iff, Request.run, Resolution.addDefinition_run, if_pos hk]

theorem Folded.outcome_define_of_clash (h : r.Folded) (hk : d.kind ≠ .anonymousClass)
    {e : Definition} (he : e ∈ r.definitions)
    (hupper : Text.upperCase e.name = Text.upperCase d.name) :
    (Request.define d).run.outcome r =
      (r, some (if e.name = d.name then .duplicateType d.name else .caseClash d.name e.name)) := by
  have hmem : e.name ∈ r.definitions.map Definition.name := List.mem_map.mpr ⟨e, he, rfl⟩
  have hget : r.foldedNames.get? (Text.upperCase d.name) = some e.name :=
    h.get?_foldedNames_iff.mpr ⟨hmem, hupper⟩
  rw [Resolution.outcome_eq_some_iff, Request.run, Resolution.addDefinition_run, if_neg hk]
  by_cases hname : e.name = d.name
  · rw [if_pos (hname ▸ hmem), if_pos hname]
  · -- The exact name is not there either: it would have the same upper-case form as `e`.
    have hnot : d.name ∉ r.definitions.map Definition.name := by
      intro hd
      have hself := h.get?_foldedNames_iff.mpr ⟨hd, rfl⟩
      exact hname (Option.some.inj (hget.symm.trans hself))
    rw [if_neg hnot, if_neg hname, hget]

theorem Folded.outcome_define_of_new (h : r.Folded) (hk : d.kind ≠ .anonymousClass)
    (hnew : ∀ e ∈ r.definitions, Text.upperCase e.name ≠ Text.upperCase d.name) :
    (Request.define d).run.outcome r =
      ({ r with
        foldedNames := r.foldedNames.insert (Text.upperCase d.name) d.name
        definitions := r.definitions ++ [d] }, none) := by
  have hnot : d.name ∉ r.definitions.map Definition.name := by
    intro hd
    obtain ⟨e, he, hname⟩ := List.mem_map.mp hd
    exact hnew e he (by rw [hname])
  exact Resolution.outcome_eq_none_iff.mpr (Resolution.addDefinition_eq_ok_iff.mpr
    ⟨hk, hnot, h.get?_foldedNames_eq_none_iff.mpr hnew, rfl⟩)

theorem Folded.outcome_define_cases (h : r.Folded) (d : Definition) :
    ((Request.define d).run.outcome r =
        ({ r with
          foldedNames := r.foldedNames.insert (Text.upperCase d.name) d.name
          definitions := r.definitions ++ [d] }, none) ∧
      d.kind ≠ .anonymousClass ∧
      ∀ e ∈ r.definitions, Text.upperCase e.name ≠ Text.upperCase d.name) ∨
    (∃ fault, (Request.define d).run.outcome r = (r, some fault)) ∧
      ¬ (d.kind ≠ .anonymousClass ∧
        ∀ e ∈ r.definitions, Text.upperCase e.name ≠ Text.upperCase d.name) := by
  by_cases hk : d.kind = .anonymousClass
  · exact .inr ⟨⟨_, outcome_define_of_anonymous hk⟩, fun hnot => hnot.1 hk⟩
  · by_cases hnew : ∀ e ∈ r.definitions, Text.upperCase e.name ≠ Text.upperCase d.name
    · exact .inl ⟨h.outcome_define_of_new hk hnew, hk, hnew⟩
    · refine .inr ⟨?_, fun hnot => hnew hnot.2⟩
      push Not at hnew
      obtain ⟨e, he, hupper⟩ := hnew
      exact ⟨_, h.outcome_define_of_clash hk he hupper⟩

/-- After requests to register definitions, those that were granted are there in their order, and
only the definitions and their table have changed. -/
theorem after_define (utility : String) (ds : List Definition) :
    let r := (empty utility).after (ds.map .define)
    r.Folded ∧
    r = { empty utility with definitions := r.definitions, foldedNames := r.foldedNames } ∧
    r.definitions = (empty utility).definitions ++
      ((empty utility).granted (ds.map .define)).filterMap Request.definition? := by
  induction ds using List.reverseRecOn with
  | nil => exact ⟨folded_empty utility, rfl, by simp⟩
  | append_singleton ds d ih =>
    obtain ⟨hfolded, hrest, hafter⟩ := ih
    rw [List.map_append, List.map_singleton, after_concat, granted_concat, List.filterMap_append]
    rcases hfolded.outcome_define_cases d with ⟨houtcome, _, hnew⟩ | ⟨⟨fault, houtcome⟩, _⟩
    · rw [houtcome]
      refine ⟨hfolded.concat (hfolded.get?_foldedNames_eq_none_iff.mpr hnew), ?_, ?_⟩
      · dsimp only
        rw [hrest]
      · simp [hafter, Request.definition?]
    · rw [houtcome]
      exact ⟨hfolded, hrest, by simpa using hafter⟩

/-- **Registered names.** Definitions are registered one after the other in a registry that starts
out with its utility class, and some are refused. Then the registered ones are the utility class and
those that were not refused, in their order, and nothing else has changed but the table of
upper-case forms. No two names have the same upper-case form, and the table has each of them under
its own and nothing else. Another definition is accepted exactly if it is not anonymous and no
registered name has the upper-case form of its name; then it comes last, and its name is entered.
Otherwise the registry stays as it is: an anonymous class, a name that is there and one that differs
in case from the existing one are refused as such. -/
theorem registered_after_define (utility : String) (ds : List Definition) :
    let r := (empty utility).after (ds.map .define)
    r.definitions = (Definition.namedClass utility).withWords ["public", "final"] ::
      ((empty utility).granted (ds.map .define)).filterMap Request.definition? ∧
    r = { empty utility with definitions := r.definitions, foldedNames := r.foldedNames } ∧
    (r.definitions.map fun d => Text.upperCase d.name).Nodup ∧
    r.foldedNames.entries = r.definitions.map (fun d => (Text.upperCase d.name, d.name)) ∧
    (∀ key name, r.foldedNames.get? key = some name ↔
      name ∈ r.definitions.map Definition.name ∧ Text.upperCase name = key) ∧
    ∀ d, ((((Request.define d).run.outcome r).2 = none ↔ d.kind ≠ .anonymousClass ∧
        ∀ e ∈ r.definitions, Text.upperCase e.name ≠ Text.upperCase d.name) ∧
      (∀ s, (Request.define d).run.outcome r = (s, none) →
        s = { r with
          definitions := r.definitions ++ [d]
          foldedNames := r.foldedNames.insert (Text.upperCase d.name) d.name }) ∧
      (d.kind = .anonymousClass →
        (Request.define d).run.outcome r = (r, some (.unregisteredAnonymous d.name))) ∧
      (∀ e ∈ r.definitions, d.kind ≠ .anonymousClass →
        Text.upperCase e.name = Text.upperCase d.name →
        (Request.define d).run.outcome r =
          (r, some (if e.name = d.name then .duplicateType d.name
            else .caseClash d.name e.name))) ∧
      ∀ s fault, (Request.define d).run.outcome r = (s, some fault) → s = r) := by
  intro r
  obtain ⟨hfolded, hrest, hafter⟩ := after_define utility ds
  refine ⟨hafter, hrest, hfolded.nodup_upperCase, hfolded,
    fun key name => hfolded.get?_foldedNames_iff, fun d => ?_⟩
  refine ⟨?_, fun s hs => ?_, outcome_define_of_anonymous,
    fun e he hk hupper => hfolded.outcome_define_of_clash hk he hupper, fun s fault hs => ?_⟩ <;>
    rcases hfolded.outcome_define_cases d with ⟨houtcome, hnew⟩ | ⟨⟨fault', houtcome⟩, hnot⟩
  · exact ⟨fun _ => hnew, fun _ => by rw [houtcome]⟩
  · exact ⟨fun hnone => by simp [r, houtcome] at hnone, fun hnew => absurd hnew hnot⟩
  · exact (Prod.mk.inj (hs.symm.trans houtcome)).1
  · cases hs.symm.trans houtcome
  · cases hs.symm.trans houtcome
  · exact (Prod.mk.inj (hs.symm.trans houtcome)).1

end Registry

end FluentGrammar
