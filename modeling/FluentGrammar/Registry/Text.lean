import FluentGrammar.Registry.Basic

/-!
# Method bodies

The text of methods as they are finally printed. A factory method has no body of its own: it
returns a new instance of its anonymous class, whose members are printed within it. Members may be
factories themselves; an anonymous class within itself is not printed again.

* `Registry.methodBody`: the body of a method.
* `Registry.renderMethod`: a method with documentation, declaration and body.
-/

namespace FluentGrammar.Registry

/-- The number of anonymous classes that are not among the given names. -/
def unopened (r : Registry) (opened : List String) : Nat :=
  (r.anonymous.filter (·.name ∉ opened)).length

theorem unopened_lt {r : Registry} {opened : List String} {d : Definition} (h : d ∈ r.anonymous)
    (hn : d.name ∉ opened) : r.unopened (d.name :: opened) < r.unopened opened := by
  have hsub : r.anonymous.filter (·.name ∉ d.name :: opened) =
      (r.anonymous.filter (·.name ∉ opened)).filter (·.name ≠ d.name) := by
    rw [List.filter_filter]
    refine List.filter_congr fun x _ => ?_
    by_cases h₁ : x.name = d.name <;> by_cases h₂ : x.name ∈ opened <;> simp [h₁, h₂]
  rw [unopened, unopened, hsub]
  exact List.length_filter_lt_length_iff_exists.mpr ⟨d, by simp [h, hn], by simp⟩

theorem mem_anonymous_of_anonymousOf? {r : Registry} {m : Method} {d : Definition}
    (h : r.anonymousOf? m = some d) : d ∈ r.anonymous := by
  obtain ⟨name, _, hd⟩ := Option.bind_eq_some_iff.mp h
  exact List.mem_of_find?_eq_some hd

/-- The instantiation of an anonymous class with the given members. -/
def instantiation (parent : TypeExpr) (members : List String) : String :=
  "return new " ++ parent.text ++ "() \x7b\n" ++
    Text.joinWith "\n\n" (members.map (Text.indent 4)) ++ "\n\x7d;"

/-- The body of a method within the anonymous classes `opened`. -/
def bodyWithin (r : Registry) (opened : List String) (m : Method) : Option String :=
  match m.body with
  | some body => some body
  | none =>
    match _hd : r.anonymousOf? m with
    | none => none
    | some d =>
      if _hn : d.name ∈ opened then none
      else
        match d.shape with
        | .anonymousClass parent =>
          some (instantiation parent
            (d.methods.values.map fun m => m.render (bodyWithin r (d.name :: opened) m)))
        | _ => none
termination_by r.unopened opened
decreasing_by exact unopened_lt (mem_anonymous_of_anonymousOf? _hd) _hn

/-- The body of a method: its own, or for a factory the instantiation of its anonymous class. -/
def methodBody (r : Registry) (m : Method) : Option String :=
  r.bodyWithin [] m

/-- The text of a method; an abstract one has no body. -/
def renderMethod (r : Registry) (m : Method) : String :=
  m.render (if m.isAbstract then none else r.methodBody m)

end FluentGrammar.Registry
