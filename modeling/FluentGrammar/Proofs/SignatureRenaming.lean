import FluentGrammar.Proofs.MethodOutline
import FluentGrammar.Proofs.Renaming

/-!
# Signatures of renamed methods

The names of type parameters do not matter for the signature of a method: wherever one of them is
the outermost name of a parameter's type, the top type stands in the signature. A method may rename
its own type parameters and those of its owner in different ways, since its own hide those of its
owner, and different parameters may get the same name. The only names to avoid are those of types
that the parameters mention.

* `Method.renamed`: what becomes of a name in the types of a method.
* `Method.renameTypeParams`: a method with renamed type parameters.
* `TypeExpr.erasure_rename_eq_iff`: when the erased form of a type stays as it is.
* **`Method.signature_renameTypeParams`**: the signature and the reduced signature stay as they are.
-/

namespace FluentGrammar

/-! ## Erased types -/

/-- **The erased form of a type stays as it is** unless the name of a type becomes the name of a
parameter. -/
theorem TypeExpr.erasure_rename_eq_iff {ρ : String → String} {scope scope' : List String}
    {t : TypeExpr} (hin : t.name ∈ scope → ρ t.name ∈ scope')
    (hout : t.name ∉ scope → ρ t.name = t.name) :
    (t.rename ρ).erasure scope' = t.erasure scope ↔
      (t.name ∉ scope → t.name ∈ scope' → t.name = topName) := by
  have hdims : (t.rename ρ).dims = t.dims := by rw [rename_eq]
  rw [erasure, erasure, name_rename, hdims, ← String.toList_inj, String.toList_append,
    String.toList_append, List.append_cancel_right_eq, String.toList_inj]
  by_cases hscope : t.name ∈ scope
  · simp [hscope, hin hscope]
  · rw [if_neg hscope, hout hscope]
    by_cases hscope' : t.name ∈ scope'
    · simp [hscope, hscope', eq_comm]
    · simp [hscope']

/-- The parameter with the names in its type changed. -/
def Param.rename (ρ : String → String) (p : Param) : Param :=
  { p with type := p.type.rename ρ }

theorem Param.callType_rename (ρ : String → String) (p : Param) :
    (p.rename ρ).callType = p.callType.rename ρ := by
  unfold callType rename
  split
  · exact (TypeExpr.rename_arrayOf ρ p.type 1).symm
  · rfl

/-! ## Renamed methods -/

namespace Method

/-- What becomes of a name in the types of a method: its own type parameters, which hide those of
its owner, are renamed by `own`, and those of its owner by `outer`. -/
def renamed (own outer : String → String) (m : Method) (name : String) : String :=
  if name ∈ m.typeParams.names then own name
  else if name ∈ m.owner.typeParams then outer name
  else name

/-- The method with its own type parameters and those of its owner renamed. -/
def renameTypeParams (own outer : String → String) (m : Method) : Method :=
  let ρ := m.renamed own outer
  { m with
    typeParams := m.typeParams.map fun p => ⟨own p.name, p.bounds.map (TypeExpr.rename ρ)⟩
    owner := { m.owner with typeParams := m.owner.typeParams.map outer }
    params := m.params.map (Param.rename ρ)
    result := m.result.rename ρ
    throws := .ofList (m.throws.toList.map (TypeExpr.rename ρ)) }

variable {own outer : String → String} {m : Method} {name : String}

theorem scope_renameTypeParams (own outer : String → String) (m : Method) :
    (m.renameTypeParams own outer).scope =
      m.typeParams.names.map own ++ m.owner.typeParams.map outer := by
  simp [scope, renameTypeParams, TypeParams.names]

theorem renamed_mem_scope (h : name ∈ m.scope) :
    m.renamed own outer name ∈ (m.renameTypeParams own outer).scope := by
  rw [scope_renameTypeParams, renamed]
  split
  · rename_i hown
    exact List.mem_append_left _ (List.mem_map_of_mem hown)
  · rename_i hown
    have houter : name ∈ m.owner.typeParams := (List.mem_append.mp h).resolve_left hown
    rw [if_pos houter]
    exact List.mem_append_right _ (List.mem_map_of_mem houter)

theorem renamed_eq_self (h : name ∉ m.scope) : m.renamed own outer name = name := by
  obtain ⟨hown, houter⟩ := not_or.mp (mt List.mem_append.mpr h)
  rw [renamed, if_neg hown, if_neg houter]

theorem erasure_callType_rename_iff {p : Param} :
    (p.rename (m.renamed own outer)).callType.erasure (m.renameTypeParams own outer).scope =
      p.callType.erasure m.scope ↔
    (p.type.name ∉ m.scope → p.type.name ∈ (m.renameTypeParams own outer).scope →
      p.type.name = TypeExpr.topName) := by
  rw [Param.callType_rename, TypeExpr.erasure_rename_eq_iff renamed_mem_scope renamed_eq_self,
    Param.callType_name]

theorem signatureOf_map {scope scope' : List String} {params : List Param} {f : Param → Param}
    (h : ∀ p ∈ params, (f p).callType.erasure scope' = p.callType.erasure scope) :
    signatureOf name scope' (params.map f) = signatureOf name scope params := by
  have herased : (params.map f).map (fun p => p.callType.erasure scope') =
      params.map fun p => p.callType.erasure scope := by
    rw [List.map_map]
    exact List.map_congr_left h
  rw [signatureOf, signatureOf, herased]

/-- **Renaming type parameters keeps signatures.** The type parameters of a method and of its owner
may be renamed at once, swapped and merged, as long as no type that a parameter mentions has one of
the new names. -/
theorem signature_renameTypeParams (m : Method) (own outer : String → String)
    (hnew : ∀ p ∈ m.params, ∀ name ∈ p.type.allNames, name ∉ m.scope →
      name ∉ (m.renameTypeParams own outer).scope) :
    (m.renameTypeParams own outer).signature = m.signature ∧
    (m.renameTypeParams own outer).reducedSignature = m.reducedSignature := by
  have hkept : ∀ p ∈ m.params,
      (p.rename (m.renamed own outer)).callType.erasure (m.renameTypeParams own outer).scope =
        p.callType.erasure m.scope := by
    intro p hp
    refine erasure_callType_rename_iff.mpr fun hout hin => ?_
    have hname : p.type.name ∈ p.type.allNames := by
      cases p.type
      exact List.mem_cons_self
    exact absurd hin (hnew p hp _ hname hout)
  refine ⟨signatureOf_map hkept, ?_⟩
  have hdrop : (m.renameTypeParams own outer).params.drop 1 =
      (m.params.drop 1).map (Param.rename (m.renamed own outer)) := List.map_drop.symm
  rw [reducedSignature, hdrop]
  exact signatureOf_map fun p hp => hkept p (List.mem_of_mem_drop hp)

/-- A method `<T, U> void wrap(T a, V b, U c, List<T>[]... d)` of `Box<T, V>`, whose type parameter
`T` hides that of `Box`. -/
def wrapMethod : Method :=
  { make ⟨"Box", .interface, ["T", "V"]⟩ "wrap" .void
      [⟨.named "T", "a", ∅, false⟩, ⟨.named "V", "b", ∅, false⟩, ⟨.named "U", "c", ∅, false⟩,
        ⟨⟨"List", [.plain (.named "T")], 1⟩, "d", ∅, true⟩] with
    typeParams := .ofNames ["T", "U"] }

/-- The method swaps `T` and `U`, and the owner calls its second parameter `U` as well. -/
theorem signature_renameTypeParams_swapped :
    let swap := fun name => if name = "T" then "U" else "T"
    let merge := fun name => if name = "T" then "T" else "U"
    (wrapMethod.renameTypeParams swap merge).params.map (·.type.text) =
      ["U", "U", "T", "List<U>[]"] ∧
    (wrapMethod.renameTypeParams swap merge).signature = "wrap(Object,Object,Object,List[][])" ∧
    (wrapMethod.renameTypeParams swap merge).reducedSignature = "wrap(Object,Object,List[][])" := by
  intro swap merge
  have hkept := signature_renameTypeParams wrapMethod swap merge (by decide +kernel)
  refine ⟨by decide +kernel, hkept.1.trans ?_, hkept.2.trans ?_⟩
  · decide +kernel
  · decide +kernel

example : (wrapMethod.renameTypeParams (fun _ => "List") id).signature =
    "wrap(Object,Object,Object,Object[][])" := by
  decide +kernel

end Method

end FluentGrammar
