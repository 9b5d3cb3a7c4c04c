import FluentGrammar.Proofs.MethodCopy
import FluentGrammar.Proofs.MethodTable
import FluentGrammar.Proofs.Renaming

/-!
# Contracts compared in either order

To compare two methods, the type parameters of the second are renamed to those of the first, each to
the one in its place. Renamed back they should be as before. They are, unless the second method
mentions a name that is a type parameter of the first and none of its own: after renaming this name
is not told apart from a type parameter, and the order of comparison matters.

* `Method.Corresponds`: the renaming of one method's type parameters to another's.
* `Method.Foreign`: a type with a type parameter of another method.
* `Method.Corresponds.replace_back`, `Method.Corresponds.not_foreign`: what can be renamed back.
* `Method.matchesContract_of_not_foreign`: contracts without foreign names agree in both orders.
* **`matchesContract_symmetry`**: when the order of comparison, and of merging, matters.
-/

namespace FluentGrammar

namespace Method

variable {a b : Method} {f g : String → String} {t u : TypeExpr}

/-- The types that are compared: the result, the parameters as callers see them, and what is
thrown. -/
def contractTypes (m : Method) : List TypeExpr :=
  m.result :: m.params.map Param.callType ++ m.throws.toList

/-- The type mentions a type parameter of `other` that `m` does not have. -/
def Foreign (m other : Method) (t : TypeExpr) : Prop :=
  ∃ name ∈ other.typeParams.names, name ∉ m.typeParams.names ∧ t.mentions name = true

instance (m other : Method) : DecidablePred (m.Foreign other) := fun t =>
  inferInstanceAs (Decidable (∃ name ∈ other.typeParams.names,
    name ∉ m.typeParams.names ∧ t.mentions name = true))

/-- Type parameters have different names, none like those of captured wildcards, and every thrown
type is listed once. -/
structure Distinct (m : Method) : Prop where
  nodup : m.typeParams.names.Nodup
  uncaptured : ∀ name ∈ m.typeParams.names, isCapture name = false
  throws : m.throws.toList.Nodup

/-! ## Corresponding type parameters -/

/-- The renaming takes every type parameter of `b` to that of `a` in the same place, and leaves all
other names. -/
structure Corresponds (f : String → String) (b a : Method) : Prop where
  params : a.typeParams.names = b.typeParams.names.map f
  others : ∀ name, name ∉ b.typeParams.names → f name = name

theorem exists_corresponds (hb : b.typeParams.names.Nodup)
    (hl : a.typeParams.length = b.typeParams.length) : ∃ f, Corresponds f b a := by
  have hnames : a.typeParams.names.length = b.typeParams.names.length := by
    rw [TypeParams.names, TypeParams.names, List.length_map, List.length_map, hl]
  obtain ⟨f, hf⟩ := exists_map_eq hb hnames
  refine ⟨fun name => if name ∈ b.typeParams.names then f name else name, ?_, fun name hn => ?_⟩
  · rw [hf]
    exact List.map_congr_left fun name hn => (if_pos hn).symm
  · exact if_neg hn

namespace Corresponds

theorem mem (h : Corresponds f b a) {name : String} (hn : name ∈ b.typeParams.names) :
    f name ∈ a.typeParams.names :=
  h.params ▸ List.mem_map_of_mem hn

theorem inverse (hf : Corresponds f b a) (hg : Corresponds g a b) {name : String}
    (hn : name ∈ b.typeParams.names) : g (f name) = name := by
  have hmap := hg.params
  rw [hf.params, List.map_map] at hmap
  exact (List.map_inj_left.mp (hmap.symm.trans (List.map_id _).symm)) name hn

theorem replace_eq_ok_iff (h : Corresponds f b a) (ha : a.Distinct) :
    t.replace (renameTo a b) = .ok u ↔
      (∀ name ∈ t.applied, name ∉ b.typeParams.names) ∧ t.rename f = u := by
  have hvalue : ∀ name ∈ b.typeParams.names,
      (renameTo a b).value name = some (.plain (.named (f name))) := by
    intro name hn
    rw [Substitution.value, Substitution.lookup_of_written (get?_renameTo h.params hn)
      (ha.uncaptured _ (h.mem hn))]
    rfl
  have hnone : ∀ name, name ∉ b.typeParams.names → (renameTo a b).value name = none := by
    intro name hn
    rw [Substitution.value, Substitution.lookup_eq_none (get?_renameTo_of_not_mem hn)]
    rfl
  have hcontains : ∀ name, (renameTo a b).contains name = false ↔ name ∉ b.typeParams.names := by
    intro name
    by_cases hn : name ∈ b.typeParams.names
    · simp [Substitution.contains_of_get? (get?_renameTo h.params hn), hn]
    · simp [Substitution.contains, get?_renameTo_of_not_mem hn, hn]
  rw [TypeExpr.replace_eq_ok_iff]
  simp only [hcontains]
  refine and_congr_right fun happlied => ?_
  rw [TypeExpr.subst_eq_rename (fun name _ => ?_) fun name hn => hnone name (happlied name hn)]
  by_cases hn : name ∈ b.typeParams.names
  · exact .inr (hvalue name hn)
  · exact .inl ⟨hnone name hn, h.others name hn⟩

theorem comp_eq (hf : Corresponds f b a) (hg : Corresponds g a b) (ht : ¬ b.Foreign a t)
    {name : String} (hn : t.mentions name = true) : g (f name) = name := by
  by_cases hb : name ∈ b.typeParams.names
  · exact hf.inverse hg hb
  · rw [hf.others name hb]
    exact hg.others name fun ha => ht ⟨name, ha, hb, hn⟩

theorem rename_back (hf : Corresponds f b a) (hg : Corresponds g a b) (ht : ¬ b.Foreign a t) :
    (t.rename f).rename g = t := by
  rw [TypeExpr.rename_rename]
  exact TypeExpr.rename_eq_self fun name hn => hf.comp_eq hg ht hn

/-- **A type without foreign names can be renamed back.** -/
theorem replace_back (hf : Corresponds f b a) (hg : Corresponds g a b) (ha : a.Distinct)
    (hb : b.Distinct) (ht : ¬ b.Foreign a t) (h : t.replace (renameTo a b) = .ok u) :
    u.replace (renameTo b a) = .ok t := by
  obtain ⟨happlied, rfl⟩ := (hf.replace_eq_ok_iff ha).mp h
  refine (hg.replace_eq_ok_iff hb).mpr ⟨fun new hnew hmem => ?_, hf.rename_back hg ht⟩
  rw [TypeExpr.applied_rename] at hnew
  obtain ⟨name, hname, rfl⟩ := List.mem_map.mp hnew
  have hself := hf.others name (happlied name hname)
  exact ht ⟨name, hself ▸ hmem, happlied name hname, TypeExpr.mentions_of_applied hname⟩

/-- **Nothing is renamed to a type with foreign names**: all type parameters of `a` are gone. -/
theorem not_foreign (hg : Corresponds g a b) (hb : b.Distinct)
    (h : u.replace (renameTo b a) = .ok t) : ¬ b.Foreign a t := by
  rintro ⟨name, ha, hnot, hn⟩
  obtain ⟨-, rfl⟩ := (hg.replace_eq_ok_iff hb).mp h
  rw [← TypeExpr.mem_allNames, TypeExpr.allNames_rename, List.mem_map] at hn
  obtain ⟨old, -, rfl⟩ := hn
  by_cases hold : old ∈ a.typeParams.names
  · exact hnot (hg.mem hold)
  · exact hold (hg.others old hold ▸ ha)

end Corresponds

/-! ## Contracts -/

theorem matchesContract_iff : a.matchesContract b = true ↔
    a.signature = b.signature ∧ a.typeParams.length = b.typeParams.length ∧
      List.Forall₂ (fun p q : Param => q.callType.replace (renameTo a b) = .ok p.callType)
        a.params b.params ∧
      b.result.replace (renameTo a b) = .ok a.result ∧ a.throws.size = b.throws.size ∧
      ∀ t ∈ b.throws.toList, ∃ u ∈ a.throws.toList, t.replace (renameTo a b) = .ok u := by
  refine ⟨matchesContract_spec, ?_⟩
  rintro ⟨hsignature, hlength, hparams, hresult, hsize, hthrows⟩
  obtain ⟨hl, hzip⟩ := List.forall₂_iff_zip.mp hparams
  simp only [matchesContract, Bool.and_eq_true, decide_eq_true_eq, List.all_eq_true]
  refine ⟨⟨⟨⟨⟨⟨hsignature, hlength⟩, hl⟩, hsize⟩, agrees_iff.mpr hresult⟩,
    fun pq hpq => agrees_iff.mpr (hzip hpq)⟩, fun t ht => ?_⟩
  obtain ⟨u, hu, he⟩ := hthrows t ht
  rw [he]
  exact decide_eq_true hu

theorem exists_thrown (hf : Corresponds f b a) (hg : Corresponds g a b) (ha : a.Distinct)
    (hb : b.Distinct) (hsize : a.throws.size = b.throws.size)
    (hforeign : ∀ t ∈ b.throws.toList, ¬ b.Foreign a t)
    (hthrows : ∀ t ∈ b.throws.toList, ∃ u ∈ a.throws.toList, t.replace (renameTo a b) = .ok u)
    (hu : u ∈ a.throws.toList) :
    ∃ t ∈ b.throws.toList, u.replace (renameTo b a) = .ok t := by
  have hmem : ∀ t ∈ b.throws.toList, t.rename f ∈ a.throws.toList := by
    intro t ht
    obtain ⟨u, hu, he⟩ := hthrows t ht
    rwa [((hf.replace_eq_ok_iff ha).mp he).2]
  have hperm : (b.throws.toList.map (TypeExpr.rename f)).Perm a.throws.toList := by
    refine (map_subperm hb.throws (fun t ht => hf.rename_back hg (hforeign t ht))
      hmem).perm_of_length_le ?_
    rw [List.length_map]
    exact hsize.le
  obtain ⟨t, ht, rfl⟩ := List.mem_map.mp (hperm.mem_iff.mpr hu)
  obtain ⟨u, hu, he⟩ := hthrows t ht
  obtain rfl := ((hf.replace_eq_ok_iff ha).mp he).2
  exact ⟨t, ht, hf.replace_back hg ha hb (hforeign t ht) he⟩

/-- **Contracts without foreign names agree in both orders.** -/
theorem matchesContract_of_not_foreign (ha : a.Distinct) (hb : b.Distinct)
    (h : a.matchesContract b = true) (hforeign : ∀ t ∈ b.contractTypes, ¬ b.Foreign a t) :
    b.matchesContract a = true := by
  obtain ⟨hsignature, hlength, hparams, hresult, hsize, hthrows⟩ := matchesContract_iff.mp h
  obtain ⟨f, hf⟩ := exists_corresponds hb.nodup hlength
  obtain ⟨g, hg⟩ := exists_corresponds ha.nodup hlength.symm
  have hback : ∀ t ∈ b.contractTypes, ∀ u, t.replace (renameTo a b) = .ok u →
      u.replace (renameTo b a) = .ok t :=
    fun t ht _ => hf.replace_back hg ha hb (hforeign t ht)
  simp only [contractTypes, List.cons_append, List.forall_mem_cons, List.forall_mem_append,
    List.forall_mem_map] at hback hforeign
  refine matchesContract_iff.mpr ⟨hsignature.symm, hlength.symm, ?_, hback.1 _ hresult, hsize.symm,
    fun u hu => exists_thrown hf hg ha hb hsize hforeign.2.2 hthrows hu⟩
  refine (forall₂_and_mem_right hparams).flip.imp fun q p hpq => ?_
  exact hback.2.1 q hpq.2 p.callType hpq.1

/-- The result and the parameters of a method have no names that are foreign for it, when it is
renamed to. -/
theorem not_foreign_of_matchesContract (ha : a.Distinct) (hb : b.Distinct)
    (h : b.matchesContract a = true) (ht : t ∈ b.result :: b.params.map Param.callType) :
    ¬ b.Foreign a t := by
  obtain ⟨-, hlength, hparams, hresult, -⟩ := matchesContract_iff.mp h
  obtain ⟨g, hg⟩ := exists_corresponds ha.nodup hlength
  rcases List.mem_cons.mp ht with rfl | ht
  · exact hg.not_foreign hb hresult
  · obtain ⟨p, hp, rfl⟩ := List.mem_map.mp ht
    obtain ⟨q, -, hq⟩ := exists_right_of_forall₂ hparams p hp
    exact hg.not_foreign hb hq

end Method

/-! ## Merging two declarations -/

namespace Registry

variable {owner : String} {table : Table Method} {a b : Method}

theorem exists_merge_iff : (∃ t, merge owner table a = .ok t) ↔
    ∀ e, table.get? a.signature = some e → e.matchesContract a = true := by
  simp only [merge_eq_ok_iff]
  cases table.get? a.signature with
  | none => simp
  | some e => simp

/-- Two methods can be merged into a table one after the other if each has the contract of what is
there, and the second that of the first where there is nothing. -/
theorem exists_merge_pair_iff :
    (∃ t, [a, b].foldlM (merge owner) table = .ok t) ↔
      (∀ e, table.get? a.signature = some e → e.matchesContract a = true) ∧
      (∀ e, table.get? b.signature = some e → e.matchesContract b = true) ∧
      (table.get? a.signature = none → a.signature = b.signature → a.matchesContract b = true) := by
  have hfirst : (∃ t, [a, b].foldlM (merge owner) table = .ok t) ↔
      ∃ t, merge owner table a = .ok t ∧ ∃ t', merge owner t b = .ok t' := by
    simp only [List.foldlM_cons, List.foldlM_nil, bind_pure, Except.bind_eq_ok_iff]
    exact exists_comm.trans (exists_congr fun t => exists_and_left)
  simp only [hfirst, exists_merge_iff]
  simp only [merge_eq_ok_iff]
  cases hget : table.get? a.signature with
  | none =>
    simp only [true_and, reduceCtorEq, false_and, exists_false, or_false, exists_eq_left,
      Table.get?_insert, forall_const, IsEmpty.forall_iff, implies_true]
    by_cases hs : b.signature = a.signature
    · simp [hs, hget]
    · simp [hs, Ne.symm hs]
  | some e => simp [and_assoc]

end Registry

/-! ## The order of comparison -/

/-- **When the order of comparison matters.** A contract that agrees in one order only has a foreign
name, and with a foreign name in the result or in a parameter it does not agree. Without foreign
names two methods can be compared, and merged into the same table, in either order. -/
theorem matchesContract_symmetry (a b : Method) (ha : a.Distinct) (hb : b.Distinct) :
    (a.matchesContract b = true → b.matchesContract a = false →
      ∃ t ∈ b.contractTypes, b.Foreign a t) ∧
    ((∃ t ∈ b.result :: b.params.map Param.callType, b.Foreign a t) →
      b.matchesContract a = false) ∧
    ((∀ t ∈ a.contractTypes, ¬ a.Foreign b t) → (∀ t ∈ b.contractTypes, ¬ b.Foreign a t) →
      a.matchesContract b = b.matchesContract a ∧
      ∀ (owner : String) (table : Table Method),
        (∃ t, [a, b].foldlM (Registry.merge owner) table = .ok t) ↔
          ∃ t, [b, a].foldlM (Registry.merge owner) table = .ok t) := by
  refine ⟨fun hab hba => ?_, fun hforeign => ?_, fun hforeign hforeign' => ?_⟩
  · by_contra hnone
    push Not at hnone
    have := Method.matchesContract_of_not_foreign ha hb hab hnone
    simp [hba] at this
  · obtain ⟨t, ht, hforeign⟩ := hforeign
    by_contra hba
    exact Method.not_foreign_of_matchesContract ha hb (Bool.of_not_eq_false hba) ht hforeign
  · have hsymm : a.matchesContract b = b.matchesContract a := Bool.eq_iff_iff.mpr
      ⟨fun h => Method.matchesContract_of_not_foreign ha hb h hforeign',
        fun h => Method.matchesContract_of_not_foreign hb ha h hforeign⟩
    refine ⟨hsymm, fun owner table => ?_⟩
    rw [Registry.exists_merge_pair_iff, Registry.exists_merge_pair_iff, hsymm, and_left_comm]
    have hlast : (table.get? a.signature = none → a.signature = b.signature →
          b.matchesContract a = true) ↔
        (table.get? b.signature = none → b.signature = a.signature →
          b.matchesContract a = true) := by
      constructor <;> intro h hget he <;> exact h (he ▸ hget) he.symm
    rw [hlast]

/-- A method with two type parameters, `<p, q> p keep(Map<p, q> map) throws IOException, q`. -/
def keeping (p q : String) : Method :=
  { Method.make default "keep" (.named p)
      [{ type := .generic "Map" [.plain (.named p), .plain (.named q)], name := "map" }] with
    typeParams := .ofNames [p, q]
    throws := .ofList [.named "IOException", .named q] }

/-- A method with one type parameter, `<p> void f(List<U> x)`. It is about its own `U` if that is
the name of the type parameter, and about some type `U` if not. -/
def listing (p : String) : Method :=
  { Method.make default "f" .void
      [{ type := .generic "List" [.plain (.named "U")], name := "x" }] with
    typeParams := .ofNames [p] }

theorem matchesContract_symmetry_crossed :
    (keeping "K" "V").matchesContract (keeping "V" "K") = true ∧
    (keeping "V" "K").matchesContract (keeping "K" "V") = true ∧
    ((∃ t, [keeping "K" "V", keeping "V" "K"].foldlM (Registry.merge "C") ∅ = .ok t) ↔
      ∃ t, [keeping "V" "K", keeping "K" "V"].foldlM (Registry.merge "C") ∅ = .ok t) ∧
    (listing "U").matchesContract (listing "T") = true ∧
    (listing "T").matchesContract (listing "U") = false := by
  have hkeeping : ∀ p q, (p, q) ∈ [("K", "V"), ("V", "K")] → (keeping p q).Distinct := by
    intro p q h
    simp only [List.mem_cons, Prod.mk.injEq, List.not_mem_nil, or_false] at h
    obtain ⟨rfl, rfl⟩ | ⟨rfl, rfl⟩ := h <;>
      exact ⟨by decide +kernel, by decide +kernel, by decide +kernel⟩
  have hlisting : ∀ p ∈ ["T", "U"], (listing p).Distinct := by
    intro p h
    simp only [List.mem_cons, List.not_mem_nil, or_false] at h
    obtain rfl | rfl := h <;> exact ⟨by decide +kernel, by decide +kernel, by decide +kernel⟩
  have hcrossed : (keeping "K" "V").matchesContract (keeping "V" "K") = true := by decide +kernel
  obtain ⟨-, -, hboth⟩ := matchesContract_symmetry (keeping "K" "V") (keeping "V" "K")
    (hkeeping _ _ (by simp)) (hkeeping _ _ (by simp))
  obtain ⟨hsymm, hmerge⟩ := hboth (by decide +kernel) (by decide +kernel)
  obtain ⟨-, hone, -⟩ := matchesContract_symmetry (listing "U") (listing "T")
    (hlisting _ (by simp)) (hlisting _ (by simp))
  have hforth : (listing "U").matchesContract (listing "T") = true := by decide +kernel
  exact ⟨hcrossed, hsymm ▸ hcrossed, hmerge "C" ∅, hforth, hone (by decide +kernel)⟩

/-- The order of comparison matters for two methods of one signature, of which one is about its own
type parameter and the other about a type of the same name. -/
theorem matchesContract_not_symmetric :
    (listing "T").typeParams.names.Nodup ∧ (listing "U").typeParams.names.Nodup ∧
    (listing "T").signature = (listing "U").signature ∧
    (listing "T").matchesContract (listing "U") = false ∧
    (listing "U").matchesContract (listing "T") = true ∧
    ([listing "T", listing "U"].foldlM (Registry.merge "C") ∅).isOk = false ∧
    ([listing "U", listing "T"].foldlM (Registry.merge "C") ∅).isOk = true := by
  decide +kernel

end FluentGrammar
