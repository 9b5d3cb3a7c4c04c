import FluentGrammar.Proofs.RegisteredNames
import FluentGrammar.Proofs.Registry
import FluentGrammar.Registry.Ancestors

/-!
# The explicit methods

An explicit method is stored with all other static methods, its signature is noted beside, and a
flag tells whether it is alone with its reduced signature. What is noted, what is flagged and what
is stored stay in step, whatever else is registered in between and whatever is refused.

* `Table.entries_foldl_group`: values that are gathered under their keys one after the other.
* `Registry.Flagged`: the flags are those of the given reduced signatures.
* `Registry.Noted`: the notes and flags are those of the given methods, each of which is stored.
* `Registry.entries_ambiguousGroups`: the groups, by what is noted.
* **`Registry.explicit_after_requests`**: the explicit methods after any sequence of requests.
-/

namespace FluentGrammar

/-! ## Gathering values by key -/

section Gathering

variable {α : Type}

theorem firstOccurrences_concat [DecidableEq α] (as : List α) (a : α) :
    firstOccurrences (as ++ [a]) =
      if a ∈ as then firstOccurrences as else firstOccurrences as ++ [a] := by
  have key : ∀ seen : List α, newOccurrences seen (as ++ [a]) =
      if a ∈ seen ∨ a ∈ as then newOccurrences seen as else newOccurrences seen as ++ [a] := by
    induction as with
    | nil => intro seen; by_cases ha : a ∈ seen <;> simp [newOccurrences, ha]
    | cons b bs ih =>
      intro seen
      by_cases hb : b ∈ seen
      · simp only [List.cons_append, newOccurrences, if_pos hb, ih, List.mem_cons]
        by_cases hab : a = b
        · simp [hab, hb]
        · simp [hab]
      · simp only [List.cons_append, newOccurrences, if_neg hb, ih, List.mem_cons]
        by_cases hab : a = b
        · simp [hab]
        · by_cases ha : a ∈ seen ∨ a ∈ bs <;> simp [hab, ha]
  simpa [firstOccurrences] using key []

/-- **Gathering.** The keys come in the order of their first values, and under each of them are its
values in their order. -/
theorem Table.entries_foldl_group (key : α → String) (as : List α) :
    (as.foldl (fun t a => t.insert (key a) (((t.get? (key a)).getD []) ++ [a]))
        (∅ : Table (List α))).entries =
      (firstOccurrences (as.map key)).map fun k => (k, as.filter (key · = k)) := by
  induction as using List.reverseRecOn with
  | nil => rfl
  | append_singleton as a ih =>
    rw [List.foldl_append, List.foldl_cons, List.foldl_nil, List.map_append, List.map_singleton,
      firstOccurrences_concat]
    generalize as.foldl (fun t a => t.insert (key a) (((t.get? (key a)).getD []) ++ [a]))
      (∅ : Table (List α)) = t at ih ⊢
    have hkeys : t.keys = firstOccurrences (as.map key) := by
      simp [Table.keys, ih, Function.comp_def]
    by_cases hmem : key a ∈ as.map key
    · have hin : key a ∈ t.keys := hkeys ▸ mem_firstOccurrences.mpr hmem
      have hget : t.get? (key a) = some (as.filter (key · = key a)) := by
        rw [Table.get?_eq_some_iff, ih]
        exact List.mem_map.mpr ⟨key a, mem_firstOccurrences.mpr hmem, rfl⟩
      rw [if_pos hmem, Table.insert, dif_pos (show key a ∈ t.entries.map Prod.fst from hin)]
      change t.entries.map _ = _
      rw [ih, List.map_map]
      refine List.map_congr_left fun k _ => ?_
      by_cases hk : key a = k
      · subst hk
        simp [hget]
      · simp [hk, Ne.symm hk]
    · have hout : key a ∉ t.keys := fun h => hmem (mem_firstOccurrences.mp (hkeys ▸ h))
      have hnone : as.filter (key · = key a) = [] := by
        rw [List.filter_eq_nil_iff]
        exact fun b hb hk => hmem (List.mem_map.mpr ⟨b, hb, by simpa using hk⟩)
      rw [if_neg hmem, Table.entries_insert_of_not_mem hout, Table.get?_eq_none_iff.mpr hout, ih,
        List.map_append, List.map_singleton]
      congr 1
      · refine List.map_congr_left fun k hk => ?_
        have hne : key a ≠ k := fun h => hmem (h ▸ mem_firstOccurrences.mp hk)
        simp [hne]
      · simp [hnone]

end Gathering

namespace Registry

variable {r r' : Registry} {utility : String} {added : List Method} {m : Method}

/-! ## The utility class -/

theorem get?_of_utilityClass? {u : Definition} (hu : r.utilityClass? = some u) :
    r.get? r.utility = some u := by
  rw [get?, List.find?_append]
  rw [utilityClass?] at hu
  simp [hu]

theorem utilityClass?_modify {u : Definition} (hu : r.utilityClass? = some u)
    {f : Definition → Definition} (hf : ∀ d, d.name = r.utility → (f d).name = r.utility) :
    (r.modify r.utility f).utilityClass? = some (f u) := by
  have hname : u.name = r.utility := name_of_get? (get?_of_utilityClass? hu)
  have hmem : r.utility ∈ r.definitions.map Definition.name :=
    List.mem_map.mpr ⟨u, List.mem_of_find?_eq_some hu, hname⟩
  have hchange : (fun d : Definition => decide (d.name = r.utility)) ∘
      (fun d => if d.name = r.utility then f d else d) = fun d => decide (d.name = r.utility) := by
    funext d
    by_cases hd : d.name = r.utility
    · simp [hf d hd, hd]
    · simp [hd]
  unfold utilityClass? at hu
  rw [modify, if_pos hmem, utilityClass?, List.find?_map, hchange, hu, Option.map_some,
    if_pos hname]

theorem anonymous_modify_utility {u : Definition} (hu : r.utilityClass? = some u)
    (f : Definition → Definition) : (r.modify r.utility f).anonymous = r.anonymous := by
  have hname : u.name = r.utility := name_of_get? (get?_of_utilityClass? hu)
  rw [modify, if_pos (List.mem_map.mpr ⟨u, List.mem_of_find?_eq_some hu, hname⟩)]

theorem addUtilityMethod_run {u : Definition} (hu : r.utilityClass? = some u) (m : Method) :
    Resolution.addUtilityMethod m r =
      if (m.reown u.owner).signature ∈ u.methods.keys then
        .error (.duplicateMethod r.utility (m.reown u.owner).signature) r
      else .ok () (r.modify r.utility fun _ =>
        { u with
          methods := u.methods.insert (m.reown u.owner).signature (m.reown u.owner) }) := by
  have hget := get?_of_utilityClass? hu
  change Resolution.addMethod r.utility "the model" m r = _
  rw [Resolution.addMethod_run hget, Definition.addMethod, name_of_get? hget]
  simp only [Table.contains_iff]
  by_cases hmem : (m.reown u.owner).signature ∈ u.methods.keys <;> simp [hmem]

theorem addUtilityMethod_cases {u : Definition} {v : Unit} (hu : r.utilityClass? = some u)
    (h : Resolution.addUtilityMethod m r = .ok v r') :
    (m.reown u.owner).signature ∉ u.methods.keys ∧
      r'.utilityClass? = some { u with
        methods := u.methods.insert (m.reown u.owner).signature (m.reown u.owner) } ∧
      r'.utility = r.utility ∧ r'.explicit = r.explicit ∧ r'.unique = r.unique ∧
      r'.factories = r.factories ∧ r'.conversions = r.conversions ∧
      r'.anonymous = r.anonymous := by
  rw [addUtilityMethod_run hu] at h
  split at h
  · cases h
  · rename_i hnew
    cases h
    have hname : u.name = r.utility := name_of_get? (get?_of_utilityClass? hu)
    exact ⟨hnew, utilityClass?_modify hu fun _ _ => hname, utility_modify .., explicit_modify ..,
      unique_modify .., factories_modify .., conversions_modify .., anonymous_modify_utility hu _⟩

/-! ## Flags -/

/-- The flags are those of the given reduced signatures: each of them has one, which tells whether
it is given once. -/
def Flagged (r : Registry) (reduced : List String) : Prop :=
  ∀ key, r.unique.get? key =
    if key ∈ reduced then some (decide (reduced.count key = 1)) else none

/-- **A flag counts to two.** The first method raises it, the next one lowers it, and there it stays
for all others. -/
theorem Flagged.noteReduced {reduced : List String} (h : r.Flagged reduced) (last : String) :
    (r.noteReduced last).Flagged (reduced ++ [last]) := by
  intro key
  have hlast : r.unique.contains last = true ↔ last ∈ reduced := by
    rw [Table.contains, h last]
    by_cases hmem : last ∈ reduced <;> simp [hmem]
  rw [Registry.noteReduced, List.count_append]
  dsimp only
  simp only [hlast]
  by_cases hkey : key = last
  · subst hkey
    by_cases hmem : key ∈ reduced
    · have hpos := List.count_pos_iff.mpr hmem
      simp [hmem, Table.get?_modify, h key, Nat.pos_iff_ne_zero.mp hpos]
    · simp [hmem, Table.get?_insert, List.count_eq_zero.mpr hmem]
  · by_cases hmem : last ∈ reduced
    · simp [hmem, Table.get?_modify, hkey, Ne.symm hkey, h key]
    · simp [hmem, Table.get?_insert, hkey, Ne.symm hkey, h key]

/-! ## Notes and stored methods -/

/-- What stands for the explicit methods of a registry: their notes, in the given order, the flags of
their reduced signatures, and in the utility class each method under the signature noted for it. -/
structure Noted (utility : String) (added : List Method) (r : Registry) : Prop where
  name : r.utility = utility
  notes : r.explicit = added.map Method.signature
  flags : r.Flagged (added.map Method.reducedSignature)
  owners : ∀ m ∈ added, m.owner = (Definition.namedClass utility).owner
  stored : ∃ u, r.utilityClass? = some u ∧ u.owner = (Definition.namedClass utility).owner ∧
    ∀ m ∈ added, u.methods.get? m.signature = some (m.reown u.owner)

theorem noted_empty (utility : String) : (empty utility).Noted utility [] := by
  refine ⟨rfl, rfl, fun _ => rfl, by simp,
    (Definition.namedClass utility).withWords ["public", "final"], ?_, rfl, by simp⟩
  simp [utilityClass?, empty, Definition.withWords, Definition.namedClass, Definition.make]

theorem signatures_reown {owner : Owner} (ho : m.owner = owner) :
    (m.reown owner).signature = m.signature ∧
      (m.reown owner).reducedSignature = m.reducedSignature := by
  subst ho
  exact ⟨rfl, rfl⟩

namespace Noted

theorem explicitMethods_eq (h : r.Noted utility added) :
    r.explicitMethods = added.map (·.reown (Definition.namedClass utility).owner) := by
  obtain ⟨u, hu, howner, hstored⟩ := h.stored
  rw [explicitMethods, hu, h.notes]
  dsimp only
  rw [List.filterMap_map, ← List.filterMap_eq_map]
  refine List.filterMap_congr fun m hm => ?_
  simpa [howner] using hstored m hm

theorem reduced_explicitMethods (h : r.Noted utility added) :
    r.explicitMethods.map Method.reducedSignature = added.map Method.reducedSignature := by
  rw [h.explicitMethods_eq, List.map_map]
  exact List.map_congr_left fun m hm => (signatures_reown (h.owners m hm)).2

theorem isUnambiguous_iff (h : r.Noted utility added) :
    r.isUnambiguous m = true ↔
      (added.map Method.reducedSignature).count m.reducedSignature = 1 := by
  rw [isUnambiguous, decide_eq_true_iff, h.flags]
  by_cases hmem : m.reducedSignature ∈ added.map Method.reducedSignature
  · rw [if_pos hmem, Option.some_inj, decide_eq_true_iff]
  · rw [if_neg hmem, List.count_eq_zero.mpr hmem]
    simp

theorem congr (h : r.Noted utility added) (hu : r'.utility = r.utility)
    (hd : r'.definitions = r.definitions) (he : r'.explicit = r.explicit)
    (hq : r'.unique = r.unique) : r'.Noted utility added := by
  refine ⟨hu.trans h.name, he.trans h.notes, fun key => hq ▸ h.flags key, h.owners, ?_⟩
  rw [utilityClass?, hu, hd]
  exact h.stored

theorem addUtilityMethod (h : r.Noted utility added) {v : Unit}
    (hadd : Resolution.addUtilityMethod m r = .ok v r') :
    r'.Noted utility added ∧
      (m.owner = (Definition.namedClass utility).owner → ∀ u, r'.utilityClass? = some u →
        u.methods.get? m.signature = some (m.reown u.owner)) := by
  obtain ⟨u, hu, howner, hstored⟩ := h.stored
  obtain ⟨hnew, hu', hname, hnotes, hflags, _⟩ := addUtilityMethod_cases hu hadd
  refine ⟨⟨hname.trans h.name, hnotes.trans h.notes, fun key => hflags ▸ h.flags key, h.owners, _,
    hu', howner, fun m' hm' => ?_⟩, fun ho u' hu'' => ?_⟩
  · have hne : m'.signature ≠ (m.reown u.owner).signature := fun he => by
      rw [← he, ← Table.get?_eq_none_iff, hstored m' hm'] at hnew
      cases hnew
    rw [Table.get?_insert, if_neg hne, hstored m' hm']
    rfl
  · obtain rfl := Option.some.inj (hu'.symm.trans hu'')
    rw [Table.get?_insert, if_pos (signatures_reown (howner ▸ ho)).1.symm]
    rfl

theorem addDefinition (h : r.Noted utility added) {d : Definition} {v : Unit}
    (hadd : Resolution.addDefinition d r = .ok v r') : r'.Noted utility added := by
  obtain ⟨u, hu, hrest⟩ := h.stored
  obtain ⟨-, -, -, rfl⟩ := Resolution.addDefinition_eq_ok_iff.mp hadd
  refine ⟨h.name, h.notes, h.flags, h.owners, u, ?_, hrest⟩
  unfold utilityClass? at hu ⊢
  rw [List.find?_append, hu, Option.some_or]

theorem addExplicit (h : r.Noted utility added) {v : Unit}
    (ho : m.owner = (Definition.namedClass utility).owner)
    (hadd : Resolution.addExplicit m r = .ok v r') : r'.Noted utility (added ++ [m]) := by
  obtain ⟨s, hs, rfl⟩ := Resolution.addExplicit_eq_ok_iff.mp hadd
  obtain ⟨hnoted, hnew⟩ := h.addUtilityMethod hs
  obtain ⟨u, hu, howner, hstored⟩ := hnoted.stored
  refine ⟨hnoted.name, ?_, ?_, ?_, u, hu, howner, ?_⟩
  · change s.explicit ++ [m.signature] = _
    rw [hnoted.notes, List.map_append, List.map_singleton]
  · rw [List.map_append, List.map_singleton]
    exact Flagged.noteReduced hnoted.flags m.reducedSignature
  · simpa [or_imp, forall_and] using ⟨hnoted.owners, ho⟩
  · simpa [or_imp, forall_and] using ⟨hstored, hnew ho u hu⟩

/-- **A request that is granted** adds its explicit method at the end. -/
theorem of_granted (h : r.Noted utility added) {request : Request}
    (ho : ∀ m, request.explicit? = some m → m.owner = (Definition.namedClass utility).owner)
    (hrun : request.run.outcome r = (r', none)) :
    r'.Noted utility (added ++ request.explicit?.toList) := by
  rw [Resolution.outcome_eq_none_iff] at hrun
  cases request with
  | define d => simpa [Request.explicit?] using h.addDefinition hrun
  | method m => simpa [Request.explicit?] using (h.addUtilityMethod hrun).1
  | explicit m => exact h.addExplicit (ho m rfl) hrun

end Noted

/-- A request that is refused changes nothing: the only step that can fail comes before all
changes. -/
theorem eq_of_refused {request : Request} {fault : ModelFault}
    (hrun : request.run.outcome r = (r', some fault)) : r' = r := by
  rw [Resolution.outcome_eq_some_iff] at hrun
  cases request with
  | define d => exact Resolution.eq_of_addDefinition_eq_error hrun
  | method m => exact Resolution.eq_of_addMethod_eq_error hrun
  | explicit m => exact Resolution.eq_of_addExplicit_eq_error hrun

/-- What is noted after any requests are the explicit methods that were granted. -/
theorem noted_after (utility : String) (requests : List Request)
    (ho : ∀ m, .explicit m ∈ requests → m.owner = (Definition.namedClass utility).owner) :
    ((empty utility).after requests).Noted utility
      (((empty utility).granted requests).filterMap Request.explicit?) := by
  induction requests using List.reverseRecOn with
  | nil => exact noted_empty utility
  | append_singleton requests request ih =>
    have hnoted := ih fun m hm => ho m (List.mem_append_left _ hm)
    rw [after_concat, granted_concat, List.filterMap_append]
    rcases hrun : request.run.outcome ((empty utility).after requests) with ⟨s, _ | fault⟩
    · have howner : ∀ m, request.explicit? = some m →
          m.owner = (Definition.namedClass utility).owner := by
        intro m hm
        cases request <;> cases hm
        exact ho m (by simp)
      have hlist : List.filterMap Request.explicit? [request] = request.explicit?.toList := by
        cases request <;> rfl
      simpa [hlist] using hnoted.of_granted howner hrun
    · rw [eq_of_refused hrun]
      simpa using hnoted

/-! ## Groups -/

/-- **The groups** are those of the reduced signatures that are noted more than once, in the order
of their first methods, and each has all methods with its reduced signature. -/
theorem Noted.entries_ambiguousGroups (h : r.Noted utility added) :
    r.ambiguousGroups.entries =
      (firstOccurrences ((added.map Method.reducedSignature).filter fun key =>
        2 ≤ (added.map Method.reducedSignature).count key)).map fun key =>
          (key, r.explicitMethods.filter (·.reducedSignature = key)) := by
  rw [← h.reduced_explicitMethods]
  have hshared : (r.explicitMethods.filter fun m => !r.isUnambiguous m) =
      r.explicitMethods.filter fun m =>
        2 ≤ (r.explicitMethods.map Method.reducedSignature).count m.reducedSignature := by
    refine List.filter_congr fun m hm => ?_
    have hpos : 0 < (r.explicitMethods.map Method.reducedSignature).count m.reducedSignature :=
      List.count_pos_iff.mpr (List.mem_map.mpr ⟨m, hm, rfl⟩)
    have hiff := h.isUnambiguous_iff (m := m)
    rw [← h.reduced_explicitMethods] at hiff
    rw [Bool.eq_iff_iff, Bool.not_eq_true', Bool.eq_false_iff, Ne, hiff, decide_eq_true_iff]
    omega
  unfold ambiguousGroups
  dsimp only
  rw [hshared, Table.entries_foldl_group, List.filter_map]
  refine List.map_congr_left fun key hkey => ?_
  obtain ⟨m, hm, rfl⟩ := List.mem_map.mp (mem_firstOccurrences.mp hkey)
  have hcount := of_decide_eq_true (List.mem_filter.mp hm).2
  rw [List.filter_filter, Prod.mk.injEq]
  refine ⟨rfl, List.filter_congr fun m' _ => ?_⟩
  by_cases hk : m'.reducedSignature = m.reducedSignature
  · simpa [hk] using hcount
  · simp [hk]

theorem length_filter_reduced (ms : List Method) (key : String) :
    (ms.filter (·.reducedSignature = key)).length =
      (ms.map Method.reducedSignature).count key := by
  rw [List.count_eq_countP, List.countP_map, List.countP_eq_length_filter]
  simp [Function.comp_def, BEq.beq]

theorem Noted.existsUnique_group (h : r.Noted utility added) (hm : m ∈ r.explicitMethods)
    (hcount : 2 ≤ (added.map Method.reducedSignature).count m.reducedSignature) :
    ∃! e, e ∈ r.ambiguousGroups.entries ∧ m ∈ e.2 := by
  rw [h.entries_ambiguousGroups]
  refine ⟨(m.reducedSignature, r.explicitMethods.filter (·.reducedSignature = m.reducedSignature)),
    ⟨List.mem_map.mpr ⟨m.reducedSignature, ?_, rfl⟩, List.mem_filter.mpr ⟨hm, by simp⟩⟩, ?_⟩
  · rw [mem_firstOccurrences, List.mem_filter, decide_eq_true_iff]
    exact ⟨List.count_pos_iff.mp (by omega), hcount⟩
  · rintro e ⟨he, hme⟩
    obtain ⟨key, _, rfl⟩ := List.mem_map.mp he
    obtain rfl : m.reducedSignature = key := by simpa using (List.mem_filter.mp hme).2
    rfl

/-! ## Requests to add an explicit method -/

theorem Noted.fault_explicit (h : r.Noted utility added)
    (ho : m.owner = (Definition.namedClass utility).owner) :
    ((Request.explicit m).run.outcome r).2 =
      if r.utilityClass?.any (·.methods.contains m.signature) then
        some (.duplicateMethod utility m.signature)
      else none := by
  obtain ⟨u, hu, howner, _⟩ := h.stored
  have hadd := addUtilityMethod_run hu m
  rw [howner, (signatures_reown ho).1, h.name] at hadd
  simp only [hu, Option.any_some, Table.contains_iff]
  by_cases hmem : m.signature ∈ u.methods.keys
  · rw [if_pos hmem] at hadd ⊢
    exact congrArg Prod.snd (Resolution.outcome_eq_some_iff.mpr
      (Resolution.bind_eq_error_iff.mpr (.inl hadd)))
  · rw [if_neg hmem] at hadd ⊢
    exact congrArg Prod.snd (Resolution.outcome_eq_none_iff.mpr
      (Resolution.addExplicit_eq_ok_iff.mpr ⟨_, hadd, rfl⟩))

/-- **The explicit methods.** Definitions, methods of the utility class and explicit methods are
registered in any order in a registry that starts out with its utility class, and some are refused;
the explicit methods belong to the utility class. Then the explicit methods are those that were not
refused, in their order. Each of their reduced signatures has a flag and nothing else has one; it
tells whether one method only has that signature, and a method is unambiguous exactly if it does.
The others are in groups by their reduced signatures, groups and members in order of registration:
each group has two members or more, and each of the methods is in one group and no other. A further
explicit method is refused exactly if the utility class has its signature, and one that is refused
leaves the registry as it is. -/
theorem explicit_after_requests (utility : String) (requests : List Request)
    (ho : ∀ m, .explicit m ∈ requests → m.owner = (Definition.namedClass utility).owner) :
    let r := (empty utility).after requests
    let added := ((empty utility).granted requests).filterMap Request.explicit?
    let reduced := added.map Method.reducedSignature
    r.explicitMethods = added.map (·.reown (Definition.namedClass utility).owner) ∧
    (∀ m, r.isUnambiguous m = true ↔ reduced.count m.reducedSignature = 1) ∧
    (∀ key, r.unique.get? key =
      if key ∈ reduced then some (decide (reduced.count key = 1)) else none) ∧
    r.ambiguousGroups.entries =
      (firstOccurrences (reduced.filter fun key => 2 ≤ reduced.count key)).map (fun key =>
        (key, r.explicitMethods.filter (·.reducedSignature = key))) ∧
    (∀ e ∈ r.ambiguousGroups.entries, 2 ≤ e.2.length) ∧
    (∀ m ∈ r.explicitMethods, 2 ≤ reduced.count m.reducedSignature →
      ∃! e, e ∈ r.ambiguousGroups.entries ∧ m ∈ e.2) ∧
    (∀ m, m.owner = (Definition.namedClass utility).owner →
      ((Request.explicit m).run.outcome r).2 =
        if r.utilityClass?.any (·.methods.contains m.signature) then
          some (.duplicateMethod utility m.signature)
        else none) ∧
    ∀ m s fault, (Request.explicit m).run.outcome r = (s, some fault) → s = r := by
  intro r added reduced
  have hnoted : r.Noted utility added := noted_after utility requests ho
  refine ⟨hnoted.explicitMethods_eq, fun m => hnoted.isUnambiguous_iff,
    hnoted.flags, hnoted.entries_ambiguousGroups, fun e he => ?_,
    fun m hm hcount => hnoted.existsUnique_group hm hcount, fun m hm => hnoted.fault_explicit hm,
    fun m s fault hrun => eq_of_refused hrun⟩
  rw [hnoted.entries_ambiguousGroups] at he
  obtain ⟨key, hkey, rfl⟩ := List.mem_map.mp he
  have hcount := of_decide_eq_true (List.mem_filter.mp (mem_firstOccurrences.mp hkey)).2
  rwa [length_filter_reduced, hnoted.reduced_explicitMethods]

/-- A method of `Forms` that takes a value of a type and a number. -/
def formsMethod (name type : String) : Method :=
  Method.make (Definition.namedClass "Forms").owner name (.named type)
    [{ type := .named type, name := "a" }, { type := .named "int", name := "n" }]

/-- Requests of all sorts. The third and the fifth are refused. -/
def formsRequests : List Request :=
  [.explicit (formsMethod "plus" "Column"), .method (formsMethod "plus" "Query"),
    .explicit (formsMethod "plus" "Query"), .define (.namedClass "Column"),
    .explicit (formsMethod "plus" "Column"), .explicit (formsMethod "minus" "Term"),
    .explicit (formsMethod "plus" "Term")]

theorem explicit_after_formsRequests :
    (∀ m, .explicit m ∈ formsRequests → m.owner = (Definition.namedClass "Forms").owner) ∧
    ((empty "Forms").after formsRequests).explicitMethods.map Method.signature =
      ["plus(Column,int)", "minus(Term,int)", "plus(Term,int)"] ∧
    ((empty "Forms").after formsRequests).isUnambiguous (formsMethod "minus" "Column") = true ∧
    ((empty "Forms").after formsRequests).ambiguousGroups.keys = ["plus(int)"] := by
  have howner : ∀ m, .explicit m ∈ formsRequests →
      m.owner = (Definition.namedClass "Forms").owner := by
    simp [formsRequests, formsMethod, Method.make]
  have hgranted : ((empty "Forms").granted formsRequests).filterMap Request.explicit? =
      [formsMethod "plus" "Column", formsMethod "minus" "Term", formsMethod "plus" "Term"] := by
    decide +kernel
  obtain ⟨hmethods, hunique, _, hgroups, _⟩ := explicit_after_requests "Forms" formsRequests howner
  rw [hgranted] at hmethods hunique hgroups
  refine ⟨howner, ?_, (hunique _).mpr (by decide +kernel), ?_⟩
  · rw [hmethods]
    decide +kernel
  · rw [Table.keys, hgroups, List.map_map]
    decide +kernel

end Registry

end FluentGrammar
