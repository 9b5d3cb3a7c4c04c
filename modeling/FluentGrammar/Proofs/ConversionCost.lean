import FluentGrammar.Proofs.ConversionRun
import FluentGrammar.Proofs.PossibleNames

/-!
# The length of an exploration

How many types an exploration takes from its queue, and how often it applies a conversion to the same
end, until the queue is empty or a fault stops it. Every type that joins the queue has a name that was
unseen, so the size of the frontier bounds the whole exploration. The unseen names and those that have
been in the queue are all that a class can gain, so none is passed over. Where names pass through the
hierarchy unchanged, only registered names are gained, and no name is ever lost again: then each
definition is taken from the queue at most once, in addition to what was there at the start, and no
two conversions are applied for the sake of the same name.

* `explorationLog`, `closureLog`: the types taken from the queue, with the targets applied to each.
* `Frontier.sizeAmong`: the part of a frontier that given names account for.
* `explorationLog_spec`: the log of an exploration of a class.
* `Tracked`, `mem_names_closureLog_iff`: the log has the names of all that is gained.
* **`closureLog_bounded`**: bounds for the closure of a class.
* `closureLog_exceeds`: neither shadowed names nor anonymous classes may be left out of account.
-/

namespace FluentGrammar

/-! ## Logs -/

/-- The types that conversions lead to when they are applied to `via` one after the other, up to the
first fault. -/
def appliedTargets (name utility : String) (via : TypeExpr) :
    List Conversion → Registry → List TypeExpr
  | [], _ => []
  | c :: cs, r =>
    (r.require name name >>= fun d => conversionTarget? r d via c).toOption.join.toList ++
      match applyConversion name utility via c r with
      | .ok _ r' => appliedTargets name utility via cs r'
      | .error _ _ => []

/-- The types that an exploration takes from the queue, each with the targets of the conversions that
are applied to it. The log ends where the queue is empty or a fault stops the exploration. -/
def explorationLog (name utility : String) (conversions : List Conversion) (f : Frontier)
    (r : Registry) : List (TypeExpr × List TypeExpr) :=
  match _hq : f.queue with
  | [] => []
  | via :: queue =>
    (via, appliedTargets name utility via conversions r) ::
      match applyConversions name utility via ⟨queue, f.unseen⟩ conversions r with
      | .ok g r' => explorationLog name utility conversions g.1 r'
      | .error _ _ => []
termination_by f.size
decreasing_by
  rw [g.2]
  simp [Frontier.size, _hq]

/-- The log of the closure of a class, which is empty if its ancestors are not known. -/
def closureLog (name utility : String) (conversions : List Conversion) (r : Registry) :
    List (TypeExpr × List TypeExpr) :=
  match r.require name name >>= r.ancestors with
  | .ok ancestors =>
    explorationLog name utility conversions (startFrontier r conversions ancestors) r
  | .error _ => []

/-- The ancestors with an archetype of a definition, as far as they are known. -/
def archetypedAncestors (r : Registry) (d : Definition) : List TypeExpr :=
  ((r.ancestors d).toOption.getD []).filter (isArchetyped r)

section

variable {base r r' : Registry} {name utility : String} {conversions : List Conversion}
  {d : Definition} {types gained : List TypeExpr} {via : TypeExpr} {c : Conversion} {f : Frontier}

theorem explorationLog_nil {unseen : List String} :
    explorationLog name utility conversions ⟨[], unseen⟩ r = [] := by
  rw [explorationLog]

theorem explorationLog_cons {queue : List TypeExpr} {unseen : List String} :
    explorationLog name utility conversions ⟨via :: queue, unseen⟩ r =
      (via, appliedTargets name utility via conversions r) ::
        match applyConversions name utility via ⟨queue, unseen⟩ conversions r with
        | .ok g r' => explorationLog name utility conversions g.1 r'
        | .error _ _ => [] := by
  rw [explorationLog]
  split
  · rename_i hq
    cases hq
  · rename_i hq
    cases hq
    cases applyConversions name utility via ⟨queue, unseen⟩ conversions r <;> rfl

/-- An exploration never takes more types from the queue than there are in the frontier. -/
theorem length_explorationLog_le (f : Frontier) (r : Registry) :
    (explorationLog name utility conversions f r).length ≤ f.size := by
  induction hsize : f.size using Nat.strong_induction_on generalizing f r with
  | _ size ih =>
    obtain ⟨queue, unseen⟩ := f
    cases queue with
    | nil => simp [explorationLog_nil]
    | cons via queue =>
      have hlt : (⟨queue, unseen⟩ : Frontier).size < size := by
        rw [← hsize]
        simp [Frontier.size]
      rw [explorationLog_cons, List.length_cons]
      cases applyConversions name utility via ⟨queue, unseen⟩ conversions r with
      | error e s => exact Nat.succ_le_of_lt (Nat.zero_lt_of_lt hlt)
      | ok g s =>
        have hg : g.1.size < size := g.2.trans_lt hlt
        exact Nat.succ_le_of_lt ((ih g.1.size hg g.1 s rfl).trans_lt hg)

/-! ## Registered names -/

/-- The number of types in the queue and of given names that are still unseen. -/
def Frontier.sizeAmong (names : List String) (f : Frontier) : Nat :=
  f.queue.length + (f.unseen.filter (· ∈ names)).length

theorem Frontier.sizeAmong_push {names : List String} {t : TypeExpr} (h : t.name ∈ names) :
    (f.push t).sizeAmong names = f.sizeAmong names := by
  unfold push
  split
  · rename_i hm
    have hperm := (List.perm_cons_erase hm).filter (· ∈ names)
    have hlength := hperm.length_eq
    rw [List.filter_cons_of_pos (by simpa using h), List.length_cons] at hlength
    simp only [sizeAmong, List.length_append, List.length_singleton]
    omega
  · rfl

theorem Frontier.sizeAmong_pushAll {names : List String} {ts : List TypeExpr}
    (h : ∀ n ∈ ts.map TypeExpr.name, n ∈ names) :
    (f.pushAll ts).sizeAmong names = f.sizeAmong names := by
  induction ts generalizing f with
  | nil => rfl
  | cons t ts ih =>
    obtain ⟨ht, hts⟩ := List.forall_mem_cons.mp h
    exact (ih hts).trans (sizeAmong_push ht)

/-- A frontier that has seen all its types accounts for no more than what is in the queue and all
registered names. -/
theorem sizeAmong_startFrontier_le (before : List TypeExpr) :
    (startFrontier r conversions before).sizeAmong r.names ≤
      (before.filter (isArchetyped r)).length + r.names.length := by
  refine Nat.add_le_add_left (List.Subperm.length_le (List.Nodup.subperm ?_ fun n hn => ?_)) _
  · exact ((nodup_newOccurrences _ _).filter _).filter _
  · simpa using (List.mem_filter.mp hn).2

/-! ## One type -/

theorem applyConversion_names (hb : base.Unshadowed) (hr : ClassAt base name r d types)
    (h : applyConversion name utility via c r = .ok gained r') :
    ∃ d' types', ClassAt base name r' d' types' ∧ (∀ n ∈ gained.map TypeExpr.name, n ∈ base.names) ∧
      (∀ n ∈ types.map TypeExpr.name, n ∈ types'.map TypeExpr.name) ∧
      ∀ target, conversionTarget? r d via c = .ok (some target) →
        target.name ∈ types'.map TypeExpr.name := by
  rcases applyConversion_cases hr h with
    ⟨rfl, rfl, hskip⟩ | ⟨s, target, hs, htarget, hself, hnew, hgain⟩
  · refine ⟨d, types, hr, by simp, fun n hn => hn, fun target ht => ?_⟩
    rcases conversionTarget?_cases hr.ancestors ht with
      ⟨hnone, _⟩ | ⟨s, target', he, hs, htarget, hself, hnew⟩
    · cases hnone
    · obtain ⟨target'', htarget', hold⟩ := hskip s hs
      cases htarget.symm.trans htarget'
      exact absurd hold (not_or.mpr ⟨hr.name_eq ▸ hself, hnew⟩)
  · obtain ⟨d', types', hr', hnames, hgained, _⟩ := gainInterface_spec hb hr hnew hgain
    refine ⟨d', types', hr', fun n hn => hr'.mem_base_names hb ((hgained n).mp hn).1,
      fun n hn => (hnames n).mpr (.inl hn), fun target' ht => (hnames _).mpr (.inr (.inl ?_))⟩
    rcases conversionTarget?_cases hr.ancestors ht with
      ⟨hnone, _⟩ | ⟨s', target'', he, hs', htarget', _⟩
    · cases hnone
    · cases he
      cases hs.symm.trans hs'
      cases htarget.symm.trans htarget'
      rfl

/-- The head of a log: a target is applied only if its name is new. -/
theorem appliedTargets_cons (hr : ClassAt base name r d types) (utility : String) (via : TypeExpr)
    (c : Conversion) (cs : List Conversion) :
    ∃ targets : List TypeExpr, targets.length ≤ 1 ∧
      (∀ t ∈ targets, conversionTarget? r d via c = .ok (some t) ∧
        t.name ∉ types.map TypeExpr.name) ∧
      appliedTargets name utility via (c :: cs) r = targets ++
        match applyConversion name utility via c r with
        | .ok _ r' => appliedTargets name utility via cs r'
        | .error _ _ => [] := by
  have hrequire : (r.require name name >>= fun d => conversionTarget? r d via c) =
      conversionTarget? r d via c := by
    rw [Registry.require_eq_ok_iff.mpr hr.found]
    rfl
  refine ⟨(conversionTarget? r d via c).toOption.join.toList, Option.length_toList_le,
    fun t ht => ?_, by rw [appliedTargets, hrequire]⟩
  cases htarget : conversionTarget? r d via c with
  | error e =>
    rw [htarget] at ht
    cases ht
  | ok target? =>
    rw [htarget] at ht
    obtain rfl : target? = some t := Option.mem_toList.mp ht
    refine ⟨rfl, ?_⟩
    rcases conversionTarget?_cases hr.ancestors htarget with ⟨hnone, _⟩ | ⟨_, _, he, _, _, _, hnew⟩
    · cases hnone
    · cases he
      exact hnew

theorem appliedTargets_fresh (hb : base.Unshadowed) (hr : ClassAt base name r d types)
    (utility : String) (via : TypeExpr) (cs : List Conversion) :
    ((appliedTargets name utility via cs r).map TypeExpr.name).Nodup ∧
      ∀ n ∈ (appliedTargets name utility via cs r).map TypeExpr.name,
        n ∉ types.map TypeExpr.name := by
  induction cs generalizing r d types with
  | nil => simp [appliedTargets]
  | cons c cs ih =>
    obtain ⟨targets, hone, hnew, heq⟩ := appliedTargets_cons hr utility via c cs
    have hnodup : (targets.map TypeExpr.name).Nodup := by
      rcases targets with _ | ⟨t, _ | ⟨u, us⟩⟩
      · simp
      · simp
      · simp at hone
    have hhead : ∀ n ∈ targets.map TypeExpr.name, n ∉ types.map TypeExpr.name := by
      intro n hn
      obtain ⟨t, ht, rfl⟩ := List.mem_map.mp hn
      exact (hnew t ht).2
    rw [heq]
    cases hstep : applyConversion name utility via c r with
    | error e s => simpa using ⟨hnodup, by simpa using hhead⟩
    | ok gained s =>
      obtain ⟨d', types', hr', _, hkeep, htarget⟩ := applyConversion_names hb hr hstep
      obtain ⟨hrest, hfresh⟩ := ih hr'
      rw [List.map_append]
      refine ⟨List.nodup_append.mpr ⟨hnodup, hrest, fun n hn m hm he => ?_⟩, fun n hn => ?_⟩
      · obtain ⟨t, ht, rfl⟩ := List.mem_map.mp hn
        exact hfresh m hm (he ▸ htarget t (hnew t ht).1)
      · rcases List.mem_append.mp hn with hn | hn
        · exact hhead n hn
        · exact fun hm => hfresh n hn (hkeep n hm)

/-- All conversions together: the frontier accounts for as much as before, and the class keeps its
names and has those of the targets. -/
theorem applyConversions_names (hb : base.Unshadowed) {cs : List Conversion}
    (hr : ClassAt base name r d types) {g : { g : Frontier // g.size = f.size }}
    (h : applyConversions name utility via f cs r = .ok g r') :
    g.1.sizeAmong base.names = f.sizeAmong base.names ∧ ∃ d' types',
      ClassAt base name r' d' types' ∧
      (∀ n ∈ types.map TypeExpr.name, n ∈ types'.map TypeExpr.name) ∧
      ∀ n ∈ (appliedTargets name utility via cs r).map TypeExpr.name,
        n ∈ types'.map TypeExpr.name := by
  induction cs generalizing r d types f with
  | nil =>
    obtain ⟨hg, rfl⟩ := applyConversions_nil_eq_ok h
    exact ⟨by rw [hg], d, types, hr, fun n hn => hn, by simp [appliedTargets]⟩
  | cons c cs ih =>
    obtain ⟨gained, r₁, g', hstep, hrest, hg⟩ := applyConversions_cons_eq_ok h
    obtain ⟨d₁, types₁, hr₁, hgained, hkeep₁, htarget₁⟩ := applyConversion_names hb hr hstep
    obtain ⟨hsize, d₂, types₂, hr₂, hkeep₂, htarget₂⟩ := ih hr₁ hrest
    obtain ⟨targets, _, hnew, heq⟩ := appliedTargets_cons hr utility via c cs
    rw [hg]
    refine ⟨hsize.trans (Frontier.sizeAmong_pushAll hgained), d₂, types₂, hr₂,
      fun n hn => hkeep₂ n (hkeep₁ n hn), fun n hn => ?_⟩
    rw [heq, hstep, List.map_append] at hn
    rcases List.mem_append.mp hn with hn | hn
    · obtain ⟨t, ht, rfl⟩ := List.mem_map.mp hn
      exact hkeep₂ _ (htarget₁ t (hnew t ht).1)
    · exact htarget₂ n hn

/-! ## The whole exploration -/

/-- **The log of an exploration of a class** is no longer than what the frontier accounts for among
the registered names, and its targets have different names, none of which the class had. -/
theorem explorationLog_spec (hb : base.Unshadowed) (hr : ClassAt base name r d types) :
    (explorationLog name utility conversions f r).length ≤ f.sizeAmong base.names ∧
      (((explorationLog name utility conversions f r).flatMap Prod.snd).map TypeExpr.name).Nodup ∧
      ∀ n ∈ ((explorationLog name utility conversions f r).flatMap Prod.snd).map TypeExpr.name,
        n ∉ types.map TypeExpr.name := by
  induction hsize : f.size using Nat.strong_induction_on generalizing f r d types with
  | _ size ih =>
    obtain ⟨queue, unseen⟩ := f
    cases queue with
    | nil => simp [explorationLog_nil]
    | cons via queue =>
      have hlt : (⟨queue, unseen⟩ : Frontier).size < size := by
        rw [← hsize]
        simp [Frontier.size]
      have hmore : (⟨via :: queue, unseen⟩ : Frontier).sizeAmong base.names =
          (⟨queue, unseen⟩ : Frontier).sizeAmong base.names + 1 := by
        simp only [Frontier.sizeAmong, List.length_cons]
        omega
      obtain ⟨hnodup, hfresh⟩ := appliedTargets_fresh hb hr utility via conversions
      rw [explorationLog_cons]
      cases hstep : applyConversions name utility via ⟨queue, unseen⟩ conversions r with
      | error e s => simpa [hmore] using ⟨hnodup, by simpa using hfresh⟩
      | ok g s =>
        obtain ⟨hsame, d', types', hr', hkeep, htargets⟩ := applyConversions_names hb hr hstep
        obtain ⟨hlength, hrest, hlater⟩ := ih g.1.size (g.2.trans_lt hlt) hr' rfl
        rw [List.flatMap_cons, List.map_append, List.length_cons, hmore]
        refine ⟨Nat.succ_le_succ (hsame ▸ hlength), List.nodup_append.mpr ⟨hnodup, hrest, ?_⟩, ?_⟩
        · exact fun n hn m hm he => hlater m hm (he ▸ htargets n hn)
        · intro n hn
          rcases List.mem_append.mp hn with hn | hn
          · exact hfresh n hn
          · exact fun hm => hlater n hn (hkeep n hm)

/-! ## The closure of a class -/

theorem closureLog_eq (hd : r.get? name = some d) :
    closureLog name utility conversions r = match r.ancestors d with
      | .ok before =>
        explorationLog name utility conversions (startFrontier r conversions before) r
      | .error _ => [] := by
  have hrequire : (r.require name name >>= r.ancestors) = r.ancestors d := by
    rw [Registry.require_eq_ok_iff.mpr hd]
    rfl
  rw [closureLog, hrequire]

theorem archetypedAncestors_eq {before : List TypeExpr} (ht : r.ancestors d = .ok before) :
    archetypedAncestors r d = before.filter (isArchetyped r) := by
  rw [archetypedAncestors, ht]
  rfl

theorem length_closureLog_le (hd : r.get? name = some d) :
    (closureLog name utility conversions r).length ≤
      (archetypedAncestors r d).length + (possibleNames r conversions).length := by
  rw [closureLog_eq hd]
  cases ht : r.ancestors d with
  | error e => simp
  | ok before =>
    rw [archetypedAncestors_eq ht]
    exact (length_explorationLog_le _ r).trans
      (Nat.add_le_add_left (List.length_filter_le _ _) _)

theorem closureLog_spec (hr : r.Unshadowed) (hd : r.get? name = some d)
    (hc : d.isNamedClass = true) :
    (closureLog name utility conversions r).length ≤
        (archetypedAncestors r d).length + (r.definitions ++ r.anonymous).length ∧
      (((closureLog name utility conversions r).flatMap Prod.snd).map TypeExpr.name).Nodup := by
  rw [closureLog_eq hd]
  cases ht : r.ancestors d with
  | error e => simp
  | ok before =>
    obtain ⟨hlength, hnodup, _⟩ := explorationLog_spec hr ⟨.refl name r, hd, hc, ht⟩
    refine ⟨(hlength.trans (sizeAmong_startFrontier_le before)).trans ?_, hnodup⟩
    rw [archetypedAncestors_eq ht, Registry.names, List.length_map]

/-! ## Nothing is missed -/

/-- The name was taken from the queue, or a type in the queue has it. -/
def Frontier.Reached (taken : List String) (f : Frontier) (n : String) : Prop :=
  n ∈ taken ∨ n ∈ f.queue.map TypeExpr.name

/-- Every name of the set is unseen or reached. -/
def Frontier.Covers (S : Set String) (taken : List String) (f : Frontier) : Prop :=
  ∀ n ∈ S, n ∈ f.unseen ∨ f.Reached taken n

section Coverage

variable {S : Set String} {taken : List String}

theorem Frontier.Covers.push (h : f.Covers S taken) {t : TypeExpr} (ht : t.name ∈ S) :
    (f.push t).Covers S taken ∧
      ∀ n, (f.push t).Reached taken n ↔ f.Reached taken n ∨ n = t.name := by
  unfold Frontier.push
  split
  · have hreached : ∀ n, Reached taken ⟨f.queue ++ [t], f.unseen.erase t.name⟩ n ↔
        f.Reached taken n ∨ n = t.name := fun n => by simp [Reached, or_assoc]
    refine ⟨fun n hn => ?_, hreached⟩
    rw [hreached]
    by_cases he : n = t.name
    · exact .inr (.inr he)
    · exact (h n hn).imp (List.mem_erase_of_ne he).mpr .inl
  · rename_i hseen
    exact ⟨h, fun n => ⟨.inl, fun hn => hn.elim id fun he => he ▸ (h _ ht).resolve_left hseen⟩⟩

theorem Frontier.Covers.pushAll (h : f.Covers S taken) {ts : List TypeExpr}
    (ht : ∀ t ∈ ts, t.Among S) :
    (f.pushAll ts).Covers S taken ∧
      ∀ n, (f.pushAll ts).Reached taken n ↔ f.Reached taken n ∨ n ∈ ts.map TypeExpr.name := by
  induction ts generalizing f with
  | nil => exact ⟨h, fun n => by simp [Frontier.pushAll]⟩
  | cons t ts ih =>
    obtain ⟨ht, hts⟩ := List.forall_mem_cons.mp ht
    obtain ⟨hpush, hreached⟩ := h.push ht.name
    obtain ⟨hcovers, hall⟩ := ih hpush hts
    refine ⟨hcovers, fun n => (hall n).trans ?_⟩
    rw [hreached, List.map_cons, List.mem_cons, or_assoc]

/-- What holds while a class is explored that had paths to `old` names at first, while the types of
the names `starts` were in the queue: just these names and those with a path are reached. -/
structure Tracked (S : Set String) (old starts taken : List String) (f : Frontier)
    (d : Definition) : Prop where
  parents : ∀ t ∈ d.supertypes, t.Among S
  queue : ∀ t ∈ f.queue, t.Among S
  covers : f.Covers S taken
  reached : ∀ n, f.Reached taken n ∨ n ∈ old ↔ n ∈ d.paths.keys ∨ n ∈ starts

variable {old starts : List String}

theorem Tracked.take {queue : List TypeExpr} {unseen : List String}
    (h : Tracked S old starts taken ⟨via :: queue, unseen⟩ d) :
    Tracked S old starts (taken ++ [via.name]) ⟨queue, unseen⟩ d := by
  have hsame : ∀ n, Frontier.Reached (taken ++ [via.name]) ⟨queue, unseen⟩ n ↔
      Frontier.Reached taken ⟨via :: queue, unseen⟩ n := fun n => by
    simp [Frontier.Reached, or_assoc]
  refine ⟨h.parents, (List.forall_mem_cons.mp h.queue).2, fun n hn => ?_, fun n => ?_⟩
  · rw [hsame]
    exact h.covers n hn
  · rw [hsame]
    exact h.reached n

theorem Tracked.gain (h : Tracked S old starts taken f d) {d' : Definition}
    (hgained : ∀ t ∈ gained, t.Among S) (hparents : ∀ t ∈ d'.supertypes, t.Among S)
    (hpaths : ∀ n, n ∈ d'.paths.keys ↔ n ∈ d.paths.keys ∨ n ∈ gained.map TypeExpr.name) :
    Tracked S old starts taken (f.pushAll gained) d' := by
  obtain ⟨hcovers, hreached⟩ := h.covers.pushAll hgained
  refine ⟨hparents, fun t ht => ?_, hcovers, fun n => ?_⟩
  · exact (Frontier.mem_queue_pushAll ht).elim (h.queue t) (hgained t)
  · rw [hreached, hpaths, or_right_comm, h.reached, or_right_comm]

theorem applyConversions_tracked (hb : base.Among S) (htop : TypeExpr.topName ∈ S)
    {cs : List Conversion} (hcs : ∀ c ∈ cs, c.Among S) (hr : ClassAt base name r d types)
    (hvia : via.Among S) (h : Tracked S old starts taken f d)
    {g : { g : Frontier // g.size = f.size }}
    (hrun : applyConversions name utility via f cs r = .ok g r') :
    ∃ d' types', ClassAt base name r' d' types' ∧ Tracked S old starts taken g.1 d' := by
  induction cs generalizing r d types f with
  | nil =>
    obtain ⟨hg, rfl⟩ := applyConversions_nil_eq_ok hrun
    rw [hg]
    exact ⟨d, types, hr, h⟩
  | cons c cs ih =>
    obtain ⟨gained, r₁, g', hstep, hrest, hg⟩ := applyConversions_cons_eq_ok hrun
    obtain ⟨hc, hcs⟩ := List.forall_mem_cons.mp hcs
    obtain ⟨hgained, d₁, types₁, hr₁, hparents, hpaths⟩ :=
      applyConversion_among hb htop hc hr h.parents hvia hstep
    rw [hg]
    exact ih hcs hr₁ (h.gain hgained hparents hpaths) hrest

/-- At the end of an exploration everything that was reached has been taken from the queue. -/
theorem explore_tracked (hb : base.Among S) (htop : TypeExpr.topName ∈ S)
    (hcs : ∀ c ∈ conversions, c.Among S) (hr : ClassAt base name r d types)
    (h : Tracked S old starts taken f d) {u : Unit}
    (hrun : explore name utility conversions f r = .ok u r') :
    ∃ d' types' unseen, ClassAt base name r' d' types' ∧
      Tracked S old starts
        (taken ++ (explorationLog name utility conversions f r).map (·.1.name)) ⟨[], unseen⟩ d' := by
  induction hsize : f.size using Nat.strong_induction_on generalizing f r d types taken with
  | _ size ih =>
    obtain ⟨queue, unseen⟩ := f
    cases queue with
    | nil =>
      obtain rfl := explore_nil_eq_ok hrun
      rw [explorationLog_nil, List.map_nil, List.append_nil]
      exact ⟨d, types, unseen, hr, h⟩
    | cons via queue =>
      obtain ⟨g, r₁, hstep, hrest⟩ := explore_cons_eq_ok hrun
      obtain ⟨d₁, types₁, hr₁, h₁⟩ := applyConversions_tracked hb htop hcs hr
        (h.queue via List.mem_cons_self) h.take hstep
      have hlt : g.1.size < size := by
        rw [g.2, ← hsize]
        simp [Frontier.size]
      rw [explorationLog_cons, hstep, List.map_cons, List.append_cons]
      exact ih g.1.size hlt hr₁ h₁ hrest rfl

theorem tracked_start (hd : r.get? name = some d) (ht : r.ancestors d = .ok types) :
    Tracked {n | n ∈ possibleNames r conversions} d.paths.keys
      ((types.filter (isArchetyped r)).map TypeExpr.name) [] (startFrontier r conversions types)
      d := by
  have hb := r.among_possibleNames conversions
  refine ⟨hb name d hd, fun t hm => ?_, fun n hn => ?_, fun n => ?_⟩
  · exact hb.ancestorsVia (topName_mem_possibleNames r conversions) ht (hb name d hd) t
      (List.mem_of_mem_filter hm)
  · by_cases hq : n ∈ (types.filter (isArchetyped r)).map TypeExpr.name
    · exact .inr (.inr hq)
    · exact .inl (List.mem_filter.mpr ⟨hn, decide_eq_true hq⟩)
  · simp [Frontier.Reached, startFrontier, or_comm]

end Coverage

/-- **No name is missed.** The closure of a class takes from its queue the names of the ancestors
with an archetype that the class had and all those that it records paths to. -/
theorem mem_names_closureLog_iff (hd : r.get? name = some d) (hc : d.isNamedClass = true)
    (h : closeClass name utility conversions r = .ok () r') :
    ∃ d', r'.get? name = some d' ∧ ∀ n,
      n ∈ (closureLog name utility conversions r).map (·.1.name) ∨ n ∈ d.paths.keys ↔
        n ∈ d'.paths.keys ∨ n ∈ (archetypedAncestors r d).map TypeExpr.name := by
  obtain ⟨e, before, he, ht, h⟩ := closeClass_eq_ok_iff.mp h
  cases hd.symm.trans he
  obtain ⟨d', types', unseen, hclass, htracked⟩ :=
    explore_tracked (r.among_possibleNames conversions) (topName_mem_possibleNames r conversions)
      (fun _ hm => Conversion.among_possibleNames hm) ⟨.refl name r, hd, hc, ht⟩
      (tracked_start hd ht) h
  refine ⟨d', hclass.found, fun n => ?_⟩
  rw [closureLog_eq hd, ht, archetypedAncestors_eq ht]
  simpa [Frontier.Reached] using htracked.reached n

/-- **The closure of a class takes few types from its queue.** There are at most as many as the class
had ancestors with an archetype and names occur in the hierarchy and in the conversions, with those
of the wildcards that they capture. No name is passed over for that: all names that the class gets
paths to are taken. In a registry in which no definition inherits from a type of the name of one of
its own type parameters, each definition adds at most one to the ancestors with an archetype, and no
two of the conversions that are applied have targets of the same name. -/
theorem closureLog_bounded (utility : String) (conversions : List Conversion)
    (hd : r.get? name = some d) (hc : d.isNamedClass = true) :
    (closureLog name utility conversions r).length ≤
        (archetypedAncestors r d).length + (possibleNames r conversions).length ∧
      (∀ r', closeClass name utility conversions r = .ok () r' → ∃ d', r'.get? name = some d' ∧
        ∀ n, n ∈ (closureLog name utility conversions r).map (·.1.name) ∨ n ∈ d.paths.keys ↔
          n ∈ d'.paths.keys ∨ n ∈ (archetypedAncestors r d).map TypeExpr.name) ∧
      (r.Unshadowed →
        (closureLog name utility conversions r).length ≤
            (archetypedAncestors r d).length + (r.definitions ++ r.anonymous).length ∧
          (((closureLog name utility conversions r).flatMap Prod.snd).map TypeExpr.name).Nodup) :=
  ⟨length_closureLog_le hd, fun _ h => mem_names_closureLog_iff hd hc h,
    fun hr => closureLog_spec hr hd hc⟩

end

/-- In the chain from `A` by `B<A>` to `D<A>` four types are taken from the queue, which are `A` and
those with a path, and both conversions are applied, each once. -/
theorem closureLog_bounded_chain :
    chainModel.Unshadowed ∧ ∃ d r' d', chainModel.get? "C" = some d ∧ d.isNamedClass = true ∧
      closeClass "C" "Forms" chainConversions chainModel = .ok () r' ∧ r'.get? "C" = some d' ∧
      (closureLog "C" "Forms" chainConversions chainModel).map (·.1.name) = ["A", "B", "K", "D"] ∧
      (∀ n, n ∈ ["A", "B", "K", "D"] ↔ n ∈ d'.paths.keys ∨ n = "A") ∧
      ((closureLog "C" "Forms" chainConversions chainModel).flatMap Prod.snd).map TypeExpr.name =
        ["B", "D"] ∧
      (closureLog "C" "Forms" chainConversions chainModel).length ≤
        (archetypedAncestors chainModel d).length +
          (chainModel.definitions ++ chainModel.anonymous).length ∧
      (((closureLog "C" "Forms" chainConversions chainModel).flatMap Prod.snd).map
        TypeExpr.name).Nodup := by
  have hr : chainModel.Unshadowed := by decide +kernel
  have hd : chainModel.get? "C" =
      some (Definition.make "C" (.namedClass none [.named "A"] ∅)) := by decide +kernel
  obtain ⟨_, r', hrun, -⟩ := Resolution.exists_of_succeeds
    (x := closeClass "C" "Forms" chainConversions) (p := fun _ => True)
    (show Resolution.succeeds _ chainModel _ = true by decide +kernel)
  have hlog : (closureLog "C" "Forms" chainConversions chainModel).map (·.1.name) =
      ["A", "B", "K", "D"] := by decide +kernel
  have hstart : (archetypedAncestors chainModel
      (.make "C" (.namedClass none [.named "A"] ∅))).map TypeExpr.name = ["A"] := by decide +kernel
  obtain ⟨-, hall, hbounds⟩ := closureLog_bounded "Forms" chainConversions hd (by decide)
  obtain ⟨d', hd', hnames⟩ := hall r' hrun
  rw [hlog, hstart] at hnames
  refine ⟨hr, _, r', d', hd, by decide, hrun, hd', hlog, fun n => ?_, by decide +kernel,
    hbounds hr⟩
  simpa [Definition.paths, Definition.make] using hnames n

/-- The interfaces `J` and `K` inherit from each of their own parameters, which are interfaces as
well. Through either of them a class gets three names that are not registered. -/
def crowdedModel : Registry :=
  let parents := ["T", "U", "V"]
  closureModel ((("A" :: parents).map fun name => (name, [], [])) ++
    [("J", parents, parents.map .named), ("K", parents, parents.map .named)]) [.named "A"]

@[inherit_doc crowdedModel]
def crowdedConversions : List Conversion :=
  ["J", "K"].map fun name => conversionOf [] (.named "A")
    (.generic name (["1", "2", "3"].map fun number => .plain (.named (name ++ number))))

/-- From `A` conversions lead to three anonymous classes. -/
def anonymousModel : Registry :=
  { closureModel [("A", [], [])] [.named "A"] with
    anonymous := ["1", "2", "3"].map fun name => .anonymousClass name (.named "A") }

@[inherit_doc anonymousModel]
def anonymousConversions : List Conversion :=
  ["1", "2", "3"].map fun name => conversionOf [] (.named "A") (.named name)

/-- **Shadowed names and anonymous classes count.** Where names are shadowed, more types are taken
from the queue than there are definitions, and an interface that was lost is gained again. Anonymous
classes can be gained as well, so that the other definitions alone are no bound. -/
theorem closureLog_exceeds :
    (∃ d, crowdedModel.get? "C" = some d ∧ d.isNamedClass = true ∧
      (archetypedAncestors crowdedModel d).length +
          (crowdedModel.definitions ++ crowdedModel.anonymous).length <
        (closureLog "C" "Forms" crowdedConversions crowdedModel).length) ∧
    (∃ d, (shadowedModel [.named "A"]).get? "C" = some d ∧ d.isNamedClass = true ∧
      ((closureLog "C" "Forms" [conversionOf [] (.named "A") (.named "T"),
          conversionOf [] (.named "A") (.generic "J" [.plain (.named "Foo")]),
          conversionOf ["X"] (.generic "J" [.plain (.named "X")]) (.named "T")]
        (shadowedModel [.named "A"])).flatMap Prod.snd).map TypeExpr.name = ["T", "J", "T"]) ∧
    ∃ d, anonymousModel.Unshadowed ∧ anonymousModel.get? "C" = some d ∧ d.isNamedClass = true ∧
      (archetypedAncestors anonymousModel d).length + anonymousModel.definitions.length <
        (closureLog "C" "Forms" anonymousConversions anonymousModel).length := by
  refine ⟨⟨.make "C" (.namedClass none [.named "A"] ∅), ?_, ?_, ?_⟩,
    ⟨.make "C" (.namedClass none [.named "A"] ∅), ?_, ?_, ?_⟩,
    ⟨.make "C" (.namedClass none [.named "A"] ∅), ?_, ?_, ?_, ?_⟩⟩
  all_goals decide +kernel

end FluentGrammar
