import Mathlib.Data.List.Forall2
import FluentGrammar.Resolution.Basic

/-!
# Runs that succeed and runs that fail

What is known about a check or a step that ended without a fault. A sequence succeeds exactly if
its parts succeed one after the other, and the same is said of each way in which a step can use the
registry. A sequence that fails has the fault of one of its parts.

* `Except.bind_eq_ok_iff`, `Resolution.bind_eq_ok_iff`: sequences of checks and of steps.
* `Resolution.forM_cons_eq_ok_iff`: one step for each member of a list.
* `Resolution.exists_of_forM_eq_error`: the member at which such steps stop.
* `Resolution.forM_induction`: what every step keeps is kept by all of them.
-/

namespace FluentGrammar

variable {ε α β : Type}

/-! ## Checks -/

theorem Except.bind_eq_ok_iff {x : Except ε α} {f : α → Except ε β} {b : β} :
    (x >>= f) = .ok b ↔ ∃ a, x = .ok a ∧ f a = .ok b := by
  cases x with
  | error e => simp [bind, Except.bind]
  | ok a => simp [bind, Except.bind]

theorem Except.bind_eq_error_iff {x : Except ε α} {f : α → Except ε β} {e : ε} :
    (x >>= f) = .error e ↔ x = .error e ∨ ∃ a, x = .ok a ∧ f a = .error e := by
  cases x with
  | error e' => simp [bind, Except.bind]
  | ok a => simp [bind, Except.bind]

theorem Except.exists_bind_eq_ok {x : Except ε α} {f : α → Except ε β} {a : α} (hx : x = .ok a)
    (h : ∃ b, f a = .ok b) : ∃ b, (x >>= f) = .ok b := by
  subst hx
  exact h

theorem Except.map_eq_ok_iff {x : Except ε α} {f : α → β} {b : β} :
    x.map f = .ok b ↔ ∃ a, x = .ok a ∧ f a = b := by
  cases x with
  | error e => simp [Except.map]
  | ok a => simp [Except.map]

theorem Except.map_eq_error_iff {x : Except ε α} {f : α → β} {e : ε} :
    x.map f = .error e ↔ x = .error e := by
  cases x with
  | error e' => simp [Except.map]
  | ok a => simp [Except.map]

theorem Except.mapError_eq_ok_iff {ε' : Type} {x : Except ε α} {f : ε → ε'} {a : α} :
    x.mapError f = .ok a ↔ x = .ok a := by
  cases x with
  | error e => simp [Except.mapError]
  | ok b => simp [Except.mapError]

theorem Except.pure_eq_ok_iff {a b : α} : (pure a : Except ε α) = .ok b ↔ a = b := by
  simp [pure, Except.pure]

theorem Except.mapM_eq_ok_iff {f : α → Except ε β} {as : List α} {bs : List β} :
    as.mapM f = .ok bs ↔ List.Forall₂ (fun a b => f a = .ok b) as bs := by
  induction as generalizing bs with
  | nil =>
    rw [List.mapM_nil, Except.pure_eq_ok_iff, List.forall₂_nil_left_iff]
    exact eq_comm
  | cons a as ih =>
    rw [List.mapM_cons, Except.bind_eq_ok_iff, List.forall₂_cons_left_iff]
    simp only [Except.bind_eq_ok_iff, Except.pure_eq_ok_iff, ih]
    constructor
    · rintro ⟨b, hb, bs, hbs, rfl⟩
      exact ⟨b, bs, hb, hbs, rfl⟩
    · rintro ⟨b, bs, hb, hbs, rfl⟩
      exact ⟨b, hb, bs, hbs, rfl⟩

theorem Except.exists_of_mapM_eq_error {f : α → Except ε β} {as : List α} {e : ε}
    (h : as.mapM f = .error e) : ∃ a ∈ as, f a = .error e := by
  induction as with
  | nil => cases h
  | cons a as ih =>
    rw [List.mapM_cons] at h
    rcases Except.bind_eq_error_iff.mp h with h | ⟨b, _, h⟩
    · exact ⟨a, List.mem_cons_self, h⟩
    rcases Except.bind_eq_error_iff.mp h with h | ⟨bs, _, h⟩
    · obtain ⟨c, hc, hfault⟩ := ih h
      exact ⟨c, List.mem_cons_of_mem _ hc, hfault⟩
    · cases h

theorem Except.mapM_congr {f g : α → Except ε β} {as : List α} (h : ∀ a ∈ as, f a = g a) :
    as.mapM f = as.mapM g := by
  induction as with
  | nil => rfl
  | cons a as ih =>
    rw [List.mapM_cons, List.mapM_cons, h a List.mem_cons_self,
      ih fun b hb => h b (List.mem_cons_of_mem _ hb)]

theorem Except.mapM_eq_ok_map {f : α → Except ε β} {g : α → β} {as : List α}
    (h : ∀ a ∈ as, f a = .ok (g a)) : as.mapM f = .ok (as.map g) :=
  Except.mapM_eq_ok_iff.mpr (List.forall₂_map_right_iff.mpr (List.forall₂_same.mpr h))

theorem exists_left_of_forall₂ {R : α → β → Prop} {as : List α} {bs : List β}
    (h : List.Forall₂ R as bs) : ∀ b ∈ bs, ∃ a ∈ as, R a b := by
  induction h with
  | nil => simp
  | cons hab _ ih =>
    rintro b (_ | ⟨_, hb⟩)
    · exact ⟨_, List.mem_cons_self, hab⟩
    · obtain ⟨a, ha, hab⟩ := ih b hb
      exact ⟨a, List.mem_cons_of_mem _ ha, hab⟩

theorem exists_right_of_forall₂ {R : α → β → Prop} {as : List α} {bs : List β}
    (h : List.Forall₂ R as bs) : ∀ a ∈ as, ∃ b ∈ bs, R a b :=
  exists_left_of_forall₂ h.flip

theorem forall₂_and_mem_right {R : α → β → Prop} {as : List α} {bs : List β}
    (h : List.Forall₂ R as bs) : List.Forall₂ (fun a b => R a b ∧ b ∈ bs) as bs := by
  have hmem := (List.forall₂_and_left bs as).mpr ⟨fun b hb => hb, h.flip⟩
  exact (hmem.imp fun _ _ hba => ⟨hba.2, hba.1⟩ : List.Forall₂ (flip _) bs as).flip

theorem forall₂_of_common {γ : Type} {R : α → β → Prop} {S : α → γ → Prop} {T : β → γ → Prop}
    {as : List α} {bs : List β} {cs : List γ} (h : ∀ a ∈ as, ∀ b c, R a b → S a c → T b c)
    (hb : List.Forall₂ R as bs) (hc : List.Forall₂ S as cs) : List.Forall₂ T bs cs := by
  induction hb generalizing cs with
  | nil =>
    cases hc
    exact .nil
  | cons hab _ ih =>
    obtain ⟨c, cs, hac, hcs, rfl⟩ := List.forall₂_cons_left_iff.mp hc
    obtain ⟨hhead, htail⟩ := List.forall_mem_cons.mp h
    exact .cons (hhead _ _ hab hac) (ih htail hcs)

theorem mem_flatten_of_forall₂ {R S : α → List β → Prop} {as as' : List α}
    {bs bs' : List (List β)} {x : β} (hsub : as ⊆ as')
    (hsame : ∀ a ∈ as, ∀ b b', R a b → S a b' → b = b') (h : List.Forall₂ R as bs)
    (h' : List.Forall₂ S as' bs') (hx : x ∈ bs.flatten) : x ∈ bs'.flatten := by
  obtain ⟨b, hb, hx⟩ := List.mem_flatten.mp hx
  obtain ⟨a, ha, hab⟩ := exists_left_of_forall₂ h b hb
  obtain ⟨b', hb', hab'⟩ := exists_right_of_forall₂ h' a (hsub ha)
  exact List.mem_flatten.mpr ⟨b', hb', hsame a ha b b' hab hab' ▸ hx⟩

theorem Except.exists_of_mem_mapM {f : α → Except ε β} {as : List α} {bs : List β}
    (h : as.mapM f = .ok bs) : ∀ b ∈ bs, ∃ a ∈ as, f a = .ok b :=
  exists_left_of_forall₂ (Except.mapM_eq_ok_iff.mp h)

theorem Except.exists_of_any {x : Except ε α} {p : α → Bool} (h : x.toOption.any p = true) :
    ∃ a, x = .ok a ∧ p a = true := by
  cases x with
  | error e => cases h
  | ok a => exact ⟨a, rfl, h⟩

/-! ## Steps -/

namespace Resolution

variable {r r' : Registry}

theorem bind_eq_ok_iff {x : Resolution ε α} {f : α → Resolution ε β} {b : β} :
    (x >>= f) r = .ok b r' ↔ ∃ a s, x r = .ok a s ∧ f a s = .ok b r' := by
  change EStateM.bind x f r = _ ↔ _
  unfold EStateM.bind
  cases x r with
  | ok a s =>
    constructor
    · exact fun h => ⟨a, s, rfl, h⟩
    · rintro ⟨_, _, h, hf⟩
      cases h
      exact hf
  | error e s => simp

theorem bind_eq_error_iff {x : Resolution ε α} {f : α → Resolution ε β} {e : ε} :
    (x >>= f) r = .error e r' ↔ x r = .error e r' ∨ ∃ a s, x r = .ok a s ∧ f a s = .error e r' := by
  change EStateM.bind x f r = _ ↔ _
  unfold EStateM.bind
  cases x r with
  | ok a s =>
    constructor
    · exact fun h => .inr ⟨a, s, rfl, h⟩
    · rintro (h | ⟨_, _, h, hf⟩)
      · cases h
      · cases h
        exact hf
  | error e s => simp

theorem pure_eq_ok_iff {a b : α} : (pure a : Resolution ε α) r = .ok b r' ↔ a = b ∧ r = r' := by
  change EStateM.Result.ok a r = .ok b r' ↔ _
  simp

theorem check_eq_ok_iff {x : Except ε α} {a : α} :
    check x r = .ok a r' ↔ x = .ok a ∧ r = r' := by
  unfold check
  cases x with
  | ok b => simp
  | error e => simp

theorem inspect_eq_ok_iff {f : Registry → Except ε α} {a : α} :
    inspect f r = .ok a r' ↔ f r = .ok a ∧ r = r' :=
  check_eq_ok_iff

theorem check_eq_error_iff {x : Except ε α} {e : ε} :
    check x r = .error e r' ↔ x = .error e ∧ r = r' := by
  unfold check
  cases x with
  | ok b => simp
  | error e => simp

theorem inspect_eq_error_iff {f : Registry → Except ε α} {e : ε} :
    inspect f r = .error e r' ↔ f r = .error e ∧ r = r' :=
  check_eq_error_iff

theorem modify_eq_ok_iff {f : Registry → Registry} {u : PUnit} :
    (modify f : Resolution ε PUnit) r = .ok u r' ↔ f r = r' := by
  change EStateM.Result.ok PUnit.unit (f r) = .ok u r' ↔ _
  simp

theorem modify_ne_error {f : Registry → Registry} {e : ε} :
    (modify f : Resolution ε PUnit) r ≠ .error e r' :=
  nofun

theorem get_eq_ok_iff {s : Registry} :
    (get : Resolution ε Registry) r = .ok s r' ↔ r = s ∧ r = r' := by
  change EStateM.Result.ok r r = .ok s r' ↔ _
  simp

theorem located_eq_ok_iff {location : Location} {x : Resolution ModelFault α} {a : α} :
    located location x r = .ok a r' ↔ x r = .ok a r' := by
  unfold located EStateM.adaptExcept
  cases x r with
  | ok b s => simp
  | error e s => simp

theorem located_eq_error_iff {location : Location} {x : Resolution ModelFault α} {e : Fault} :
    located location x r = .error e r' ↔
      ∃ fault, x r = .error fault r' ∧ (Fault.model fault).located location = e := by
  unfold located EStateM.adaptExcept
  cases x r with
  | ok b s => simp
  | error e s => simp [and_comm]

theorem unlocated_eq_ok_iff {x : Resolution ModelFault α} {a : α} :
    unlocated x r = .ok a r' ↔ x r = .ok a r' := by
  unfold unlocated EStateM.adaptExcept
  cases x r with
  | ok b s => simp
  | error e s => simp

/-- A step that ends without a fault in a registry with a given property. -/
def succeeds (x : Resolution ε α) (r : Registry) (p : Registry → Bool) : Bool :=
  match x r with
  | .ok _ s => p s
  | .error _ _ => false

theorem exists_of_succeeds {x : Resolution ε α} {p : Registry → Bool}
    (h : succeeds x r p = true) : ∃ a s, x r = .ok a s ∧ p s = true := by
  unfold succeeds at h
  cases hx : x r with
  | ok a s => exact ⟨a, s, rfl, by simpa [hx] using h⟩
  | error e s => simp [hx] at h

theorem forM_nil_eq_ok_iff {f : α → Resolution ε PUnit} {u : PUnit} :
    ([] : List α).forM f r = .ok u r' ↔ r = r' := by
  change (pure PUnit.unit : Resolution ε PUnit) r = .ok u r' ↔ r = r'
  rw [pure_eq_ok_iff]
  simp

theorem forM_cons_eq_ok_iff {f : α → Resolution ε PUnit} {a : α} {as : List α} {u : PUnit} :
    (a :: as).forM f r = .ok u r' ↔ ∃ s, f a r = .ok u s ∧ as.forM f s = .ok u r' := by
  change (f a >>= fun _ => as.forM f) r = .ok u r' ↔ _
  rw [bind_eq_ok_iff]
  constructor
  · rintro ⟨_, s, hs, h⟩
    exact ⟨s, hs, h⟩
  · rintro ⟨s, hs, h⟩
    exact ⟨u, s, hs, h⟩

theorem forM_append_eq_ok_iff {f : α → Resolution ε PUnit} {as bs : List α} {u : PUnit} :
    (as ++ bs).forM f r = .ok u r' ↔ ∃ s, as.forM f r = .ok u s ∧ bs.forM f s = .ok u r' := by
  induction as generalizing r with
  | nil =>
    constructor
    · exact fun h => ⟨r, forM_nil_eq_ok_iff.mpr rfl, h⟩
    · rintro ⟨s, hs, h⟩
      exact forM_nil_eq_ok_iff.mp hs ▸ h
  | cons a as ih =>
    simp only [List.cons_append, forM_cons_eq_ok_iff, ih]
    constructor
    · rintro ⟨s, hs, t, ht, hr⟩
      exact ⟨t, ⟨s, hs, ht⟩, hr⟩
    · rintro ⟨t, ⟨s, hs, ht⟩, hr⟩
      exact ⟨s, hs, t, ht, hr⟩

theorem forM_append_eq_error {f : α → Resolution ε PUnit} {before : List α} {a : α} {u : PUnit}
    {s : Registry} {fault : ε} (after : List α) (h : before.forM f r = .ok u s)
    (hfault : f a s = .error fault r') : (before ++ a :: after).forM f r = .error fault r' := by
  induction before generalizing r with
  | nil =>
    obtain rfl := forM_nil_eq_ok_iff.mp h
    change EStateM.bind (f a) _ r = _
    unfold EStateM.bind
    rw [hfault]
  | cons b before ih =>
    obtain ⟨_, hstep, h⟩ := forM_cons_eq_ok_iff.mp h
    change EStateM.bind (f b) _ r = _
    unfold EStateM.bind
    rw [hstep]
    exact ih h

theorem exists_of_forM_eq_error {f : α → Resolution ε PUnit} {as : List α} {e : ε}
    (h : as.forM f r = .error e r') : ∃ a ∈ as, ∃ s, f a s = .error e r' := by
  induction as generalizing r with
  | nil => cases h
  | cons a as ih =>
    change (f a >>= fun _ => as.forM f) r = .error e r' at h
    rcases bind_eq_error_iff.mp h with h | ⟨_, s, _, h⟩
    · exact ⟨a, List.mem_cons_self, r, h⟩
    · obtain ⟨b, hb, hfault⟩ := ih h
      exact ⟨b, List.mem_cons_of_mem _ hb, hfault⟩

theorem forM_induction {f : α → Resolution ε PUnit} {as : List α} {u : PUnit}
    (P : Registry → Prop) (step : ∀ a ∈ as, ∀ s t u, P s → f a s = .ok u t → P t) (hr : P r)
    (h : as.forM f r = .ok u r') : P r' := by
  induction as generalizing r with
  | nil => exact forM_nil_eq_ok_iff.mp h ▸ hr
  | cons a as ih =>
    obtain ⟨s, hs, h⟩ := forM_cons_eq_ok_iff.mp h
    exact ih (fun b hb => step b (List.mem_cons_of_mem _ hb))
      (step a List.mem_cons_self _ _ _ hr hs) h

/-- What is kept may depend on the members that have been handled. -/
theorem forM_induction_prefix {f : α → Resolution ε PUnit} {as : List α} {u : PUnit}
    (P : List α → Registry → Prop) (step : ∀ done a rest s t u, as = done ++ a :: rest → P done s →
      f a s = .ok u t → P (done ++ [a]) t) (hr : P [] r) (h : as.forM f r = .ok u r') : P as r' := by
  have key : ∀ rest done s, as = done ++ rest → P done s → rest.forM f s = .ok u r' → P as r' := by
    intro rest
    induction rest with
    | nil =>
      intro done s has hs h
      rw [← forM_nil_eq_ok_iff.mp h, has, List.append_nil]
      exact hs
    | cons a rest ih =>
      intro done s has hs h
      obtain ⟨t, ht, h⟩ := forM_cons_eq_ok_iff.mp h
      exact ih (done ++ [a]) t (by rw [has, List.append_assoc, List.singleton_append])
        (step done a rest s t u has hs ht) h
  exact key as [] r rfl hr h

end Resolution

end FluentGrammar
