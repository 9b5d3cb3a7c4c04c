import FluentGrammar.Proofs.Run

/-!
# Steps that run alike

Two steps of resolution are compared from registries with a given property. They run alike if they
have the same outcome, be it a fault or a success, and then something holds of the answer and of the
registry afterwards. Compared with itself, a step leads from one property to the other. What is done
one after the other, or again and again, runs alike if its parts do.

* `Alike`: the comparison.
* `Preserves`: a step compared with itself, for a property that it keeps.
* `Alike.bind`, `Alike.forM`: steps one after the other.
* `Alike.inspect`: two checks that agree on the registries in question.
-/

namespace FluentGrammar

variable {ε α β : Type}

/-- From registries with `P` the two steps run alike, with `Q` for the answer and the registry
afterwards if they succeed. -/
def Alike (P : Registry → Prop) (x y : Resolution ε α) (Q : α → Registry → Prop) : Prop :=
  ∀ r, P r → x r = y r ∧ ∀ a r', y r = .ok a r' → Q a r'

/-- The step keeps `P` if it succeeds. -/
abbrev Preserves (P : Registry → Prop) (x : Resolution ε α) : Prop :=
  Alike P x x (fun _ => P)

namespace Alike

variable {P S : Registry → Prop} {Q Q' : α → Registry → Prop} {x y : Resolution ε α}

theorem imp (h : Alike P x y Q) (hP : ∀ r, S r → P r) (hQ : ∀ a r, Q a r → Q' a r) :
    Alike S x y Q' :=
  fun r hr => ⟨(h r (hP r hr)).1, fun a r' ha => hQ a r' ((h r (hP r hr)).2 a r' ha)⟩

theorem of_fact {A : Prop} (hA : ∀ r, P r → A) (h : A → Alike P x y Q) : Alike P x y Q :=
  fun r hr => h (hA r hr) r hr

theorem refl (h : ∀ r a r', P r → x r = .ok a r' → Q a r') : Alike P x x Q :=
  fun r hr => ⟨rfl, fun a r' ha => h r a r' hr ha⟩

theorem pure {a : α} (h : ∀ r, P r → Q a r) :
    Alike P (Pure.pure a : Resolution ε α) (Pure.pure a) Q :=
  refl fun r b r' hr hb => by
    obtain ⟨rfl, rfl⟩ := Resolution.pure_eq_ok_iff.mp hb
    exact h r hr

theorem bind {R : α → Registry → Prop} {T : β → Registry → Prop} {f g : α → Resolution ε β}
    (hx : Alike P x y R) (hf : ∀ a, Alike (R a) (f a) (g a) T) :
    Alike P (x >>= f) (y >>= g) T := by
  intro r hr
  obtain ⟨heq, hR⟩ := hx r hr
  constructor
  · change EStateM.bind x f r = EStateM.bind y g r
    unfold EStateM.bind
    rw [heq]
    cases hy : y r with
    | ok a r' => exact (hf a r' (hR a r' hy)).1
    | error e r' => rfl
  · intro b r' hb
    obtain ⟨a, s, ha, hb⟩ := Resolution.bind_eq_ok_iff.mp hb
    exact (hf a s (hR a s ha)).2 b r' hb

theorem inspect {f g : Registry → Except ε α} (h : ∀ r, P r → f r = g r) :
    Alike P (Resolution.inspect f) (Resolution.inspect g) (fun a r => P r ∧ g r = .ok a) := by
  intro r hr
  constructor
  · rw [Resolution.inspect, Resolution.inspect, h r hr]
  · intro a r' ha
    obtain ⟨hg, rfl⟩ := Resolution.inspect_eq_ok_iff.mp ha
    exact ⟨hr, hg⟩

theorem get : Alike P (MonadState.get : Resolution ε Registry) MonadState.get
    (fun s r => P r ∧ s = r) :=
  refl fun r s r' hr hs => by
    obtain ⟨rfl, rfl⟩ := Resolution.get_eq_ok_iff.mp hs
    exact ⟨hr, rfl⟩

/-- What is done with the registry at hand, where it is known. -/
theorem get_bind {start : Registry} {f g : Registry → Resolution ε α}
    (h : Alike P (f start) (g start) Q) :
    Alike (fun r => P r ∧ r = start) (MonadState.get >>= f) (MonadState.get >>= g) Q := by
  rintro r ⟨hr, rfl⟩
  exact h r hr

theorem check {c : Except ε α} :
    Alike P (Resolution.check c) (Resolution.check c) (fun a r => P r ∧ c = .ok a) :=
  refl fun r a r' hr ha => by
    obtain ⟨hc, rfl⟩ := Resolution.check_eq_ok_iff.mp ha
    exact ⟨hr, hc⟩

theorem modify {f : Registry → Registry} (h : ∀ r, P r → S (f r)) :
    Alike P (modify f : Resolution ε PUnit) (modify f) (fun _ => S) :=
  refl fun r _ r' hr hu => by
    obtain rfl := Resolution.modify_eq_ok_iff.mp hu
    exact h r hr

theorem located {x y : Resolution ModelFault α} {location : Location} (h : Alike P x y Q) :
    Alike P (Resolution.located location x) (Resolution.located location y) Q := by
  intro r hr
  obtain ⟨heq, hQ⟩ := h r hr
  refine ⟨?_, fun a r' ha => hQ a r' (Resolution.located_eq_ok_iff.mp ha)⟩
  rw [Resolution.located, EStateM.adaptExcept, heq]
  rfl

theorem unlocated {x y : Resolution ModelFault α} (h : Alike P x y Q) :
    Alike P (Resolution.unlocated x) (Resolution.unlocated y) Q := by
  intro r hr
  obtain ⟨heq, hQ⟩ := h r hr
  refine ⟨?_, fun a r' ha => hQ a r' (Resolution.unlocated_eq_ok_iff.mp ha)⟩
  rw [Resolution.unlocated, EStateM.adaptExcept, heq]
  rfl

theorem forM {f g : α → Resolution ε PUnit} {as : List α}
    (h : ∀ a ∈ as, Alike P (f a) (g a) (fun _ => P)) :
    Alike P (as.forM f) (as.forM g) (fun _ => P) := by
  induction as with
  | nil => exact Alike.pure fun _ hr => hr
  | cons a as ih =>
    exact (h a List.mem_cons_self).bind fun _ => ih fun b hb => h b (List.mem_cons_of_mem _ hb)

end Alike

end FluentGrammar
