import FluentGrammar.Proofs.StubTypes

/-!
# Copies of methods

A method that is handed down several times changes its type parameters and the arguments of its
owner's, and nothing else. What it becomes is a *copy*: declared with the same types, with the type
parameters of the method renamed and those of its owner bound to arguments. Copies of copies are
copies, and two copies with the same arguments on one owner have the same contract.

* `Method.Copy`: copies.
* `Method.copy_of_stub`: stubs are copies.
* **`Method.Copy.trans`**: copies of copies.
* **`Method.Copy.matchesContract`**: copies with the same arguments have one contract.
* **`Method.Copy.of_matchesContract`**: what has the contract of a copy is a copy.
-/

namespace FluentGrammar

/-! ## Renaming apart -/

/-- Different names stay different when numbers are appended. -/
def NumbersApart (names : List String) : Prop :=
  ∀ x ∈ names, ∀ y ∈ names, ∀ i j : Nat, x ++ toString i = y ++ toString j → x = y

theorem Method.uncapturedName_injOn {outer inner : List String} (h : NumbersApart outer)
    {x y : String} (hx : x ∈ inner) (hy : y ∈ inner)
    (he : uncapturedName outer inner x = uncapturedName outer inner y) : x = y := by
  by_contra hne
  obtain ⟨hxo, hyo, he⟩ := (uncapturedName_eq_iff hx hy hne).mp he
  obtain ⟨-, i, hi⟩ := freshName_spec x (outer ++ inner)
  obtain ⟨-, j, hj⟩ := freshName_spec y (outer ++ inner)
  exact hne (h x hxo y hyo i j (hi.symm.trans (he.trans hj)))

theorem exists_map_eq {xs ys : List String} (hn : xs.Nodup) (hl : ys.length = xs.length) :
    ∃ f : String → String, ys = xs.map f := by
  induction xs generalizing ys with
  | nil => exact ⟨id, List.eq_nil_of_length_eq_zero hl⟩
  | cons x xs ih =>
    obtain ⟨y, ys, rfl⟩ := List.exists_cons_of_length_eq_add_one hl
    obtain ⟨hx, hn⟩ := List.nodup_cons.mp hn
    obtain ⟨f, rfl⟩ := ih hn (Nat.succ.inj hl)
    refine ⟨Function.update f x y, ?_⟩
    rw [List.map_cons, Function.update_self]
    refine congrArg (y :: ·) (List.map_congr_left fun z hz => ?_)
    exact (Function.update_of_ne (fun he : z = x => hx (he ▸ hz)) y f).symm

/-- What can be undone keeps the members of a list apart. -/
theorem map_subperm {l k : List TypeExpr} {f g : TypeExpr → TypeExpr} (hn : l.Nodup)
    (hback : ∀ t ∈ l, g (f t) = t) (hsub : ∀ t ∈ l, f t ∈ k) : (l.map f).Subperm k := by
  refine (hn.map_on fun s hs t ht he => ?_).subperm fun u hu => ?_
  · rw [← hback s hs, he, hback t ht]
  · obtain ⟨t, ht, rfl⟩ := List.mem_map.mp hu
    exact hsub t ht

namespace Method

variable {fresh : String → Prop} {m b c e : Method} {args args' : List TypeArg}
  {rename rename' : String → String} {t : TypeExpr}

/-! ## Frames -/

/-- To replace in a frame is to replace in its arguments, if new names become newer ones. -/
theorem subst_frame_subst (hf : FreshNames fresh) (hm : m.Neat fresh)
    (hlen : args.length = m.owner.typeParams.length) {g : String → Option TypeArg}
    (hg : ∀ name, ¬ fresh name → g name = none)
    (hrename : ∀ name ∈ m.typeParams.names, g (rename name) = some (.plain (.named (rename' name))))
    (ht : t.CleanIn fresh m.scope) :
    (t.subst (m.frame rename args)).subst g =
      t.subst (m.frame rename' (args.map (TypeArg.subst g))) := by
  rw [TypeExpr.subst_subst (hg _ hf.top) t fun name hn =>
    frame_eq_none fun hs => ht.unapplied name hn (hm.scope name hs)]
  refine TypeExpr.subst_congr t fun name hn => ?_
  by_cases hmem : name ∈ m.typeParams.names
  · rw [composed_of_some (frame_of_mem hmem), frame_of_mem hmem,
      TypeArg.subst_plain_of_some rfl (hrename name hmem)]
  by_cases hown : name ∈ m.owner.typeParams
  · obtain ⟨arg, harg⟩ := exists_bound hlen hown
    rw [composed_of_some ((frame_of_not_mem hmem).trans harg), frame_of_not_mem hmem, bound_map,
      harg]
    rfl
  · have hscope : name ∉ m.scope := by simp [scope, hmem, hown]
    rw [composed_of_none (frame_eq_none hscope), frame_eq_none hscope,
      hg name fun hfresh => hscope (ht.inScope name hn hfresh)]

theorem frame_nil {name : String} (hn : name ∉ m.typeParams.names) :
    m.frame rename [] name = none := by
  rw [frame_of_not_mem hn, bound, List.zip_nil_right]
  rfl

theorem Neat.frame_eq_none (hm : m.Neat fresh) {name : String} (hn : ¬ fresh name) :
    m.frame rename args name = none :=
  Method.frame_eq_none fun hs => hn (hm.scope name hs)

theorem Rewritten.trans {f g k : String → Option TypeArg} (h₁ : m.Rewritten f b)
    (h₂ : b.Rewritten g c) (hm : m.Neat fresh)
    (hk : ∀ t : TypeExpr, t.CleanIn fresh m.scope → (t.subst f).subst g = t.subst k) :
    m.Rewritten k c := by
  refine ⟨?_, ?_, fun t => ?_⟩
  · rw [h₂.result, h₁.result, hk _ hm.result]
  · have hmap : (b.params.map fun p => p.callType.subst g) =
        (b.params.map Param.callType).map (TypeExpr.subst g) := by rw [List.map_map]; rfl
    rw [h₂.params, hmap, h₁.params, List.map_map]
    exact List.map_congr_left fun p hp => hk _ (hm.callType hp)
  · rw [h₂.throws]
    constructor
    · rintro ⟨u, hu, rfl⟩
      obtain ⟨v, hv, rfl⟩ := (h₁.throws u).mp hu
      exact ⟨v, hv, (hk v (hm.throws hv)).symm⟩
    · rintro ⟨v, hv, rfl⟩
      exact ⟨_, (h₁.throws _).mpr ⟨v, hv, rfl⟩, hk v (hm.throws hv)⟩

/-! ## Copies -/

/-- The type parameters of the method are distinct, and apart from those of the owner. -/
structure Apart (fresh : String → Prop) (m : Method) : Prop where
  nodup : m.typeParams.names.Nodup
  fresh : ∀ name ∈ m.typeParams.names, fresh name
  owner : ∀ name ∈ m.typeParams.names, name ∉ m.owner.typeParams
  throws : m.throws.toList.Nodup

/-- The second method is declared like the first, with the type parameters of the method renamed and
those of its owner bound to the given arguments. -/
structure Copy (fresh : String → Prop) (args : List TypeArg) (rename : String → String)
    (m b : Method) : Prop where
  name : b.name = m.name
  typeParams : b.typeParams.names = m.typeParams.names.map rename
  apart : b.Apart fresh
  length : args.length = m.owner.typeParams.length
  clean : ∀ a ∈ args, a.CleanIn fresh b.owner.typeParams
  rewritten : m.Rewritten (m.frame rename args) b

theorem Apart.not_mem_of_mentions (hb : b.Apart fresh) {a : TypeArg}
    (ha : a.CleanIn fresh b.owner.typeParams) {name : String} (hn : a.mentions name = true) :
    name ∉ b.typeParams.names := fun hmem =>
  hb.owner name hmem (ha.inScope name hn (hb.fresh name hmem))

/-- To rename the type parameters of a copy is to rename those of the method differently. -/
theorem Apart.subst_frame_subst (hf : FreshNames fresh) (hm : m.Neat fresh) (hb : b.Apart fresh)
    (hlen : args.length = m.owner.typeParams.length)
    (hargs : ∀ a ∈ args, a.CleanIn fresh b.owner.typeParams) {f : String → String}
    (hrename : ∀ x ∈ m.typeParams.names, rename x ∈ b.typeParams.names ∧ f (rename x) = rename' x)
    (ht : t.CleanIn fresh m.scope) :
    (t.subst (m.frame rename args)).subst (b.frame f []) = t.subst (m.frame rename' args) := by
  have hkeep : args.map (TypeArg.subst (b.frame f [])) = args := by
    refine (List.map_congr_left fun a ha => TypeArg.subst_eq_self (fun name hn => .inl ?_)
      fun name hn => ?_).trans (List.map_id args)
    · exact frame_nil (hb.not_mem_of_mentions (hargs a ha) hn)
    · exact frame_nil fun hmem => (hargs a ha).unapplied name hn (hb.fresh name hmem)
  rw [Method.subst_frame_subst hf hm hlen (fun name hn => ?_) (fun x hx => ?_) ht, hkeep]
  · exact frame_nil fun hmem => hn (hb.fresh name hmem)
  · obtain ⟨hmem, hx⟩ := hrename x hx
    rw [frame_of_mem hmem, hx]

theorem Copy.cleanIn (hf : FreshNames fresh) (h : m.Copy fresh args rename b)
    (ht : t.CleanIn fresh m.scope) : (t.subst (m.frame rename args)).CleanIn fresh b.scope := by
  refine TypeExpr.cleanIn_subst hf ht
    (fun name hn hnone => absurd hnone (frame_ne_none h.length hn)) fun name arg harg => ?_
  by_cases hmem : name ∈ m.typeParams.names
  · have hnew : rename name ∈ b.typeParams.names :=
      h.typeParams ▸ List.mem_map.mpr ⟨name, hmem, rfl⟩
    rw [frame_of_mem hmem] at harg
    obtain rfl := Option.some.inj harg
    exact TypeArg.cleanIn_named (hf.uncaptured _ (h.apart.fresh _ hnew))
      (List.mem_append_left _ hnew)
  · rw [frame_of_not_mem hmem] at harg
    exact (h.clean arg (mem_of_bound harg).2).mono fun x hx => List.mem_append_right _ hx

theorem copy_of_stub {target : Owner} {ancestor : TypeExpr} (hf : FreshNames fresh)
    (hm : m.Neat fresh) (hn : NumbersApart target.typeParams)
    (htarget : ∀ name ∈ target.typeParams, fresh name)
    (hargs : ∀ a ∈ ancestor.args, a.CleanIn fresh target.typeParams)
    (hraw : m.owner.typeParams ≠ [] → ancestor.args ≠ []) (h : m.stub target ancestor = .ok b) :
    ancestor.dims = 0 ∧ b.Neat fresh ∧
      m.Copy fresh ancestor.args (uncapturedName target.typeParams m.typeParams.names) b := by
  obtain ⟨hstub, _⟩ := stub_eq_ok h
  obtain ⟨hdims, hlen, hrewritten, hthrows, htypes⟩ :=
    types_of_stub hf hm (fun a ha => (hargs a ha).written) hraw h
  have hnodup : b.typeParams.names.Nodup := by
    rw [hstub.typeParams]
    exact hm.nodup.map_on fun x hx y hy => uncapturedName_injOn hn hx hy
  have hfresh : ∀ name ∈ b.typeParams.names, fresh name ∧ name ∉ target.typeParams := by
    intro name hn
    rw [hstub.typeParams] at hn
    obtain ⟨old, hold, rfl⟩ := List.mem_map.mp hn
    exact ⟨hf.uncapturedName _ _ (hm.scope old (List.mem_append_left _ hold)),
      uncapturedName_not_mem _ _ _⟩
  have hcopy : m.Copy fresh ancestor.args (uncapturedName target.typeParams m.typeParams.names) b :=
    ⟨hstub.name, hstub.typeParams, ⟨hnodup, fun name hn => (hfresh name hn).1,
      fun name hn => hstub.owner ▸ (hfresh name hn).2, hthrows⟩, hlen, hstub.owner ▸ hargs,
      hrewritten⟩
  refine ⟨hdims, ⟨hnodup, fun name hn => ?_, fun t ht => ?_⟩, hcopy⟩
  · rcases List.mem_append.mp hn with hn | hn
    · exact (hfresh name hn).1
    · exact htarget name (hstub.owner ▸ hn)
  · obtain ⟨u, hu, rfl⟩ := htypes t ht
    exact hcopy.cleanIn hf (hm.types u hu)

/-- **Copies of copies are copies.** -/
theorem Copy.trans (hf : FreshNames fresh) (hm : m.Neat fresh) (hb : b.Neat fresh)
    (h₁ : m.Copy fresh args rename b) (h₂ : b.Copy fresh args' rename' c) :
    m.Copy fresh (args.map (TypeArg.subst (bound b.owner.typeParams args')))
      (rename' ∘ rename) c := by
  have hargs : args.map (TypeArg.subst (b.frame rename' args')) =
      args.map (TypeArg.subst (bound b.owner.typeParams args')) :=
    List.map_congr_left fun a ha => TypeArg.subst_congr a fun name hn =>
      frame_of_not_mem (h₁.apart.not_mem_of_mentions (h₁.clean a ha) hn)
  refine ⟨h₂.name.trans h₁.name, ?_, h₂.apart, ?_, fun a ha => ?_, ?_⟩
  · rw [h₂.typeParams, h₁.typeParams, List.map_map]
  · rw [List.length_map, h₁.length]
  · obtain ⟨a', ha', rfl⟩ := List.mem_map.mp ha
    refine TypeArg.cleanIn_subst hf (h₁.clean a' ha') (fun name hn hnone => ?_) fun name arg harg =>
      h₂.clean arg (mem_of_bound harg).2
    obtain ⟨arg, harg⟩ := exists_bound h₂.length hn
    rw [hnone] at harg
    cases harg
  · refine h₁.rewritten.trans h₂.rewritten hm fun t ht => ?_
    rw [subst_frame_subst hf hm h₁.length (fun _ => hb.frame_eq_none) (fun name hn => ?_) ht, hargs]
    exact frame_of_mem (h₁.typeParams ▸ List.mem_map.mpr ⟨name, hn, rfl⟩)

/-! ## Renaming -/

theorem get?_renameTo (h : b.typeParams.names = c.typeParams.names.map rename) {name : String}
    (hn : name ∈ c.typeParams.names) :
    (renameTo b c).get? name = some (some (.plain (.named (rename name)))) := by
  have hzip : b.typeParams.names.zip c.typeParams.names =
      c.typeParams.names.map fun x => (rename x, x) := by
    rw [h, List.map_prod_right_eq_zip]
  obtain ⟨f, hf, hkey, hget⟩ := Substitution.exists_get?_foldl_set
    (Prod.snd : String × String → String) (fun f => .plain (.named f.1))
    (b.typeParams.names.zip c.typeParams.names) (.unresolved c.typeParams.names)
    (show name ∈ _ by simpa [hzip] using hn)
  rw [hzip] at hf
  obtain ⟨x, _, rfl⟩ := List.mem_map.mp hf
  obtain rfl : x = name := hkey
  exact hget

theorem realizes_renameTo (hf : FreshNames fresh) (hb : b.Apart fresh)
    (h : b.typeParams.names = c.typeParams.names.map rename) :
    (renameTo b c).Realizes c.typeParams.names (c.frame rename []) := by
  refine ⟨fun name _ => ?_, fun name _ => ?_⟩
  · by_cases hn : name ∈ c.typeParams.names
    · rw [Substitution.contains_of_get? (get?_renameTo h hn), decide_eq_true hn]
    · rw [Substitution.contains, get?_renameTo_of_not_mem hn, decide_eq_false hn]
      rfl
  · by_cases hn : name ∈ c.typeParams.names
    · have hnew : rename name ∈ b.typeParams.names := h ▸ List.mem_map.mpr ⟨name, hn, rfl⟩
      rw [frame_of_mem hn, Substitution.value, Substitution.lookup_of_written (get?_renameTo h hn)
        (hf.uncaptured _ (hb.fresh _ hnew))]
      rfl
    · rw [frame_nil hn, Substitution.value,
        Substitution.lookup_eq_none (get?_renameTo_of_not_mem hn)]
      rfl

theorem head_renamed (hb : b.Apart fresh) (ho : b.owner.typeParams = c.owner.typeParams)
    (h : b.typeParams.names = c.typeParams.names.map rename) (ht : t.CleanIn fresh c.scope) :
    b.head (t.subst (c.frame rename [])) = c.head t := by
  by_cases hn : t.name ∈ c.typeParams.names
  · have hnew : rename t.name ∈ b.typeParams.names := h ▸ List.mem_map.mpr ⟨_, hn, rfl⟩
    rw [TypeExpr.subst_of_some (frame_of_mem hn)]
    simp [head, TypeArg.toType, TypeExpr.named, TypeExpr.arrayOf, hn, hnew]
  · have hnot : t.name ∉ b.typeParams.names := fun hmem => by
      have hscope := ht.inScope t.name t.mentions_name (hb.fresh _ hmem)
      exact hb.owner _ hmem (ho ▸ (List.mem_append.mp hscope).resolve_left hn)
    rw [TypeExpr.subst_of_none (frame_nil hn)]
    simp [head, hn, hnot]

theorem Copy.exists_renaming (hf : FreshNames fresh) (hm : m.Neat fresh)
    (h₁ : m.Copy fresh args rename b) (h₂ : m.Copy fresh args rename' c) :
    ∃ f, b.typeParams.names = c.typeParams.names.map f ∧
      ∀ t : TypeExpr, t.CleanIn fresh m.scope →
        (t.subst (m.frame rename' args)).subst (c.frame f []) = t.subst (m.frame rename args) := by
  have hlen : b.typeParams.names.length = c.typeParams.names.length := by
    rw [h₁.typeParams, h₂.typeParams, List.length_map, List.length_map]
  obtain ⟨f, hnames⟩ := exists_map_eq h₂.apart.nodup hlen
  refine ⟨f, hnames, fun t ht => ?_⟩
  rw [h₁.typeParams, h₂.typeParams, List.map_map, List.map_inj_left] at hnames
  exact h₂.apart.subst_frame_subst hf hm h₂.length h₂.clean
    (fun x hx => ⟨h₂.typeParams ▸ List.mem_map.mpr ⟨x, hx, rfl⟩, (hnames x hx).symm⟩) ht

theorem Copy.length_throws_le (hf : FreshNames fresh) (hm : m.Neat fresh)
    (h₁ : m.Copy fresh args rename b) (h₂ : m.Copy fresh args rename' c) :
    c.throws.toList.length ≤ b.throws.toList.length := by
  obtain ⟨f, _, hforth⟩ := h₁.exists_renaming hf hm h₂
  obtain ⟨g, _, hback⟩ := h₂.exists_renaming hf hm h₁
  have hle := (map_subperm (f := TypeExpr.subst (c.frame f [])) (g := TypeExpr.subst (b.frame g []))
    (k := b.throws.toList) h₂.apart.throws (fun t ht => ?_) fun t ht => ?_).length_le
  · rwa [List.length_map] at hle
  · obtain ⟨u, hu, rfl⟩ := (h₂.rewritten.throws t).mp ht
    rw [hforth u (hm.throws hu), hback u (hm.throws hu)]
  · obtain ⟨u, hu, rfl⟩ := (h₂.rewritten.throws t).mp ht
    exact (h₁.rewritten.throws _).mpr ⟨u, hu, (hforth u (hm.throws hu)).symm⟩

/-! ## Contracts -/

theorem Rewritten.forall₂_params {f : String → Option TypeArg} (h : m.Rewritten f b) :
    List.Forall₂ (fun p q : Param => q.callType = p.callType.subst f) m.params b.params := by
  have hparams := h.params
  rw [← List.forall₂_eq_eq_eq, List.forall₂_map_left_iff, List.forall₂_map_right_iff] at hparams
  exact hparams.flip

/-- **Copies with the same arguments have one contract.** -/
theorem Copy.matchesContract (hf : FreshNames fresh) (hm : m.Neat fresh)
    (h₁ : m.Copy fresh args rename b) (h₂ : m.Copy fresh args rename' c)
    (ho : b.owner.typeParams = c.owner.typeParams) : b.matchesContract c = true := by
  obtain ⟨f, hnames, hrename⟩ := h₁.exists_renaming hf hm h₂
  have hreplace : ∀ t : TypeExpr, t.CleanIn fresh m.scope →
      (t.subst (m.frame rename' args)).replace (renameTo b c) =
        .ok (t.subst (m.frame rename args)) := by
    intro t ht
    rw [(realizes_renameTo hf h₁.apart hnames).replace_eq_ok h₂.apart.fresh (h₂.cleanIn hf ht),
      hrename t ht]
  have hparams : List.Forall₂ (fun p q : Param =>
      q.callType.replace (renameTo b c) = .ok p.callType ∧ b.head p.callType = c.head q.callType)
      b.params c.params := by
    refine forall₂_of_common (fun p hp q q' hq hq' => ?_) h₁.rewritten.forall₂_params
      h₂.rewritten.forall₂_params
    have hclean := hm.callType hp
    rw [hq, hq', ← head_renamed h₁.apart ho hnames (h₂.cleanIn hf hclean), hrename _ hclean]
    exact ⟨hreplace _ hclean, rfl⟩
  have hsignature : b.signature = c.signature := by
    refine signature_eq_of_outline ho (Prod.ext (h₁.name.trans h₂.name.symm) ?_)
    rw [outline, outline, ← List.forall₂_eq_eq_eq, List.forall₂_map_left_iff,
      List.forall₂_map_right_iff]
    exact hparams.imp fun _ _ hpq => hpq.2
  have hlength := congrArg List.length hnames
  simp only [TypeParams.names, List.length_map] at hlength
  simp only [Method.matchesContract, Bool.and_eq_true, decide_eq_true_eq, List.all_eq_true]
  refine ⟨⟨⟨⟨⟨⟨hsignature, hlength⟩, hparams.length_eq⟩, ?_⟩, ?_⟩, fun pq hpq => ?_⟩,
    fun t ht => ?_⟩
  · exact Nat.le_antisymm (h₂.length_throws_le hf hm h₁) (h₁.length_throws_le hf hm h₂)
  · rw [agrees_iff, h₂.rewritten.result, hreplace _ hm.result, h₁.rewritten.result]
  · exact agrees_iff.mpr ((List.forall₂_iff_zip.mp hparams).2 hpq).1
  · obtain ⟨u, hu, rfl⟩ := (h₂.rewritten.throws t).mp ht
    rw [hreplace u (hm.throws hu)]
    exact decide_eq_true ((h₁.rewritten.throws _).mpr ⟨u, hu, rfl⟩)

theorem Neat.tame (hm : m.Neat fresh) : m.Tame fresh :=
  ⟨fun name hn => hm.scope name (List.mem_append_left _ hn),
    fun _ hp hfresh => (hm.type hp).inScope _ (TypeExpr.mentions_name _) hfresh⟩

theorem Neat.cleanIn_selfType (hf : FreshNames fresh) (hb : b.Neat fresh) (ho : e.owner = b.owner) :
    ∀ a ∈ b.owner.selfType.args, a.CleanIn fresh e.owner.typeParams := by
  rw [ho, b.owner.args_selfType]
  intro a ha
  obtain ⟨x, hx, rfl⟩ := List.mem_map.mp ha
  exact TypeArg.cleanIn_named (hb.uncaptured hf x hx) hx

theorem Neat.subst_frame_id (hb : b.Neat fresh) (ht : t.CleanIn fresh b.scope) :
    t.subst (b.frame id b.owner.selfType.args) = t := by
  refine TypeExpr.subst_eq_self (fun name _ => ?_) fun name hn =>
    hb.frame_eq_none (ht.unapplied name hn)
  by_cases hmem : name ∈ b.typeParams.names
  · exact .inr (frame_of_mem hmem)
  by_cases hown : name ∈ b.owner.typeParams
  · rw [frame_of_not_mem hmem, b.owner.args_selfType]
    exact .inr (bound_map_self hown)
  · exact .inl (Method.frame_eq_none (by simp [Method.scope, hmem, hown]))

theorem Neat.subst_frame_nil (hf : FreshNames fresh) (hb : b.Neat fresh) (hapart : b.Apart fresh)
    (ht : t.CleanIn fresh b.scope) :
    t.subst (b.frame rename []) = t.subst (b.frame rename b.owner.selfType.args) := by
  have hlen : b.owner.selfType.args.length = b.owner.typeParams.length := by
    rw [b.owner.args_selfType, List.length_map]
  calc t.subst (b.frame rename [])
      = (t.subst (b.frame id b.owner.selfType.args)).subst (b.frame rename []) := by
        rw [hb.subst_frame_id ht]
    _ = t.subst (b.frame rename b.owner.selfType.args) :=
        hapart.subst_frame_subst hf hb hlen (hb.cleanIn_selfType hf rfl) (fun x hx => ⟨hx, rfl⟩) ht

theorem Neat.exists_renaming_back (hf : FreshNames fresh) (hb : b.Neat fresh) (he : e.Apart fresh)
    (ho : e.owner = b.owner) (h : e.typeParams.names = b.typeParams.names.map rename) :
    ∃ g, ∀ t : TypeExpr, t.CleanIn fresh b.scope →
      (t.subst (b.frame rename b.owner.selfType.args)).subst (e.frame g []) = t := by
  have hlen : b.owner.selfType.args.length = b.owner.typeParams.length := by
    rw [b.owner.args_selfType, List.length_map]
  obtain ⟨g, hnames⟩ := exists_map_eq he.nodup
    (show b.typeParams.names.length = e.typeParams.names.length by rw [h, List.length_map])
  refine ⟨g, fun t ht => ?_⟩
  rw [he.subst_frame_subst hf hb hlen (hb.cleanIn_selfType hf ho) (fun x hx => ?_) ht,
    hb.subst_frame_id ht]
  rw [h, List.map_map] at hnames
  exact ⟨h ▸ List.mem_map.mpr ⟨x, hx, rfl⟩,
    List.map_inj_left.mp (hnames.symm.trans (List.map_id _).symm) x hx⟩

/-- What has the contract of a method on the same owner is a copy of it. -/
theorem Neat.copy_of_matchesContract (hf : FreshNames fresh) (hb : b.Neat fresh)
    (hapart : b.Apart fresh) (he : e.Apart fresh) (ho : e.owner = b.owner)
    (h : e.matchesContract b = true) : ∃ f, b.Copy fresh b.owner.selfType.args f e := by
  obtain ⟨_, hl, hparams, hresult, hsize, hthrows⟩ := matchesContract_spec h
  obtain ⟨f, hnames⟩ := exists_map_eq hapart.nodup
    (show e.typeParams.names.length = b.typeParams.names.length by
      simpa only [TypeParams.names, List.length_map] using hl)
  have hreplace : ∀ t : TypeExpr, t.CleanIn fresh b.scope →
      t.replace (renameTo e b) = .ok (t.subst (b.frame f b.owner.selfType.args)) := by
    intro t ht
    rw [(realizes_renameTo hf he hnames).replace_eq_ok hapart.fresh ht,
      hb.subst_frame_nil hf hapart ht]
  -- There are as many thrown types, and renaming back keeps them apart, so none is missed.
  obtain ⟨g, hback⟩ := hb.exists_renaming_back hf he ho hnames
  have hperm := (map_subperm (k := e.throws.toList) hapart.throws
    (fun t ht => hback t (hb.throws ht)) fun t ht => ?_).perm_of_length_le
      (by rw [List.length_map]; exact Nat.le_of_eq hsize)
  · refine ⟨f, congrArg Prod.fst (outline_of_matchesContract hf
      (fun name hn => ⟨he.fresh name hn, he.owner name hn⟩) hb.tame ho h), hnames, he, ?_,
      hb.cleanIn_selfType hf ho, ⟨?_, ?_, fun t => ?_⟩⟩
    · rw [b.owner.args_selfType, List.length_map]
    · exact Except.ok.inj (hresult.symm.trans (hreplace _ hb.result))
    · rw [← List.forall₂_eq_eq_eq, List.forall₂_map_left_iff, List.forall₂_map_right_iff]
      refine (((List.forall₂_and_left _ _).mpr ⟨fun _ => id, hparams.flip⟩).imp ?_).flip
      rintro q p ⟨hq, hpq⟩
      exact Except.ok.inj (hpq.symm.trans (hreplace _ (hb.callType hq)))
    · rw [← hperm.mem_iff, List.mem_map]
  · obtain ⟨u, hu, htu⟩ := hthrows t ht
    rw [hreplace t (hb.throws ht)] at htu
    exact Except.ok.inj htu ▸ hu

/-- **What has the contract of a copy is a copy** with the same arguments. -/
theorem Copy.of_matchesContract (hf : FreshNames fresh) (hm : m.Neat fresh) (hb : b.Neat fresh)
    (h : m.Copy fresh args rename b) (he : e.Apart fresh) (ho : e.owner = b.owner)
    (hmatch : e.matchesContract b = true) : ∃ f, m.Copy fresh args f e := by
  obtain ⟨f, hcopy⟩ := hb.copy_of_matchesContract hf h.apart he ho hmatch
  have hargs : args.map (TypeArg.subst (bound b.owner.typeParams b.owner.selfType.args)) = args := by
    refine (List.map_congr_left fun a ha => TypeArg.subst_eq_self (fun name _ => ?_)
      fun name hn => ?_).trans (List.map_id args)
    · by_cases hown : name ∈ b.owner.typeParams
      · rw [b.owner.args_selfType]
        exact .inr (bound_map_self hown)
      · exact .inl (bound_eq_none_of_not_mem hown)
    · exact bound_eq_none_of_not_mem fun hown =>
        (h.clean a ha).unapplied name hn (hb.scope name (List.mem_append_right _ hown))
  exact ⟨_, hargs ▸ h.trans hf hm hb hcopy⟩

end Method

end FluentGrammar
