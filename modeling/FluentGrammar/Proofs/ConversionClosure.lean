import FluentGrammar.Proofs.ConversionStep

/-!
# The closure of a class under conversions

The exploration of a class is a breadth-first search in which the class itself grows. At any time
the types in question are the ancestors with an archetype that the class started with and the
targets of the paths recorded so far; each of them is done or stands in the queue. Names move from
`unseen` into the queue just when their paths are recorded, and the distances in the queue ascend,
so that no recorded distance exceeds that of the head by more than one.

* `Explored`, `Leads`, `Handled`: what is explored, where a conversion leads, and that it has been
  applied.
* `Closing`: the invariant of the exploration.
* **`Closing.gain`**: the invariant after a class gained an interface.
* `closeClass_closing`: the invariant at the end, with an empty queue.
-/

namespace FluentGrammar

/-! ## Names enter the queue together with their paths -/

theorem Table.entries_insertNew {α : Type} (t : Table α) (key : String) (value : α) :
    (t.insertNew key value).entries =
      if key ∈ t.keys then t.entries else t.entries ++ [(key, value)] := by
  unfold insertNew
  by_cases hk : key ∈ t.keys
  · rw [if_pos (contains_iff.mpr hk), if_pos hk]
  · rw [if_neg (fun h => hk (contains_iff.mp h)), if_neg hk,
      entries_insert_of_not_mem hk]

/-- Where just the unseen names have no path yet, the types that join the queue are those whose
paths are recorded. -/
theorem exists_pushAll (path : TypeExpr → ConversionPath) (gained : List TypeExpr) (f : Frontier)
    (paths : Table ConversionPath) (hu : f.unseen.Nodup)
    (h : ∀ t ∈ gained, t.name ∈ f.unseen ↔ t.name ∉ paths.keys) :
    ∃ new, (f.pushAll gained).queue = f.queue ++ new ∧ (f.pushAll gained).unseen.Nodup ∧
      (∀ n, n ∈ (f.pushAll gained).unseen ↔ n ∈ f.unseen ∧ n ∉ new.map TypeExpr.name) ∧
      (gained.foldl (fun ps t => ps.insertNew t.name (path t)) paths).entries =
        paths.entries ++ new.map (fun t => (t.name, path t)) ∧
      ∀ n, n ∈ new.map TypeExpr.name ↔ n ∈ gained.map TypeExpr.name ∧ n ∉ paths.keys := by
  induction gained generalizing f paths with
  | nil => exact ⟨[], by simp [Frontier.pushAll, hu]⟩
  | cons t ts ih =>
    obtain ⟨ht, hts⟩ := List.forall_mem_cons.mp h
    have hentries := paths.entries_insertNew t.name (path t)
    by_cases hk : t.name ∈ paths.keys
    · rw [if_pos hk] at hentries
      have hkeys : (paths.insertNew t.name (path t)).keys = paths.keys := by
        rw [Table.keys, hentries, Table.keys]
      have hpush : f.push t = f := if_neg fun hm => ht.mp hm hk
      obtain ⟨new, hq, hnd, hun, hen, hnames⟩ := ih f (paths.insertNew t.name (path t)) hu
        (fun u hm => by rw [hkeys]; exact hts u hm)
      have hall : f.pushAll (t :: ts) = f.pushAll ts := by
        rw [Frontier.pushAll, List.foldl_cons, hpush, Frontier.pushAll]
      rw [hall, List.foldl_cons]
      refine ⟨new, hq, hnd, hun, hentries ▸ hen, fun n => ?_⟩
      rw [hnames, hkeys, List.map_cons, List.mem_cons]
      constructor
      · rintro ⟨h₁, h₂⟩
        exact ⟨.inr h₁, h₂⟩
      · rintro ⟨rfl | h₁, h₂⟩
        · exact absurd hk h₂
        · exact ⟨h₁, h₂⟩
    · rw [if_neg hk] at hentries
      have hkeys : (paths.insertNew t.name (path t)).keys = paths.keys ++ [t.name] := by
        rw [Table.keys, hentries, Table.keys, List.map_append]
        rfl
      have hpush : f.push t = ⟨f.queue ++ [t], f.unseen.erase t.name⟩ := if_pos (ht.mpr hk)
      obtain ⟨new, hq, hnd, hun, hen, hnames⟩ := ih (f.push t) (paths.insertNew t.name (path t))
        (by rw [hpush]; exact hu.erase _) (fun u hm => by
          rw [hpush, hkeys, hu.mem_erase_iff, List.mem_append, List.mem_singleton, hts u hm]
          tauto)
      have hall : f.pushAll (t :: ts) = (f.push t).pushAll ts := rfl
      rw [hall, List.foldl_cons]
      refine ⟨t :: new, ?_, hnd, fun n => ?_, ?_, fun n => ?_⟩
      · rw [hq, hpush, List.append_assoc, List.singleton_append]
      · rw [hun, hpush, hu.mem_erase_iff, List.map_cons, List.mem_cons]
        tauto
      · rw [hen, hentries, List.append_assoc, List.map_cons, List.singleton_append]
      · rw [List.map_cons, List.mem_cons, hnames, hkeys, List.map_cons, List.mem_cons,
          List.mem_append, List.mem_singleton]
        constructor
        · rintro (rfl | ⟨h₁, h₂⟩)
          · exact ⟨.inl rfl, hk⟩
          · exact ⟨.inr h₁, fun h₃ => h₂ (.inl h₃)⟩
        · rintro ⟨rfl | h₁, h₂⟩
          · exact .inl rfl
          · by_cases hn : n = t.name
            · exact .inl hn
            · exact .inr ⟨h₁, fun h₃ => h₃.elim h₂ hn⟩

/-! ## The invariant -/

/-- The types that conversions are applied to: the ancestors with an archetype at the start and the
targets of paths. -/
def Explored (starts : List TypeExpr) (paths : Table ConversionPath) (t : TypeExpr) : Prop :=
  t ∈ starts ∨ ∃ p ∈ paths.values, p.target = t

/-- Some conversion leads from the type `via` to a name: to that of its target, unless the target is
the class itself, and to those the target's definition inherits from. -/
def Leads (r : Registry) (name : String) (conversions : List Conversion) (via : TypeExpr)
    (n : String) : Prop :=
  ∃ c ∈ conversions, ∃ s target, c.typeParams.infer c.source via = .ok s ∧
    c.target.replace s = .ok target ∧ target.name ≠ name ∧
    (n = target.name ∨ r.HasAncestor target.name n)

/-- A conversion has been applied to the type `via`: wherever it leads are ancestors of the class,
by at most one conversion more than `via`. -/
def Handled (r : Registry) (name : String) (d : Definition) (types : List TypeExpr) (via : TypeExpr)
    (c : Conversion) : Prop :=
  ∀ s, c.typeParams.infer c.source via = .ok s → ∃ target, c.target.replace s = .ok target ∧
    (target.name = name ∨ ∀ n, n = target.name ∨ r.HasAncestor target.name n →
      n ∈ types.map TypeExpr.name ∧ d.distanceTo n ≤ d.distanceTo via.name + 1)

/-- The exploration of a class that had the ancestors `before`, with some types done and others in
the frontier. -/
structure Closing (base : Registry) (name : String) (conversions : List Conversion)
    (before done : List TypeExpr) (f : Frontier) (d : Definition) (types : List TypeExpr) :
    Prop where
  names : ∀ n, n ∈ types.map TypeExpr.name ↔ n ∈ before.map TypeExpr.name ∨ n ∈ d.paths.keys
  fresh : ∀ n ∈ d.paths.keys, n ∉ before.map TypeExpr.name
  nodup : f.unseen.Nodup
  unseen : ∀ n ∈ base.names, n ∉ types.map TypeExpr.name → n ∈ f.unseen
  explored : ∀ t, Explored (before.filter (isArchetyped base)) d.paths t ↔ t ∈ done ∨ t ∈ f.queue
  path : ∀ n p, d.paths.get? n = some p → p.target.name = n ∧
    Explored (before.filter (isArchetyped base)) d.paths p.via ∧
    Leads base name conversions p.via n ∧ p.distance = d.distanceTo p.via.name + 1
  ascending : f.queue.Pairwise fun t u => d.distanceTo t.name ≤ d.distanceTo u.name
  bounded : ∀ t ∈ f.queue, ∀ n, d.distanceTo n ≤ d.distanceTo t.name + 1
  handled : ∀ t ∈ done, ∀ c ∈ conversions, Handled base name d types t c

/-! ## One step -/

section Step

variable {base r r' : Registry} {name utility : String} {conversions : List Conversion}
  {before done types types' gained : List TypeExpr} {f : Frontier} {d d' : Definition}
  {via target : TypeExpr} {c : Conversion} {s : Substitution}

/-- Ancestors stay, by as many conversions as before. -/
def Grows (d : Definition) (types : List TypeExpr) (d' : Definition) (types' : List TypeExpr) :
    Prop :=
  ∀ n ∈ types.map TypeExpr.name, n ∈ types'.map TypeExpr.name ∧ d'.distanceTo n = d.distanceTo n

theorem Handled.mono (hg : Grows d types d' types') (hvia : via.name ∈ types.map TypeExpr.name)
    (h : Handled base name d types via c) : Handled base name d' types' via c := by
  intro s hs
  obtain ⟨target, ht, hself | hall⟩ := h s hs
  · exact ⟨target, ht, .inl hself⟩
  · refine ⟨target, ht, .inr fun n hn => ?_⟩
    obtain ⟨hm, hle⟩ := hall n hn
    obtain ⟨hm', hd⟩ := hg n hm
    exact ⟨hm', by rw [hd, (hg _ hvia).2]; exact hle⟩

theorem Explored.name_mem (h : Closing base name conversions before done f d types) {t : TypeExpr}
    (ht : Explored (before.filter (isArchetyped base)) d.paths t) :
    t.name ∈ types.map TypeExpr.name := by
  rw [h.names]
  rcases ht with ht | ⟨p, hp, rfl⟩
  · exact .inl (List.mem_map.mpr ⟨t, (List.mem_filter.mp ht).1, rfl⟩)
  · obtain ⟨⟨n, _⟩, he, rfl⟩ := List.mem_map.mp hp
    rw [(h.path n _ (Table.get?_eq_some_iff.mpr he)).1]
    exact .inr (List.mem_map.mpr ⟨_, he, rfl⟩)

/-- The paths of a class after new ones were recorded, all of the same distance. -/
structure Recorded (d d' : Definition) (new : List TypeExpr) (path : TypeExpr → ConversionPath)
    (k : Nat) : Prop where
  entries : d'.paths.entries = d.paths.entries ++ new.map fun t => (t.name, path t)
  target : ∀ t, (path t).target = t
  distance : ∀ t, (path t).distance = k

namespace Recorded

variable {new : List TypeExpr} {path : TypeExpr → ConversionPath} {k : Nat}

theorem mem_keys_iff (h : Recorded d d' new path k) {n : String} :
    n ∈ d'.paths.keys ↔ n ∈ d.paths.keys ∨ n ∈ new.map TypeExpr.name := by
  rw [Table.keys, h.entries, List.map_append, List.mem_append, List.map_map]
  rfl

theorem get?_eq_some_iff (h : Recorded d d' new path k) {n : String} {p : ConversionPath} :
    d'.paths.get? n = some p ↔
      d.paths.get? n = some p ∨ ∃ t ∈ new, t.name = n ∧ path t = p := by
  rw [Table.get?_eq_some_iff, Table.get?_eq_some_iff, h.entries, List.mem_append, List.mem_map]
  simp only [Prod.mk.injEq]

theorem explored_iff (h : Recorded d d' new path k) {starts : List TypeExpr} {t : TypeExpr} :
    Explored starts d'.paths t ↔ Explored starts d.paths t ∨ t ∈ new := by
  have hvalues : d'.paths.values = d.paths.values ++ new.map path := by
    rw [Table.values, h.entries, List.map_append, List.map_map]
    rfl
  unfold Explored
  rw [hvalues]
  simp only [List.mem_append, List.mem_map, or_and_right, exists_or, or_assoc]
  refine or_congr_right (or_congr_right ⟨?_, fun ht => ⟨path t, ⟨t, ht, rfl⟩, h.target t⟩⟩)
  rintro ⟨_, ⟨u, hu, rfl⟩, rfl⟩
  rw [h.target]
  exact hu

theorem distanceTo_old (h : Recorded d d' new path k) {n : String}
    (hn : n ∉ new.map TypeExpr.name) : d'.distanceTo n = d.distanceTo n := by
  have hget : d'.paths.get? n = d.paths.get? n := by
    refine Option.ext fun p => ?_
    rw [h.get?_eq_some_iff]
    refine or_iff_left ?_
    rintro ⟨t, ht, rfl, _⟩
    exact hn (List.mem_map.mpr ⟨t, ht, rfl⟩)
  rw [Definition.distanceTo, hget, Definition.distanceTo]

theorem distanceTo_new (h : Recorded d d' new path k) {n : String}
    (hn : n ∈ new.map TypeExpr.name) (hk : n ∉ d.paths.keys) : d'.distanceTo n = k := by
  obtain ⟨p, hp⟩ := Table.exists_get?_of_mem_keys (h.mem_keys_iff.mpr (.inr hn))
  rw [Definition.distanceTo, hp]
  rcases h.get?_eq_some_iff.mp hp with hp | ⟨t, _, _, rfl⟩
  · exact absurd (Table.get?_eq_none_iff.mpr hk) (by simp [hp])
  · exact h.distance t

end Recorded

/-- **The invariant after a gain.** Types of new names join the queue, with paths from its head. -/
theorem Closing.gain {new : List TypeExpr} {path : TypeExpr → ConversionPath} {g : Frontier}
    (h : Closing base name conversions before done ⟨via :: f.queue, f.unseen⟩ d types)
    (hrec : Recorded d d' new path (d.distanceTo via.name + 1)) (hvia : ∀ t, (path t).via = via)
    (hsub : ∀ n ∈ types.map TypeExpr.name, n ∈ types'.map TypeExpr.name)
    (hnew : ∀ n, n ∈ new.map TypeExpr.name ↔
      n ∈ types'.map TypeExpr.name ∧ n ∉ types.map TypeExpr.name)
    (hleads : ∀ n ∈ new.map TypeExpr.name, Leads base name conversions via n)
    (hqueue : g.queue = f.queue ++ new) (hnodup : g.unseen.Nodup)
    (hunseen : ∀ n, n ∈ g.unseen ↔ n ∈ f.unseen ∧ n ∉ new.map TypeExpr.name) :
    Closing base name conversions before done ⟨via :: g.queue, g.unseen⟩ d' types' ∧
      Grows d types d' types' := by
  have hold : ∀ n ∈ types.map TypeExpr.name, d'.distanceTo n = d.distanceTo n :=
    fun n hn => hrec.distanceTo_old fun hm => ((hnew n).mp hm).2 hn
  have hbound : ∀ n, d'.distanceTo n ≤ d.distanceTo via.name + 1 := by
    intro n
    by_cases hn : n ∈ new.map TypeExpr.name
    · rw [hrec.distanceTo_new hn fun hm => ((hnew n).mp hn).2 ((h.names n).mpr (.inr hm))]
    · rw [hrec.distanceTo_old hn]
      exact h.bounded via List.mem_cons_self n
  have hexp : ∀ t ∈ via :: f.queue, t.name ∈ types.map TypeExpr.name :=
    fun t ht => Explored.name_mem h ((h.explored t).mpr (.inr ht))
  have hnewdist : ∀ t ∈ new, d'.distanceTo t.name = d.distanceTo via.name + 1 := by
    intro t ht
    have hn : t.name ∈ new.map TypeExpr.name := List.mem_map.mpr ⟨t, ht, rfl⟩
    exact hrec.distanceTo_new hn fun hm => ((hnew _).mp hn).2 ((h.names _).mpr (.inr hm))
  have hviadist := hold via.name (hexp via List.mem_cons_self)
  have hgrows : Grows d types d' types' := fun n hn => ⟨hsub n hn, hold n hn⟩
  refine ⟨⟨fun n => ?_, fun n hn => ?_, hnodup, fun n hb hn => ?_, fun t => ?_, fun n p hp => ?_, ?_,
    fun t ht n => ?_, fun t ht c hc => ?_⟩, hgrows⟩
  · rw [hrec.mem_keys_iff, hnew, ← or_assoc, ← h.names]
    by_cases hn : n ∈ types.map TypeExpr.name
    · simp only [hn, hsub n hn, true_or]
    · simp only [hn, not_false_eq_true, and_true, false_or]
  · rcases hrec.mem_keys_iff.mp hn with hn | hn
    · exact h.fresh n hn
    · exact fun hm => ((hnew n).mp hn).2 ((h.names n).mpr (.inl hm))
  · refine (hunseen n).mpr ⟨h.unseen n hb fun hm => hn (hsub n hm), fun hm => hn ?_⟩
    exact ((hnew n).mp hm).1
  · rw [hrec.explored_iff, h.explored, hqueue]
    simp only [List.mem_cons, List.mem_append, or_assoc]
  · rcases hrec.get?_eq_some_iff.mp hp with hp | ⟨t, ht, rfl, rfl⟩
    · obtain ⟨htarget, hex, hl, hdist⟩ := h.path n p hp
      refine ⟨htarget, hrec.explored_iff.mpr (.inl hex), hl, ?_⟩
      rw [hold _ (Explored.name_mem h hex), hdist]
    · rw [hvia, hrec.target, hrec.distance, hviadist]
      refine ⟨rfl, hrec.explored_iff.mpr (.inl ?_), hleads _ (List.mem_map.mpr ⟨t, ht, rfl⟩), rfl⟩
      exact (h.explored via).mpr (.inr List.mem_cons_self)
  · -- The old part of the queue ascends as before, and the new types are the farthest.
    have hsplit : via :: g.queue = (via :: f.queue) ++ new := by rw [hqueue, List.cons_append]
    change (via :: g.queue).Pairwise _
    rw [hsplit, List.pairwise_append]
    refine ⟨?_, ?_, fun t ht u hu => ?_⟩
    · refine h.ascending.imp_of_mem fun ht hu hle => ?_
      rw [hold _ (hexp _ ht), hold _ (hexp _ hu)]
      exact hle
    · refine List.pairwise_of_forall_mem_list fun t ht u hu => ?_
      rw [hnewdist t ht, hnewdist u hu]
    · rw [hnewdist u hu]
      exact hbound t.name
  · have hle : d.distanceTo via.name ≤ d'.distanceTo t.name := by
      change t ∈ via :: g.queue at ht
      rw [hqueue, ← List.cons_append, List.mem_append] at ht
      rcases ht with ht | ht
      · rw [hold _ (hexp t ht)]
        rcases List.mem_cons.mp ht with rfl | ht
        · exact le_refl _
        · exact (List.pairwise_cons.mp h.ascending).1 t ht
      · rw [hnewdist t ht]
        omega
    have := hbound n
    omega
  · exact (h.handled t ht c hc).mono hgrows (Explored.name_mem h ((h.explored t).mpr (.inl ht)))

/-- One conversion keeps the invariant, and then it has been applied to the head of the queue. -/
theorem applyConversion_closing (hb : base.Unshadowed) (hr : ClassAt base name r d types)
    (h : Closing base name conversions before done ⟨via :: f.queue, f.unseen⟩ d types)
    (hc : c ∈ conversions) (hrun : applyConversion name utility via c r = .ok gained r') :
    ∃ d' types', ClassAt base name r' d' types' ∧
      Closing base name conversions before done
        ⟨via :: (f.pushAll gained).queue, (f.pushAll gained).unseen⟩ d' types' ∧
      Grows d types d' types' ∧ Handled base name d' types' via c := by
  have hbound := h.bounded via List.mem_cons_self
  rcases applyConversion_cases hr hrun with
    ⟨rfl, rfl, hskip⟩ | ⟨s, target, hs, htarget, hself, hnot, hgain⟩
  · refine ⟨d, types, hr, h, fun n hn => ⟨hn, rfl⟩, fun s hs => ?_⟩
    obtain ⟨target, ht, hself | hm⟩ := hskip s hs
    · exact ⟨target, ht, .inl hself⟩
    · refine ⟨target, ht, .inr fun n hn => ⟨?_, hbound n⟩⟩
      rcases hn with rfl | ha
      · exact hm
      · exact Registry.mem_names_of_hasAncestor hb hr.ancestorsVia hm ha
  · obtain ⟨d', types', hr', hnames, hgained, hpaths⟩ := gainInterface_spec hb hr hnot hgain
    obtain ⟨new, hqueue, hnodup, hunseen, hentries, hnew⟩ := exists_pushAll
      (fun t => ⟨via, t, c.method.name, d.distanceTo via.name + 1⟩) gained f d.paths h.nodup
      fun t ht => by
        have hg := (hgained t.name).mp (List.mem_map.mpr ⟨t, ht, rfl⟩)
        exact iff_of_true (h.unseen _ (hr'.mem_base_names hb hg.1) hg.2)
          fun hm => hg.2 ((h.names _).mpr (.inr hm))
    have hnew' : ∀ n, n ∈ new.map TypeExpr.name ↔
        n ∈ types'.map TypeExpr.name ∧ n ∉ types.map TypeExpr.name := by
      intro n
      rw [hnew, hgained]
      exact and_iff_left_of_imp fun hn hm => hn.2 ((h.names n).mpr (.inr hm))
    have hrec : Recorded d d' new
        (fun t => ⟨via, t, c.method.name, d.distanceTo via.name + 1⟩)
        (d.distanceTo via.name + 1) :=
      ⟨hpaths ▸ hentries, fun _ => rfl, fun _ => rfl⟩
    have hleads : ∀ n ∈ new.map TypeExpr.name, Leads base name conversions via n := by
      intro n hn
      obtain ⟨hm, hnm⟩ := (hnew' n).mp hn
      exact ⟨c, hc, s, target, hs, htarget, hself, ((hnames n).mp hm).resolve_left hnm⟩
    obtain ⟨hclosing, hgrows⟩ := h.gain hrec (fun _ => rfl)
      (fun n hn => (hnames n).mpr (.inl hn)) hnew' hleads hqueue hnodup hunseen
    refine ⟨d', types', hr', hclosing, hgrows, fun s' hs' => ?_⟩
    cases hs.symm.trans hs'
    refine ⟨target, htarget, .inr fun n hn => ⟨(hnames n).mpr (.inr hn), ?_⟩⟩
    exact hclosing.bounded via List.mem_cons_self n

theorem applyConversions_closing (hb : base.Unshadowed) {cs : List Conversion}
    (hcs : cs ⊆ conversions) (hr : ClassAt base name r d types)
    (h : Closing base name conversions before done ⟨via :: f.queue, f.unseen⟩ d types)
    {g : { g : Frontier // g.size = f.size }}
    (hrun : applyConversions name utility via f cs r = .ok g r') :
    ∃ d' types', ClassAt base name r' d' types' ∧
      Closing base name conversions before done ⟨via :: g.1.queue, g.1.unseen⟩ d' types' ∧
      Grows d types d' types' ∧ ∀ c ∈ cs, Handled base name d' types' via c := by
  induction cs generalizing r d types f with
  | nil =>
    obtain ⟨hg, rfl⟩ := applyConversions_nil_eq_ok hrun
    rw [hg]
    exact ⟨d, types, hr, h, fun n hn => ⟨hn, rfl⟩, by simp⟩
  | cons c cs ih =>
    obtain ⟨hc, hcs⟩ := List.cons_subset.mp hcs
    obtain ⟨gained, r₁, g', hstep, hrest, hg⟩ := applyConversions_cons_eq_ok hrun
    obtain ⟨d₁, types₁, hr₁, h₁, hgrows₁, hhandled⟩ := applyConversion_closing hb hr h hc hstep
    obtain ⟨d₂, types₂, hr₂, h₂, hgrows₂, hall⟩ := ih hcs hr₁ h₁ hrest
    rw [hg]
    refine ⟨d₂, types₂, hr₂, h₂, fun n hn => ?_, List.forall_mem_cons.mpr ⟨?_, hall⟩⟩
    · obtain ⟨hn₁, he₁⟩ := hgrows₁ n hn
      exact ⟨(hgrows₂ n hn₁).1, (hgrows₂ n hn₁).2.trans he₁⟩
    · refine hhandled.mono hgrows₂ (Explored.name_mem h₁ ((h₁.explored via).mpr (.inr ?_)))
      exact List.mem_cons_self

end Step

/-! ## The whole exploration -/

section Run

variable {base r r' : Registry} {name utility : String} {conversions : List Conversion}
  {before done types : List TypeExpr} {f : Frontier} {d : Definition}

theorem Closing.finish {via : TypeExpr}
    (h : Closing base name conversions before done ⟨via :: f.queue, f.unseen⟩ d types)
    (hall : ∀ c ∈ conversions, Handled base name d types via c) :
    Closing base name conversions before (via :: done) f d types where
  names := h.names
  fresh := h.fresh
  nodup := h.nodup
  unseen := h.unseen
  explored t := by
    rw [h.explored, List.mem_cons, List.mem_cons]
    tauto
  path := h.path
  ascending := (List.pairwise_cons.mp h.ascending).2
  bounded t ht := h.bounded t (List.mem_cons_of_mem _ ht)
  handled := List.forall_mem_cons.mpr ⟨hall, h.handled⟩

theorem explore_closing (hb : base.Unshadowed) (hr : ClassAt base name r d types)
    (h : Closing base name conversions before done f d types) {u : Unit}
    (hrun : explore name utility conversions f r = .ok u r') :
    ∃ d' types' done' unseen', ClassAt base name r' d' types' ∧
      Closing base name conversions before done' ⟨[], unseen'⟩ d' types' := by
  induction hsize : f.size using Nat.strong_induction_on generalizing r d types done f with
  | _ size ih =>
    obtain ⟨queue, unseen⟩ := f
    cases queue with
    | nil =>
      obtain rfl := explore_nil_eq_ok hrun
      exact ⟨d, types, done, unseen, hr, h⟩
    | cons via queue =>
      obtain ⟨g, r₁, hstep, hrest⟩ := explore_cons_eq_ok hrun
      obtain ⟨d₁, types₁, hr₁, h₁, _, hall⟩ :=
        applyConversions_closing hb (List.Subset.refl _) hr h hstep
      refine ih g.1.size ?_ hr₁ (h₁.finish hall) hrest rfl
      rw [g.2, ← hsize]
      simp [Frontier.size]

theorem closing_start (hp : d.paths = ∅) :
    Closing r name conversions before [] (startFrontier r conversions before) d before := by
  have hdist : ∀ n, d.distanceTo n = 0 := by
    intro n
    rw [Definition.distanceTo, hp]
    rfl
  have hempty : ∀ n, d.paths.get? n = none := by
    intro n
    rw [hp]
    rfl
  refine ⟨fun n => ?_, ?_, ?_, fun n hn hnot => ?_, fun t => ?_, fun n p h => ?_, ?_,
    fun t _ n => ?_, by simp⟩
  · simp [hp]
  · simp [hp]
  · exact (nodup_newOccurrences _ _).filter _
  · refine List.mem_filter.mpr ⟨mem_firstOccurrences.mpr ?_, decide_eq_true fun hm => hnot ?_⟩
    · exact List.mem_append_left _ (List.mem_cons_of_mem _ hn)
    · obtain ⟨t, ht, rfl⟩ := List.mem_map.mp hm
      exact List.mem_map.mpr ⟨t, (List.mem_filter.mp ht).1, rfl⟩
  · simp [Explored, startFrontier, hp, Table.values,
      show (∅ : Table ConversionPath).entries = [] from rfl]
  · simp [hempty] at h
  · exact List.pairwise_of_forall fun t u => by rw [hdist, hdist]
  · rw [hdist, hdist]
    omega

/-- **The exploration ends with an empty queue**, and all that is explored is done. -/
theorem closeClass_closing (hb : r.Unshadowed) (hd : r.get? name = some d)
    (hc : d.isNamedClass = true) (hp : d.paths = ∅) {u : Unit}
    (h : closeClass name utility conversions r = .ok u r') :
    ∃ before d' types' done' unseen', r.ancestors d = .ok before ∧ ClassAt r name r' d' types' ∧
      Closing r name conversions before done' ⟨[], unseen'⟩ d' types' := by
  obtain ⟨e, before, he, ht, h⟩ := closeClass_eq_ok_iff.mp h
  cases hd.symm.trans he
  obtain ⟨d', types', done', unseen', hr', hclosing⟩ := explore_closing hb
    ⟨.refl name r, hd, hc, ht⟩ (closing_start hp) h
  exact ⟨before, d', types', done', unseen', ht, hr', hclosing⟩

/-- Every conversion that applies to an explored type leads to the class itself or to a name among
its ancestors. -/
def Saturated (r : Registry) (d : Definition) (starts : List TypeExpr)
    (conversions : List Conversion) : Prop :=
  ∃ types, r.ancestors d = .ok types ∧ ∀ via, Explored starts d.paths via →
    ∀ c ∈ conversions, ∀ s, c.typeParams.infer c.source via = .ok s →
      ∃ target, c.target.replace s = .ok target ∧
        (target.name = d.name ∨ target.name ∈ types.map TypeExpr.name)

/-- **The closure reaches its fixed point.** In a registry in which no definition inherits from a
type of the name of one of its own type parameters, a class without paths is saturated once it has
been closed. -/
theorem closeClass_saturated (hr : r.Unshadowed) (hd : r.get? name = some d)
    (hc : d.isNamedClass = true) (hp : d.paths = ∅)
    (h : closeClass name utility conversions r = .ok () r') :
    ∃ before d', r.ancestors d = .ok before ∧ r'.get? name = some d' ∧
      Saturated r' d' (before.filter (isArchetyped r)) conversions := by
  obtain ⟨before, d', types', done, unseen, hbefore, hclass, hclosing⟩ :=
    closeClass_closing hr hd hc hp h
  refine ⟨before, d', hbefore, hclass.found, types', hclass.ancestors, fun via hvia c hcm s hs => ?_⟩
  have hdone : via ∈ done := by simpa using (hclosing.explored via).mp hvia
  obtain ⟨target, ht, hself | hall⟩ := hclosing.handled via hdone c hcm s hs
  · exact ⟨target, ht, .inl (hself.trans hclass.name_eq.symm)⟩
  · exact ⟨target, ht, .inr (hall target.name (.inl rfl)).1⟩

end Run

/-! ## Small models -/

/-- Interfaces with an archetype, given by name, parameters and parents, and a class `C` that
implements some of them. -/
def closureModel (interfaces : List (String × List String × List TypeExpr))
    (implemented : List TypeExpr) : Registry :=
  { Registry.empty "Forms" with
    definitions :=
      (interfaces.map fun (name, params, parents) =>
        { Definition.make name (.interface parents (some "Sql")) with
          typeParams := .ofNames params }) ++
      [Definition.make "C" (.namedClass none implemented ∅)] }

/-- A conversion from one type to another. -/
def conversionOf (params : List String) (source target : TypeExpr) : Conversion where
  typeParams := .ofNames params
  source := source
  target := target
  method := .make ⟨"Forms", .namedClass, []⟩ ("to" ++ target.name) target [⟨source, "x", ∅, false⟩]

/-- From `A` a conversion leads to `B<A>`, which inherits from `K`, and from `B<T>` one leads to
`D<T>`. -/
def chainModel : Registry :=
  closureModel [("A", [], []), ("K", [], []), ("B", ["T"], [.named "K"]), ("D", ["T"], [])]
    [.named "A"]

@[inherit_doc chainModel]
def chainConversions : List Conversion :=
  [conversionOf ["T"] (.generic "B" [.plain (.named "T")]) (.generic "D" [.plain (.named "T")]),
   conversionOf [] (.named "A") (.generic "B" [.plain (.named "A")])]

/-- The class of the chain is saturated with the ancestors `A`, `B`, `K` and `D`. -/
theorem closeClass_saturated_chain :
    chainModel.Unshadowed ∧ ∃ r' d before d',
      closeClass "C" "Forms" chainConversions chainModel = .ok () r' ∧
      chainModel.get? "C" = some d ∧ d.isNamedClass = true ∧ d.paths = ∅ ∧
      chainModel.ancestors d = .ok before ∧ r'.get? "C" = some d' ∧
      Saturated r' d' (before.filter (isArchetyped chainModel)) chainConversions ∧
      r'.ancestorNames "C" (.named "C") = .ok ["A", "B", "K", "D"] := by
  have hr : chainModel.Unshadowed := by decide +kernel
  obtain ⟨_, r', hrun, hnames⟩ := Resolution.exists_of_succeeds
    (x := closeClass "C" "Forms" chainConversions)
    (p := fun r' => r'.ancestorNames "C" (.named "C") = .ok ["A", "B", "K", "D"])
    (show Resolution.succeeds _ chainModel _ = true by decide +kernel)
  have hd : chainModel.get? "C" =
      some (Definition.make "C" (.namedClass none [.named "A"] ∅)) := by decide +kernel
  obtain ⟨before, d', hbefore, hd', hsaturated⟩ :=
    closeClass_saturated hr hd (by decide) (by decide) hrun
  exact ⟨hr, r', _, before, d', hrun, hd, by decide, by decide, hbefore, hd', hsaturated,
    by simpa using hnames⟩

/-- The interface `J<T>` inherits from its own parameter `T`, which is an interface as well. -/
def shadowedModel (implemented : List TypeExpr) : Registry :=
  closureModel [("A", [], []), ("T", [], []), ("J", ["T"], [.named "T"])] implemented

/-- **Shadowed names are lost.** The class gains `T` and then `J<Foo>`, through which it inherits
from `Foo`; as `J` itself inherits from `T`, the interface `T` is dropped, although a conversion
leads there. -/
theorem closeClass_not_saturated_shadowed :
    ∃ r' d before d', closeClass "C" "Forms" [conversionOf [] (.named "A") (.named "T"),
        conversionOf [] (.named "A") (.generic "J" [.plain (.named "Foo")])]
        (shadowedModel [.named "A"]) = .ok () r' ∧
      (shadowedModel [.named "A"]).get? "C" = some d ∧ d.isNamedClass = true ∧ d.paths = ∅ ∧
      (shadowedModel [.named "A"]).ancestors d = .ok before ∧ r'.get? "C" = some d' ∧
      r'.ancestorNames "C" (.named "C") = .ok ["A", "J", "Foo"] ∧
      ¬ Saturated r' d' (before.filter (isArchetyped (shadowedModel [.named "A"])))
        [conversionOf [] (.named "A") (.named "T"),
          conversionOf [] (.named "A") (.generic "J" [.plain (.named "Foo")])] := by
  obtain ⟨_, r', hrun, hnames⟩ := Resolution.exists_of_succeeds
    (x := closeClass "C" "Forms" [conversionOf [] (.named "A") (.named "T"),
      conversionOf [] (.named "A") (.generic "J" [.plain (.named "Foo")])])
    (p := fun r' => r'.ancestorNames "C" (.named "C") = .ok ["A", "J", "Foo"])
    (show Resolution.succeeds _ (shadowedModel [.named "A"]) _ = true by decide +kernel)
  have hnames := of_decide_eq_true hnames
  obtain ⟨d', types, hd', ht, hn⟩ := Registry.ancestorNames_eq_ok_iff.mp hnames
  refine ⟨r', Definition.make "C" (.namedClass none [.named "A"] ∅), [.named "A"], d', hrun,
    by decide +kernel, by decide, by decide, by decide +kernel, hd', hnames, ?_⟩
  rintro ⟨types', ht', hall⟩
  cases ht.symm.trans ht'
  have hinfer : TypeParams.infer (.ofNames []) (.named "A") (.named "A") = .ok ∅ := by
    decide +kernel
  obtain ⟨target, htarget, hself | hm⟩ :=
    hall (.named "A") (.inl (by decide +kernel)) _ List.mem_cons_self ∅ hinfer
  all_goals cases (TypeExpr.replace_empty (.named "T")).symm.trans htarget
  · exact absurd (hself.trans (Registry.name_of_get? hd')) (by decide)
  · exact absurd (hn ▸ hm) (by decide)

end FluentGrammar
