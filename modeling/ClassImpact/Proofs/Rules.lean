import ClassImpact.Proofs.Impacts

/-!
# Rules in relisted scenes

Each rule looks at the graphs of its scene through searches and loops over sets.  In two
scenes whose graphs list their sets in another order, a rule has matching impacts, or is
unbounded in both.  The rules that limit usages do so in the order of lists.
-/

namespace ClassImpact

namespace Scene

open Impact

/-- The same scene, the sets of its graphs listed in another order. -/
structure Relisted (s t : Scene) : Prop where
  main : s.main.Relisted t.main
  round : s.round.Relisted t.round
  names : t.names = s.names
  root : t.root = s.root
  constructor : t.constructor = s.constructor
  accepts : t.accepts = s.accepts
  canAsk : t.canAsk = s.canAsk

theorem Relisted.refl (s : Scene) : s.Relisted s where
  main := .refl s.main
  round := .refl s.round
  names := rfl
  root := rfl
  constructor := rfl
  accepts := rfl
  canAsk := rfl

/-- Everything that may have to be named has a name. -/
structure Named (s : Scene) : Prop where
  classes : ∀ {c f}, s.main.fileOf.get? c = some f → s.names.Knows c
  files : ∀ {c f}, s.main.fileOf.get? c = some f → s.names.Knows f
  past : ∀ {f c}, c ∈ s.main.classesIn.valuesOf f → s.names.Knows c.name
  round : ∀ {f c}, c ∈ s.round.classesIn.valuesOf f → s.names.Knows c.name

variable {s t : Scene}

theorem Relisted.old (h : s.Relisted t) : s.old.Relisted t.old := by
  rw [Scene.old, Scene.old, h.names]
  exact View.relisted_alone h.main s.names

theorem Relisted.updated (h : s.Relisted t) : s.updated.Relisted t.updated := by
  rw [Scene.updated, Scene.updated, h.names]
  exact View.relisted_overlay h.main h.round s.names

theorem Relisted.fileOf (h : s.Relisted t) : t.main.fileOf = s.main.fileOf := h.main.fileOf

theorem Named.old (hn : s.Named) : s.old.Named := by
  intro n c hc
  obtain ⟨f, -, hmem, -⟩ := Graph.describe?_eq_some.1
    (show s.main.describe? n = some c by simpa [View.describe?, Scene.old] using hc)
  exact hn.past hmem

theorem Named.updated (hn : s.Named) : s.updated.Named := by
  intro n c hc
  have hc : (s.round.describe? n).or (s.main.describe? n) = some c := hc
  rw [Option.or_eq_some_iff] at hc
  rcases hc with hc | ⟨-, hc⟩
  · obtain ⟨f, -, hmem, -⟩ := Graph.describe?_eq_some.1 hc
    exact hn.round hmem
  · obtain ⟨f, -, hmem, -⟩ := Graph.describe?_eq_some.1 hc
    exact hn.past hmem

theorem Named.of_entries
    (hfiles : ∀ e ∈ s.main.fileOf.entries, s.names.Knows e.1 ∧ s.names.Knows e.2)
    (hpast : ∀ e ∈ s.main.classesIn.entries, ∀ c ∈ e.2.toList, s.names.Knows c.name)
    (hround : ∀ e ∈ s.round.classesIn.entries, ∀ c ∈ e.2.toList, s.names.Knows c.name) :
    s.Named where
  classes {c f} hf := (hfiles (c, f) (Table.mem_entries.2 hf)).1
  files {c f} hf := (hfiles (c, f) (Table.mem_entries.2 hf)).2
  past hc := by
    obtain ⟨_, hs, hc⟩ := Table.exists_entry hc
    exact hpast _ hs _ hc
  round hc := by
    obtain ⟨_, hs, hc⟩ := Table.exists_entry hc
    exact hround _ hs _ hc

theorem Named.relisted (hn : s.Named) (h : s.Relisted t) : t.Named where
  classes {c f} hc := by
    rw [h.fileOf] at hc
    rw [h.names]
    exact hn.classes hc
  files {c f} hc := by
    rw [h.fileOf] at hc
    rw [h.names]
    exact hn.files hc
  past {f c} hc := by
    obtain ⟨d, hd, _, rfl, -⟩ := (h.main.relist_classesIn f).2 c hc
    have hknows : s.names.Knows d.name := hn.past hd
    rwa [h.names]
  round {f c} hc := by
    obtain ⟨d, hd, _, rfl, -⟩ := (h.round.relist_classesIn f).2 c hc
    have hknows : s.names.Knows d.name := hn.round hd
    rwa [h.names]

section

variable (h : s.Relisted t) (hn : s.Named)

/-! ## Files -/

include h

theorem plain_file {f : Symbol} (hf : s.names.Knows f) : (s.file f).Plain (t.file f) := by
  obtain ⟨text, hf⟩ := hf
  unfold Scene.file
  rw [h.names]
  exact ofResult_both (.of_eq hf rfl) fun _ _ hxy => hxy ▸ plain_ofFiles _

theorem plain_acceptedFile {f : Symbol} (hf : s.names.Knows f) :
    (s.acceptedFile f).Plain (t.acceptedFile f) := by
  obtain ⟨text, hf⟩ := hf
  unfold Scene.acceptedFile
  rw [h.names, h.accepts]
  refine ofResult_both (.of_eq hf rfl) fun x y hxy => ?_
  subst hxy
  by_cases hx : s.accepts ⟨x⟩ = true
  · rw [if_pos hx]
    exact plain_ofFiles _
  · rw [if_neg hx]
    exact plain_none

theorem plain_users (c : Symbol) : (s.users c).Plain (t.users c) :=
  plain_ofDependants (h.main.mem_dependantsOf c)

theorem plain_uses (use : Symbol → Usage) (owner : Symbol) {below below' : List Symbol}
    (hbelow : ∀ c, c ∈ below ↔ c ∈ below') :
    (s.uses use owner below).Plain (t.uses use owner below') := by
  refine (plain_ofUsages fun u => ?_).append (plain_ofDependants fun c => ?_)
  · simp only [List.mem_map, List.mem_cons, hbelow]
  · simp only [List.mem_flatMap, hbelow, h.main.mem_dependantsOf]

include hn

theorem plain_onFileOf {draw draw' : Symbol → Impact}
    (hdraw : ∀ f, s.names.Knows f → (draw f).Plain (draw' f)) (c : Symbol) :
    (s.onFileOf draw c).Plain (t.onFileOf draw' c) := by
  unfold Scene.onFileOf
  rw [h.fileOf]
  cases hc : s.main.fileOf.get? c with
  | none => exact plain_none
  | some f => exact hdraw f (hn.files hc)

theorem plain_fileOfClass (c : Symbol) : (s.fileOfClass c).Plain (t.fileOfClass c) :=
  plain_onFileOf h hn (fun _ => plain_file h) c

theorem plain_acceptedFileOfClass (c : Symbol) :
    (s.acceptedFileOfClass c).Plain (t.acceptedFileOfClass c) :=
  plain_onFileOf h hn (fun _ => plain_acceptedFile h) c

theorem plain_packageFiles {c : Symbol} (hc : s.names.Knows c) :
    (s.packageFiles c).Plain (t.packageFiles c) := by
  obtain ⟨package, hpackage⟩ := hc.packageOf
  unfold Scene.packageFiles
  rw [h.names, h.fileOf]
  refine ofResult_both (.of_eq hpackage rfl) fun p q hpq => ?_
  subst hpq
  refine plain_loop (.diagonal _) fun e _ he => ?_
  obtain ⟨rfl, he⟩ := he
  have hget := Table.mem_entries.1 he
  obtain ⟨r, hr⟩ := (hn.classes hget).packageOf
  refine ofResult_both (.of_eq hr rfl) fun x y hxy => ?_
  subst hxy
  by_cases hx : x = p
  · rw [if_pos hx, if_pos hx]
    exact plain_acceptedFile h (hn.files hget)
  · rw [if_neg hx, if_neg hx]
    exact plain_none

/-! ## Classes below -/

theorem plain_subclasses (c : Symbol) (mentions : Bool) :
    (s.subclasses c mentions).Plain (t.subclasses c mentions) := by
  have hdown : ∀ {r : Scene} (p n : Symbol), n ∈ r.sourcedWalk.neighbours p →
      n ∈ r.main.directSubclasses p := by
    intro r p n hp
    have hp : n ∈ if r.main.fileOf.has p then r.main.directSubclasses p else [] := hp
    split at hp
    · exact hp
    · simp at hp
  have hsame : ∀ p n, n ∈ s.sourcedWalk.neighbours p ↔ n ∈ t.sourcedWalk.neighbours p := by
    intro p n
    show n ∈ (if s.main.fileOf.has p then s.main.directSubclasses p else []) ↔
      n ∈ if t.main.fileOf.has p then t.main.directSubclasses p else []
    rw [h.fileOf]
    cases s.main.fileOf.has p with
    | true => exact h.main.mem_directSubclasses p n
    | false => exact Iff.rfl
  have hfound := Graph.mem_findFrom_down hdown hdown hsame (fun _ _ _ => rfl)
    (fun _ _ _ hq => (Option.some.inj hq).symm) c
  refine plain_loop (.cons rfl (.of_iff hfound)) fun d _ hd => ?_
  subst hd
  rw [h.fileOf]
  cases hf : s.main.fileOf.get? d with
  | none => exact plain_none
  | some f =>
    dsimp only
    rw [h.updated.isSome_describe?]
    exact (((plain_ofUsages fun _ => Iff.rfl).onlyIf _).append (plain_users h d)).append
      (plain_file h (hn.files hf))

/-! ## Widening -/

/-- A widened change: one that stops stops in both scenes. -/
theorem alike_widen (owner : Symbol) (access : Access) (field : Option Symbol) {c : Symbol}
    (hc : s.names.Knows c) :
    (s.widen owner access field c).Alike (t.widen owner access field c) := by
  unfold Scene.widen
  cases access.isPublic with
  | true => exact .inl ⟨rfl, rfl⟩
  | false =>
    refine ((plain_loop (.of_iff (View.mem_inheriting h.old _ _)) fun d _ hd => ?_).onlyIf _
      |>.append (plain_packageFiles h hn hc)).alike
    subst hd
    exact plain_acceptedFileOfClass h hn d

theorem alike_constant (hask : s.canAsk = false) {c c' : ClassInfo} (hc : s.old.SamePlace c c')
    (f : FieldInfo) (removed accessChanged : Bool) :
    (s.constant c f removed accessChanged).Alike (t.constant c' f removed accessChanged) := by
  obtain ⟨⟨_, rfl, -⟩, hc⟩ := hc
  unfold Scene.constant
  rw [h.canAsk, hask]
  exact alike_widen h hn c.name f.access (some f.name) hc

end

theorem matches_limited {usages usages' : List Usage} (h : ∀ u, u ∈ usages ↔ u ∈ usages')
    {residency : Except Fault Residency} {r : Residency} (hr : residency = .ok r) :
    (limited usages residency).Matches (limited usages' residency) := by
  subst hr
  exact matches_ofLimit h r

theorem noInheritorOf_ok {names : NameTable} {c : Symbol} (hc : names.Knows c) :
    ∃ r, Residency.noInheritorOf names c = .ok r := by
  obtain ⟨package, hpackage⟩ := hc.packageOf
  exact ⟨_, by rw [Residency.noInheritorOf, hpackage]; rfl⟩

theorem outsideOf_ok {names : NameTable} {c : Symbol} (hc : names.Knows c) :
    ∃ r, Residency.outsideOf names c = .ok r := by
  obtain ⟨package, hpackage⟩ := hc.packageOf
  exact ⟨_, by rw [Residency.outsideOf, hpackage]; rfl⟩

end Scene

end ClassImpact
