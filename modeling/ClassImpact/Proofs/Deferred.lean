import ClassImpact.Proofs.Answers
import ClassImpact.Proofs.Patches

/-!
# Questions in the place of widened changes

A constant that changes leaves no usage in its readers.  When nobody can be asked about
them, the change is widened on the spot, and an unbounded one ends the comparison there.
When somebody can, a question takes its place, and the events that come behind it are
looked at first.

Nothing else depends on whether somebody can be asked.  So the impact of a round with
questions searches for the same as the one without, and it draws in the same files once its
questions are widened; or both of them reach further than can be told.

## Main results

* `Impact.Defers`: one impact asks about what another widens
* `Scene.defers_impact`: the impact of a round with questions against the one without
-/

namespace ClassImpact

/-! ## Names that a comparison needs -/

namespace NameTable

variable {t names : NameTable} {main round : Graph} {q : RoundRequest} {c : Symbol}

theorem Knows.intern (h : t.Knows c) (name : String) : (t.intern name).2.Knows c := by
  obtain ⟨text, h⟩ := h
  cases hlookup : t.lookup name with
  | some s =>
    rw [intern_of_lookup hlookup]
    exact ⟨text, h⟩
  | none =>
    refine ⟨text, ?_⟩
    have htext : t.names[c.id]? = some text := by
      cases hname : t.names[c.id]? with
      | some text' => simpa [NameTable.name, name?, hname] using h
      | none => simp [NameTable.name, name?, hname] at h
    obtain ⟨hlt, -⟩ := Array.getElem?_eq_some_iff.1 htext
    rw [intern_of_lookup_none hlookup]
    simp [NameTable.name, name?, Array.getElem?_push, htext, hlt.ne]

/-- Everything that a comparison may have to name has a name: the classes and files of the
graph so far, the classes of the round, and the fields that can be asked about. -/
structure Covers (names : NameTable) (main round : Graph) : Prop where
  files : ∀ e ∈ main.fileOf.entries, names.Knows e.1 ∧ names.Knows e.2
  past : ∀ e ∈ main.classesIn.entries, ∀ c ∈ e.2.toList,
    names.Knows c.name ∧ ∀ g ∈ c.fields, names.Knows g.name
  round : ∀ e ∈ round.classesIn.entries, ∀ c ∈ e.2.toList, names.Knows c.name

theorem Covers.intern (h : names.Covers main round) (name : String) :
    (names.intern name).2.Covers main round where
  files e he := (h.files e he).imp (·.intern name) (·.intern name)
  past e he c hc := (h.past e he c hc).imp (·.intern name) fun hfields g hg =>
    (hfields g hg).intern name
  round e he c hc := (h.round e he c hc).intern name

theorem Covers.keyNames (h : names.Covers main round) :
    (Scene.of names main round q).names.Covers main round :=
  (h.intern rootClassName).intern constructorName

theorem Covers.named {s : Scene} (h : s.names.Covers s.main s.round) : s.Named :=
  .of_entries h.files (fun e he c hc => (h.past e he c hc).1) h.round

theorem Covers.field (h : names.Covers main round) {file : Symbol} {d : ClassInfo}
    (hd : d ∈ main.classesIn.valuesOf file) {f : FieldInfo} (hf : f ∈ d.fields) :
    names.Knows f.name := by
  obtain ⟨_, hs, hd⟩ := Table.exists_entry hd
  exact (h.past _ hs d hd).2 f hf

end NameTable

/-! ## Impacts that defer -/

namespace Impact

/-- What an impact searches for, apart from the files it draws in and the questions it puts. -/
def sought (a : Impact) : Impact := { a with files := [], requests := [] }

theorem sought_append (a b : Impact) : (a ++ b).sought = a.sought ++ b.sought := by
  cases h : a.stop <;> simp [append_def, andThen, sought, h]

/-- An impact that does not stop, or stops at something unbounded. -/
def Faultless (a : Impact) : Prop := a.stop = .none ∨ a.stop = some .unbounded

variable {w : ConstantRequest → Impact} {a b a' b' : Impact}

/-- An impact that is unbounded itself, or becomes so when its questions are widened. -/
def Overreaches (w : ConstantRequest → Impact) (b : Impact) : Prop :=
  b.stop = some .unbounded ∨
    b.stop = .none ∧ ∃ r ∈ b.requests, (w r).stop = some .unbounded

/-- Neither impact stops, both search for the same, and what one draws in beyond the other
is what the other's questions draw in when they are widened. -/
structure Postpones (w : ConstantRequest → Impact) (a b : Impact) : Prop where
  goesOn : a.stop = .none
  silent : a.requests = []
  sought : a.sought = b.sought
  bounded : ∀ r ∈ b.requests, (w r).stop = .none
  files : ∀ path, path ∈ a.files ↔ path ∈ b.files ∨ ∃ r ∈ b.requests, path ∈ (w r).files

/-- One impact asks about what another widens: the other is unbounded because of it, or
both bring about the same in the end. -/
structure Defers (w : ConstantRequest → Impact) (a b : Impact) : Prop where
  faultless : b.stop = .none → ∀ r ∈ b.requests, (w r).Faultless
  together : a.stop = some .unbounded ∧ b.Overreaches w ∨ a.Postpones w b

theorem Postpones.stop (h : a.Postpones w b) : b.stop = .none :=
  (congrArg Impact.stop h.sought).symm.trans h.goesOn

/-- What is drawn in, from the files of both impacts. -/
theorem Postpones.exists_files (h : a.Postpones w b) (P : SourcePath → Prop) :
    (∃ path ∈ a.files, P path) ↔
      (∃ path ∈ b.files, P path) ∨ ∃ r ∈ b.requests, ∃ path ∈ (w r).files, P path := by
  simp only [h.files]
  constructor
  · intro ⟨path, hpath, hP⟩
    rcases hpath with hpath | ⟨r, hr, hpath⟩
    · exact .inl ⟨path, hpath, hP⟩
    · exact .inr ⟨r, hr, path, hpath, hP⟩
  · intro hP
    rcases hP with ⟨path, hpath, hP⟩ | ⟨r, hr, path, hpath, hP⟩
    · exact ⟨path, .inl hpath, hP⟩
    · exact ⟨path, .inr ⟨r, hr, hpath⟩, hP⟩

theorem Postpones.append (h : a.Postpones w b) (h' : a'.Postpones w b') :
    (a ++ a').Postpones w (b ++ b') where
  goesOn := stop_append.2 ⟨h.goesOn, h'.goesOn⟩
  silent := by rw [requests_append h.goesOn, h.silent, h'.silent, List.append_nil]
  sought := by rw [sought_append, sought_append, h.sought, h'.sought]
  bounded r hr := by
    rw [requests_append h.stop, List.mem_append] at hr
    exact hr.elim (h.bounded r) (h'.bounded r)
  files path := by
    have hfiles := brings_append (b := a') h.goesOn (.file path)
    have hfiles' := brings_append (b := b') h.stop (.file path)
    simp only [Brings] at hfiles hfiles'
    rw [hfiles, hfiles', requests_append h.stop, h.files, h'.files]
    simp only [List.mem_append, or_and_right, exists_or]
    exact or_or_or_comm

theorem Overreaches.append (h : b.Overreaches w) (h' : b'.Faultless) :
    (b ++ b').Overreaches w := by
  rcases h with hstop | ⟨hstop, r, hr, hwide⟩
  · rw [append_of_stop hstop]
    exact .inl hstop
  · -- the question is still there, unless what comes behind it stops on its own
    have happend := stop_append_of_none hstop b'
    refine h'.elim (fun hnone => .inr ⟨happend.trans hnone, r, ?_, hwide⟩) fun hunbounded =>
      .inl (happend.trans hunbounded)
    rw [requests_append hstop]
    exact List.mem_append_left _ hr

theorem Overreaches.behind (h : b.stop = .none) (h' : b'.Overreaches w) :
    (b ++ b').Overreaches w := by
  have happend := stop_append_of_none h b'
  rcases h' with hstop | ⟨hstop, r, hr, hwide⟩
  · exact .inl (happend.trans hstop)
  · refine .inr ⟨happend.trans hstop, r, ?_, hwide⟩
    rw [requests_append h]
    exact List.mem_append_right _ hr

theorem Defers.faultless_stop (h : a.Defers w b) : b.Faultless := by
  rcases h.together with ⟨-, hstop | ⟨hstop, -⟩⟩ | h
  · exact .inr hstop
  · exact .inl hstop
  · exact .inl h.stop

theorem Defers.append (h : a.Defers w b) (h' : a'.Defers w b') :
    (a ++ a').Defers w (b ++ b') where
  faultless hstop r hr := by
    obtain ⟨hb, hb'⟩ := stop_append.1 hstop
    rw [requests_append hb, List.mem_append] at hr
    exact hr.elim (h.faultless hb r) (h'.faultless hb' r)
  together := by
    rcases h.together with ⟨hstop, hover⟩ | hpost
    · refine .inl ⟨?_, hover.append h'.faultless_stop⟩
      rw [append_of_stop hstop, hstop]
    · rcases h'.together with ⟨hstop, hover⟩ | hpost'
      · exact .inl ⟨(stop_append_of_none hpost.goesOn a').trans hstop, hover.behind hpost.stop⟩
      · exact .inr (hpost.append hpost')

/-- What does not depend on whether somebody can be asked. -/
theorem Alike.defers (h : a.Alike a) (w : ConstantRequest → Impact) : a.Defers w a := by
  rcases h with ⟨hstop, -⟩ | h
  · exact ⟨fun hnone => by simp [hstop] at hnone, .inl ⟨hstop, .inl hstop⟩⟩
  · have hsilent := h.silent.1
    refine ⟨fun _ r hr => ?_, .inr ⟨h.goesOn.1, hsilent, rfl, fun r hr => ?_, fun path => ?_⟩⟩
    · simp [hsilent] at hr
    · simp [hsilent] at hr
    · simp [hsilent]

theorem Defers.onlyIf (condition : Bool) (h : a.Defers w b) :
    (onlyIf condition a).Defers w (onlyIf condition b) :=
  onlyIf_related (plain_none.alike.defers w) fun _ => h

/-- Impacts in the same order. -/
theorem Defers.all {l m : List Impact} (h : List.Forall₂ (Defers w) l m) :
    (all l).Defers w (all m) := by
  induction h with
  | nil => exact plain_none.alike.defers w
  | cons hab _ ih => exact hab.append ih

theorem defers_loop {α : Type} {l : List α} {f g : α → Impact}
    (h : ∀ x ∈ l, (f x).Defers w (g x)) : (all (l.map f)).Defers w (all (l.map g)) := by
  refine .all ?_
  rw [List.forall₂_map_left_iff, List.forall₂_map_right_iff, List.forall₂_same]
  exact h

/-! ## Impacts that only draw in files -/

/-- Files are drawn in, and nothing else is brought about. -/
def DrawsOnly (a : Impact) : Prop := ∃ files, a = ofFiles files

theorem DrawsOnly.append (h : a.DrawsOnly) (h' : a'.DrawsOnly) : (a ++ a').DrawsOnly := by
  obtain ⟨files, rfl⟩ := h
  obtain ⟨files', rfl⟩ := h'
  exact ⟨files ++ files', rfl⟩

theorem drawsOnly_none : none.DrawsOnly := ⟨[], rfl⟩

theorem DrawsOnly.all {l : List Impact} (h : ∀ a ∈ l, a.DrawsOnly) : (all l).DrawsOnly :=
  all_induction drawsOnly_none .append h

theorem DrawsOnly.onlyIf (condition : Bool) (h : a.DrawsOnly) :
    (onlyIf condition a).DrawsOnly :=
  onlyIf_induction drawsOnly_none fun _ => h

/-- A question defers its own widening, when that is unbounded or only draws in files. -/
theorem defers_ofRequest {r : ConstantRequest}
    (h : w r = ofStop .unbounded ∨ (w r).DrawsOnly) : (w r).Defers w (ofRequest r) := by
  have hself : ∀ x ∈ (ofRequest r).requests, x = r := fun x hx => List.mem_singleton.1 hx
  rcases h with h | ⟨files, h⟩
  · have hstop : (w r).stop = some .unbounded := by rw [h]; rfl
    exact
      { faultless := fun _ x hx => hself x hx ▸ .inr hstop
        together := .inl ⟨hstop, .inr ⟨rfl, r, List.mem_singleton_self r, hstop⟩⟩ }
  · have hstop : (w r).stop = .none := by rw [h]; rfl
    refine ⟨fun _ x hx => hself x hx ▸ .inl hstop, .inr ⟨hstop, ?_, ?_, ?_, fun path => ?_⟩⟩
    · rw [h]
      rfl
    · rw [h]
      rfl
    · exact fun x hx => hself x hx ▸ hstop
    · simp [ofRequest, none]

end Impact

/-! ## The rules with somebody to ask -/

/-- A changed value was there before. -/
theorem Patch.past_of_mem_changed {α κ δ : Type} [Identified α κ] [DecidableEq κ]
    {compare : α → α → Option δ} {past now : List α} {change : Changed α δ}
    (h : change ∈ (Patch.between compare past now).changed) : change.past ∈ past :=
  (Patch.partner?_eq_some (Patch.mem_changed_iff.1 h).2.1).1

namespace Scene

open Impact

/-- The same scene, with somebody to ask about constants. -/
def asking (s : Scene) : Scene := { s with canAsk := true }

/-- What the change behind a question brings about when it is widened. -/
def widening (s : Scene) (r : ConstantRequest) : Impact :=
  s.widen r.owner r.field.access (some r.field.name) r.owner

variable {s : Scene} {c : ClassInfo} {f : FieldInfo}

section

variable (hn : s.Named)

theorem drawsOnly_acceptedFile {f : Symbol} (hf : s.names.Knows f) :
    (s.acceptedFile f).DrawsOnly := by
  obtain ⟨text, hf⟩ := hf
  unfold acceptedFile
  rw [hf]
  dsimp only [ofResult]
  split
  · exact ⟨_, rfl⟩
  · exact drawsOnly_none

include hn

theorem drawsOnly_onFileOf {draw : Symbol → Impact}
    (hdraw : ∀ f, s.names.Knows f → (draw f).DrawsOnly) (c : Symbol) :
    (s.onFileOf draw c).DrawsOnly := by
  unfold onFileOf
  cases hc : s.main.fileOf.get? c with
  | none => exact drawsOnly_none
  | some f => exact hdraw f (hn.files hc)

theorem drawsOnly_acceptedFileOfClass (c : Symbol) : (s.acceptedFileOfClass c).DrawsOnly :=
  drawsOnly_onFileOf hn (fun _ => drawsOnly_acceptedFile) c

theorem drawsOnly_packageFiles {c : Symbol} (hc : s.names.Knows c) :
    (s.packageFiles c).DrawsOnly := by
  obtain ⟨package, hpackage⟩ := hc.packageOf
  unfold packageFiles
  rw [hpackage]
  refine .all fun a ha => ?_
  obtain ⟨e, he, rfl⟩ := List.mem_map.1 ha
  have hget := Table.mem_entries.1 he
  obtain ⟨p, hp⟩ := (hn.classes hget).packageOf
  rw [hp]
  dsimp only [ofResult]
  split
  · exact drawsOnly_acceptedFile (hn.files hget)
  · exact drawsOnly_none

/-- A change that is widened is unbounded, or draws in files. -/
theorem widen_cases (owner : Symbol) (access : Access) (field : Option Symbol) {c : Symbol}
    (hc : s.names.Knows c) :
    s.widen owner access field c = ofStop .unbounded ∨
      (s.widen owner access field c).DrawsOnly := by
  unfold widen
  cases access.isPublic with
  | true => exact .inl rfl
  | false =>
    refine .inr (.append (.onlyIf _ (.all fun a ha => ?_)) (drawsOnly_packageFiles hn hc))
    obtain ⟨d, -, rfl⟩ := List.mem_map.1 ha
    exact drawsOnly_acceptedFileOfClass hn d

variable (hask : s.canAsk = false)

include hask

/-- **A changed constant** is asked about when somebody can be asked, and is widened when
nobody can. -/
theorem defers_constant (hc : s.names.Knows c.name) (hf : s.names.Knows f.name)
    (removed accessChanged : Bool) :
    (s.constant c f removed accessChanged).Defers s.widening
      (s.asking.constant c f removed accessChanged) := by
  have hwiden := widen_cases hn c.name f.access (some f.name) hc
  obtain ⟨owner, howner⟩ := hc
  obtain ⟨field, hfield⟩ := hf
  have hsilent : s.constant c f removed accessChanged =
      s.widen c.name f.access (some f.name) c.name := by simp [constant, hask]
  have hasking : s.asking.constant c f removed accessChanged =
      ofRequest ⟨c.name, f, dottedName owner, field, removed, accessChanged⟩ := by
    simp [constant, asking, howner, hfield, ofResult]
  rw [hsilent, hasking]
  exact defers_ofRequest (w := s.widening)
    (r := ⟨c.name, f, dottedName owner, field, removed, accessChanged⟩) hwiden

theorem defers_removedField (hc : s.names.Knows c.name) (hf : s.names.Knows f.name) :
    (s.removedField c f).Defers s.widening (s.asking.removedField c f) :=
  ((defers_constant hn hask hc hf true false).onlyIf _).append
    ((plain_reads (.refl s) (.refl c) f).alike.defers _)

theorem defers_changedField (hc : s.names.Knows c.name) {change : Changed FieldInfo Revision}
    (hf : s.names.Knows change.past.name) :
    (s.changedField c change).Defers s.widening (s.asking.changedField c change) := by
  rw [changedField_eq, changedField_eq]
  exact ((defers_constant hn hask hc hf false _).onlyIf _).append
    ((alike_changedSearch (.refl s) ⟨.refl c, hc⟩ change).defers _)

/-- What the changes of a class's fields bring about. -/
theorem defers_fields (hc : s.names.Knows c.name) {p : Patch FieldInfo Revision}
    (hremoved : ∀ f ∈ p.removed, s.names.Knows f.name)
    (hchanged : ∀ change ∈ p.changed, s.names.Knows change.past.name) :
    (s.fields c p).Defers s.widening (s.asking.fields c p) := by
  have hadded := fun f => alike_addedField (.refl s) hn ⟨.refl c, hc⟩ f
  refine ((defers_loop fun f _ => (hadded f).defers _).append
    (defers_loop fun f hf => ?_)).append (defers_loop fun change hchange => ?_)
  · exact defers_removedField hn hask hc (hremoved f hf)
  · exact defers_changedField hn hask hc (hchanged change hchange)

/-- What a changed class brings about. -/
theorem defers_changedClass {change : Changed ClassInfo ClassChange}
    (hc : s.names.Knows change.past.name)
    (hremoved : ∀ f ∈ change.diff.fields.removed, s.names.Knows f.name)
    (hchanged : ∀ f ∈ change.diff.fields.changed, s.names.Knows f.past.name) :
    (s.changedClass change).Defers s.widening (s.asking.changedClass change) := by
  rw [changedClass_eq, changedClass_eq]
  exact ((alike_besidesFields_self hn hc).defers _).append
    (defers_fields hn hask hc hremoved hchanged)

end

/-! ## The events of a round -/

variable (hnames : s.names.Covers s.main s.round) (hask : s.canAsk = false)

include hnames hask

theorem defers_event {file : Symbol} {e : ClassEvent}
    (he : e ∈ ClassEvent.ofFile s.main s.round file) :
    (s.event e).Defers s.widening (s.asking.event e) := by
  cases e with
  | changed change =>
    obtain ⟨hpast, -, -, hdiff, -⟩ := ClassEvent.mem_ofFile_changed.1 he
    have hfields : change.diff.fields = fieldPatch change.past.fields change.now.fields := by
      rw [hdiff]
      rfl
    refine defers_changedClass hnames.named hask (hnames.named.past hpast) (fun f hf => ?_)
      fun f hf => ?_
    · rw [hfields] at hf
      exact hnames.field hpast (List.mem_of_mem_filter hf)
    · rw [hfields] at hf
      exact hnames.field hpast (Patch.past_of_mem_changed hf)
  | removed c => exact (plain_removedClass (.refl s) (.refl c)).alike.defers _
  | added c => exact (plain_addedClass (.refl s) hnames.named (.refl c)).alike.defers _

/-- **The impact of a round with questions**: it defers what the impact without them widens,
whatever files were removed and in whatever order the others are visited. -/
theorem defers_impact (removed : List SourcePath) (files : List Symbol) :
    (s.impact removed (ClassEvent.ofFiles s.main s.round files)).Defers s.widening
      (s.asking.impact removed (ClassEvent.ofFiles s.main s.round files)) := by
  refine .append (defers_loop fun file _ => ?_) (defers_loop fun e he => ?_)
  · exact (plain_removedFile (.refl s) hnames.named file).alike.defers _
  · obtain ⟨file, -, he⟩ := ClassEvent.mem_ofFiles.1 he
    exact defers_event hnames hask he

end Scene

end ClassImpact
