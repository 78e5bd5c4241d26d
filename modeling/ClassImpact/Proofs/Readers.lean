import ClassImpact.Proofs.Narrowing

/-!
# Readers of changed fields

A field that is gone, or has another type, is searched for by the reads of it, through its class
and through the classes that inherit it.  Nothing searches for the writes of it: a class that
only assigns such a field is left alone.

A field that fewer classes see is searched for by its reads in some cases only.  A change that
rebinds the field searches for all reads, and so does the loss of a public access, but for a
field that becomes final as well: then the writes are searched in place of the reads.  No rule
at all looks at a protected field that becomes local to its package.

## Main results

* `compareInOrder_lostField`: the readers of a lost field are affected, its writers do not count
* `compareInOrder_narrowedField`: the readers that lose sight of a field are affected just where
  its reads are searched for
-/

namespace ClassImpact

/-! ## Reads and writes of one field -/

namespace Usage

/-- The reads of a field of some name. -/
def IsReadOf (n : Symbol) : Usage → Prop
  | .read m .. => m = n
  | _ => False

/-- The writes of a field of some name. -/
def IsWriteOf (n : Symbol) : Usage → Prop
  | .write m .. => m = n
  | _ => False

variable {n : Symbol} {u : Usage}

theorem IsReadOf.ofField (h : u.IsReadOf n) : u.OfField := by
  cases u <;> trivial

theorem IsWriteOf.ofField (h : u.IsWriteOf n) : u.OfField := by
  cases u <;> trivial

end Usage

/-- A change of a field for which the reads of it are searched. -/
def Revision.searchesReads (r : Revision) : Bool :=
  r.rebinds || (r.removed.has .pub && !r.added.has .final)

namespace Scene

open Impact

variable {s : Scene} {c : ClassInfo} {change : Changed ClassInfo ClassChange}
  {P : Usage → Prop} {Q : Usage → Residency → Prop}

/-- What a round with one changed class searches for and limits among the usages of fields is
what the fields of this class bring about. -/
theorem only_impact_of_fields {removed : List SourcePath} {events : List ClassEvent}
    (honly : ClassEvent.OnlyChange change events) (hP : ∀ u, ¬ u.OfField → P u)
    (hQ : ∀ u r, ¬ u.OfField → Q u r)
    (hfields : (s.fields change.past change.diff.fields).Only P Q) :
    (s.impact removed events).Only P Q := by
  apply only_impact hP
  intro other hother
  obtain rfl := honly.unique other hother
  refine only_changedClass hP (only_changedModifiers hP fun r => hQ _ r id)
    (only_methods hP fun _ e _ _ r _ u hu => ?_) hfields
  obtain ⟨n, -, rfl⟩ := List.mem_map.1 hu
  exact hQ _ r id

theorem partOf_fields : (s.fields change.past change.diff.fields).PartOf (s.changedClass change) :=
  partOf_all (by simp)

theorem partOf_removedField {f : FieldInfo} (hf : f ∈ change.diff.fields.removed) :
    (s.reads change.past f).PartOf (s.changedClass change) := by
  have hfield : (s.reads change.past f).PartOf (s.removedField change.past f) :=
    partOf_append_right _ _
  have hremoved : (s.removedField change.past f).PartOf
      (s.fields change.past change.diff.fields) :=
    ((partOf_loop hf _).trans (partOf_append_right _ _)).trans (partOf_append_left _ _)
  exact (hfield.trans hremoved).trans partOf_fields

theorem partOf_changedField {e : Changed FieldInfo Revision}
    (he : e ∈ change.diff.fields.changed) (hreads : e.diff.searchesReads = true) :
    (s.reads change.past e.past).PartOf (s.changedClass change) := by
  have hfield : (s.reads change.past e.past).PartOf (s.changedField change.past e) := by
    rw [changedField_eq]
    refine PartOf.trans ?_ (partOf_append_right _ _)
    cases hrebinds : e.diff.rebinds with
    | true =>
      rw [if_pos rfl]
      exact PartOf.refl _
    | false =>
      have hlost : (e.diff.removed.has .pub && !e.diff.added.has .final) = true := by
        simpa [Revision.searchesReads, hrebinds] using hreads
      obtain ⟨hpub, hfinal⟩ := Bool.and_eq_true_iff.1 hlost
      have hfinal : e.diff.added.has .final = false := by simpa using hfinal
      rw [if_neg Bool.false_ne_true]
      unfold narrowedField
      dsimp only
      rw [hpub, hfinal]
      exact partOf_append_left _ _
  have hchanged : (s.changedField change.past e).PartOf
      (s.fields change.past change.diff.fields) :=
    (partOf_loop he _).trans (partOf_append_right _ _)
  exact (hfield.trans hchanged).trans partOf_fields

end Scene

/-! ## Lost fields -/

/-- A field of the class before the change that no field stands for any more with its type and
generic signature. -/
structure LostField (change : Changed ClassInfo ClassChange) (f : FieldInfo) : Prop where
  past : f ∈ change.past.fields
  lost : ∀ g ∈ change.now.fields, g.name = f.name →
    change.past.findField? f.name = some f ∧ (g.type ≠ f.type ∨ g.signature ≠ f.signature)

theorem FieldInfo.typeOrSignature_revision {f g : FieldInfo} :
    (f.revision g).typeOrSignature = true ↔ g.type ≠ f.type ∨ g.signature ≠ f.signature := by
  rw [Revision.typeOrSignature, Bool.or_eq_true, ne_comm, ne_comm (a := g.signature)]
  simp [revision]

/-- The partner of a field is the first one of its name. -/
theorem partner?_field (c : ClassInfo) (g : FieldInfo) :
    Patch.partner? c.fields g = c.findField? g.name := rfl

namespace LostField

variable {change : Changed ClassInfo ClassChange} {f : FieldInfo} {s : Scene}

theorem partOf_reads (h : LostField change f)
    (hdiff : change.diff = .between change.past change.now) :
    (s.reads change.past f).PartOf (s.changedClass change) := by
  by_cases hkept : ∃ g ∈ change.now.fields, g.name = f.name
  · obtain ⟨g, hg, hname⟩ := hkept
    obtain ⟨hfind, hretyped⟩ := h.lost g hg hname
    have htype := FieldInfo.typeOrSignature_revision.2 hretyped
    have hentry : ⟨f, g, f.revision g⟩ ∈ change.diff.fields.changed := by
      rw [hdiff]
      refine Patch.mem_changed.2 ⟨hg, ?_, rfl, ?_⟩
      · rw [partner?_field, hname]
        exact hfind
      · rw [Revision.typeOrSignature, Bool.or_eq_true] at htype
        rcases htype with htype | hsignature <;> simp [Revision.isEmpty, *]
    have hreads : (f.revision g).searchesReads = true := by
      simp [Revision.searchesReads, Revision.rebinds, htype]
    have hpart := Scene.partOf_changedField (s := s) hentry hreads
    exact hpart
  · apply Scene.partOf_removedField
    rw [hdiff]
    exact Patch.mem_removed.2 ⟨h.past, fun g hg hname => hkept ⟨g, hg, hname⟩⟩

/-- No write of a lost field is searched for, and no read of it is limited. -/
theorem only_fields (h : LostField change f)
    (hdiff : change.diff = .between change.past change.now) :
    (s.fields change.past change.diff.fields).Only (fun u => ¬ u.IsWriteOf f.name)
      fun u _ => ¬ u.IsReadOf f.name := by
  refine Scene.only_fields (fun g hg n t => ⟨id, fun r hread => ?_⟩) (fun g _ n => id)
    fun e he => Scene.only_changedField (fun _ n => id) fun hkeeps => ?_
  · -- an added field has another name
    rw [hdiff] at hg
    exact (Patch.mem_added.1 hg).2 f h.past (Eq.symm hread)
  · have hname : e.past.name ≠ f.name := by
      intro hname
      rw [hdiff] at he
      obtain ⟨hnow, hpartner, hrevision, -⟩ := Patch.mem_changed.1 he
      have hsame : e.past.name = e.now.name := (Patch.partner?_eq_some hpartner).2
      obtain ⟨hfind, hretyped⟩ := h.lost e.now hnow (hsame.symm.trans hname)
      have hpast : e.past = f := by
        rw [partner?_field, ← hsame, hname, hfind] at hpartner
        exact (Option.some.inj hpartner).symm
      rw [← hpast, ← FieldInfo.typeOrSignature_revision, ← hrevision] at hretyped
      simp [Revision.rebinds, hretyped] at hkeeps
    exact Scene.only_narrowedField (fun _ n => ⟨hname, fun _ _ => id⟩)
      fun _ _ n => ⟨id, fun _ _ => hname⟩

end LostField

section

variable {names : NameTable} {main round : Graph} {log : ChangeLog} {q : RoundRequest}
  {files : List Symbol} {affected : PathSet} {change : Changed ClassInfo ClassChange}
  {f f' : FieldInfo} {x d : Symbol} {path : SourcePath}

/-- **Lost fields**: when the only changed class of a round loses a field, or gives it another
type or generic signature, a recorded user that reads the field through the class or through one
that inherits it is affected.  A write of the field counts nowhere. -/
theorem compareInOrder_lostField
    (h : (compareInOrder names main round log q files).outcome = .ok (.incremental affected))
    (honly : ClassEvent.OnlyChange change (ClassEvent.ofFiles main round files))
    (hf : LostField change f)
    (hx : x ∈ change.past.name ::
      (Scene.of names main round q).updated.inheriting (.field f.name) change.past.name)
    (hdependant : d ∈ main.dependantsOf x)
    (hcompiled : q.compiled.any path.sameAs = false)
    (hremoved : ∀ gone ∈ q.removed, gone.components ≠ path.components) :
    let s := Scene.of names main round q
    let events := ClassEvent.ofFiles main round files
    (main.HeldBy names (f.readFrom x) d path → affected.has path.components = true) ∧
      ∀ c owner, s.isAffected (s.impact q.removed events) c (f.writeFrom owner) = .ok false := by
  intro s events
  have hdiff := ClassEvent.diff_of_mem honly.mem
  have hbounds : (s.impact q.removed events).Only (fun u => ¬ u.IsWriteOf f.name)
      fun u _ => ¬ u.IsReadOf f.name :=
    Scene.only_impact_of_fields honly (fun _ hfield hwrite => hfield hwrite.ofField)
      (fun _ _ hfield hread => hfield hread.ofField) (hf.only_fields hdiff)
  constructor
  · intro hd
    have hfound := Scene.affected_or_left_out_of_uses h honly.mem (hf.partOf_reads hdiff) hx
      hdependant hd hcompiled hremoved
    apply hfound.resolve_right
    rintro ⟨r, hlimit, -⟩
    exact hbounds.of_limitOn? hlimit rfl
  · intro c owner
    exact Scene.isAffected_of_not_mem fun husage => hbounds.searches _ husage rfl

end

/-! ## A field that is gone

A class in another package uses a public field, which is then deleted.  The class is affected
when it reads the field, and not when it assigns it. -/

namespace FieldUser

def names : NameTable :=
  NameTable.new.internAll ["java/lang/Object", "<init>", "p/A", "q/D", "f", "A.java", "D.java"]

def field (access : Flag) : FieldInfo :=
  ⟨⟨5⟩, .ofFlags [access], .primitive .int, none, none⟩

def owner (fields : List FieldInfo) : ClassInfo :=
  { ClassInfo.plain ⟨3⟩ (.ofFlags [.pub]) (.named ⟨1⟩) with fields := fields }

/-- A class that extends another one and holds a usage. -/
def user (super : Symbol) (u : Usage) : ClassInfo :=
  { ClassInfo.plain ⟨4⟩ (.ofFlags [.pub]) (.named super) with usages := .single u }

def past (fields : List FieldInfo) (c : ClassInfo) : Graph :=
  (Graph.empty.record ⟨6⟩ (owner fields)).record ⟨7⟩ c

/-- A class that extends another one reads the field. -/
def read (access : Flag) (super : Symbol) : Graph :=
  past [field access] (user super ((field access).readFrom ⟨3⟩))

/-- A class assigns the field. -/
def written : Graph := past [field .pub] (user ⟨1⟩ ((field .pub).writeFrom ⟨3⟩))

/-- The owner is compiled again with other fields. -/
def now (fields : List FieldInfo) : Graph := Graph.empty.record ⟨6⟩ (owner fields)

def change (before after : List FieldInfo) : Changed ClassInfo ClassChange :=
  ⟨owner before, owner after, .between (owner before) (owner after)⟩

def request : RoundRequest where
  removed := []
  files := [⟨"A.java"⟩]
  compiled := [⟨"A.java"⟩]
  accepts _ := true
  resolver := none
  waiting := .onlyArrived

theorem onlyChange {before after : List FieldInfo} {c : ClassInfo}
    (h : ClassEvent.ofFiles (past before c) (now after) [⟨6⟩] =
      [.changed (change before after)]) :
    ClassEvent.OnlyChange (change before after)
      (ClassEvent.ofFiles (past before c) (now after) [⟨6⟩]) where
  mem := h ▸ List.mem_singleton_self _
  unique other hother := by
    rw [h, List.mem_singleton] at hother
    exact ClassEvent.changed.inj hother

theorem lost : LostField (change [field .pub] []) (field .pub) where
  past := List.mem_singleton_self _
  lost _ hg := absurd hg List.not_mem_nil

theorem reader_affected :
    (compareInOrder names (read .pub ⟨1⟩) (now []) .empty request [⟨6⟩]).outcome =
        .ok (.incremental (.single ⟨"D.java"⟩)) ∧
      LostField (change [field .pub] []) (field .pub) ∧
      (IdSet.single ⟨"D.java"⟩ : PathSet).has (SourcePath.mk "D.java").components = true := by
  have houtcome : (compareInOrder names (read .pub ⟨1⟩) (now []) .empty request [⟨6⟩]).outcome =
    .ok (.incremental (.single ⟨"D.java"⟩)) := rfl
  have hcompiled : request.compiled.any (SourcePath.mk "D.java").sameAs = false := by decide
  have h := compareInOrder_lostField (x := ⟨3⟩) (d := ⟨4⟩) houtcome (onlyChange rfl) lost
    (by decide) (by decide) hcompiled fun _ hgone => absurd hgone List.not_mem_nil
  exact ⟨houtcome, lost, h.1 ⟨⟨⟨7⟩, by decide, rfl⟩, _, rfl, IdSet.mem_toList.1 (by decide)⟩⟩

/-- A class that assigns the field is not affected. -/
theorem writer_not_affected :
    (compareInOrder names written (now []) .empty request [⟨6⟩]).outcome =
        .ok (.incremental .empty) ∧
      ClassEvent.OnlyChange (change [field .pub] [])
        (ClassEvent.ofFiles written (now []) [⟨6⟩]) ∧
      LostField (change [field .pub] []) (field .pub) ∧ ⟨4⟩ ∈ written.dependantsOf ⟨3⟩ ∧
      written.HeldBy names ((field .pub).writeFrom ⟨3⟩) ⟨4⟩ ⟨"D.java"⟩ ∧
      request.compiled.any (SourcePath.mk "D.java").sameAs = false ∧ request.removed = [] ∧
      (IdSet.empty : PathSet).has (SourcePath.mk "D.java").components = false :=
  ⟨rfl, onlyChange rfl, lost, by decide,
    ⟨⟨⟨7⟩, by decide, rfl⟩, _, rfl, IdSet.mem_toList.1 (by decide)⟩, by decide, rfl, rfl⟩

end FieldUser

/-! ## Narrowed fields -/

/-- A field that a change keeps under a narrower access. -/
structure NarrowedField (change : Changed ClassInfo ClassChange) (f f' : FieldInfo) : Prop where
  kept : Patch.Kept change.past.fields change.now.fields f f'
  narrows : f.access.NarrowsTo f'.access

/-- A rebinding change takes in every field that became private. -/
theorem Revision.not_toClass_of_not_rebinds {r : Revision} (h : r.past.NarrowsTo r.now)
    (hkeeps : r.rebinds = false) : r.now.visibility ≠ .toClass := by
  intro hclass
  simp [rebinds, Access.hasAny, (hides_of_toClass h hclass).added] at hkeeps

/-- Which narrowed fields are searched for by their reads. -/
theorem Revision.searchesReads_iff_of_narrowsTo {r : Revision} (h : r.past.NarrowsTo r.now) :
    r.searchesReads = true ↔
      r.rebinds = true ∨ r.past.visibility = .toAll ∧ r.added.has .final = false := by
  have hpub : r.removed.has .pub = true ↔ r.past.visibility = .toAll := by
    have hnow : r.now.visibility ≠ .toAll := by
      intro hall
      have hlower := h.lower
      rw [hall] at hlower
      cases hpast : r.past.visibility <;> simp [hpast, Visibility.rank] at hlower
    have hgone : r.now.has .pub = false := by simpa using mt h.now.has_iff.1.1 hnow
    rw [removed, Access.has_without, hgone, Bool.not_false, Bool.and_true]
    exact h.past.has_iff.1
  rw [searchesReads, Bool.or_eq_true, Bool.and_eq_true, hpub, Bool.not_eq_true']

namespace NarrowedField

variable {change : Changed ClassInfo ClassChange} {f f' : FieldInfo} {s : Scene}

theorem mem_changed (h : NarrowedField change f f')
    (hdiff : change.diff = .between change.past change.now) :
    ⟨f, f', f.revision f'⟩ ∈ change.diff.fields.changed := by
  have haccess : (f.revision f').access = true := Revision.access_of_narrowsTo h.narrows
  rw [hdiff]
  exact h.kept.mem_changed (by simp [Revision.isEmpty, haccess])

/-- The reads of a narrowed field are searched for only when its own change says so, and a limit
on them is one to what lies outside the package. -/
theorem only_fields (h : NarrowedField change f f')
    (hdiff : change.diff = .between change.past change.now) :
    (s.fields change.past change.diff.fields).Only
      (fun u => u.IsReadOf f.name → (f.revision f').searchesReads = true)
      fun u r => u.IsReadOf f.name → f'.access.visibility ≠ .toClass ∧
        (Residency.noInheritorOf s.names change.past.name = .ok r ∨
          Residency.outsideOf s.names change.past.name = .ok r) := by
  refine Scene.only_fields (fun g hg n t => ?_) (fun g hg n hread => ?_) fun e he => ?_
  · -- an added field has another name
    rw [hdiff] at hg
    have hother : ¬ g.name = f.name := fun hname =>
      (Patch.mem_added.1 hg).2 f h.kept.mem_past hname.symm
    exact ⟨fun hread => absurd hread hother, fun _ hread => absurd hread hother⟩
  · -- and so has a removed one
    rw [hdiff] at hg
    have hother : ¬ g.name = f.name := fun hname =>
      (Patch.mem_removed.1 hg).2 f' h.kept.mem (h.kept.ident_eq.symm.trans (Eq.symm hname))
    exact absurd hread hother
  · by_cases hname : e.past.name = f.name
    · rw [hdiff] at he
      obtain rfl := h.kept.eq_of_mem_changed he hname
      refine Scene.only_changedField (fun hrebinds _ _ => ?_) fun hkeeps => ?_
      · simp [Revision.searchesReads, hrebinds]
      · have hvisible := Revision.not_toClass_of_not_rebinds h.narrows hkeeps
        refine Scene.only_narrowedField (fun _ _ => ⟨fun h => h.elim, fun _ _ h => h.elim⟩)
          fun hfinal hpub _ => ⟨fun _ => ?_, fun r hr _ => ⟨hvisible, ?_⟩⟩
        · simp [Revision.searchesReads, hpub, hfinal]
        · unfold Scene.narrowedTo at hr
          split at hr
          · exact .inl hr
          · exact .inr hr
    · exact Scene.only_changedField (fun _ _ hread => absurd hread hname) fun _ =>
        Scene.only_narrowedField (fun _ _ => ⟨fun h => h.elim, fun _ _ h => h.elim⟩)
          fun _ _ _ => ⟨fun hread => absurd hread hname, fun _ _ hread => absurd hread hname⟩

end NarrowedField

section

variable {names : NameTable} {main round : Graph} {log : ChangeLog} {q : RoundRequest}
  {files : List Symbol} {affected : PathSet} {change : Changed ClassInfo ClassChange}
  {f f' : FieldInfo} {x d : Symbol} {path : SourcePath}

/-- **Readers that lose sight of a field**: when the only changed class of a round narrows the
access of a field, a recorded user that reads the field through the class or through one that
inherits it, and no longer sees it, is affected where the change rebinds the field, or the field
was public and did not become final.  Otherwise a read of the field counts nowhere. -/
theorem compareInOrder_narrowedField
    (hround : (compareInOrder names main round log q files).outcome = .ok (.incremental affected))
    (honly : ClassEvent.OnlyChange change (ClassEvent.ofFiles main round files))
    (hf : NarrowedField change f f')
    (hx : x ∈ change.past.name ::
      (Scene.of names main round q).updated.inheriting (.field f.name) change.past.name)
    (hdependant : d ∈ main.dependantsOf x) (hd : main.HeldBy names (f.readFrom x) d path)
    (hloses : (Scene.of names main round q).LosesSight f'.access change.past.name d)
    (hcompiled : q.compiled.any path.sameAs = false)
    (hremoved : ∀ gone ∈ q.removed, gone.components ≠ path.components) :
    let s := Scene.of names main round q
    let events := ClassEvent.ofFiles main round files
    let noticed := (f.revision f').rebinds = true ∨
      f.access.visibility = .toAll ∧ (f.revision f').added.has .final = false
    (noticed → affected.has path.components = true) ∧
      (¬ noticed →
        ∀ c owner, s.isAffected (s.impact q.removed events) c (f.readFrom owner) = .ok false) := by
  intro s events noticed
  have hdiff := ClassEvent.diff_of_mem honly.mem
  have hbounds : (s.impact q.removed events).Only _ _ :=
    Scene.only_impact_of_fields honly (fun _ hfield hread => absurd hread.ofField hfield)
      (fun _ _ hfield hread => absurd hread.ofField hfield) (hf.only_fields hdiff)
  have hnoticed := Revision.searchesReads_iff_of_narrowsTo (r := f.revision f') hf.narrows
  constructor
  · intro h
    have hpart := Scene.partOf_changedField (s := s) (hf.mem_changed hdiff) (hnoticed.2 h)
    have hfound := Scene.affected_or_left_out_of_uses hround honly.mem hpart hx hdependant hd
      hcompiled hremoved
    apply hfound.resolve_right
    rintro ⟨r, hlimit, hfalse⟩
    obtain ⟨hvisible, hr⟩ := hbounds.of_limitOn? hlimit rfl
    exact Scene.holds_of_apart (hloses.apart hvisible) hr hfalse
  · intro h c owner
    apply Scene.isAffected_of_not_mem
    intro husage
    exact h (hnoticed.1 (hbounds.searches _ husage rfl))

end

/-! ## A protected field that becomes local to its package

A class of another package reads a field.  When a public field becomes protected, the reader is
affected unless it inherits.  When a protected field becomes local to its package, the reader
that inherits it is left behind. -/

namespace FieldUser

/-- The field without a modifier. -/
def bare : FieldInfo := { field .pub with access := .none }

theorem narrowed {f f' : FieldInfo} (h : f.access.NarrowsTo f'.access) (hname : f.name = f'.name) :
    NarrowedField (change [f] [f']) f f' where
  kept := .of_nodup (List.nodup_singleton _) (List.nodup_singleton _) (List.mem_singleton_self _)
    (List.mem_singleton_self _) hname
  narrows := h

theorem apart (main round : Graph) : (Scene.of names main round request).names.Apart ⟨3⟩ ⟨4⟩ :=
  NameTable.apart_of_ne "p" "q" (NameTable.packageOf_keyNames rfl)
    (NameTable.packageOf_keyNames rfl) (by decide)

theorem stranger_affected :
    (compareInOrder names (read .pub ⟨1⟩) (now [field .prot]) .empty request [⟨6⟩]).outcome =
        .ok (.incremental (.single ⟨"D.java"⟩)) ∧
      NarrowedField (change [field .pub] [field .prot]) (field .pub) (field .prot) ∧
      (field .pub).access.visibility = .toAll ∧
      (IdSet.single ⟨"D.java"⟩ : PathSet).has (SourcePath.mk "D.java").components = true := by
  have houtcome : (compareInOrder names (read .pub ⟨1⟩) (now [field .prot]) .empty request
    [⟨6⟩]).outcome = .ok (.incremental (.single ⟨"D.java"⟩)) := rfl
  have h := compareInOrder_narrowedField (x := ⟨3⟩) houtcome (onlyChange rfl)
    (narrowed (by decide) rfl) (by decide) (by decide)
    ⟨⟨⟨7⟩, by decide, rfl⟩, user ⟨1⟩ _, rfl, IdSet.mem_toList.1 (by decide)⟩
    ⟨apart _ _, by decide⟩ (by decide) fun _ hgone => absurd hgone List.not_mem_nil
  exact ⟨houtcome, narrowed (by decide) rfl, rfl, h.1 (.inr ⟨rfl, by decide⟩)⟩

/-- An heir in another package that reads a protected field is not affected when the field
becomes local to its package. -/
theorem heir_not_affected :
    (compareInOrder names (read .prot ⟨3⟩) (now [bare]) .empty request [⟨6⟩]).outcome =
        .ok (.incremental .empty) ∧
      ClassEvent.OnlyChange (change [field .prot] [bare])
        (ClassEvent.ofFiles (read .prot ⟨3⟩) (now [bare]) [⟨6⟩]) ∧
      NarrowedField (change [field .prot] [bare]) (field .prot) bare ∧
      ⟨4⟩ ∈ (read .prot ⟨3⟩).dependantsOf ⟨3⟩ ∧
      (read .prot ⟨3⟩).HeldBy names ((field .prot).readFrom ⟨3⟩) ⟨4⟩ ⟨"D.java"⟩ ∧
      (Scene.of names (read .prot ⟨3⟩) (now [bare]) request).LosesSight bare.access ⟨3⟩ ⟨4⟩ ∧
      request.compiled.any (SourcePath.mk "D.java").sameAs = false ∧ request.removed = [] ∧
      (IdSet.empty : PathSet).has (SourcePath.mk "D.java").components = false :=
  ⟨rfl, onlyChange rfl, narrowed (by decide) rfl, by decide,
    ⟨⟨⟨7⟩, by decide, rfl⟩, _, rfl, IdSet.mem_toList.1 (by decide)⟩, apart _ _, by decide, rfl,
    rfl⟩

end FieldUser

end ClassImpact
