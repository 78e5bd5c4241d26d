import ClassImpact.Proofs.Outcomes

/-!
# Lost constants

A constant that its readers copied leaves no usage in them, so a round that takes one away has
to account for it: by a full rebuild, by a question, or by drawing in the package of its
class.

Only the rule for removed fields does so.  It is reached through the change of a class, which
takes a class that is compiled again in its file.  A class that goes, from a compiled file or
with a removed one, takes its constants with it, and nobody is asked about them.

## Main results

* `compareInOrder_vanished`: constants are accounted for in the classes that are compiled
  again, and nobody is asked about those of other classes
-/

namespace ClassImpact

/-- A constant that the classes which read it may have copied. -/
def FieldInfo.Copied (f : FieldInfo) : Prop :=
  f.access.isPrivate = false ∧ f.access.isInlinable = true ∧ f.hasValue = true

/-- The ways to account for a constant that is gone: everything is rebuilt, the readers are
asked for, or there is nobody to ask and the package of its class is affected, as far as it
may be drawn in. -/
inductive Comparison.Accounts (names : NameTable) (main : Graph) (q : RoundRequest)
    (compared : Comparison) (c : Symbol) (f : FieldInfo) : Propagation → Prop where
  | rebuilt : Accounts names main q compared c f .fullRebuild
  | asked {answer : Propagation} {r : ConstantRequest} (hr : r ∈ compared.requests)
      (howner : r.owner = c) (hfield : r.field = f) (hremoved : r.removed = true) :
      Accounts names main q compared c f answer
  | widened {affected : PathSet} (hresolver : q.resolver = none)
      (hpublic : f.access.isPublic = false)
      (hpackage : ∀ d file text package, main.fileOf.get? d = some file →
        names.packageOf d = .ok package → names.packageOf c = .ok package →
        names.name file = .ok text → q.accepts ⟨text⟩ = true →
        affected.has (SourcePath.mk text).components = true ∨
          ∃ gone ∈ q.removed, gone.components = (SourcePath.mk text).components) :
      Accounts names main q compared c f (.incremental affected)

/-! ## The rule for removed fields -/

/-- A class that is compiled again without a field has a change that removes it. -/
theorem ClassEvent.exists_changed {main round : Graph} {file : Symbol} {past now : ClassInfo}
    (hpast : past ∈ main.classesIn.valuesOf file) (hnow : now ∈ round.classesIn.valuesOf file)
    (hname : past.name = now.name) {f : FieldInfo} (hf : f ∈ past.fields)
    (hgone : ∀ g ∈ now.fields, g.name ≠ f.name) :
    ∃ change, .changed change ∈ ofFile main round file ∧ change.past = past ∧
      f ∈ change.diff.fields.removed := by
  have hremoved : f ∈ (ClassChange.between past now).fields.removed :=
    List.mem_filter.2 ⟨hf, Patch.isNone_partner?.2 hgone⟩
  refine ⟨⟨past, now, .between past now⟩, mem_ofFile_changed.2 ⟨hpast, hnow, hname, rfl, ?_⟩,
    rfl, hremoved⟩
  have hnonempty : (ClassChange.between past now).fields.isEmpty = false := by
    rw [Patch.isEmpty, List.isEmpty_eq_false_iff.2 (List.ne_nil_of_mem hremoved)]
    simp
  rw [ClassChange.isEmpty, hnonempty]
  simp

namespace Scene

variable {s : Scene} {c : ClassInfo} {f : FieldInfo}

/-- The decision about a removed constant is a part of what its class's change brings about. -/
theorem partOf_changedClass {change : Changed ClassInfo ClassChange} (hcopied : f.Copied)
    (hf : f ∈ change.diff.fields.removed) :
    (s.constant change.past f true false).PartOf (s.changedClass change) := by
  obtain ⟨hprivate, hinlinable, hvalue⟩ := hcopied
  have hdecided : (s.constant change.past f true false).PartOf (s.removedField change.past f) := by
    unfold removedField
    rw [hprivate, hinlinable, hvalue]
    exact Impact.partOf_append_left _ _
  have hfield : (s.removedField change.past f).PartOf (s.fields change.past change.diff.fields) :=
    ((Impact.partOf_loop hf (s.removedField change.past)).trans
      (Impact.partOf_append_right _ _)).trans (Impact.partOf_append_left _ _)
  refine (hdecided.trans hfield).trans (Impact.partOf_all ?_)
  simp

theorem partOf_packageFiles {d file : Symbol} {package : String}
    (hd : s.main.fileOf.get? d = some file) (hpackage : s.names.packageOf d = .ok package)
    (hc : s.names.packageOf c.name = .ok package) :
    (s.acceptedFile file).PartOf (s.packageFiles c.name) := by
  have hmem : (d, file) ∈ s.main.fileOf.entries := Table.mem_entries.2 hd
  have hpart := Impact.partOf_loop hmem fun e =>
    Impact.ofResult (s.names.packageOf e.1) fun p =>
      if p = package then s.acceptedFile e.2 else .none
  unfold packageFiles
  rw [hc]
  dsimp only at hpart
  rw [hpackage] at hpart
  simpa [Impact.ofResult] using hpart

theorem not_public_of_widen {owner packageOf : Symbol} {access : Access} {field : Option Symbol}
    (hstop : (s.widen owner access field packageOf).stop = none) : access.isPublic = false := by
  rw [← Bool.not_eq_true]
  intro hpublic
  rw [widen, if_pos hpublic] at hstop
  cases hstop

/-- A constant that is widened draws in the files of its package. -/
theorem drawn_of_widen {access : Access} {field : Option Symbol} {d file : Symbol}
    {text package : String} (hstop : (s.widen c.name access field c.name).stop = none)
    (hd : s.main.fileOf.get? d = some file) (hpackage : s.names.packageOf d = .ok package)
    (hc : s.names.packageOf c.name = .ok package) (htext : s.names.name file = .ok text)
    (haccepts : s.accepts ⟨text⟩ = true) :
    ⟨text⟩ ∈ (s.widen c.name access field c.name).files := by
  have hpublic := not_public_of_widen hstop
  unfold widen at hstop ⊢
  rw [hpublic] at hstop ⊢
  have hpart := (partOf_packageFiles hd hpackage hc).trans (Impact.partOf_append_right
    (.onlyIf access.isProtected (.all ((s.old.inheriting (.field (field.getD .empty))
      c.name).map s.acceptedFileOfClass))) _)
  exact (hpart hstop).2.1 (.file ⟨text⟩) (mem_acceptedFile htext haccepts)

/-- A constant is asked about, when somebody can be asked and its names are known. -/
theorem asked_of_constant (hask : s.canAsk = true) {removed accessChanged : Bool}
    (hstop : (s.constant c f removed accessChanged).stop = none) :
    ∃ r ∈ (s.constant c f removed accessChanged).requests,
      r.owner = c.name ∧ r.field = f ∧ r.removed = removed := by
  unfold constant at hstop ⊢
  rw [if_pos hask] at hstop ⊢
  cases howner : s.names.name c.name with
  | error fault =>
    rw [howner] at hstop
    cases hstop
  | ok ownerName =>
    rw [howner] at hstop
    cases hfield : s.names.name f.name with
    | error fault =>
      rw [hfield] at hstop
      cases hstop
    | ok fieldName => exact ⟨_, List.mem_singleton_self _, rfl, rfl, rfl⟩

end Scene

/-! ## What is asked -/

namespace Impact

/-- All questions of an impact that does not stop are of a kind. -/
def AsksOnly (P : ConstantRequest → Prop) (a : Impact) : Prop :=
  a.stop = .none → ∀ r ∈ a.requests, P r

variable {P : ConstantRequest → Prop} {a b : Impact}

theorem AsksOnly.append (h : a.AsksOnly P) (h' : b.AsksOnly P) : (a ++ b).AsksOnly P := by
  intro hstop r hr
  obtain ⟨ha, hb⟩ := stop_append.1 hstop
  rw [requests_append ha, List.mem_append] at hr
  exact hr.elim (h ha r) (h' hb r)

theorem asksOnly_none : none.AsksOnly P := fun _ _ hr => absurd hr List.not_mem_nil

theorem AsksOnly.all {l : List Impact} (h : ∀ a ∈ l, a.AsksOnly P) : (all l).AsksOnly P :=
  all_induction asksOnly_none .append h

theorem asksOnly_loop {α : Type} {l : List α} {f : α → Impact}
    (h : ∀ x ∈ l, (f x).AsksOnly P) : (all (l.map f)).AsksOnly P :=
  .all (List.forall_mem_map.2 h)

theorem AsksOnly.onlyIf (condition : Bool) (h : a.AsksOnly P) :
    (onlyIf condition a).AsksOnly P :=
  onlyIf_induction asksOnly_none fun _ => h

/-- What does not depend on whether somebody can be asked puts no question. -/
theorem Alike.asksOnly (h : a.Alike a) : a.AsksOnly P := by
  intro hstop r hr
  rcases h with ⟨hunbounded, -⟩ | h
  · rw [hunbounded] at hstop
    cases hstop
  · rw [h.silent.1] at hr
    exact absurd hr List.not_mem_nil

end Impact

namespace Scene

open Impact

variable {s : Scene} {c : ClassInfo} {f : FieldInfo} (hn : s.Named) (hc : s.names.Knows c.name)

include hn hc

/-- A question about a constant names its class. -/
theorem asksOnly_constant (f : FieldInfo) (removed accessChanged : Bool) :
    (s.constant c f removed accessChanged).AsksOnly (·.owner = c.name) := by
  unfold constant
  split
  · intro hstop r hr
    cases howner : s.names.name c.name with
    | error fault =>
      rw [howner] at hstop
      cases hstop
    | ok ownerName =>
      rw [howner] at hstop hr
      cases hfield : s.names.name f.name with
      | error fault =>
        rw [hfield] at hstop
        cases hstop
      | ok fieldName =>
        rw [hfield] at hr
        obtain rfl := List.mem_singleton.1 hr
        rfl
  · exact (alike_widen (.refl s) hn c.name f.access (some f.name) hc).asksOnly

theorem asksOnly_removedField (f : FieldInfo) :
    (s.removedField c f).AsksOnly (·.owner = c.name) :=
  ((asksOnly_constant hn hc f true false).onlyIf _).append
    (plain_reads (.refl s) (.refl c) f).alike.asksOnly

theorem asksOnly_changedField (change : Changed FieldInfo Revision) :
    (s.changedField c change).AsksOnly (·.owner = c.name) := by
  rw [changedField_eq]
  exact ((asksOnly_constant hn hc change.past false _).onlyIf _).append
    (alike_changedSearch (.refl s) ⟨.refl c, hc⟩ change).asksOnly

theorem asksOnly_fields (p : Patch FieldInfo Revision) :
    (s.fields c p).AsksOnly (·.owner = c.name) := by
  have hadded := fun f => alike_addedField (.refl s) hn ⟨.refl c, hc⟩ f
  exact ((asksOnly_loop fun f _ => (hadded f).asksOnly).append
    (asksOnly_loop fun f _ => asksOnly_removedField hn hc f)).append
      (asksOnly_loop fun change _ => asksOnly_changedField hn hc change)

omit hc in
/-- **The questions about a changed class** are about that class. -/
theorem asksOnly_changedClass {change : Changed ClassInfo ClassChange}
    (hc : s.names.Knows change.past.name) :
    (s.changedClass change).AsksOnly (·.owner = change.past.name) := by
  rw [changedClass_eq]
  exact (alike_besidesFields_self hn hc).asksOnly.append (asksOnly_fields hn hc _)

end Scene

/-- A class is recorded for one of the files, and compiled again from it. -/
def CompiledAgain (main round : Graph) (files : List Symbol) (c : Symbol) : Prop :=
  ∃ file ∈ files, (main.classesIn.valuesOf file).has c = true ∧
    (round.classesIn.valuesOf file).has c = true

/-- The questions of a round are about classes that are compiled again. -/
theorem Scene.asksOnly_impact {s : Scene} (hn : s.Named) (removed : List SourcePath)
    (files : List Symbol) :
    (s.impact removed (ClassEvent.ofFiles s.main s.round files)).AsksOnly
      fun r => CompiledAgain s.main s.round files r.owner := by
  refine .append (Impact.asksOnly_loop fun file _ => ?_) (Impact.asksOnly_loop fun e he => ?_)
  · exact (plain_removedFile (.refl s) hn file).alike.asksOnly
  · obtain ⟨file, hfile, he⟩ := ClassEvent.mem_ofFiles.1 he
    cases e with
    | changed change =>
      obtain ⟨hpast, hnow, hname, -⟩ := ClassEvent.mem_ofFile_changed.1 he
      intro hstop r hr
      have howner := asksOnly_changedClass hn (hn.past hpast) hstop r hr
      rw [howner]
      exact ⟨file, hfile, IdSet.has_of_mem hpast, hname ▸ IdSet.has_of_mem hnow⟩
    | removed c => exact (plain_removedClass (.refl s) (.refl c)).alike.asksOnly
    | added c => exact (plain_addedClass (.refl s) hn (.refl c)).alike.asksOnly

/-! ## Comparisons -/

section

variable {names : NameTable} {main round : Graph} {log : ChangeLog} {q : RoundRequest}

/-- **A constant that its class loses** is accounted for. -/
theorem accounts_of_compiled {files : List Symbol} {file : Symbol} (hfile : file ∈ files)
    {past now : ClassInfo} (hpast : past ∈ main.classesIn.valuesOf file)
    (hnow : now ∈ round.classesIn.valuesOf file) (hname : past.name = now.name) {f : FieldInfo}
    (hf : f ∈ past.fields) (hcopied : f.Copied) (hgone : ∀ g ∈ now.fields, g.name ≠ f.name)
    {answer : Propagation}
    (h : (compareInOrder names main round log q files).outcome = .ok answer) :
    (compareInOrder names main round log q files).Accounts names main q past.name f answer := by
  cases answer with
  | fullRebuild => exact .rebuilt
  | incremental affected =>
    obtain ⟨change, hevent, rfl, hremoved⟩ := ClassEvent.exists_changed hpast hnow hname hf hgone
    have hmem : .changed change ∈ ClassEvent.ofFiles main round files :=
      ClassEvent.mem_ofFiles.2 ⟨file, hfile, hevent⟩
    have hpart := (Scene.partOf_changedClass (s := Scene.of names main round q) hcopied
      hremoved).trans (Scene.partOf_event hmem q.removed)
    obtain ⟨hstop, hbrings, hrequests⟩ := hpart (Scene.stop_of_conclude h)
    cases hresolver : q.resolver with
    | some resolver =>
      have hask : (Scene.of names main round q).canAsk = true := by
        simp [Scene.of, hresolver]
      obtain ⟨r, hr, howner, hfield, hr'⟩ := Scene.asked_of_constant hask hstop
      exact .asked (hrequests hr) howner hfield hr'
    | none =>
      have hwidens : (Scene.of names main round q).constant change.past f true false =
          (Scene.of names main round q).widen change.past.name f.access (some f.name)
            change.past.name := by
        simp [Scene.constant, Scene.of, hresolver]
      rw [hwidens] at hstop hbrings
      refine .widened hresolver (Scene.not_public_of_widen hstop)
        fun d file text package hd hpackage hc htext haccepts => ?_
      have hdrawn := Scene.drawn_of_widen hstop hd (NameTable.packageOf_keyNames hpackage)
        (NameTable.packageOf_keyNames hc) (NameTable.name_keyNames htext) haccepts
      exact Scene.affected_of_drawn h (hbrings (.file ⟨text⟩) hdrawn)

/-- **Constants that vanish**: one that a class no longer has when it is compiled again is
accounted for, whatever the answer is, and nobody is asked about a class that is not
compiled again. -/
theorem compareInOrder_vanished (files : List Symbol) :
    let compared := compareInOrder names main round log q files
    (∀ answer, compared.outcome = .ok answer →
      ∀ file ∈ files, ∀ past ∈ main.classesIn.valuesOf file,
        ∀ now ∈ round.classesIn.valuesOf file, past.name = now.name →
          ∀ f ∈ past.fields, f.Copied → (∀ g ∈ now.fields, g.name ≠ f.name) →
            compared.Accounts names main q past.name f answer) ∧
    (names.Covers main round →
      ∃ answer, compared.outcome = .ok answer ∧
        ∀ affected, answer = .incremental affected →
          ∀ r ∈ compared.requests, CompiledAgain main round files r.owner) := by
  intro compared
  refine ⟨fun answer h file hfile past hpast now hnow hname f hf hcopied hgone =>
    accounts_of_compiled hfile hpast hnow hname hf hcopied hgone h, fun hnames => ?_⟩
  obtain ⟨answer, hanswer⟩ := exists_answer hnames log q files
  refine ⟨answer, hanswer, fun affected he r hr => ?_⟩
  have hn : (Scene.of names main round q).Named := hnames.keyNames.named
  exact Scene.asksOnly_impact hn q.removed files
    (Scene.stop_of_conclude (he ▸ hanswer)) r hr

end

/-! ## A constant that goes with its class

A public constant has a reader in another package, and somebody knows that reader.  When the
class is compiled again without the constant, the reader is asked for.  When the class is
gone, from its compiled file or with its removed file, nobody is asked and nothing is
affected. -/

namespace LostConstant

def names : NameTable :=
  NameTable.new.internAll ["java/lang/Object", "<init>", "p/C", "C.java", "V"]

def constant : FieldInfo :=
  ⟨⟨5⟩, .ofFlags [.pub, .static, .final], .primitive .int, none, some (.int 1)⟩

def plain : ClassInfo := .plain ⟨3⟩ (.ofFlags [.pub]) (.named ⟨1⟩)

def past : Graph := Graph.empty.record ⟨4⟩ (plain.withField constant)

/-- The class is compiled again without its constant. -/
def shrunk : Graph := Graph.empty.record ⟨4⟩ plain

/-- The file is compiled again without the class. -/
def emptied : Graph := Graph.empty.addFile ⟨4⟩

/-- The request of a round that compiles the file, or removes it. -/
def request (removed : Bool) : RoundRequest where
  removed := if removed then [⟨"C.java"⟩] else []
  files := if removed then [] else [⟨"C.java"⟩]
  compiled := if removed then [] else [⟨"C.java"⟩]
  accepts _ := true
  resolver := some fun _ => .now (.known (.single ⟨"Reader.java"⟩))
  waiting := .untilAnswered

/-- The graph after a round was merged. -/
def after (now : Graph) (removed : List SourcePath) : Graph :=
  past.mergeRound names
    { Round.new with
      graph := now
      log := noteRound past now .empty
      removedFiles := removed
      differentiated := true }

theorem mem_past : plain.withField constant ∈ past.classesIn.valuesOf ⟨4⟩ :=
  IdSet.mem_toList.1 (by decide)

theorem copied : constant.Copied := ⟨by decide, by decide, by decide⟩

theorem covers : names.Covers past shrunk := ⟨by decide, by decide, by decide⟩

theorem asked_if_compiled :
    names.Covers past shrunk ∧
      (compareInOrder names past shrunk .empty (request false) [⟨4⟩]).Accounts names past
        (request false) ⟨3⟩ constant (.incremental (.single ⟨"Reader.java"⟩)) ∧
      ∃ answer,
        (compareInOrder names past shrunk .empty (request false) [⟨4⟩]).outcome = .ok answer ∧
        ∀ affected, answer = .incremental affected →
          ∀ r ∈ (compareInOrder names past shrunk .empty (request false) [⟨4⟩]).requests,
            CompiledAgain past shrunk [⟨4⟩] r.owner := by
  have h := @compareInOrder_vanished names past shrunk .empty (request false) [⟨4⟩]
  have hnow : plain ∈ shrunk.classesIn.valuesOf ⟨4⟩ := IdSet.mem_toList.1 (by decide)
  exact ⟨covers, h.1 _ rfl ⟨4⟩ (by decide) _ mem_past plain hnow rfl constant (by decide) copied
    (by decide), h.2 covers⟩

/-- The constant that vanishes with its class is not accounted for. -/
theorem not_accounted :
    plain.withField constant ∈ past.classesIn.valuesOf ⟨4⟩ ∧ constant.Copied ∧
      ((after emptied []).describe? ⟨3⟩ = none ∧
        (compareInOrder names past emptied .empty (request false) [⟨4⟩]).outcome =
          .ok (.incremental .empty) ∧
        ¬ (compareInOrder names past emptied .empty (request false) [⟨4⟩]).Accounts names past
          (request false) ⟨3⟩ constant (.incremental .empty)) ∧
      (after .empty [⟨"C.java"⟩]).describe? ⟨3⟩ = none ∧
        (compareInOrder names past .empty .empty (request true) []).outcome =
          .ok (.incremental .empty) ∧
        ¬ (compareInOrder names past .empty .empty (request true) []).Accounts names past
          (request true) ⟨3⟩ constant (.incremental .empty) := by
  have hunasked : (compareInOrder names past emptied .empty (request false) [⟨4⟩]).requests = [] :=
    rfl
  have hunasked' : (compareInOrder names past .empty .empty (request true) []).requests = [] := rfl
  refine ⟨mem_past, copied, ⟨by decide, rfl, fun h => ?_⟩, by decide, rfl, fun h => ?_⟩
  · cases h with
    | asked hr => exact absurd (hunasked ▸ hr) List.not_mem_nil
    | widened hresolver => cases hresolver
  · cases h with
    | asked hr => exact absurd (hunasked' ▸ hr) List.not_mem_nil
    | widened hresolver => cases hresolver

end LostConstant

end ClassImpact
