import ClassImpact.Proofs.Retyped

/-!
# Removed files

A file that left the project takes its classes with it, and the recorded users of these classes
are affected.  The users of a class are those that an edge leads to, and an edge is put down for
a usage.  That a class names another one as a supertype is written into another table, which a
removed file does not make anybody look at.

So in a rebuilt graph a removed file adds the files of the users of its classes to the answer,
and no others: a class that extends one of them is reached by its usages or not at all.

## Main results

* `Scene.mem_removedFiles`: which files removed files draw in
* `compareInOrder_disappeared`: the answer with removed files and the one without them
-/

namespace ClassImpact

/-! ## Loops that only draw files in -/

namespace Impact

theorem DrawsOnly.eq {a : Impact} (h : a.DrawsOnly) : a = ofFiles a.files := by
  obtain ⟨files, rfl⟩ := h
  rfl

theorem DrawsOnly.stop {a : Impact} (h : a.DrawsOnly) : a.stop = .none := by
  obtain ⟨files, rfl⟩ := h
  rfl

theorem drawsOnly_loop {α : Type} {l : List α} {f : α → Impact}
    (h : ∀ x ∈ l, (f x).DrawsOnly) : (all (l.map f)).DrawsOnly :=
  .all (List.forall_mem_map.2 h)

theorem mem_files_loop {α : Type} {l : List α} {f : α → Impact} {path : SourcePath}
    (h : ∀ x ∈ l, (f x).DrawsOnly) :
    path ∈ (all (l.map f)).files ↔ ∃ x ∈ l, path ∈ (f x).files := by
  have hstop : ∀ a ∈ l.map f, a.stop = .none :=
    List.forall_mem_map.2 fun x hx => (h x hx).stop
  refine (brings_all hstop (.file path)).trans ⟨?_, ?_⟩
  · rintro ⟨a, ha, hpath⟩
    obtain ⟨x, hx, rfl⟩ := List.mem_map.1 ha
    exact ⟨x, hx, hpath⟩
  · rintro ⟨x, hx, hpath⟩
    exact ⟨f x, List.mem_map_of_mem hx, hpath⟩

theorem ofFiles_append (files : List SourcePath) (b : Impact) :
    ofFiles files ++ b = { b with files := files ++ b.files } := rfl

end Impact

namespace Scene

variable {s : Scene} {removed : List SourcePath}

/-! ## What removed files bring about -/

/-- The class `c` is recorded under the file `g`, which was removed. -/
def Gone (s : Scene) (removed : List SourcePath) (c g : Symbol) : Prop :=
  (∃ gone ∈ removed, s.names.lookup gone.text = some g) ∧ s.main.fileOf.get? c = some g

section

variable {c d f g : Symbol} {path : SourcePath}

theorem disappearedClass_eq (hc : s.main.fileOf.get? c = some g) :
    s.disappearedClass c = .all ((s.main.dependantsOf c).map (s.bereaved g)) := by
  rw [disappearedClass, onFileOf, hc]

theorem bereaved_eq (hd : s.main.fileOf.get? d = some f) (hfg : f ≠ g) :
    s.bereaved g d = s.acceptedFile f := by
  rw [bereaved, onFileOf, hd]
  exact if_pos (decide_eq_true hfg)

theorem of_mem_acceptedFile (h : path ∈ (s.acceptedFile f).files) :
    s.accepts path = true ∧ s.names.name f = .ok path.text := by
  unfold acceptedFile at h
  cases htext : s.names.name f with
  | error fault =>
    rw [htext] at h
    exact absurd h List.not_mem_nil
  | ok text =>
    rw [htext] at h
    dsimp only [Impact.ofResult] at h
    split at h
    · obtain rfl := List.mem_singleton.1 h
      exact ⟨‹_›, rfl⟩
    · exact absurd h List.not_mem_nil

theorem drawsOnly_bereaved (hn : s.Named) (g d : Symbol) : (s.bereaved g d).DrawsOnly :=
  drawsOnly_onFileOf hn (fun _ hother => (drawsOnly_acceptedFile hother).onlyIf _) d

theorem of_mem_bereaved (h : path ∈ (s.bereaved g d).files) : s.accepts path = true ∧
    ∃ f, s.main.fileOf.get? d = some f ∧ f ≠ g ∧ s.names.name f = .ok path.text := by
  unfold bereaved onFileOf at h
  cases hd : s.main.fileOf.get? d with
  | none =>
    rw [hd] at h
    exact absurd h List.not_mem_nil
  | some other =>
    rw [hd] at h
    dsimp only [Impact.onlyIf] at h
    split at h
    · obtain ⟨haccepts, htext⟩ := of_mem_acceptedFile h
      exact ⟨haccepts, other, rfl, of_decide_eq_true ‹_›, htext⟩
    · exact absurd h List.not_mem_nil

theorem drawsOnly_disappearedClass (hn : s.Named) (c : Symbol) :
    (s.disappearedClass c).DrawsOnly :=
  drawsOnly_onFileOf hn (fun g _ => Impact.drawsOnly_loop fun d _ => drawsOnly_bereaved hn g d) c

theorem drawsOnly_removedFile (hn : s.Named) (gone : SourcePath) :
    (s.removedFile gone).DrawsOnly := by
  unfold removedFile
  cases s.names.lookup gone.text with
  | none => exact Impact.drawsOnly_none
  | some g => exact Impact.drawsOnly_loop fun c _ => drawsOnly_disappearedClass hn c.name

variable {p : Project} (hrecords : s.main.Records p)

include hrecords

/-- The file of a dependant of a class that went with another file. -/
theorem partOf_removedFiles (hc : s.Gone removed c g) (hd : d ∈ s.main.dependantsOf c)
    (hf : s.main.fileOf.get? d = some f) (hfg : f ≠ g) :
    (s.acceptedFile f).PartOf (.all (removed.map s.removedFile)) := by
  obtain ⟨⟨gone, hgone, hg⟩, hcg⟩ := hc
  obtain ⟨info, hinfo, hname⟩ := IdSet.has_iff_mem.1
    ((hrecords.classesIn g c).2 ((hrecords.fileOf c g).1 hcg))
  obtain rfl : info.name = c := hname
  have hfile := Impact.partOf_loop hd (s.bereaved g)
  rw [bereaved_eq hf hfg, ← disappearedClass_eq hcg] at hfile
  have hclass : (s.disappearedClass info.name).PartOf (s.removedFile gone) := by
    unfold removedFile
    rw [hg]
    exact Impact.partOf_loop (IdSet.mem_toList.2 hinfo) fun c => s.disappearedClass c.name
  exact hfile.trans (hclass.trans (Impact.partOf_loop hgone s.removedFile))

/-- **What removed files bring about**: the accepted files of dependants of their classes, but
for those in the file of the class itself. -/
theorem mem_removedFiles (hn : s.Named) :
    path ∈ (Impact.all (removed.map s.removedFile)).files ↔ s.accepts path = true ∧
      ∃ c g d f, s.Gone removed c g ∧ d ∈ s.main.dependantsOf c ∧
        s.main.fileOf.get? d = some f ∧ f ≠ g ∧ s.names.name f = .ok path.text := by
  have honly := drawsOnly_removedFile hn
  constructor
  · intro hpath
    obtain ⟨gone, hgone, hpath⟩ := (Impact.mem_files_loop fun gone _ => honly gone).1 hpath
    unfold removedFile at hpath
    cases hg : s.names.lookup gone.text with
    | none =>
      rw [hg] at hpath
      exact absurd hpath List.not_mem_nil
    | some g =>
      rw [hg] at hpath
      obtain ⟨c, hc, hpath⟩ :=
        (Impact.mem_files_loop fun c _ => drawsOnly_disappearedClass hn c.name).1 hpath
      have hcg : s.main.fileOf.get? c.name = some g :=
        (hrecords.fileOf c.name g).2 ((hrecords.classesIn g c.name).1 (IdSet.has_of_mem hc))
      rw [disappearedClass_eq hcg] at hpath
      obtain ⟨d, hd, hpath⟩ :=
        (Impact.mem_files_loop fun d _ => drawsOnly_bereaved hn g d).1 hpath
      obtain ⟨haccepts, f, hf, hfg, htext⟩ := of_mem_bereaved hpath
      exact ⟨haccepts, c.name, g, d, f, ⟨⟨gone, hgone, hg⟩, hcg⟩, hd, hf, hfg, htext⟩
  · rintro ⟨haccepts, c, g, d, f, hc, hd, hf, hfg, htext⟩
    have hstop := (Impact.drawsOnly_loop fun gone (_ : gone ∈ removed) => honly gone).stop
    exact (partOf_removedFiles hrecords hc hd hf hfg hstop).2.1 (.file path)
      (mem_acceptedFile htext haccepts)

end

/-- The file of a path holds a class that uses one which went with another file. -/
def UsesGone (s : Scene) (removed : List SourcePath) (path : SourcePath) : Prop :=
  ∃ c g d f user, s.Gone removed c g ∧ s.main.fileOf.get? d = some f ∧ f ≠ g ∧
    s.names.name f = .ok path.text ∧ s.main.describe? d = some user ∧ user.Uses c

/-! ## The answer with files in front -/

/-- Files in front of an impact are added to its answer, but for removed ones. -/
theorem conclude_ofFiles_append (hn : s.Named) {files : List SourcePath} {b : Impact}
    {compiled : List SourcePath} {answer : ConstantRequest → ConstantAnswer} {affected : PathSet}
    (hfault : b.Faultless)
    (hfaults : b.stop = none → ∀ r ∈ b.requests, (s.widening r).Faultless)
    (h : s.conclude (.ofFiles files ++ b) compiled removed answer = .ok (.incremental affected)) :
    ∃ rest, s.conclude b compiled removed answer = .ok (.incremental rest) ∧
      ∀ k, affected.has k = true ↔ rest.has k = true ∨
        (∃ path ∈ files, path.components = k) ∧ ∀ gone ∈ removed, gone.components ≠ k := by
  rw [Impact.ofFiles_append] at h
  have hopen : ¬ s.OpenEnded b answer := by
    intro hopen
    have hfull := conclude_of_openEnded (a := { b with files := files ++ b.files }) hn hfaults
      hopen compiled removed
    rw [h] at hfull
    cases hfull
  obtain ⟨hstop, hbounded⟩ := settled_of_not_openEnded hfault hfaults hopen
  obtain ⟨rest, hrest, hrestk⟩ := conclude_asked hn hstop answer hbounded compiled removed
  obtain ⟨p, hp, hpk⟩ := conclude_asked (a := { b with files := files ++ b.files }) hn hstop answer
    hbounded compiled removed
  obtain rfl : p = affected := by
    rw [hp] at h
    cases h
    rfl
  refine ⟨rest, hrest, fun k => ?_⟩
  -- the search, its limits and the questions do not look at the files
  have hreaches : s.Reaches { b with files := files ++ b.files } compiled
      ({ b with files := files ++ b.files } : Impact).limitOn? k ↔
        s.Reaches b compiled b.limitOn? k := Iff.rfl
  rw [hpk, hrestk, hreaches]
  have hfiles : (∃ path ∈ files ++ b.files, path.components = k) ↔
      (∃ path ∈ files, path.components = k) ∨ ∃ path ∈ b.files, path.components = k := by
    simp only [List.mem_append, or_and_right, exists_or]
  rw [hfiles, or_assoc, or_assoc, ← or_assoc (a := ∃ path ∈ b.files, path.components = k),
    or_and_right, or_comm]

end Scene

/-! ## Users in a rebuilt graph -/

section

variable {names t start : NameTable} {before main round : Graph} {b : Build} {log : ChangeLog}
  {q : RoundRequest} {files : List Symbol} {affected : PathSet}

/-- The dependants in a rebuilt graph, outside of the file of a class, are its users. -/
theorem Graph.dependant_iff_of_rebuilt (hfits : b.Fits t .empty)
    (hrebuilt : before.integrate (b.round start).1 (b.round start).2.onRebuild = .ok (t, main))
    {c d f g : Symbol} (hc : main.fileOf.get? c = some g) (hd : main.fileOf.get? d = some f)
    (hfg : f ≠ g) :
    d ∈ main.dependantsOf c ↔ ∃ user, main.describe? d = some user ∧ user.Uses c := by
  have hrecords := Graph.records_rebuilt hfits.oneFile hrebuilt
  constructor
  · intro hdependant
    obtain ⟨hstores, hsound⟩ := Graph.rebuilt hfits hrebuilt
    obtain ⟨file, huses⟩ := hsound c d hdependant
    obtain ⟨user, huser, rfl, hu⟩ := (hstores file d c).2 huses
    exact ⟨user, Graph.describe?_eq_some.2
      ⟨file, (hrecords.fileOf user.name file).2 huses.declares, huser, rfl⟩, hu⟩
  · rintro ⟨user, huser, hu⟩
    refine (Graph.dependant_of_rebuilt hfits.oneFile hrebuilt huser hu).resolve_left ?_
    rw [hc, hd, Option.some.injEq]
    exact hfg.symm

/-- In a rebuilt graph removed files bring about the accepted files of users. -/
theorem Scene.mem_removedFiles_of_rebuilt {s : Scene} {removed : List SourcePath}
    {path : SourcePath} (hn : s.Named) (hfits : b.Fits t .empty)
    (hrebuilt : before.integrate (b.round start).1 (b.round start).2.onRebuild =
      .ok (t, s.main)) :
    path ∈ (Impact.all (removed.map s.removedFile)).files ↔
      s.UsesGone removed path ∧ s.accepts path = true := by
  have hdependant := fun {c d f g : Symbol} =>
    Graph.dependant_iff_of_rebuilt (c := c) (d := d) (f := f) (g := g) hfits hrebuilt
  rw [mem_removedFiles (Graph.records_rebuilt hfits.oneFile hrebuilt) hn, and_comm]
  refine and_congr_left fun _ => ?_
  constructor
  · rintro ⟨c, g, d, f, hgone, hd, hf, hfg, htext⟩
    obtain ⟨user, huser, hu⟩ := (hdependant hgone.2 hf hfg).1 hd
    exact ⟨c, g, d, f, user, hgone, hf, hfg, htext, huser, hu⟩
  · rintro ⟨c, g, d, f, user, hgone, hf, hfg, htext, huser, hu⟩
    exact ⟨c, g, d, f, hgone, (hdependant hgone.2 hf hfg).2 ⟨user, huser, hu⟩, hf, hfg, htext⟩

/-- **Users of classes that went with their file**: in a rebuilt graph, the file of each recorded
class that uses one of a removed file is affected if it may be drawn in.  These are all files that
the removal affects: the others are those that the same events affect without it. -/
theorem compareInOrder_disappeared (hone : (Project.empty.after t b).OneFile)
    (hrebuilt : before.integrate (b.round start).1 (b.round start).2.onRebuild = .ok (t, main))
    (h : (compareInOrder names main round log q files).outcome = .ok (.incremental affected)) :
    let s := Scene.of names main round q
    (∀ path, s.UsesGone q.removed path → q.accepts path = true →
      (∀ gone ∈ q.removed, gone.components ≠ path.components) →
        affected.has path.components = true) ∧
      (b.Fits t .empty → names.Covers main round →
        ∃ rest, s.conclude (s.impact [] (ClassEvent.ofFiles main round files)) q.compiled
            q.removed q.answer = .ok (.incremental rest) ∧
          ∀ k, affected.has k = true ↔ rest.has k = true ∨
            (∃ path, s.UsesGone q.removed path ∧ q.accepts path = true ∧ path.components = k) ∧
              ∀ gone ∈ q.removed, gone.components ≠ k) := by
  intro s
  have hrecords : s.main.Records _ := Graph.records_rebuilt hone hrebuilt
  constructor
  · rintro path ⟨c, g, d, f, user, hgone, hf, hfg, htext, huser, hu⟩ haccepts hstays
    have hdependant : d ∈ main.dependantsOf c := by
      refine (Graph.dependant_of_rebuilt hone hrebuilt huser hu).resolve_left fun hsame => hfg ?_
      exact Option.some.inj (hf.symm.trans (hsame.symm.trans hgone.2))
    have hpart := (Scene.partOf_removedFiles hrecords hgone hdependant hf hfg).trans
      (Impact.partOf_append_left _ (.all ((ClassEvent.ofFiles main round files).map s.event)))
    have hdrawn := (hpart (Scene.stop_of_conclude h)).2.1 (.file path)
      (Scene.mem_acceptedFile htext haccepts)
    refine (Scene.affected_of_drawn h hdrawn).resolve_right ?_
    rintro ⟨gone, hmem, he⟩
    exact hstays gone hmem he
  · intro hfits hnames
    have hcovers : s.names.Covers s.main s.round := hnames.keyNames
    have honly := Impact.drawsOnly_loop fun gone (_ : gone ∈ q.removed) =>
      Scene.drawsOnly_removedFile hcovers.named gone
    have himpact : s.impact q.removed (ClassEvent.ofFiles main round files) =
        .ofFiles (Impact.all (q.removed.map s.removedFile)).files ++
          s.impact [] (ClassEvent.ofFiles main round files) := by
      unfold Scene.impact
      rw [List.map_nil, Impact.all_nil, Impact.none_append]
      exact congrArg (· ++ _) honly.eq
    have hround : s.conclude (s.impact q.removed (ClassEvent.ofFiles main round files)) q.compiled
      q.removed q.answer = .ok (.incremental affected) := h
    rw [himpact] at hround
    obtain ⟨hfault, hfaults⟩ := Scene.faultless_impact hcovers [] files
    obtain ⟨rest, hrest, hk⟩ := Scene.conclude_ofFiles_append hcovers.named hfault hfaults hround
    refine ⟨rest, hrest, fun k => (hk k).trans (or_congr_right (and_congr_left fun _ => ?_))⟩
    refine exists_congr fun path => ?_
    rw [Scene.mem_removedFiles_of_rebuilt hcovers.named hfits hrebuilt, and_assoc]
    rfl

end

/-! ## A base class that goes with its file

One class mentions a class, another one extends it and holds no usage of it.  When the file of the
class is removed, the first is affected and the second is not. -/

namespace RemovedBase

def names : NameTable :=
  NameTable.new.internAll ["java/lang/Object", "<init>", "p/A", "p/B", "p/D", "A.java", "B.java",
    "D.java", "p/A.class", "p/B.class", "p/D.class"]

/-- A class of the example, read from a class file. -/
def info (name classFile super : Symbol) : ClassInfo :=
  { ClassInfo.plain name (.ofFlags [.pub]) (.named super) with classFile := classFile }

def base : ClassInfo := info ⟨3⟩ ⟨9⟩ ⟨1⟩

def extender : ClassInfo := info ⟨4⟩ ⟨10⟩ ⟨3⟩

def mentioner : ClassInfo := { info ⟨5⟩ ⟨11⟩ ⟨1⟩ with usages := .single (.mention ⟨3⟩) }

/-- What the compiler reports of the project. -/
def build : Build where
  outputs := [⟨"A.java", "p/A.class", some base⟩, ⟨"B.java", "p/B.class", some extender⟩,
    ⟨"D.java", "p/D.class", some mentioner⟩]
  imports := []
  files := [⟨"A.java"⟩, ⟨"B.java"⟩, ⟨"D.java"⟩]
  removed := []
  covered := by simp

def past : Graph :=
  ((Graph.empty.record ⟨6⟩ base).record ⟨7⟩ extender).record ⟨8⟩ mentioner

/-- The file of the base class leaves the project, and nothing is compiled. -/
def request : RoundRequest where
  removed := [⟨"A.java"⟩]
  files := []
  compiled := []
  accepts _ := true
  resolver := none
  waiting := .onlyArrived

theorem fits : build.Fits names .empty := .fresh (by decide) rfl rfl

theorem rebuilt : Graph.empty.integrate (build.round names).1 (build.round names).2.onRebuild =
    .ok (names, past) := rfl

theorem outcome : (compareInOrder names past .empty .empty request []).outcome =
    .ok (.incremental (.single ⟨"D.java"⟩)) := rfl

theorem gone : (Scene.of names past .empty request).Gone request.removed ⟨3⟩ ⟨6⟩ :=
  ⟨⟨_, List.mem_singleton_self _, rfl⟩, rfl⟩

theorem mentioner_affected :
    (Project.empty.after names build).OneFile ∧
      Graph.empty.integrate (build.round names).1 (build.round names).2.onRebuild =
        .ok (names, past) ∧
      (compareInOrder names past .empty .empty request []).outcome =
        .ok (.incremental (.single ⟨"D.java"⟩)) ∧
      build.Fits names .empty ∧ names.Covers past .empty ∧
      let s := Scene.of names past .empty request
      s.UsesGone request.removed ⟨"D.java"⟩ ∧
        (IdSet.single ⟨"D.java"⟩ : PathSet).has (SourcePath.mk "D.java").components = true ∧
        ∃ rest, s.conclude (s.impact [] []) [] request.removed request.answer =
            .ok (.incremental rest) ∧
          ∀ k, (IdSet.single ⟨"D.java"⟩ : PathSet).has k = true ↔ rest.has k = true ∨
            (∃ path, s.UsesGone request.removed path ∧ request.accepts path = true ∧
              path.components = k) ∧
              ∀ gone ∈ request.removed, gone.components ≠ k := by
  have hcovers : names.Covers past .empty := ⟨by decide, by decide, by decide⟩
  have huses : (Scene.of names past .empty request).UsesGone request.removed ⟨"D.java"⟩ :=
    ⟨⟨3⟩, ⟨6⟩, ⟨5⟩, ⟨8⟩, mentioner, gone, rfl, by decide, rfl, rfl,
      ⟨.mention ⟨3⟩, IdSet.mem_toList.1 (by decide), rfl⟩⟩
  obtain ⟨hall, hexact⟩ := compareInOrder_disappeared fits.oneFile rebuilt outcome
  exact ⟨fits.oneFile, rebuilt, outcome, fits, hcovers, huses,
    hall _ huses rfl (by decide), hexact fits hcovers⟩

/-- The class that extends the base class is not affected. -/
theorem extender_not_affected :
    (Project.empty.after names build).OneFile ∧
      Graph.empty.integrate (build.round names).1 (build.round names).2.onRebuild =
        .ok (names, past) ∧
      (compareInOrder names past .empty .empty request []).outcome =
        .ok (.incremental (.single ⟨"D.java"⟩)) ∧
      (Scene.of names past .empty request).Gone request.removed ⟨3⟩ ⟨6⟩ ∧
      past.describe? ⟨4⟩ = some extender ∧ ⟨3⟩ ∈ extender.supers ∧
      past.fileOf.get? ⟨4⟩ = some ⟨7⟩ ∧ names.name ⟨7⟩ = .ok "B.java" ∧
      (∀ gone ∈ request.removed, gone.components ≠ (SourcePath.mk "B.java").components) ∧
      request.accepts ⟨"B.java"⟩ = true ∧
      (IdSet.single ⟨"D.java"⟩ : PathSet).has (SourcePath.mk "B.java").components = false :=
  ⟨fits.oneFile, rebuilt, outcome, gone, rfl, by decide, rfl, rfl, by decide, rfl, rfl⟩

end RemovedBase

end ClassImpact
