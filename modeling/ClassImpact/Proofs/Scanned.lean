import ClassImpact.Proofs.Answers

/-!
# The search as a set

The search goes through the classes to search one after the other, and through the usages of
each.  It looks at the set that it is growing: a class is passed over when its file is affected
already.  And it leaves the usages of a class at the first that is hit.

Neither shows in what it comes to.  A class that is passed over could only have added a file
that is there; and whether some usage is hit does not depend on which of them is met first.  So
the search adds the files of exactly those classes that hold a hit usage, in whatever order the
classes are taken and their usages are listed.

## Main results

* `AnnotationUse.hits_iff`: the uses of an annotation that a query hits
* `Scene.search_order_free`: what the search adds, in every order
-/

namespace ClassImpact

/-! ## Queries -/

namespace AnnotationUse

/-- A use of the annotation that a query is about hits when it leaves a queried member to its
default, or stands on a queried kind of element. -/
structure Satisfies (query used : AnnotationUse) : Prop where
  name : query.name = used.name
  hit : (∃ queried, query.members = some queried ∧
      ∃ m ∈ queried.toList, ∀ given, used.members = some given → m ∉ given.toList) ∨
    ∃ queried standing, query.targets = some queried ∧ used.targets = some standing ∧
      ∃ kind ∈ queried.toList, kind ∈ standing.toList

variable {query used : AnnotationUse}

theorem hitsMembers_iff :
    query.hitsMembers used = true ↔ ∃ queried, query.members = some queried ∧
      ∃ m ∈ queried.toList, ∀ given, used.members = some given → m ∉ given.toList := by
  unfold hitsMembers
  cases query.members with
  | none => simp
  | some queried =>
    cases used.members with
    | none => simp [OrderedSet.isEmpty, List.eq_nil_iff_forall_not_mem]
    | some given => simp [← OrderedSet.contains_eq_true]

theorem hitsTargets_iff :
    query.hitsTargets used = true ↔ ∃ queried standing,
      query.targets = some queried ∧ used.targets = some standing ∧
        ∃ kind ∈ queried.toList, kind ∈ standing.toList := by
  unfold hitsTargets
  cases query.targets with
  | none => simp
  | some queried =>
    cases used.targets with
    | none => simp
    | some standing => simp

/-- **What a query hits**, in terms of its sets. -/
theorem hits_iff : query.hits used = true ↔ query.Satisfies used := by
  rw [hits, Bool.and_eq_true, Bool.or_eq_true, hitsMembers_iff, hitsTargets_iff, decide_eq_true_iff]
  exact ⟨fun ⟨hname, hhit⟩ => ⟨hname, hhit⟩, fun h => ⟨h.name, h.hit⟩⟩

end AnnotationUse

namespace Scene

variable {s t : Scene} {a : Impact} {c : Symbol} {u : Usage} {d : ClassInfo}
  {compiled : List SourcePath} {k : List Component}

/-! ## What is hit -/

/-- A usage is searched for and counts in a class: without a limit, or under one that is true of
the class. -/
def Counts (s : Scene) (a : Impact) (c : Symbol) (u : Usage) : Prop :=
  u ∈ a.usages ∧
    (a.limitOn? u = none ∨ ∃ r, a.limitOn? u = some r ∧ r.holds s.updated c = .ok true)

/-- A class holds a usage that counts in it, or a use of an annotation that a query hits. -/
def HoldsHit (s : Scene) (a : Impact) (d : ClassInfo) : Prop :=
  (∃ u ∈ d.usages, s.Counts a d.name u) ∨
    ∃ used, .annotated used ∈ d.usages ∧ ∃ query ∈ a.queries, query.Satisfies used

theorem isQueried_iff :
    isQueried a u = true ↔
      ∃ used, u = .annotated used ∧ ∃ query ∈ a.queries, query.Satisfies used := by
  cases u with
  | annotated used => simp [isQueried, AnnotationUse.hits_iff]
  | _ => simp [isQueried]

theorem counts_iff : s.Counts a c u ↔
    u ∈ a.usages ∧ ∀ r, a.limitOn? u = some r → r.holds s.updated c = .ok true := by
  unfold Counts
  cases a.limitOn? u <;> simp

theorem hit_iff_holdsHit : s.Hit a a.limitOn? d ↔ s.HoldsHit a d := by
  unfold Hit HoldsHit
  simp only [counts_iff, isQueried_iff, and_or_left, exists_or]
  refine or_congr Iff.rfl ⟨?_, ?_⟩
  · rintro ⟨_, hu, used, rfl, hquery⟩
    exact ⟨used, hu, hquery⟩
  · rintro ⟨used, hu, hquery⟩
    exact ⟨_, hu, used, rfl, hquery⟩

/-- **The search is free of order**: whatever the order of the classes that it goes through, and
of the usages of each, it comes to an end without a fault and adds the files of exactly those
classes that have a file, which was not compiled, and a descriptor that holds something hit. -/
theorem search_order_free (hn : s.Named) (h : s.Relisted t) (a : Impact)
    (compiled : List SourcePath) (affected : PathSet) {classes : List Symbol}
    (hclasses : classes.Perm (IdSet.ofList a.dependants).toList) :
    ∃ p, t.search a compiled classes affected = .ok p ∧
      ∀ k, p.has k = true ↔ affected.has k = true ∨
        ∃ c ∈ a.dependants, ∃ f text d, s.main.fileOf.get? c = some f ∧
          s.names.name f = .ok text ∧ (SourcePath.mk text).components = k ∧
          compiled.any (SourcePath.mk text).sameAs = false ∧
          s.main.describe? c = some d ∧ s.HoldsHit a d := by
  obtain ⟨p, hp, hk⟩ := search_ok (hn.relisted h) a compiled classes affected
  have hmem : ∀ c, c ∈ classes ↔ c ∈ a.dependants := fun c =>
    hclasses.mem_iff.trans IdSet.mem_ofList
  have hfinds : ∀ c k, t.Finds a compiled a.limitOn? c k ↔ s.Finds a compiled a.limitOn? c k :=
    fun c k => (finds_relisted (fun _ => Iff.rfl) h compiled a.limitOn? c k).symm
  refine ⟨p, hp, fun k => ?_⟩
  rw [hk]
  simp only [hmem, hfinds]
  simp only [Finds, hit_iff_holdsHit]

end Scene

/-! ## Three classes in two files

Of two classes in one file, one holds a mention that does not count in its package, and the other
uses an annotation whose member lost its default.  A class in another file and package holds the
mention as well, beside a usage that nothing searches for. -/

namespace SharedFile

def names : NameTable :=
  NameTable.new.internAll
    ["java/lang/Object", "<init>", "p/A", "p/B", "p/C", "q/D", "B.java", "D.java", "value"]

def info (name : Symbol) (usages : IdSet Usage) : ClassInfo :=
  { ClassInfo.plain name (.ofFlags [.pub]) (.named ⟨1⟩) with usages := usages }

/-- The graph of the example, with the usages of the class in the other file. -/
def graph (usages : IdSet Usage) : Graph :=
  ((Graph.empty.record ⟨7⟩ (info ⟨4⟩ (.single (.mention ⟨3⟩)))).record ⟨7⟩
    (info ⟨5⟩ (.single (.annotated ⟨⟨3⟩, none, none⟩)))).record ⟨8⟩ (info ⟨6⟩ usages)

def scene (usages : IdSet Usage) : Scene where
  main := graph usages
  round := .empty
  names := names
  root := ⟨1⟩
  constructor := ⟨2⟩
  accepts _ := true
  canAsk := false

def impact : Impact :=
  { Impact.none with
    dependants := [⟨4⟩, ⟨5⟩, ⟨6⟩]
    usages := [.mention ⟨3⟩]
    queries := [⟨⟨3⟩, some (.ofList [⟨9⟩]), none⟩]
    limits := [(.mention ⟨3⟩, .outside "p")] }

/-- The usages of the class in the other file, in one order and in the other. -/
def usages : IdSet Usage := .ofList [.mention ⟨3⟩, .instantiation ⟨3⟩]

def usages' : IdSet Usage := .ofList [.instantiation ⟨3⟩, .mention ⟨3⟩]

theorem named : (scene usages).Named := .of_entries (by decide) (by decide) (by decide)

theorem mem_usages_iff (u : Usage) : u ∈ usages ↔ u ∈ usages' := by
  rw [usages, usages', IdSet.mem_ofList, IdSet.mem_ofList]
  simp [or_comm]

theorem relisted : (scene usages).Relisted (scene usages') where
  main :=
    { fileOf := rfl
      subclasses := List.forall₂_same.2 fun e _ => ⟨rfl, .refl _⟩
      dependants := List.forall₂_same.2 fun e _ => ⟨rfl, .refl _⟩
      classesIn := by
        have hshared : IdSet.Relisted ((graph usages).classesIn.valuesOf ⟨7⟩)
            ((graph usages').classesIn.valuesOf ⟨7⟩) :=
          ⟨_, .refl _, List.forall₂_same.2 fun c _ => .refl c⟩
        have hother : IdSet.Relisted ((graph usages).classesIn.valuesOf ⟨8⟩)
            ((graph usages').classesIn.valuesOf ⟨8⟩) :=
          ⟨_, .refl _, .cons ⟨usages', rfl, mem_usages_iff⟩ .nil⟩
        exact .cons ⟨rfl, hshared⟩ (.cons ⟨rfl, hother⟩ .nil) }
  round := .refl _
  names := rfl
  root := rfl
  constructor := rfl
  accepts := rfl
  canAsk := rfl

theorem both_found :
    (scene usages).Named ∧ (scene usages).Relisted (scene usages') ∧
      [⟨6⟩, ⟨5⟩, ⟨4⟩].Perm (IdSet.ofList impact.dependants).toList ∧
      ∃ p, (scene usages').search impact [] [⟨6⟩, ⟨5⟩, ⟨4⟩] .empty = .ok p ∧
        p.has (SourcePath.mk "B.java").components = true ∧
        p.has (SourcePath.mk "D.java").components = true := by
  have hclasses : [⟨6⟩, ⟨5⟩, ⟨4⟩].Perm (IdSet.ofList impact.dependants).toList := by decide
  obtain ⟨p, hp, hk⟩ := Scene.search_order_free named relisted impact [] .empty hclasses
  refine ⟨named, relisted, hclasses, p, hp, (hk _).2 (.inr ?_), (hk _).2 (.inr ?_)⟩
  · refine ⟨⟨5⟩, by decide, ⟨7⟩, "B.java", info ⟨5⟩ _, rfl, rfl, rfl, rfl, rfl, .inr ?_⟩
    exact ⟨⟨⟨3⟩, none, none⟩, IdSet.mem_toList.1 (by decide), _, List.mem_singleton_self _, rfl,
      .inl ⟨_, rfl, ⟨9⟩, by decide, fun _ h => by cases h⟩⟩
  · refine ⟨⟨6⟩, by decide, ⟨8⟩, "D.java", info ⟨6⟩ usages, rfl, rfl, rfl, rfl, rfl, .inl ?_⟩
    exact ⟨.mention ⟨3⟩, IdSet.mem_toList.1 (by decide), by decide, .inr ⟨_, rfl, rfl⟩⟩

end SharedFile

end ClassImpact
