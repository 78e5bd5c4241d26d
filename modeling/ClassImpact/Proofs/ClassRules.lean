import ClassImpact.Proofs.FieldRules
import ClassImpact.Proofs.MethodRules

/-!
# The rules for classes in relisted scenes

An event of a round has alike impacts in two relisted scenes, and only a changed class
limits usages.
-/

namespace ClassImpact

/-- The same event, of classes whose usages are listed in another order. -/
inductive ClassEvent.Relisted : ClassEvent → ClassEvent → Prop
  | changed {past past' now now' : ClassInfo} (d : ClassChange) (hp : past.Relisted past')
      (hw : now.Relisted now') : Relisted (.changed ⟨past, now, d⟩) (.changed ⟨past', now', d⟩)
  | removed {c c' : ClassInfo} (h : c.Relisted c') : Relisted (.removed c) (.removed c')
  | added {c c' : ClassInfo} (h : c.Relisted c') : Relisted (.added c) (.added c')

namespace Scene

open Impact

/-- Every way down from a changed class sees the same of each method whose overriding
methods are searched for. -/
def LevelAt (s : Scene) : ClassEvent → Prop
  | .changed change =>
    ∀ m ∈ followed change.diff.methods, s.updated.Level m change.past.name
  | .removed _ => True
  | .added _ => True

variable {s t : Scene} (h : s.Relisted t) (hn : s.Named) {c c' : ClassInfo}

/-! ## Changed classes -/

theorem plain_mentions (hc : c.Relisted c') : (mentions c).Plain (mentions c') := by
  obtain ⟨_, rfl, -⟩ := hc
  exact plain_ofUsages fun _ => Iff.rfl

include h

theorem alike_changedModifiers (hc : s.old.SamePlace c c') (base : Revision) :
    (s.changedModifiers c base).Alike (t.changedModifiers c' base) := by
  obtain ⟨⟨usages, rfl, hu⟩, hknows⟩ := hc
  have hmentions := (plain_mentions (c := c) ⟨usages, rfl, hu⟩).alike
  obtain ⟨r, hr⟩ := noInheritorOf_ok hknows
  obtain ⟨q, hq⟩ := outsideOf_ok hknows
  unfold Scene.changedModifiers
  rw [h.names]
  refine Alike.append (Alike.append (Alike.append ?_ ?_) ?_) ?_
  · exact ((matches_limited (fun _ => Iff.rfl) hr).alike.append hmentions).onlyIf _
  · exact ((matches_limited (fun _ => Iff.rfl) hq).alike.append hmentions).onlyIf _
  · exact hmentions.onlyIf _
  · exact (plain_ofUsages fun _ => Iff.rfl).alike.onlyIf _

include hn

theorem plain_changedPlace (hc : c.Relisted c') (d : ClassChange) :
    (s.changedPlace c d).Plain (t.changedPlace c' d) := by
  obtain ⟨_, rfl, -⟩ := hc
  unfold Scene.changedPlace
  rw [h.root]
  exact (plain_subclasses h hn c.name _).onlyIf _

theorem alike_widenAnnotation (hc : s.old.SamePlace c c') :
    (s.widenAnnotation c).Alike (t.widenAnnotation c') := by
  obtain ⟨⟨_, rfl, -⟩, hknows⟩ := hc
  exact alike_widen h hn _ _ _ hknows

theorem alike_sourceAnnotation (hc : s.old.SamePlace c c') {now now' : ClassInfo}
    (hnow : now.Relisted now') :
    (s.sourceAnnotation c now).Alike (t.sourceAnnotation c' now') := by
  have hwiden := alike_widenAnnotation h hn hc
  obtain ⟨⟨_, rfl, -⟩, -⟩ := hc
  obtain ⟨_, rfl, -⟩ := hnow
  exact hwiden.onlyIf _

theorem alike_changedAnnotation (hc : s.old.SamePlace c c') (d : ClassChange) :
    (s.changedAnnotation c d).Alike (t.changedAnnotation c' d) := by
  have hwiden := alike_widenAnnotation h hn hc
  have hmentions := (plain_mentions hc.1).alike
  obtain ⟨⟨_, rfl, -⟩, -⟩ := hc
  unfold Scene.changedAnnotation
  refine Alike.onlyIf _ ?_
  by_cases hretention : d.retention = true
  · rw [if_pos hretention, if_pos hretention]
    exact hmentions
  · rw [if_neg hretention, if_neg hretention]
    exact ((hwiden.onlyIf _).append ((plain_ofQuery _).alike.onlyIf _)).append
      (hmentions.onlyIf _)

/-- What a changed class brings about apart from its fields. -/
def besidesFields (s : Scene) (change : Changed ClassInfo ClassChange) : Impact :=
  let c := change.past
  let d := change.diff
  .all
    [ s.users c.name,
      s.changedPlace c d,
      .onlyIf (d.base.modifiers.has .interface) (mentions c),
      s.sourceAnnotation c change.now,
      s.changedModifiers c d.base,
      s.changedAnnotation c d,
      s.methods c d.methods ]

omit h hn in
theorem changedClass_eq (s : Scene) (change : Changed ClassInfo ClassChange) :
    s.changedClass change = s.besidesFields change ++ s.fields change.past change.diff.fields := by
  simp only [changedClass, besidesFields, all_cons, all_nil, append_none, append_assoc]

/-- A changed class apart from its fields, where the searches for overriding methods find the
same. -/
theorem alike_besidesFields (hc : s.updated.SamePlace c c') {now now' : ClassInfo}
    (hnow : now.Relisted now') (d : ClassChange)
    (hfinds : ∀ m ∈ followed d.methods, s.updated.FindsAlike t.updated m c c') :
    (s.besidesFields ⟨c, now, d⟩).Alike (t.besidesFields ⟨c', now', d⟩) := by
  have hold : s.old.SamePlace c c' := hc
  have hplace := (plain_changedPlace h hn hc.1 d).alike
  have hmentions := (plain_mentions hc.1).alike
  have hsource := alike_sourceAnnotation h hn hold hnow
  have hmodifiers := alike_changedModifiers h hold d.base
  have hannotation := alike_changedAnnotation h hn hold d
  have hmethods := alike_methods h hn hc d.methods hfinds
  have husers : (s.users c.name).Alike (t.users c'.name) := by
    obtain ⟨⟨_, rfl, -⟩, -⟩ := hc
    exact (plain_users h c.name).alike
  exact .all (.cons husers (.cons hplace (.cons (hmentions.onlyIf _) (.cons hsource
    (.cons hmodifiers (.cons hannotation (.cons hmethods .nil)))))))

omit h in
/-- Apart from its fields, a changed class stops at something unbounded or asks nothing. -/
theorem alike_besidesFields_self {change : Changed ClassInfo ClassChange}
    (hc : s.names.Knows change.past.name) :
    (s.besidesFields change).Alike (s.besidesFields change) :=
  alike_besidesFields (.refl s) hn ⟨.refl _, hc⟩ (.refl change.now) change.diff
    fun m _ => .refl hn.updated hc m

theorem alike_changedClass (hask : s.canAsk = false) (hc : s.updated.SamePlace c c')
    {now now' : ClassInfo} (hnow : now.Relisted now') (d : ClassChange)
    (hfinds : ∀ m ∈ followed d.methods, s.updated.FindsAlike t.updated m c c') :
    (s.changedClass ⟨c, now, d⟩).Alike (t.changedClass ⟨c', now', d⟩) := by
  rw [changedClass_eq, changedClass_eq]
  exact (alike_besidesFields h hn hc hnow d hfinds).append (alike_fields h hn hask hc d.fields)

/-! ## Removed, added and disappeared classes -/

omit hn in
theorem plain_removedClass (hc : c.Relisted c') :
    (s.removedClass c).Plain (t.removedClass c') := by
  have hmentions := plain_mentions hc
  obtain ⟨_, rfl, -⟩ := hc
  exact (plain_users h c.name).append hmentions

theorem plain_addedClass (hc : c.Relisted c') : (s.addedClass c).Plain (t.addedClass c') := by
  obtain ⟨_, rfl, -⟩ := hc
  refine plain_loop (.of_iff (h.main.mem_dependantsOf c.name)) fun d _ hd => ?_
  subst hd
  exact plain_acceptedFileOfClass h hn d

theorem plain_bereaved (file user : Symbol) :
    (s.bereaved file user).Plain (t.bereaved file user) :=
  plain_onFileOf h hn (fun _ hother => (plain_acceptedFile h hother).onlyIf _) user

theorem plain_disappearedClass (n : Symbol) :
    (s.disappearedClass n).Plain (t.disappearedClass n) := by
  refine plain_onFileOf h hn (fun file _ => ?_) n
  refine plain_loop (.of_iff (h.main.mem_dependantsOf n)) fun d _ hd => ?_
  subst hd
  exact plain_bereaved h hn file d

/-! ## Events -/

/-- **The impact of one event** does not depend on the order in which sets are listed. -/
theorem alike_event (hask : s.canAsk = false) {e e' : ClassEvent} (he : e.Relisted e')
    (hknows : ∀ change, e = .changed change → s.names.Knows change.past.name)
    (hl : s.LevelAt e) : (s.event e).Alike (t.event e') := by
  cases he with
  | changed d hp hw =>
    have hc : s.updated.SamePlace _ _ := ⟨hp, hknows _ rfl⟩
    exact alike_changedClass h hn hask hc hw d fun m hm =>
      View.overriding_relisted h.updated hn.updated hc (hl m hm)
  | removed hc => exact (plain_removedClass h hc).alike
  | added hc => exact (plain_addedClass h hn hc).alike

theorem plain_removedFile (file : SourcePath) :
    (s.removedFile file).Plain (t.removedFile file) := by
  unfold Scene.removedFile
  rw [h.names]
  cases s.names.lookup file.text with
  | none => exact plain_none
  | some f =>
    refine plain_loop (h.main.relist_classesIn f) fun c c' hc => ?_
    obtain ⟨_, rfl, -⟩ := hc
    exact plain_disappearedClass h hn c.name

end Scene

end ClassImpact
