import Mathlib
import ClassImpact.Proofs.Repeated
import ClassImpact.Proofs.Visits

/-!
# Classes of the same content

A comparison of two shapes of a class goes through its attributes one by one: some are compared
as they stand, usages and targets as sets, interfaces and thrown types by membership, fields and
methods through a patch.  Where no member is declared twice, it finds nothing exactly between
shapes of the same content, whatever the order in which they list their members.

Content does not take in where the class stands: which class encloses it, and whether it is
local.  A class that only moved in this way counts as unchanged, so its descriptor of before
stays recorded, although the rules for new fields and methods read both.

## Main results

* `isEmpty_fieldPatch_iff`, `isEmpty_methodPatch_iff`: when no member differs
* `ClassChange.isEmpty_between_iff`: no difference means the same content, and conversely
* `exists_mem_classPatch_changed_iff`: which classes of a file count as changed
* `ClassChange.isEmpty_iff_sameShape_iff`: what a comparison does not find
-/

namespace ClassImpact

open Identified (ident)

/-! ## The same content -/

/-- Two shapes of a method with the same content; thrown types may stand in another order. -/
structure MethodInfo.SameContent (past now : MethodInfo) : Prop where
  key : past.key = now.key
  access : past.access = now.access
  returns : past.returns = now.returns
  signature : past.signature = now.signature
  default : past.default = now.default
  throws : ∀ r, r ∈ past.throws ↔ r ∈ now.throws

theorem MethodInfo.SameContent.refl (m : MethodInfo) : m.SameContent m :=
  ⟨rfl, rfl, rfl, rfl, rfl, fun _ => Iff.rfl⟩

namespace ClassInfo

/-- Two shapes of a class with the same content; interfaces and members may stand in another
order.  The class file, and where the class stands within others, are left aside. -/
structure SameContent (past now : ClassInfo) : Prop where
  name : past.name = now.name
  access : past.access = now.access
  signature : past.signature = now.signature
  superclass : past.superclass = now.superclass
  interfaces : ∀ r, r ∈ past.interfaces ↔ r ∈ now.interfaces
  fields : ∀ f, f ∈ past.fields ↔ f ∈ now.fields
  methods : (∀ m ∈ past.methods, ∃ n ∈ now.methods, m.SameContent n) ∧
    ∀ n ∈ now.methods, ∃ m ∈ past.methods, m.SameContent n
  usages : ∀ u, u ∈ past.usages ↔ u ∈ now.usages
  retention : past.retention = now.retention
  targets : past.targets = now.targets

theorem SameContent.refl (c : ClassInfo) : c.SameContent c :=
  ⟨rfl, rfl, rfl, rfl, fun _ => Iff.rfl, fun _ => Iff.rfl,
    ⟨fun m hm => ⟨m, hm, .refl m⟩, fun m hm => ⟨m, hm, .refl m⟩⟩, fun _ => Iff.rfl, rfl, rfl⟩

/-- The members of a class are told apart by what they are known by. -/
structure DistinctMembers (c : ClassInfo) : Prop where
  fields : (c.fields.map FieldInfo.name).Nodup
  methods : (c.methods.map MethodInfo.key).Nodup

instance (c : ClassInfo) : Decidable c.DistinctMembers :=
  decidable_of_iff ((c.fields.map FieldInfo.name).Nodup ∧ (c.methods.map MethodInfo.key).Nodup)
    ⟨fun h => ⟨h.1, h.2⟩, fun h => ⟨h.fields, h.methods⟩⟩

end ClassInfo

/-! ## Members compared -/

/-- Two shapes of a field differ unless they are equal. -/
theorem FieldInfo.isEmpty_revision_iff_eq {f g : FieldInfo} (h : f.name = g.name) :
    (f.revision g).isEmpty = true ↔ f = g := by
  rw [isEmpty_revision_iff]
  cases f
  cases g
  simp only at h
  simp only [mk.injEq, h, true_and]
  tauto

/-- Two shapes of a method differ unless their content is the same. -/
theorem MethodChange.isEmpty_between_iff_sameContent {m n : MethodInfo} (h : m.key = n.key) :
    (between m n).isEmpty = true ↔ m.SameContent n := by
  rw [isEmpty_between_iff]
  constructor
  · rintro ⟨⟨haccess, hreturns, hdefault, hsignature⟩, hthrows⟩
    exact ⟨h, haccess, hreturns, hsignature, hdefault, hthrows⟩
  · intro hsame
    exact ⟨⟨hsame.access, hsame.returns, hsame.default, hsame.signature⟩, hsame.throws⟩

/-- **No field differs** where both lists have the same fields. -/
theorem isEmpty_fieldPatch_iff {past now : List FieldInfo}
    (hpast : (past.map FieldInfo.name).Nodup) :
    (fieldPatch past now).isEmpty = true ↔ ∀ f, f ∈ past ↔ f ∈ now := by
  rw [fieldPatch, Patch.isEmpty_between_iff_of_nodup hpast]
  simp only [ite_eq_left_iff, reduceCtorEq, imp_false, not_not]
  constructor
  · rintro ⟨hnow, hkept⟩ f
    constructor
    · intro hf
      obtain ⟨g, hg, hname, hsame⟩ := hkept f hf
      rwa [(FieldInfo.isEmpty_revision_iff_eq (Eq.symm hname)).1 hsame]
    · intro hf
      obtain ⟨g, hg, hname, hsame⟩ := hnow f hf
      rwa [← (FieldInfo.isEmpty_revision_iff_eq hname).1 hsame]
  · intro h
    have hself : ∀ f : FieldInfo, (f.revision f).isEmpty = true := fun f =>
      (FieldInfo.isEmpty_revision_iff_eq rfl).2 rfl
    exact ⟨fun f hf => ⟨f, (h f).2 hf, rfl, hself f⟩, fun f hf => ⟨f, (h f).1 hf, rfl, hself f⟩⟩

/-- **No method differs** where each one has a method of the same content on the other side. -/
theorem isEmpty_methodPatch_iff {past now : List MethodInfo}
    (hpast : (past.map MethodInfo.key).Nodup) :
    (methodPatch past now).isEmpty = true ↔
      (∀ m ∈ past, ∃ n ∈ now, m.SameContent n) ∧ ∀ n ∈ now, ∃ m ∈ past, m.SameContent n := by
  rw [methodPatch, Patch.isEmpty_between_iff_of_nodup hpast]
  simp only [ite_eq_left_iff, reduceCtorEq, imp_false, not_not]
  constructor
  · rintro ⟨hnow, hkept⟩
    refine ⟨fun m hm => ?_, fun n hn => ?_⟩
    · obtain ⟨n, hn, hkey, hsame⟩ := hkept m hm
      exact ⟨n, hn, (MethodChange.isEmpty_between_iff_sameContent (Eq.symm hkey)).1 hsame⟩
    · obtain ⟨m, hm, hkey, hsame⟩ := hnow n hn
      exact ⟨m, hm, (MethodChange.isEmpty_between_iff_sameContent hkey).1 hsame⟩
  · rintro ⟨hkept, hnow⟩
    refine ⟨fun n hn => ?_, fun m hm => ?_⟩
    · obtain ⟨m, hm, hsame⟩ := hnow n hn
      exact ⟨m, hm, hsame.key, (MethodChange.isEmpty_between_iff_sameContent hsame.key).2 hsame⟩
    · obtain ⟨n, hn, hsame⟩ := hkept m hm
      exact ⟨n, hn, hsame.key.symm,
        (MethodChange.isEmpty_between_iff_sameContent hsame.key).2 hsame⟩

/-! ## Classes compared -/

theorem OrderedSet.eq_of_mem_iff {α : Type} [Ranked α] {s t : OrderedSet α}
    (h : ∀ a, a ∈ s.toList ↔ a ∈ t.toList) : s = t := by
  have : Std.Irrefl fun a b : α => Ranked.rank a < Ranked.rank b := ⟨fun _ => Nat.lt_irrefl _⟩
  exact OrderedSet.ext (s.ordered.eq_of_mem_iff t.ordered h)

theorem isEmpty_ofMembers_targets_iff {s t : OrderedSet ElementKind} :
    (Patch.ofMembers s.toList t.toList).isEmpty = true ↔ s = t := by
  rw [Patch.isEmpty_ofMembers_iff_idents,
    show (ident : ElementKind → ElementKind) = id from rfl, List.map_id, List.map_id]
  exact ⟨OrderedSet.eq_of_mem_iff, fun h _ => h ▸ Iff.rfl⟩

namespace ClassChange

variable {past now : ClassInfo}

theorem isEmpty_base_between_iff :
    (between past now).base.isEmpty = true ↔
      past.access = now.access ∧ past.signature = now.signature ∧
        past.superclass = now.superclass ∧ ∀ u, u ∈ past.usages ↔ u ∈ now.usages := by
  rw [← IdSet.sameValues_iff]
  simp [between, Revision.isEmpty, Revision.access, Revision.ofAccess, and_assoc]

/-- **No difference means the same content**, and the same content means no difference. -/
theorem isEmpty_between_iff (hname : past.name = now.name) (hpast : past.DistinctMembers) :
    (between past now).isEmpty = true ↔ past.SameContent now := by
  have hretention : (!(between past now).retention) = true ↔ past.retention = now.retention := by
    simp [between]
  rw [isEmpty, Bool.and_eq_true, Bool.and_eq_true, Bool.and_eq_true, Bool.and_eq_true,
    Bool.and_eq_true, isEmpty_base_between_iff, hretention]
  simp only [between]
  rw [isEmpty_ofMembers_iff, isEmpty_fieldPatch_iff hpast.fields,
    isEmpty_methodPatch_iff hpast.methods, isEmpty_ofMembers_targets_iff]
  constructor
  · rintro ⟨⟨⟨⟨⟨⟨haccess, hsignature, hsuperclass, husages⟩, hinterfaces⟩, hfields⟩, hmethods⟩,
      htargets⟩, hretention⟩
    exact ⟨hname, haccess, hsignature, hsuperclass, hinterfaces, hfields, hmethods, husages,
      hretention, htargets⟩
  · intro h
    exact ⟨⟨⟨⟨⟨⟨h.access, h.signature, h.superclass, h.usages⟩, h.interfaces⟩, h.fields⟩,
      h.methods⟩, h.targets⟩, h.retention⟩

end ClassChange

/-- **Classes that count as changed**: those of a file that stand on both sides with a different
content. -/
theorem exists_mem_classPatch_changed_iff {past now : List ClassInfo}
    (hpast : (past.map ClassInfo.name).Nodup) (hmembers : ∀ p ∈ past, p.DistinctMembers)
    {p n : ClassInfo} :
    (∃ d, ⟨p, n, d⟩ ∈ (classPatch (some past) now).changed) ↔
      p ∈ past ∧ n ∈ now ∧ p.name = n.name ∧ ¬ p.SameContent n := by
  simp only [classPatch, Patch.fromRecorded, Patch.mem_changed_of_nodup hpast]
  constructor
  · rintro ⟨d, hp, hn, hname, hdiff⟩
    refine ⟨hp, hn, hname, fun hsame => ?_⟩
    rw [if_pos ((ClassChange.isEmpty_between_iff hname (hmembers p hp)).2 hsame)] at hdiff
    cases hdiff
  · rintro ⟨hp, hn, hname, hdiffers⟩
    have hfull := mt (ClassChange.isEmpty_between_iff hname (hmembers p hp)).1 hdiffers
    exact ⟨_, hp, hn, hname, if_neg hfull⟩

/-! ## Classes that moved -/

/-- The same content in the same place: enclosed by the same class, and local or not. -/
structure ClassInfo.SameShape (past now : ClassInfo) : Prop extends past.SameContent now where
  outer : past.outer = now.outer
  isLocal : past.isLocal = now.isLocal

/-- **What a comparison finds**: it finds nothing exactly between classes of the same content.  It
tells classes of the same shape from all others exactly for those pairs that, with the same
content, stand in the same place. -/
theorem ClassChange.isEmpty_iff_sameShape_iff {past now : ClassInfo}
    (hname : past.name = now.name) (hpast : past.DistinctMembers) :
    ((between past now).isEmpty = true ↔ past.SameContent now) ∧
      (((between past now).isEmpty = true ↔ past.SameShape now) ↔
        (past.SameContent now → past.outer = now.outer ∧ past.isLocal = now.isLocal)) := by
  have hcontent := isEmpty_between_iff hname hpast
  refine ⟨hcontent, ?_⟩
  rw [hcontent]
  constructor
  · intro hshape hsame
    exact ⟨(hshape.1 hsame).outer, (hshape.1 hsame).isLocal⟩
  · intro hplace
    exact ⟨fun hsame => ⟨hsame, (hplace hsame).1, (hplace hsame).2⟩,
      fun hshape => hshape.toSameContent⟩

/-! ## A class that became local

The members of a class are listed in another order, which is no change.  Then the class becomes
local, and is enclosed by another one, and this is no change either. -/

namespace BecameLocal

def past : ClassInfo :=
  { ClassInfo.plain ⟨1⟩ (.ofFlags [.pub]) (.named ⟨2⟩) with
    interfaces := [.named ⟨3⟩, .named ⟨4⟩]
    fields := [⟨⟨5⟩, .ofFlags [.pub], .primitive .int, none, none⟩,
      ⟨⟨6⟩, .ofFlags [.priv], .primitive .long, none, some (.int 7)⟩]
    methods :=
      [⟨⟨7⟩, .ofFlags [.pub], [], .primitive .void, none, [.named ⟨8⟩, .named ⟨9⟩], none⟩] }

/-- The same class, with everything listed the other way round. -/
def relisted : ClassInfo :=
  { past with
    interfaces := past.interfaces.reverse
    fields := past.fields.reverse
    methods := past.methods.map fun m => { m with throws := m.throws.reverse } }

def moved : ClassInfo := { past with outer := some ⟨10⟩, isLocal := true }

theorem relisted_sameShape :
    past.name = relisted.name ∧ past.DistinctMembers ∧
      (ClassChange.between past relisted).isEmpty = true ∧ past.SameShape relisted := by
  have hname : past.name = relisted.name := rfl
  have hpast : past.DistinctMembers := by decide
  have hempty : (ClassChange.between past relisted).isEmpty = true := by decide
  obtain ⟨-, hshape⟩ := ClassChange.isEmpty_iff_sameShape_iff hname hpast
  exact ⟨hname, hpast, hempty, (hshape.2 fun _ => ⟨rfl, rfl⟩).1 hempty⟩

theorem moved_unnoticed :
    past.name = moved.name ∧ past.DistinctMembers ∧ moved.DistinctMembers ∧
      (ClassChange.between past moved).isEmpty = true ∧ ¬ past.SameShape moved :=
  ⟨rfl, by decide, by decide, by decide, fun h => absurd h.isLocal (by decide)⟩

end BecameLocal

end ClassImpact
