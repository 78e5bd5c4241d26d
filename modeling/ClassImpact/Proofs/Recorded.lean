import Mathlib
import ClassImpact.Proofs.Linked
import ClassImpact.Proofs.Replaced

/-!
# Classes recorded in any order

A compiler reports the classes of a program in an order of its own.  Where each class has one
name, the files of classes, the classes of files and the subclasses do not depend on it.

The edges between classes do.  Whether a class that is used comes from the file of its user is
decided while the user is recorded, from the files known by then: the use of a class that the
same file declares further on makes an edge, and the use of one declared before makes none.

## Main results

* `Graph.mem_dependants_recorded`: the edges of a list of classes, with its order
* `Graph.recorded_perm_iff`: when another order records the same tables, and when the edges are
  just those that lead from one file to another
-/

namespace ClassImpact

/-! ## Tables with the same sets -/

namespace Table

variable {α κ : Type} [Identified α κ]

/-- The same keys with the same sets under them, in whatever order these list their values. -/
structure Same (t u : SetTable α) : Prop where
  keys : ∀ k, t.has k = u.has k
  values : ∀ k a, a ∈ t.valuesOf k ↔ a ∈ u.valuesOf k

/-- A key of a table without empty sets has some value. -/
theorem Populated.has_iff {t : SetTable α} (h : t.Populated) {k : Symbol} :
    t.has k = true ↔ ∃ a, a ∈ t.valuesOf k := by
  constructor
  · intro hk
    obtain ⟨s, hs⟩ := Option.isSome_iff_exists.1 hk
    by_contra hnone
    have hempty : s.isEmpty = true := by
      rw [IdSet.isEmpty_iff]
      exact fun a ha => hnone ⟨a, by rwa [valuesOf_of_get? hs]⟩
    rw [h k s hs] at hempty
    simp at hempty
  · rintro ⟨a, ha⟩
    exact has_of_mem_valuesOf ha

/-- Tables without empty sets are the same when their values are. -/
theorem Populated.same {t u : SetTable α} (ht : t.Populated) (hu : u.Populated)
    (h : ∀ k a, a ∈ t.valuesOf k ↔ a ∈ u.valuesOf k) : t.Same u where
  keys k := by
    rw [Bool.eq_iff_iff, ht.has_iff, hu.has_iff]
    exact exists_congr (h k)
  values := h

end Table

/-! ## Lists of classes -/

/-- One entry stands before another one. -/
def Precedes {α : Type} (l : List α) (y x : α) : Prop := [y, x].Sublist l

instance {α : Type} [DecidableEq α] (l : List α) (y x : α) : Decidable (Precedes l y x) :=
  inferInstanceAs (Decidable ([y, x].Sublist l))

theorem precedes_append_singleton {α : Type} {l : List α} {y x z : α} :
    Precedes (l ++ [z]) y x ↔ Precedes l y x ∨ y ∈ l ∧ x = z := by
  constructor
  · intro h
    obtain ⟨front, back, heq, hfront, hback⟩ := List.sublist_append_iff.1 h
    rcases List.sublist_cons_iff.1 hback with hback | ⟨rest, rfl, hrest⟩
    · obtain rfl := List.sublist_nil.1 hback
      rw [List.append_nil] at heq
      subst heq
      exact .inl hfront
    · obtain rfl := List.sublist_nil.1 hrest
      have heq : [y] ++ [x] = front ++ [z] := heq
      obtain ⟨hy, hx⟩ := List.append_inj' heq rfl
      exact .inr ⟨List.singleton_sublist.1 (hy ▸ hfront), List.singleton_inj.1 hx⟩
  · rintro (h | ⟨hy, rfl⟩)
    · exact h.trans (List.sublist_append_left ..)
    · exact (List.singleton_sublist.2 hy).append (.refl [x])

theorem Precedes.mem_left {α : Type} {l : List α} {y x : α} (h : Precedes l y x) : y ∈ l :=
  h.subset List.mem_cons_self

instance (c : ClassInfo) (o : Symbol) : Decidable (c.Uses o) :=
  inferInstanceAs (Decidable (∃ u ∈ c.usages.toList, u.owner = o))

/-- A class under its file uses another one of the same file. -/
structure UsesBeside (x y : Symbol × ClassInfo) : Prop where
  file : y.1 = x.1
  uses : x.2.Uses y.2.name
  other : y.2.name ≠ x.2.name

instance (x y : Symbol × ClassInfo) : Decidable (UsesBeside x y) :=
  decidable_of_iff (y.1 = x.1 ∧ x.2.Uses y.2.name ∧ y.2.name ≠ x.2.name)
    ⟨fun h => ⟨h.1, h.2.1, h.2.2⟩, fun h => ⟨h.file, h.uses, h.other⟩⟩

/-- A class of the list uses a class `o` that the list does not declare in its file. -/
def CrossesFiles (l : List (Symbol × ClassInfo)) (o d : Symbol) : Prop :=
  ∃ x ∈ l, x.2.name = d ∧ x.2.Uses o ∧ o ≠ d ∧ ∀ y ∈ l, y.2.name = o → y.1 ≠ x.1

namespace Graph

/-- The graph in which a list of classes is recorded, each under its file. -/
def recorded (l : List (Symbol × ClassInfo)) : Graph :=
  l.foldl (fun g x => g.record x.1 x.2) empty

variable {l l' : List (Symbol × ClassInfo)}

theorem recorded_append_singleton (l : List (Symbol × ClassInfo)) (x : Symbol × ClassInfo) :
    recorded (l ++ [x]) = (recorded l).record x.1 x.2 := List.foldl_concat ..

/-- Nothing is a key of a recorded table without a reason. -/
theorem populated_recorded (l : List (Symbol × ClassInfo)) :
    (recorded l).subclasses.Populated ∧ (recorded l).classesIn.Populated ∧
      (recorded l).dependants.Populated := by
  induction l using List.reverseRecOn with
  | nil => exact ⟨Table.populated_empty, Table.populated_empty, Table.populated_empty⟩
  | append_singleton l x ih =>
    rw [recorded_append_singleton]
    refine ⟨?_, ih.2.1.addValue x.1 x.2, Held.populated_record ih.2.2 x.1 x.2⟩
    exact List.foldlRecOn (motive := Table.Populated) _ _ ih.1
      fun _ ht s _ => ht.addValue s x.2.name

/-! ## What a list of classes records -/

theorem eq_of_name_eq (hl : (l.map fun x => x.2.name).Nodup) {x y : Symbol × ClassInfo}
    (hx : x ∈ l) (hy : y ∈ l) (h : x.2.name = y.2.name) : x = y :=
  List.inj_on_of_nodup_map hl hx hy h

theorem get?_fileOf_recorded (hl : (l.map fun x => x.2.name).Nodup) {n f : Symbol} :
    (recorded l).fileOf.get? n = some f ↔ ∃ x ∈ l, x.1 = f ∧ x.2.name = n := by
  refine ⟨fileOf_records, ?_⟩
  rintro ⟨x, hx, rfl, rfl⟩
  have hhas : (recorded l).fileOf.has x.2.name = true := has_fileOf_records.2 ⟨x, hx, rfl⟩
  obtain ⟨f, hf⟩ := Option.isSome_iff_exists.1 hhas
  obtain ⟨y, hy, rfl, hname⟩ := fileOf_records hf
  rw [hf, eq_of_name_eq hl hy hx hname]

/-- **The edges of a list of classes**: a class is a user of each class that it uses, other than
those of its file that were recorded before it. -/
theorem mem_dependants_recorded (hl : (l.map fun x => x.2.name).Nodup) {o d : Symbol} :
    d ∈ (recorded l).dependants.valuesOf o ↔
      ∃ x ∈ l, x.2.name = d ∧ x.2.Uses o ∧ o ≠ d ∧
        ∀ y, y.2.name = o → y.1 = x.1 → ¬ Precedes l y x := by
  induction l using List.reverseRecOn with
  | nil => simp [recorded, empty]
  | append_singleton l z ih =>
    have hnames := hl
    rw [List.map_append, List.nodup_append] at hl
    have hz : ∀ x ∈ l, x ≠ z := by
      rintro x hx rfl
      exact hl.2.2 x.2.name (List.mem_map_of_mem hx) x.2.name (by simp) rfl
    have hlast : (recorded l |>.record z.1 z.2).fileOf.get? o ≠ some z.1 ∧ o ≠ z.2.name ↔
        (∀ y, y.2.name = o → y.1 = z.1 → ¬ Precedes (l ++ [z]) y z) ∧ o ≠ z.2.name := by
      refine and_congr_left fun hne => not_iff_comm.1 ?_
      rw [← recorded_append_singleton, get?_fileOf_recorded hnames]
      push Not
      constructor
      · rintro ⟨y, hname, hfile, hbefore⟩
        refine ⟨y, hbefore.mem_left, hfile, hname⟩
      · rintro ⟨y, hy, hfile, hname⟩
        have hyl : y ∈ l := by
          rcases List.mem_append.1 hy with hy | hy
          · exact hy
          · exact absurd (hname ▸ List.mem_singleton.1 hy ▸ rfl) hne
        exact ⟨y, hname, hfile, precedes_append_singleton.2 (.inr ⟨hyl, rfl⟩)⟩
    rw [recorded_append_singleton, mem_dependants_record, ih hl.1]
    constructor
    · rintro (⟨x, hx, rfl, hu, hne, hout⟩ | ⟨⟨hu, hne, hfile⟩, rfl⟩)
      · refine ⟨x, List.mem_append_left _ hx, rfl, hu, hne, fun y hname hy hbefore => ?_⟩
        rcases precedes_append_singleton.1 hbefore with hbefore | ⟨-, hxz⟩
        · exact hout y hname hy hbefore
        · exact hz x hx hxz
      · exact ⟨z, by simp, rfl, hu, hne, (hlast.1 ⟨hfile, hne⟩).1⟩
    · rintro ⟨x, hx, rfl, hu, hne, hout⟩
      rcases List.mem_append.1 hx with hx | hx
      · refine .inl ⟨x, hx, rfl, hu, hne, fun y hname hy hbefore => hout y hname hy ?_⟩
        exact precedes_append_singleton.2 (.inl hbefore)
      · obtain rfl := List.mem_singleton.1 hx
        exact .inr ⟨⟨hu, hne, (hlast.2 ⟨hout, hne⟩).1⟩, rfl⟩

/-- An edge within a file is there exactly when the class that is used was not recorded before. -/
theorem mem_dependants_beside (hl : (l.map fun x => x.2.name).Nodup) {x y : Symbol × ClassInfo}
    (hx : x ∈ l) (hy : y ∈ l) (h : UsesBeside x y) :
    x.2.name ∈ (recorded l).dependants.valuesOf y.2.name ↔ ¬ Precedes l y x := by
  rw [mem_dependants_recorded hl]
  constructor
  · rintro ⟨z, hz, hname, -, -, hout⟩
    obtain rfl := eq_of_name_eq hl hz hx hname
    exact hout y rfl h.file
  · intro hbefore
    refine ⟨x, hx, rfl, h.uses, h.other, fun z hname _ hz => hbefore ?_⟩
    rwa [eq_of_name_eq hl hy hz.mem_left hname.symm]

/-- An order in which as many classes stand before their users in the file has as few edges. -/
theorem dependants_of_order (hl : (l.map fun x => x.2.name).Nodup) (hp : l.Perm l')
    (h : ∀ x ∈ l, ∀ y ∈ l, UsesBeside x y → Precedes l y x → Precedes l' y x) {o d : Symbol}
    (hd : d ∈ (recorded l').dependants.valuesOf o) : d ∈ (recorded l).dependants.valuesOf o := by
  obtain ⟨x, hx, rfl, hu, hne, hout⟩ :=
    (mem_dependants_recorded ((hp.map _).nodup_iff.1 hl)).1 hd
  refine (mem_dependants_recorded hl).2 ⟨x, hp.mem_iff.2 hx, rfl, hu, hne, ?_⟩
  intro y hname hfile hbefore
  subst hname
  exact hout y rfl hfile
    (h x (hp.mem_iff.2 hx) y hbefore.mem_left ⟨hfile, hu, hne⟩ hbefore)

/-- The edges are those between files exactly when each class stands after those of its file
that it uses. -/
theorem crossesFiles_iff (hl : (l.map fun x => x.2.name).Nodup) :
    (∀ o d, d ∈ (recorded l).dependants.valuesOf o ↔ CrossesFiles l o d) ↔
      ∀ x ∈ l, ∀ y ∈ l, UsesBeside x y → Precedes l y x := by
  constructor
  · intro h x hx y hy hbeside
    by_contra hbefore
    obtain ⟨z, hz, hname, -, -, hout⟩ :=
      (h y.2.name x.2.name).1 ((mem_dependants_beside hl hx hy hbeside).2 hbefore)
    obtain rfl := eq_of_name_eq hl hz hx hname
    exact hout y hy rfl hbeside.file
  · intro h o d
    rw [mem_dependants_recorded hl]
    constructor
    · rintro ⟨x, hx, rfl, hu, hne, hout⟩
      refine ⟨x, hx, rfl, hu, hne, fun y hy hname hfile => hout y hname hfile ?_⟩
      subst hname
      exact h x hx y hy ⟨hfile, hu, hne⟩
    · rintro ⟨x, hx, rfl, hu, hne, hout⟩
      exact ⟨x, hx, rfl, hu, hne, fun y hname hfile hbefore =>
        hout y hbefore.mem_left hname hfile⟩

/-- **When the order of recording does not count**: classes with distinct names, recorded in two
orders under the same files, have the same files, the same lists of classes and the same
subclasses.  They have the same edges exactly when the orders agree on which of two classes of
a file comes first wherever one uses the other.

The edges are just those from one file to another exactly when each class is recorded after the
classes of its file that it uses. -/
theorem recorded_perm_iff (hl : (l.map fun x => x.2.name).Nodup) (hp : l.Perm l') :
    (recorded l').fileOf = (recorded l).fileOf ∧
      (recorded l').classesIn.Same (recorded l).classesIn ∧
      (recorded l').subclasses.Same (recorded l).subclasses ∧
      ((recorded l').dependants.Same (recorded l).dependants ↔
        ∀ x ∈ l, ∀ y ∈ l, UsesBeside x y → (Precedes l' y x ↔ Precedes l y x)) ∧
      ((∀ o d, d ∈ (recorded l).dependants.valuesOf o ↔ CrossesFiles l o d) ↔
        ∀ x ∈ l, ∀ y ∈ l, UsesBeside x y → Precedes l y x) := by
  have hl' : (l'.map fun x => x.2.name).Nodup := (hp.map _).nodup_iff.1 hl
  obtain ⟨hsub, hin, hdep⟩ := populated_recorded l
  obtain ⟨hsub', hin', hdep'⟩ := populated_recorded l'
  refine ⟨?_, hin'.same hin ?_, hsub'.same hsub ?_, ⟨?_, ?_⟩, crossesFiles_iff hl⟩
  · apply Table.eq_of_get?_eq
    intro n
    apply Option.ext
    intro f
    rw [get?_fileOf_recorded hl, get?_fileOf_recorded hl']
    simp only [hp.mem_iff]
  · intro f c
    rw [recorded, recorded, mem_classesIn_records hl, mem_classesIn_records hl', hp.mem_iff]
  · intro u s
    rw [recorded, recorded, mem_subclasses_records, mem_subclasses_records]
    simp only [hp.mem_iff]
  · intro hsame x hx y hy hbeside
    have hedge := hsame.values y.2.name x.2.name
    rw [mem_dependants_beside hl hx hy hbeside,
      mem_dependants_beside hl' (hp.mem_iff.1 hx) (hp.mem_iff.1 hy) hbeside] at hedge
    exact not_iff_not.1 hedge
  · intro horder
    refine hdep'.same hdep fun o d => ⟨?_, ?_⟩
    · exact dependants_of_order hl hp fun x hx y hy hbeside => (horder x hx y hy hbeside).2
    · refine dependants_of_order hl' hp.symm fun x hx y hy hbeside => ?_
      exact (horder x (hp.mem_iff.2 hx) y (hp.mem_iff.2 hy) hbeside).1

end Graph

/-! ## Two classes of one file

A class uses another one that stands in its file.  Recorded after it, there is no edge; recorded
before it, there is one, and so another order gives another table. -/

namespace ForwardReference

/-- A class of the example. -/
def info (name : Symbol) : ClassInfo := .plain name (.ofFlags [.pub]) (.named ⟨9⟩)

/-- The class that is used, in the first file. -/
def used : Symbol × ClassInfo := (⟨1⟩, info ⟨4⟩)

/-- A class of the same file that uses it. -/
def user : Symbol × ClassInfo := (⟨1⟩, { info ⟨3⟩ with usages := .single (.mention ⟨4⟩) })

/-- A class of another file that uses it as well. -/
def stranger : Symbol × ClassInfo := (⟨2⟩, { info ⟨5⟩ with usages := .single (.mention ⟨4⟩) })

/-- As long as the used class comes before its user, the order of the others does not count. -/
theorem same_tables :
    (Graph.recorded [stranger, used, user]).dependants.Same
        (Graph.recorded [used, user, stranger]).dependants ∧
      ∀ o d, d ∈ (Graph.recorded [used, user, stranger]).dependants.valuesOf o ↔
        CrossesFiles [used, user, stranger] o d := by
  have hdistinct : ([used, user, stranger].map fun x => x.2.name).Nodup := by decide
  have hperm : [used, user, stranger].Perm [stranger, used, user] :=
    @List.perm_append_comm _ [used, user] [stranger]
  obtain ⟨-, -, -, hsame, hcross⟩ := Graph.recorded_perm_iff hdistinct hperm
  exact ⟨hsame.2 (by decide), hcross.2 (by decide)⟩

/-- Two classes with distinct names, whose tables depend on the order. -/
theorem not_same_tables :
    ([user, used].map fun x => x.2.name).Nodup ∧ [used, user].Perm [user, used] ∧
      ¬ (Graph.recorded [user, used]).dependants.Same (Graph.recorded [used, user]).dependants ∧
      ¬ ∀ o d, d ∈ (Graph.recorded [user, used]).dependants.valuesOf o ↔
        CrossesFiles [user, used] o d := by
  refine ⟨by decide, List.Perm.swap .., ?_, ?_⟩
  · intro h
    have hedge : (⟨3⟩ : Symbol) ∈ (Graph.recorded [user, used]).dependants.valuesOf ⟨4⟩ :=
      IdSet.contains_iff.1 rfl
    have hnone : (Graph.recorded [used, user]).dependants.valuesOf ⟨4⟩ = .empty := rfl
    rw [h.values, hnone] at hedge
    simp at hedge
  · intro h
    have hedge : (⟨3⟩ : Symbol) ∈ (Graph.recorded [user, used]).dependants.valuesOf ⟨4⟩ :=
      IdSet.contains_iff.1 rfl
    obtain ⟨x, hx, hname, -, -, hout⟩ := (h _ _).1 hedge
    have hfile : x.1 = used.1 := by
      simp only [List.mem_cons, List.not_mem_nil, or_false] at hx
      rcases hx with rfl | rfl <;> rfl
    exact hout used (by simp) rfl hfile.symm

end ForwardReference

end ClassImpact
