import Mathlib
import ClassImpact.Snapshot

/-!
# Snapshots and the names they are written with

A snapshot reads the names of the symbols in the tables of a graph, and nothing else of the
table of names.  Where another table gives these symbols the same names, the snapshot is the same.
-/

namespace ClassImpact

/-! ## Symbols in a graph -/

/-- The symbols that a type refers to. -/
def TypeRef.symbols : TypeRef → List Symbol
  | .primitive _ => []
  | .array element => element.symbols
  | .named name => [name]

/-- The symbols in a usage. -/
def Usage.symbols : Usage → List Symbol
  | .mention o => [o]
  | .instantiation o => [o]
  | .read n o t => n :: o :: t.symbols
  | .write n o t => n :: o :: t.symbols
  | .call n o ps r => n :: o :: ps.flatMap TypeRef.symbols ++ r.symbols
  | .overloads n o => [n, o]
  | .annotated u => u.name :: ((u.members.map OrderedSet.toList).getD [])

/-- The symbols in a field. -/
def FieldInfo.symbols (f : FieldInfo) : List Symbol :=
  f.name :: f.type.symbols ++ f.signature.toList

/-- The symbols in a method. -/
def MethodInfo.symbols (m : MethodInfo) : List Symbol :=
  m.name :: m.params.flatMap TypeRef.symbols ++ m.returns.symbols ++ m.signature.toList ++
    m.throws.flatMap TypeRef.symbols

/-- The symbols in the descriptor of a class. -/
def ClassInfo.symbols (c : ClassInfo) : List Symbol :=
  c.name :: c.classFile :: c.signature.toList ++ c.superclass.symbols ++
    c.interfaces.flatMap TypeRef.symbols ++ c.fields.flatMap FieldInfo.symbols ++
    c.methods.flatMap MethodInfo.symbols ++ c.usages.toList.flatMap Usage.symbols ++ c.outer.toList

/-- The symbols in the tables of a graph. -/
def Graph.symbols (g : Graph) : List Symbol :=
  g.subclasses.entries.flatMap (fun e => e.1 :: e.2.toList) ++
    g.dependants.entries.flatMap (fun e => e.1 :: e.2.toList) ++
    g.classesIn.entries.flatMap (fun e => e.1 :: e.2.toList.flatMap ClassInfo.symbols) ++
    g.fileOf.entries.flatMap fun e => [e.1, e.2]

theorem Graph.mem_symbols {g : Graph} {x : Symbol} :
    x ∈ g.symbols ↔
      (∃ e ∈ g.subclasses.entries, x ∈ e.1 :: e.2.toList) ∨
        (∃ e ∈ g.dependants.entries, x ∈ e.1 :: e.2.toList) ∨
        (∃ e ∈ g.classesIn.entries, x ∈ e.1 :: e.2.toList.flatMap ClassInfo.symbols) ∨
        ∃ e ∈ g.fileOf.entries, x ∈ [e.1, e.2] := by
  simp only [symbols, List.mem_append, List.mem_flatMap, or_assoc]

/-! ## Computations that go through -/

/-- What one computation gives, the other gives too. -/
def Yields {ε α : Type} (e e' : Except ε α) : Prop := ∀ a, e = .ok a → e' = .ok a

namespace Yields

variable {ε α β : Type} {e e' : Except ε α}

theorem refl (e : Except ε α) : Yields e e := fun _ h => h

theorem bind (h : Yields e e') {f f' : α → Except ε β} (hf : ∀ a, Yields (f a) (f' a)) :
    Yields (e >>= f) (e' >>= f') := by
  intro b hb
  cases he : e with
  | error fault => simp [he, Bind.bind, Except.bind] at hb
  | ok a =>
    rw [h a he]
    rw [he] at hb
    exact hf a b hb

theorem mapM {f f' : α → Except ε β} {l : List α} (h : ∀ a ∈ l, Yields (f a) (f' a)) :
    Yields (l.mapM f) (l.mapM f') := by
  induction l with
  | nil => exact refl _
  | cons a l ih =>
    obtain ⟨ha, hl⟩ := List.forall_mem_cons.1 h
    rw [List.mapM_cons, List.mapM_cons]
    exact ha.bind fun b => (ih hl).bind fun bs => refl _

theorem foldlM {f f' : β → α → Except ε β} {l : List α}
    (h : ∀ a ∈ l, ∀ b, Yields (f b a) (f' b a)) (b : β) :
    Yields (l.foldlM f b) (l.foldlM f' b) := by
  induction l generalizing b with
  | nil => exact refl _
  | cons a l ih =>
    obtain ⟨ha, hl⟩ := List.forall_mem_cons.1 h
    rw [List.foldlM_cons, List.foldlM_cons]
    exact (ha b).bind fun b' => ih hl b'

end Yields

/-! ## Names written out -/

namespace Snapshot

variable {t t' : NameTable}

/-- A table of sets is written out the same while its symbols keep their names. -/
theorem nameSets_yields {α κ : Type} [Identified α κ] {symbolOf : α → Symbol} {table : SetTable α}
    (h : ∀ e ∈ table.entries, (∀ a ∈ e.2.toList,
      Yields (t.name (symbolOf a)) (t'.name (symbolOf a))) ∧ Yields (t.name e.1) (t'.name e.1)) :
    Yields (nameSets t symbolOf table) (nameSets t' symbolOf table) := by
  refine .foldlM (fun e he named => ?_) []
  obtain ⟨hvalues, hkey⟩ := h e he
  exact (Yields.mapM hvalues).bind fun values => hkey.bind fun key => .refl _

theorem nameEntries_yields {table : Table Symbol}
    (h : ∀ e ∈ table.entries,
      Yields (t.name e.1) (t'.name e.1) ∧ Yields (t.name e.2) (t'.name e.2)) :
    Yields (nameEntries t table) (nameEntries t' table) := by
  refine .foldlM (fun e he named => ?_) []
  exact (h e he).1.bind fun key => (h e he).2.bind fun value => .refl _

/-- The snapshot of a graph is the same while its symbols keep their names. -/
theorem ofGraph_yields {g : Graph}
    (h : ∀ x ∈ g.symbols, ∀ n, t.name? x = some n → t'.name? x = some n) :
    Yields (ofGraph t g) (ofGraph t' g) := by
  have hname : ∀ x ∈ g.symbols, Yields (t.name x) (t'.name x) := by
    intro x hx n hn
    unfold NameTable.name at hn ⊢
    split at hn
    · rename_i n' hget
      rw [h x hx n' hget]
      exact hn
    · simp at hn
  have hsets : ∀ table : SetTable Symbol, (∀ e ∈ table.entries, ∀ x ∈ e.1 :: e.2.toList,
      x ∈ g.symbols) → Yields (nameSets t id table) (nameSets t' id table) := by
    intro table hmem
    refine nameSets_yields fun e he => ⟨fun a ha => ?_, ?_⟩
    · exact hname a (hmem e he a (List.mem_cons_of_mem _ ha))
    · exact hname e.1 (hmem e he e.1 List.mem_cons_self)
  have hclasses : ∀ e ∈ g.classesIn.entries,
      e.1 ∈ g.symbols ∧ ∀ c ∈ e.2.toList, c.name ∈ g.symbols := by
    intro e he
    refine ⟨?_, fun c hc => ?_⟩
    · exact Graph.mem_symbols.2 (.inr (.inr (.inl ⟨e, he, List.mem_cons_self⟩)))
    · refine Graph.mem_symbols.2 (.inr (.inr (.inl ⟨e, he, List.mem_cons_of_mem _ ?_⟩)))
      exact List.mem_flatMap.2 ⟨c, hc, by simp [ClassInfo.symbols]⟩
  have hfiles : ∀ e ∈ g.fileOf.entries, e.1 ∈ g.symbols ∧ e.2 ∈ g.symbols := by
    intro e he
    constructor <;> exact Graph.mem_symbols.2 (.inr (.inr (.inr ⟨e, he, by simp⟩)))
  have hsubclasses := hsets g.subclasses fun e he x hx => Graph.mem_symbols.2 (.inl ⟨e, he, hx⟩)
  have hdependants := hsets g.dependants fun e he x hx =>
    Graph.mem_symbols.2 (.inr (.inl ⟨e, he, hx⟩))
  have hclassesIn : Yields (nameSets t ClassInfo.name g.classesIn)
      (nameSets t' ClassInfo.name g.classesIn) := nameSets_yields fun e he =>
    ⟨fun c hc => hname _ ((hclasses e he).2 c hc), hname _ (hclasses e he).1⟩
  have hfileOf : Yields (nameEntries t g.fileOf) (nameEntries t' g.fileOf) :=
    nameEntries_yields fun e he => ⟨hname _ (hfiles e he).1, hname _ (hfiles e he).2⟩
  exact hsubclasses.bind fun _ => hdependants.bind fun _ => hclassesIn.bind fun _ =>
    hfileOf.bind fun _ => .refl _

end Snapshot

end ClassImpact
