import Mathlib
import ClassImpact.ClassInfo
import ClassImpact.Store.Cached
import ClassImpact.Proofs.Membership

/-!
# A table on disk answers like one in memory

A table on disk mirrors a table in memory while it is open, the committed table is the
other one, and the cache knows nothing else than what is committed.  Every request that
leaves the table open keeps the two in step and gets one reply from both.  So whoever puts
requests cannot tell them apart, and what opening the file again would find is, at every
moment, what the table in memory holds.

## Main results

* `CachedTable.Mirrors.answer`, `CachedTable.Mirrors.answerSet`: one request
* `CachedTable.observe_eq`: a sequence of requests, to a table of values or of sets
-/

namespace ClassImpact

open Store

namespace Store

/-- Whether a request leaves the table open. -/
def Request.keepsOpen {α : Type} : Request α → Bool
  | .close => false
  | _ => true

def SetRequest.keepsOpen {α κ : Type} [Identified α κ] : SetRequest α → Bool
  | .plain r => r.keepsOpen
  | _ => true

/-- What is seen of a table to which requests are put: the reply to each, and what is
stored then. -/
def observe {σ ρ β γ : Type} (answer : σ → ρ → β × σ) (stored : σ → γ) :
    σ → List ρ → List (β × γ)
  | _, [] => []
  | t, r :: rest =>
    ((answer t r).1, stored (answer t r).2) :: observe answer stored (answer t r).2 rest

/-- Two tables in step, as long as every request keeps them in step, are seen alike. -/
theorem observe_congr {σ τ ρ β γ : Type} {answer : σ → ρ → β × σ} {answer' : τ → ρ → β × τ}
    {stored : σ → γ} {stored' : τ → γ} {InStep : σ → τ → Prop} {allowed : ρ → Bool}
    (hstored : ∀ t u, InStep t u → stored t = stored' u)
    (hstep : ∀ t u r, InStep t u → allowed r = true →
      (answer t r).1 = (answer' u r).1 ∧ InStep (answer t r).2 (answer' u r).2)
    {t : σ} {u : τ} (h : InStep t u) {requests : List ρ} (hr : ∀ r ∈ requests, allowed r = true) :
    observe answer stored t requests = observe answer' stored' u requests := by
  induction requests generalizing t u with
  | nil => rfl
  | cons r requests ih =>
    obtain ⟨hfirst, hrest⟩ := List.forall_mem_cons.1 hr
    obtain ⟨hreply, hnext⟩ := hstep t u r h hfirst
    rw [observe, observe, hreply, hstored _ _ hnext, ih hnext hrest]

end Store

/-! ## Writes that change nothing -/

theorem IdSet.erase_of_not_has {α κ : Type} [Identified α κ] [DecidableEq κ] {s : IdSet α} {i : κ}
    (h : s.has i = false) : s.erase i = s := by
  apply ext
  rw [toList_erase, List.filter_eq_self]
  intro a ha
  have hne := List.any_eq_false.1 h a ha
  simpa using hne

theorem Table.insert_self {α : Type} {t : Table α} {k : Symbol} {v : α} (h : t.get? k = some v) :
    t.insert k v = t := by
  apply eq_of_get?_eq
  intro j
  rw [get?_insert]
  split
  · rename_i hkj
    rw [← hkj, h]
  · rfl

/-! ## Tables in step -/

namespace CachedTable

variable {α : Type}

/-- A table on disk that is open, holds a table, and caches nothing else. -/
structure Mirrors (t : CachedTable α) (u : Table α) : Prop where
  opened : t.closed = false
  committed : t.committed = u
  cached : ∀ k known, t.cache.get? k = some known → u.get? k = known

/-- A table whose file has just been opened. -/
def found (name : String) (u : Table α) : CachedTable α := ⟨name, u, .empty, false⟩

theorem mirrors_found (name : String) (u : Table α) : (found name u).Mirrors u :=
  ⟨rfl, rfl, fun _ _ h => by simp [found] at h⟩

namespace Mirrors

variable {t : CachedTable α} {u : Table α}

theorem get? (h : t.Mirrors u) (k : Symbol) : t.get? k = u.get? k := by
  rw [CachedTable.get?]
  cases hk : t.cache.get? k with
  | none => rw [h.committed]
  | some known => exact (h.cached k known hk).symm

theorem has (h : t.Mirrors u) (k : Symbol) : t.has k = u.has k := by
  rw [CachedTable.has, Table.has_eq_isSome u]
  cases hk : t.cache.get? k with
  | none => rw [h.committed, Table.has_eq_isSome]
  | some known => rw [h.cached k known hk]

/-! ### Reading and writing -/

theorem afterGet (h : t.Mirrors u) (k : Symbol) : (t.afterGet k).Mirrors u := by
  rw [CachedTable.afterGet]
  cases hk : t.cache.get? k with
  | some known => exact h
  | none =>
    refine ⟨h.opened, h.committed, fun j known hj => ?_⟩
    rw [Table.get?_insert, h.committed] at hj
    split at hj
    · rename_i hkj
      rw [← hkj, Option.some.inj hj]
    · exact h.cached j known hj

/-- What is written under one key is cached as it is committed. -/
theorem cached_write (h : t.Mirrors u) {u' : Table α} {k : Symbol} {now : Option α}
    (hu : ∀ j, u'.get? j = if k = j then now else u.get? j) {j : Symbol} {known : Option α}
    (hj : (t.cache.insert k now).get? j = some known) : u'.get? j = known := by
  rw [Table.get?_insert] at hj
  rw [hu]
  split at hj
  · rename_i hkj
    rw [if_pos hkj, Option.some.inj hj]
  · rename_i hkj
    rw [if_neg hkj, h.cached j known hj]

theorem put (h : t.Mirrors u) (k : Symbol) (v : α) : (t.put k v).Mirrors (u.insert k v) where
  opened := h.opened
  committed := congrArg (·.insert k v) h.committed
  cached _ _ := h.cached_write (u.get?_insert k · v)

theorem remove (h : t.Mirrors u) (k : Symbol) : (t.remove k).Mirrors (u.erase k) where
  opened := h.opened
  committed := congrArg (·.erase k) h.committed
  cached _ _ := h.cached_write (u.get?_erase k)

theorem clear (h : t.Mirrors u) : t.clear.Mirrors .empty :=
  ⟨h.opened, rfl, fun k known hk => by simp [CachedTable.clear] at hk⟩

theorem dropCache (h : t.Mirrors u) : t.dropCache.Mirrors u :=
  ⟨h.opened, h.committed, fun k known hk => by simp [CachedTable.dropCache] at hk⟩

/-- Writes one behind the other. -/
theorem foldl {ε : Type} {write : CachedTable α → ε → CachedTable α}
    {write' : Table α → ε → Table α}
    (hwrite : ∀ t u e, Mirrors t u → Mirrors (write t e) (write' u e)) (h : t.Mirrors u)
    (entries : List ε) : (entries.foldl write t).Mirrors (entries.foldl write' u) := by
  induction entries generalizing t u with
  | nil => exact h
  | cons e entries ih => exact ih (hwrite t u e h)

theorem onDisk (h : t.Mirrors u) {β : Type}
    (operation : Except StorageFault (Reply β) × CachedTable α) :
    t.onDisk operation = operation := by
  simp [CachedTable.onDisk, h.opened]

/-- **One request** that leaves the table open. -/
theorem answer (h : t.Mirrors u) {r : Request α} (hr : r.keepsOpen = true) :
    (t.answer r).1 = (u.answer r).1 ∧ (t.answer r).2.Mirrors (u.answer r).2 := by
  cases r with
  | contains k => simp only [CachedTable.answer, h.onDisk, Table.answer, h.has, h, and_self]
  | get k => simp only [CachedTable.answer, h.onDisk, Table.answer, h.get?, h.afterGet k, and_self]
  | put k v => simp only [CachedTable.answer, h.onDisk, Table.answer, h.put k v, and_self]
  | remove k => simp only [CachedTable.answer, h.onDisk, Table.answer, h.remove k, and_self]
  | visit visitor =>
    simp only [CachedTable.answer, h.onDisk, Table.answer, h.committed, h, and_self]
  | entries => simp only [CachedTable.answer, h.onDisk, Table.answer, h.committed, h, and_self]
  | keys => simp only [CachedTable.answer, h.onDisk, Table.answer, h.committed, h, and_self]
  | clear => simp only [CachedTable.answer, h.onDisk, Table.answer, h.clear, and_self]
  | putAll other =>
    have hall := h.foldl (fun t u (e : Symbol × α) ht => ht.put e.1 e.2) other.entries
    by_cases hempty : other.isEmpty = true
    · have hnil : other.entries = [] := by simpa [Table.isEmpty] using hempty
      simp only [CachedTable.answer, hempty, if_true, Table.answer, Table.insertAll, hnil,
        List.foldl_nil, h, and_self]
    · simp only [CachedTable.answer, hempty, if_false, Bool.false_eq_true, h.onDisk, Table.answer,
        Table.insertAll, hall, and_self]
  | flush memoryOnly => exact ⟨rfl, h.dropCache⟩
  | close => simp [Request.keepsOpen] at hr

end Mirrors

/-! ## Sets -/

section

variable {κ : Type} [Identified α κ] [DecidableEq κ] {t : CachedTable (IdSet α)}
  {u : Table (IdSet α)}

theorem Mirrors.addValues (h : t.Mirrors u) (k : Symbol) (s : IdSet α) :
    (t.addValues k s).Mirrors (u.addValues k s) := by
  rw [CachedTable.addValues, Table.addValues, h.get?]
  exact (h.afterGet k).put k _

theorem Mirrors.removeValue (h : t.Mirrors u) (k : Symbol) (i : κ) :
    (t.removeValue k i).Mirrors (u.removeValue k i) := by
  rw [CachedTable.removeValue, Table.removeValue, h.get?]
  cases hk : u.get? k with
  | none => exact h.afterGet k
  | some s =>
    cases hs : s.has i with
    | true => simpa [hs] using (h.afterGet k).put k (s.erase i)
    | false => simpa [hs, IdSet.erase_of_not_has hs, Table.insert_self hk] using h.afterGet k

/-- **One request** to a table of sets that leaves it open. -/
theorem Mirrors.answerSet (h : t.Mirrors u) {r : SetRequest α} (hr : r.keepsOpen = true) :
    (t.answerSet r).1 = (u.answerSet r).1 ∧ (t.answerSet r).2.Mirrors (u.answerSet r).2 := by
  cases r with
  | plain r => exact h.answer hr
  | addValues k s =>
    simp only [CachedTable.answerSet, h.onDisk, Table.answerSet, h.addValues k s, and_self]
  | removeValue k i =>
    simp only [CachedTable.answerSet, h.onDisk, Table.answerSet, h.removeValue k i, and_self]
  | addAll other =>
    have hall := h.foldl (fun t u (e : Symbol × IdSet α) ht => ht.addValues e.1 e.2) other.entries
    by_cases hempty : other.isEmpty = true
    · have hnil : other.entries = [] := by simpa [Table.isEmpty] using hempty
      simp only [CachedTable.answerSet, hempty, if_true, Table.answerSet, Table.addAll, hnil,
        List.foldl_nil, h, and_self]
    · simp only [CachedTable.answerSet, hempty, if_false, Bool.false_eq_true, h.onDisk,
        Table.answerSet, Table.addAll, hall, and_self]

end

/-- **A table on disk cannot be told from one in memory**, whether it holds values or sets:
any sequence of requests that leaves both open gets the same replies, and after each of
them opening the file again would find what the table in memory holds. -/
theorem observe_eq (name : String) :
    (∀ {α : Type} (stored : Table α) (requests : List (Request α)),
      (∀ r ∈ requests, r.keepsOpen = true) →
      observe CachedTable.answer (fun t => t.reopen.committed) (found name stored) requests =
        observe Table.answer id stored requests) ∧
    ∀ {α κ : Type} [Identified α κ] [DecidableEq κ] (stored : SetTable α)
      (requests : List (SetRequest α)), (∀ r ∈ requests, r.keepsOpen = true) →
      observe CachedTable.answerSet (fun t => t.reopen.committed) (found name stored) requests =
        observe Table.answerSet id stored requests := by
  constructor
  · intro α stored requests hopen
    exact observe_congr (fun t u h => h.committed) (fun t u r h hr => h.answer hr)
      (mirrors_found name stored) hopen
  · intro α κ _ _ stored requests hopen
    exact observe_congr (fun t u h => h.committed) (fun t u r h hr => h.answerSet hr)
      (mirrors_found name stored) hopen

end CachedTable

/-! ## Values of one identity

A field is added to a set in place of one of the same name, a key is read before it is
bound, and an empty set is stored. -/

namespace ReplacedValue

/-- A field of the example, with some type. -/
def field (type : Primitive) : FieldInfo := ⟨⟨7⟩, .ofFlags [.pub], .primitive type, none, none⟩

def requests : List (SetRequest FieldInfo) :=
  [.plain (.get ⟨1⟩), .addValues ⟨1⟩ (.single (field .int)),
    .addValues ⟨1⟩ (.single (field .boolean)), .plain (.flush true), .plain (.get ⟨1⟩),
    .removeValue ⟨1⟩ ⟨8⟩, .removeValue ⟨1⟩ ⟨7⟩, .plain (.put ⟨2⟩ .empty), .plain (.contains ⟨2⟩),
    .plain (.remove ⟨1⟩), .plain (.get ⟨1⟩), .plain .keys]

/-- The replies that both kinds of table give. -/
def replies : List (Except StorageFault (Reply (IdSet FieldInfo))) :=
  [.ok (.value none), .ok .done, .ok .done, .ok .done,
    .ok (.value (some (.single (field .boolean)))), .ok .done, .ok .done, .ok .done,
    .ok (.flag true), .ok .done, .ok (.value none), .ok (.keys [⟨2⟩])]

theorem seen_alike :
    observe CachedTable.answerSet (fun t => t.reopen.committed)
        (CachedTable.found "fields" .empty) requests =
      observe Table.answerSet id .empty requests ∧
    (observe Table.answerSet id .empty requests).map Prod.fst = replies :=
  ⟨(CachedTable.observe_eq "fields").2 .empty requests (by decide), rfl⟩

end ReplacedValue

end ClassImpact
