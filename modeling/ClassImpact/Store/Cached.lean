import ClassImpact.Store.Requests

/-!
# Tables on disk, read through a cache

A table on disk commits every write at once, and keeps beside it a cache of what
was read or written: a value, or the knowledge that there is none.  Reading goes
to the cache first.  Opening the file again finds the committed table and an
empty cache.

A closed table refuses everything that would reach the disk.
-/

namespace ClassImpact

open Store

/-- A table on disk. -/
structure CachedTable (α : Type) where
  name : String
  /-- What is on disk. -/
  committed : Table α
  /-- What is known without looking, also that a key is unbound. -/
  cache : Table (Option α)
  closed : Bool
deriving DecidableEq, Repr

namespace CachedTable

variable {α : Type}

/-- A new table on disk. -/
def new (name : String) : CachedTable α := ⟨name, .empty, .empty, false⟩

/-- The table that is found when its file is opened again. -/
def reopen (t : CachedTable α) : CachedTable α := ⟨t.name, t.committed, .empty, false⟩

/-! ## Reading and writing -/

/-- Whether a key is bound, from the cache if it knows. -/
def has (t : CachedTable α) (k : Symbol) : Bool :=
  match t.cache.get? k with
  | some known => known.isSome
  | none => t.committed.has k

/-- The value of a key, from the cache if it knows. -/
def get? (t : CachedTable α) (k : Symbol) : Option α :=
  match t.cache.get? k with
  | some known => known
  | none => t.committed.get? k

/-- The table after a key was read: now the cache knows it. -/
def afterGet (t : CachedTable α) (k : Symbol) : CachedTable α :=
  match t.cache.get? k with
  | some _ => t
  | none => { t with cache := t.cache.insert k (t.committed.get? k) }

/-- A binding is committed and cached. -/
def put (t : CachedTable α) (k : Symbol) (v : α) : CachedTable α :=
  { t with committed := t.committed.insert k v, cache := t.cache.insert k (some v) }

/-- A key is taken out, and the cache knows that it is unbound. -/
def remove (t : CachedTable α) (k : Symbol) : CachedTable α :=
  { t with committed := t.committed.erase k, cache := t.cache.insert k none }

/-- Every entry is taken out. -/
def clear (t : CachedTable α) : CachedTable α := { t with committed := .empty, cache := .empty }

/-- Nothing is known without looking any more. -/
def dropCache (t : CachedTable α) : CachedTable α := { t with cache := .empty }

/-- An operation that reaches the disk, and is refused by a closed table. -/
def onDisk {β : Type} (t : CachedTable α)
    (operation : Except StorageFault (Reply β) × CachedTable α) :
    Except StorageFault (Reply β) × CachedTable α :=
  if t.closed then (.error (.closed t.name), t) else operation

/-- The answer of a table on disk. -/
def answer (t : CachedTable α) : Request α → Except StorageFault (Reply α) × CachedTable α
  | .contains k => t.onDisk (.ok (.flag (t.has k)), t)
  | .get k => t.onDisk (.ok (.value (t.get? k)), t.afterGet k)
  | .put k v => t.onDisk (.ok .done, t.put k v)
  | .remove k => t.onDisk (.ok .done, t.remove k)
  | .visit visitor => t.onDisk ((visitAll visitor t.committed.entries).map fun _ => .done, t)
  | .entries => t.onDisk (.ok (.entries t.committed.entries), t)
  | .keys => t.onDisk (.ok (.keys t.committed.keys), t)
  | .clear => t.onDisk (.ok .done, t.clear)
  | .putAll other =>
    if other.isEmpty then (.ok .done, t)
    else t.onDisk (.ok .done, other.entries.foldl (fun t e => t.put e.1 e.2) t)
  | .flush _ => (.ok .done, t.dropCache)
  | .close => (.ok .done, { t.dropCache with closed := true })

/-! ## Sets -/

variable {κ : Type} [Identified α κ] [DecidableEq κ]

/-- Values are added under a key, each in the place of an equal one. -/
def addValues (t : CachedTable (IdSet α)) (k : Symbol) (s : IdSet α) : CachedTable (IdSet α) :=
  (t.afterGet k).put k (((t.get? k).getD .empty).union s)

/-- A value is taken out of the set under a key; only a change is written. -/
def removeValue (t : CachedTable (IdSet α)) (k : Symbol) (i : κ) : CachedTable (IdSet α) :=
  match t.get? k with
  | some s => if s.has i then (t.afterGet k).put k (s.erase i) else t.afterGet k
  | none => t.afterGet k

/-- The answer of a table of sets on disk. -/
def answerSet (t : CachedTable (IdSet α)) :
    SetRequest α → Except StorageFault (Reply (IdSet α)) × CachedTable (IdSet α)
  | .plain r => t.answer r
  | .addValues k s => t.onDisk (.ok .done, t.addValues k s)
  | .removeValue k i => t.onDisk (.ok .done, t.removeValue k i)
  | .addAll other =>
    if other.isEmpty then (.ok .done, t)
    else t.onDisk (.ok .done, other.entries.foldl (fun t e => t.addValues e.1 e.2) t)

end CachedTable

end ClassImpact
