import ClassImpact.Fault
import ClassImpact.Table

/-!
# Requests to stored tables

A graph is kept in tables that live in memory or on disk, and both kinds answer
the same requests.  A table in memory is a `Table`, and its answers, given here,
say what a request means.

The requests to a table of sets are those to any table, whose values are then
whole sets, and three more that change the set under a key.
-/

namespace ClassImpact

namespace Store

/-- A request to a table. -/
inductive Request (α : Type) where
  | contains (key : Symbol)
  | get (key : Symbol)
  | put (key : Symbol) (value : α)
  | remove (key : Symbol)
  /-- Every entry is shown to a visitor, which may refuse to go on. -/
  | visit (visitor : Symbol → α → Except StorageFault Unit)
  | entries
  | keys
  | clear
  /-- Every entry of another table is put into this one. -/
  | putAll (other : Table α)
  /-- What is kept in memory beside the table is dropped. -/
  | flush (memoryOnly : Bool)
  | close

/-- The answer to a request. -/
inductive Reply (α : Type) where
  | done
  | flag (b : Bool)
  | value (v : Option α)
  | entries (es : List (Symbol × α))
  | keys (ks : List Symbol)
deriving DecidableEq, Repr

/-- A request to a table of sets. -/
inductive SetRequest (α : Type) {κ : Type} [Identified α κ] where
  | plain (r : Request (IdSet α))
  | addValues (key : Symbol) (values : IdSet α)
  | removeValue (key : Symbol) (ident : κ)
  /-- The values of every entry of another table are added to this one. -/
  | addAll (other : SetTable α)

/-- Entries shown to a visitor one after the other. -/
def visitAll {α : Type} (visitor : Symbol → α → Except StorageFault Unit)
    (entries : List (Symbol × α)) : Except StorageFault Unit :=
  entries.forM fun e => visitor e.1 e.2

end Store

open Store

namespace Table

/-- The answer of a table in memory.  Closing it empties it. -/
def answer {α : Type} (t : Table α) : Request α → Except StorageFault (Reply α) × Table α
  | .contains k => (.ok (.flag (t.has k)), t)
  | .get k => (.ok (.value (t.get? k)), t)
  | .put k v => (.ok .done, t.insert k v)
  | .remove k => (.ok .done, t.erase k)
  | .visit visitor => ((visitAll visitor t.entries).map fun _ => .done, t)
  | .entries => (.ok (.entries t.entries), t)
  | .keys => (.ok (.keys t.keys), t)
  | .clear => (.ok .done, empty)
  | .putAll other => (.ok .done, t.insertAll other)
  | .flush _ => (.ok .done, t)
  | .close => (.ok .done, empty)

/-- The answer of a table of sets in memory. -/
def answerSet {α κ : Type} [Identified α κ] [DecidableEq κ] (t : SetTable α) :
    SetRequest α → Except StorageFault (Reply (IdSet α)) × SetTable α
  | .plain r => t.answer r
  | .addValues k s => (.ok .done, t.addValues k s)
  | .removeValue k i => (.ok .done, t.removeValue k i)
  | .addAll other => (.ok .done, t.addAll other)

end Table

end ClassImpact
