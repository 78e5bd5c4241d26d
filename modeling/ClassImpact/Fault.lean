import ClassImpact.Symbol

/-!
# Faults

Why an operation was refused.  A fault is a cause; its wording is kept apart, in
`message`.  Faults of the file system and of the settings carry no wording of
their own.
-/

namespace ClassImpact

/-- Faults of stored tables. -/
inductive StorageFault where
  /-- The table of this name was used after it was closed. -/
  | closed (table : String)
  /-- A directory could not be created. -/
  | io
  /-- A file cannot be opened as a database, or is held already. -/
  | cannotOpen
deriving DecidableEq, Repr

/-- The wording of a storage fault, where it has one. -/
def StorageFault.message? : StorageFault → Option String
  | .closed table => some ("Map '" ++ table ++ "' used after close")
  | .io | .cannotOpen => none

/-- Faults of a graph and its rounds. -/
inductive Fault where
  /-- A symbol that the name table does not know had to be named. -/
  | unknownSymbol (s : Symbol)
  /-- A round was to be merged that nobody had compared with the graph. -/
  | notDifferentiated
  | storage (fault : StorageFault)
  /-- A directory could not be removed. -/
  | io
deriving DecidableEq, Repr

/-- The wording of an unknown symbol. -/
def unknownSymbolMessage (s : Symbol) : String := "Unknown symbol id: #" ++ toString s.id

/-- The wording of a fault, where it has one. -/
def Fault.message? : Fault → Option String
  | .unknownSymbol s => some (unknownSymbolMessage s)
  | .notDifferentiated => some "Delta must be differentiated before it is integrated"
  | .storage fault => fault.message?.map ("Storage error: " ++ ·)
  | .io => none

namespace NameTable

/-- The name of a symbol, or the fault that it has none. -/
def name (t : NameTable) (s : Symbol) : Except Fault String :=
  match t.name? s with
  | some name => .ok name
  | none => .error (.unknownSymbol s)

/-- The package of a symbol's name, or the fault that it has none. -/
def packageOf (t : NameTable) (s : Symbol) : Except Fault String :=
  (t.name s).map packageName

end NameTable

end ClassImpact
