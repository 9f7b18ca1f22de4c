/-
TOML values. A table remembers how it came about, because this decides whether it may still be extended: a table
between braces is complete, and a table under a header of its own cannot be given again.
-/

namespace AliasLang.Toml

/-- How a table came about. -/
inductive TableKind where
  /-- Between braces. -/
  | braced
  /-- By its own header. -/
  | headed
  /-- By the header of a table inside it. -/
  | implied
  /-- By a dotted key. -/
  | dotted
deriving DecidableEq, Repr

/-- A table that no header has given yet. -/
def TableKind.isImplicit (k : TableKind) : Bool := k = .implied || k = .dotted

/-- A value. Of floats, dates and times only the fact is kept. -/
inductive Value where
  | string (value : String)
  | integer (value : Int)
  | boolean (value : Bool)
  | float
  | time
  | array (items : List Value)
  | table (kind : TableKind) (members : List (String × Value))
  /-- The tables under double-bracket headers of one name, each by its members. -/
  | tables (items : List (List (String × Value)))

/-- The members of a table, in order. -/
abbrev Members := List (String × Value)

namespace Members

/-- Gives a key a value: in its place if it is there, else at the end. -/
def put (ms : Members) (key : String) (value : Value) : Members :=
  if ms.any (·.1 = key) then ms.map fun m => if m.1 = key then (key, value) else m else ms ++ [(key, value)]

/-- Changes the table at the end of a path with `f`, which is also told the kind of that table. Missing tables on the way
are made with the kind `make`. By a dotted key, only tables that no header has given can be entered; of several tables
under one name, the last one is entered. -/
def alter (make : TableKind) (f : TableKind → Members → Option Members) (kind : TableKind) (ms : Members) :
    List String → Option Members
  | [] => f kind ms
  | key :: rest =>
    match ms.lookup key with
    | none => do return ms.put key (.table make (← alter make f make [] rest))
    | some (.table inner members) =>
      if inner = .braced || (make = .dotted && !inner.isImplicit) then none
      else do return ms.put key (.table inner (← alter make f inner members rest))
    | some (.tables items) =>
      match items.getLast? with
      | none => none
      | some last => do return ms.put key (.tables (items.dropLast ++ [← alter make f .headed last rest]))
    | some _ => none

/-- Adds a value under a new key of the table at the end of a path of dotted keys. That table has to be one that dotted
keys have made. -/
def addPair (ms : Members) (path : List String) (key : String) (value : Value) : Option Members :=
  alter .dotted (fun kind members =>
    if (!path.isEmpty && kind ≠ .dotted) || members.any (·.1 = key) then none else some (members.put key value))
    .headed ms path

/-- Gives the table at the end of a path its header. -/
def addHeader (ms : Members) (path : List String) (key : String) : Option Members :=
  alter .implied (fun _ members =>
    match members.lookup key with
    | none => some (members.put key (.table .headed []))
    | some (.table .implied inner) => some (members.put key (.table .headed inner))
    | some _ => none) .headed ms path

/-- Adds a further table at the end of a path. -/
def addTable (ms : Members) (path : List String) (key : String) : Option Members :=
  alter .implied (fun _ members =>
    match members.lookup key with
    | none => some (members.put key (.tables [[]]))
    | some (.tables items) => some (members.put key (.tables (items ++ [[]])))
    | some _ => none) .headed ms path

/-- Adds a value below the table of a header. -/
def addBelow (ms : Members) (header path : List String) (key : String) (value : Value) : Option Members :=
  alter .implied (fun _ members => members.addPair path key value) .headed ms header

end Members
end AliasLang.Toml
