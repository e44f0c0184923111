import SelectorLint.Data

/-!
# Tables of a document

The tables of a document grow line by line. A header opens a table (`Entries.openTable`), and each table can be
opened once; the tables on the way to it are implied, and can be opened later. The tables on the way of a dotted
key belong to the table that the key stands in (`Entries.insert`), and no header can open them.
-/

namespace SelectorLint.Document

/-- How a table came to be. -/
inductive Standing where
  /-- Its own header was read. -/
  | opened
  /-- It is on the way of a header. -/
  | implied
  /-- It is on the way of a dotted key. -/
  | dotted
  deriving DecidableEq, Repr

/-- What stands under a key. -/
inductive Item where
  | value (data : Data)
  | table (standing : Standing) (entries : List (String × Item))
  /-- An array of tables that headers opened, the latest first. -/
  | elements (tables : List (List (String × Item)))
  deriving Repr, Inhabited

/-- The contents of a table. -/
abbrev Entries := List (String × Item)

namespace Entries

/-- Changes what stands under a key. -/
def update (key : String) (change : Option Item → Option Item) : Entries → Option Entries
  | [] => (change none).map fun item => [(key, item)]
  | (name, item) :: rest =>
    if name = key then (change (some item)).map fun item => (name, item) :: rest
    else (update key change rest).map ((name, item) :: ·)

/-- Changes the table that a header leads to. In an array of tables, that is the latest one. -/
def modify (change : Entries → Option Entries) : List String → Entries → Option Entries
  | [], entries => change entries
  | key :: path, entries => entries.update key fun
    | none => (modify change path []).map (.table .implied)
    | some (.table standing inner) => (modify change path inner).map (.table standing)
    | some (.elements (latest :: earlier)) =>
      (modify change path latest).map fun table => .elements (table :: earlier)
    | some _ => none

/-- Opens the table that a header names. -/
def openTable (path : List String) (entries : Entries) : Option Entries := do
  let key ← path.getLast?
  entries.modify (fun parent => parent.update key fun
    | none => some (.table .opened [])
    | some (.table .implied inner) => some (.table .opened inner)
    | some _ => none) path.dropLast

/-- Adds a table to the array that a header names. -/
def openElement (path : List String) (entries : Entries) : Option Entries := do
  let key ← path.getLast?
  entries.modify (fun parent => parent.update key fun
    | none => some (.elements [[]])
    | some (.elements tables) => some (.elements ([] :: tables))
    | some _ => none) path.dropLast

/-- Puts a value under a dotted key. The table that the last part of the key stands in has to be one that only
dotted keys have made. -/
def insert (data : Data) : List String → Entries → Option Entries
  | [], _ => none
  | [key], entries => entries.update key fun
    | none => some (.value data)
    | some _ => none
  | parent :: path, entries => entries.update parent fun
    | none => (insert data path []).map (.table .dotted)
    | some (.table .dotted inner) => (insert data path inner).map (.table .dotted)
    | some (.table .implied inner) =>
      if path.length = 1 then none else (insert data path inner).map (.table .implied)
    | some (.elements (latest :: earlier)) =>
      if path.length = 1 then none
      else (insert data path latest).map fun table => .elements (table :: earlier)
    | some _ => none

end Entries

mutual

/-- The data under a key. -/
def Item.toData : Item → Data
  | .value data => data
  | .table _ entries => .table (Entries.toData entries)
  | .elements tables => .array (tablesToData tables).reverse

/-- The data of a table. -/
def Entries.toData : List (String × Item) → List (String × Data)
  | [] => []
  | (key, item) :: rest => (key, item.toData) :: Entries.toData rest

/-- The data of several tables. -/
def tablesToData : List (List (String × Item)) → List Data
  | [] => []
  | table :: rest => .table (Entries.toData table) :: tablesToData rest

end

end SelectorLint.Document
