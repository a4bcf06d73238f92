import SfcJsx.Text.Basic

/-!
Maps from texts that remember insertion order. Inserting a key again changes its value and keeps its
place.
-/

namespace SfcJsx

structure OrderedMap (α : Type) where
  entries : List (Text × α) := []
  deriving Repr

namespace OrderedMap

variable {α : Type}

def find? (m : OrderedMap α) (key : Text) : Option α := m.entries.lookup key

def contains (m : OrderedMap α) (key : Text) : Bool := (m.find? key).isSome

def keys (m : OrderedMap α) : List Text := m.entries.map (·.1)

def isEmpty (m : OrderedMap α) : Bool := m.entries.isEmpty

/-- Changes the value of the first entry with the key, or adds an entry at the end. -/
def put (key : Text) (value : α) : List (Text × α) → List (Text × α)
  | [] => [(key, value)]
  | entry :: rest => if entry.1 = key then (key, value) :: rest else entry :: put key value rest

def insert (m : OrderedMap α) (key : Text) (value : α) : OrderedMap α := ⟨put key value m.entries⟩

def ofList (entries : List (Text × α)) : OrderedMap α :=
  entries.foldl (fun m entry => m.insert entry.1 entry.2) {}

end OrderedMap

end SfcJsx
