/-! # Finite maps in key order

A finite map is the list of its entries with strictly ascending keys, so two maps
with the same contents are the same list: equality, hashing, comparison and text of
a map never depend on the order in which it was written. Sets are kept the same
way.
-/

namespace TimedKripke

universe u v

/-- A finite map as its entries in strictly ascending key order. -/
abbrev OrderedMap (κ : Type u) (α : Type v) := List (κ × α)

namespace OrderedMap

variable {κ : Type u} {α : Type v}

/-- The keys of a map, ascending. -/
def keys (entries : OrderedMap κ α) : List κ :=
  entries.map Prod.fst

/-- Entries stand in strictly ascending key order. -/
def ascending [LT κ] [DecidableLT κ] : OrderedMap κ α → Bool
  | [] => true
  | [_] => true
  | first :: second :: rest =>
      decide (first.1 < second.1) && ascending (second :: rest)

/-- Writes `value` under `key`, replacing what was there. -/
def insert [LT κ] [DecidableLT κ] (key : κ) (value : α) : OrderedMap κ α → OrderedMap κ α
  | [] => [(key, value)]
  | entry :: rest =>
      if key < entry.1 then (key, value) :: entry :: rest
      else if entry.1 < key then entry :: insert key value rest
      else (key, value) :: rest

/-- Removes the entry under `key`. -/
def erase [BEq κ] (key : κ) (entries : OrderedMap κ α) : OrderedMap κ α :=
  entries.filter fun entry => !(entry.1 == key)

/-- The map that holds `entries` and, above them, `updates` in their order. -/
def extend [LT κ] [DecidableLT κ] (entries : OrderedMap κ α) (updates : List (κ × α)) :
    OrderedMap κ α :=
  updates.foldl (fun result update => insert update.1 update.2 result) entries

/-- The map of a list of entries, in which a later entry replaces an earlier one. -/
def ofList [LT κ] [DecidableLT κ] (entries : List (κ × α)) : OrderedMap κ α :=
  extend [] entries

/-- The map has an entry under `key`. -/
def contains [BEq κ] (entries : OrderedMap κ α) (key : κ) : Bool :=
  (entries.lookup key).isSome

end OrderedMap

namespace OrderedSet

variable {κ : Type u} [LT κ] [DecidableLT κ]

/-- Adds a member to a set kept as a strictly ascending list. -/
def insert (member : κ) : List κ → List κ
  | [] => [member]
  | first :: rest =>
      if member < first then member :: first :: rest
      else if first < member then first :: insert member rest
      else first :: rest

/-- The members of a list as a strictly ascending list. -/
def ofList (members : List κ) : List κ :=
  members.foldl (fun result member => insert member result) []

/-- The union of a set with the members of a list. -/
def union (members more : List κ) : List κ :=
  more.foldl (fun result member => insert member result) members

end OrderedSet

end TimedKripke
