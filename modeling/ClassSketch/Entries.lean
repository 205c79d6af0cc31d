/-!
# Entries in the order of their first writing

A table whose order matters is a list of pairs in which every key occurs once.

## Main definitions

* `valueOf?`: the value of a key
* `putEntry`: the table after writing a key
-/

namespace ClassSketch

/-- The value of the entry with the given key. -/
def valueOf? {α : Type} (key : String) (entries : List (String × α)) : Option α :=
  (entries.find? fun entry => entry.1 == key).map Prod.snd

/-- The entries with one of them written: a new key comes last, a known one keeps its place. -/
def putEntry {α : Type} (key : String) (value : α) : List (String × α) → List (String × α)
  | [] => [(key, value)]
  | entry :: entries =>
    if entry.1 = key then (key, value) :: entries else entry :: putEntry key value entries

end ClassSketch
