import SoftCache.Table.Update

/-!
# Views and walks

A table can be looked at as its keys, its values or its entries. A walk goes over the entries that
were live when it began, whatever becomes of the table meanwhile, and can remove from the table the
entry that it came to last.
-/

namespace SoftCache

/-- What is looked at. -/
inductive View where
  | keys
  | values
  | entries
deriving DecidableEq

/-- The name of a view in a diagnostic text. -/
def View.name : View → String
  | keys => "KeyView"
  | values => "ValueView"
  | entries => "EntryView"

/-- What a view shows of an entry. -/
inductive Item (K V : Type) where
  | key (key : Option K)
  | value (value : Option V)
  | entry (entry : Entry K V)
deriving DecidableEq

/-- What a view shows of an entry. -/
def View.item {K V : Type} : View → Entry K V → Item K V
  | keys, (key, _) => .key key
  | values, (_, value) => .value value
  | entries, entry => .entry entry

/-- A view that shows a number of entries, in a diagnostic text. -/
def View.literal (v : View) (length : Nat) : String :=
  record v.name [field "len" length]

/-- A walk over entries. -/
structure Walk (K V : Type) where
  /-- What the walk shows of the entries. -/
  view : View
  /-- The entries that it has not come to yet. -/
  remaining : List (Entry K V)
  /-- The key of the entry that it came to last, unless that was removed. -/
  last : Option (Option K)
deriving DecidableEq

namespace Walk

variable {K V : Type}

/-- A walk over entries, from the first one on. -/
def start (view : View) (entries : List (Entry K V)) : Walk K V :=
  ⟨view, entries, none⟩

/-- Comes to the next entry, if there is one. -/
def next (w : Walk K V) : Option (Item K V) × Walk K V :=
  match w.remaining with
  | [] => (none, w)
  | entry :: rest => (some (w.view.item entry), { w with remaining := rest, last := some entry.1 })

/-- Comes to all entries that remain. -/
def rest (w : Walk K V) : List (Item K V) × Walk K V :=
  (w.remaining.map w.view.item,
    { w with
      remaining := []
      last := (w.remaining.getLast?.map (·.1)).or w.last })

/-- Removes the entry that the walk came to last from the table, and answers whether it was still
there. A second removal removes nothing. -/
def remove [DecidableEq K] [Hashed K] (w : Walk K V) (t : Table K V) (r : Reclaimer) :
    Step (Table K V) (Notice K V) Bool × Walk K V :=
  match w.last with
  | none => (.done t r false, w)
  | some key => ((t.removeEntry r key).map Option.isSome, { w with last := none })

/-- The walk in a diagnostic text. -/
def literal (w : Walk K V) : String :=
  partialRecord "ViewIter" [field "remaining" w.remaining.length]

end Walk

end SoftCache
