/-!
Finite maps that keep the order in which keys came: a new key goes to the end, a key that is there
keeps its place.
-/

namespace UtxoLedger

/-- Keys with their values, in the order in which the keys came. -/
structure Table (κ ν : Type) where
  entries : List (κ × ν)

namespace Table

variable {κ ν : Type} [DecidableEq κ]

/-- The table without keys. -/
def empty : Table κ ν := ⟨[]⟩

instance : Inhabited (Table κ ν) := ⟨empty⟩

/-- The number of keys. -/
def size (t : Table κ ν) : Nat :=
  t.entries.length

/-- Whether there are no keys. -/
def isEmpty (t : Table κ ν) : Bool :=
  t.entries.isEmpty

/-- The keys in order. -/
def keys (t : Table κ ν) : List κ :=
  t.entries.map Prod.fst

/-- The values in the order of their keys. -/
def values (t : Table κ ν) : List ν :=
  t.entries.map Prod.snd

/-- The value of a key. -/
def get? (t : Table κ ν) (k : κ) : Option ν :=
  (t.entries.find? fun e => e.1 = k).map Prod.snd

/-- Whether a key is there. -/
def contains (t : Table κ ν) (k : κ) : Bool :=
  t.entries.any fun e => e.1 = k

/-- The table with `v` as the value of `k`. -/
def insert (t : Table κ ν) (k : κ) (v : ν) : Table κ ν :=
  if t.contains k then
    ⟨t.entries.map fun e => if e.1 = k then (k, v) else e⟩
  else
    ⟨t.entries ++ [(k, v)]⟩

/-- The table without `k`. -/
def erase (t : Table κ ν) (k : κ) : Table κ ν :=
  ⟨t.entries.filter fun e => e.1 ≠ k⟩

/-- Inserts pairs one after the other. -/
def insertMany (t : Table κ ν) (pairs : List (κ × ν)) : Table κ ν :=
  pairs.foldl (fun t e => t.insert e.1 e.2) t

/-- Erases keys one after the other. -/
def eraseMany (t : Table κ ν) (ks : List κ) : Table κ ν :=
  ks.foldl erase t

end Table

end UtxoLedger
