import CircuitGrad.Decimal.Notation

/-! # Least-recently-used caches

    A cache of bounded size.  Beside its entries it keeps a queue of their
    keys in the order of their last use, a use being an insertion or a
    successful look-up; when room is needed, the entry that was not used for
    the longest time goes.
-/

namespace CircuitGrad

/-- A cache with counters for its use. -/
structure LruCache (κ β : Type) where
  /-- Largest number of entries; zero for no bound. -/
  maxSize     : Nat
  /-- Keys with their values, in no particular order. -/
  entries     : List (κ × β)
  /-- The keys by their last use, the least recently used first. -/
  queue       : List κ
  hits        : Nat
  misses      : Nat
  evictions   : Nat
  /-- Number of entries when it last changed. -/
  currentSize : Nat

namespace LruCache

variable {κ β : Type}

/-- A cache without entries. -/
def empty (maxSize : Nat) : LruCache κ β := ⟨maxSize, [], [], 0, 0, 0, 0⟩

/-- The bound of a cache for which none is given. -/
def defaultMaxSize : Nat := 1000

def size (c : LruCache κ β) : Nat := c.entries.length

variable [DecidableEq κ]

/-- The value of a key, without using it. -/
def peek? (c : LruCache κ β) (key : κ) : Option β := c.entries.lookup key

/-- The entries without that of a key. -/
def without (key : κ) (entries : List (κ × β)) : List (κ × β) :=
  entries.filter fun e => e.1 != key

/-- Note a use of a key. -/
def touch (c : LruCache κ β) (key : κ) : LruCache κ β :=
  { c with queue := c.queue.filter (· != key) ++ [key] }

/-- Look a key up. -/
def get (c : LruCache κ β) (key : κ) : Option β × LruCache κ β :=
  match c.peek? key with
  | some v => (some v, { c.touch key with hits := c.hits + 1 })
  | none => (none, { c with misses := c.misses + 1 })

/-- A new entry for the key would exceed the bound. -/
def isFullFor (c : LruCache κ β) (key : κ) : Bool :=
  c.maxSize > 0 && c.size ≥ c.maxSize && (c.peek? key).isNone

/-- Drop the least recently used entry. -/
def evict (c : LruCache κ β) : LruCache κ β :=
  match c.queue with
  | [] => c
  | oldest :: rest =>
    { c with
      entries := without oldest c.entries
      queue := rest
      evictions := c.evictions + 1 }

/-- Set the value of a key. -/
def insert (c : LruCache κ β) (key : κ) (value : β) : LruCache κ β :=
  let c := if c.isFullFor key then c.evict else c
  let c := { c with entries := without key c.entries ++ [(key, value)] }.touch key
  { c with currentSize := c.size }

/-- Drop all entries; they count as evicted. -/
def clear (c : LruCache κ β) : LruCache κ β :=
  { c with
    entries := []
    queue := []
    evictions := c.evictions + c.currentSize
    currentSize := 0 }

/-- Percentage of look-ups that were successful. -/
def hitRate (c : LruCache κ β) : Float :=
  let total := c.hits + c.misses
  if total = 0 then 0.0 else Float.ofNat c.hits / Float.ofNat total * 100.0

/-- A summary of several lines. -/
def text (c : LruCache κ β) : String :=
  let rate := Decimal.fixed 1 c.hitRate
  let lines :=
    ["Cache Statistics:", s!"  Hits: {c.hits}", s!"  Misses: {c.misses}",
      s!"  Hit rate: {rate}%", s!"  Evictions: {c.evictions}",
      s!"  Current size: {c.currentSize}/{c.maxSize}"]
  String.join (lines.map (· ++ "\n"))

end LruCache

end CircuitGrad
