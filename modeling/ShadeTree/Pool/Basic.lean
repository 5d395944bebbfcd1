import ShadeTree.Text.Quoted

/-!
# Resource pools

A pool registers values under names and hands out counted handles to them. A value lives in a
numbered slot. The slot counts its handles, and it outlives its registration for as long as one of
them is live; so a pool that has been torn down registers nothing more but still counts the handles
that outlived it.

Every operation is a transition to a new pool. One that gives up the last hold on a value hands the
value back, for the caller to let go of what the value holds in turn.
-/

namespace ShadeTree

/-- A cell that keeps a value and counts the handles to it. -/
structure Slot (α : Type) where
  name : String
  value : α
  refs : Nat

/-- A counted reference to the value of a slot. -/
structure Handle (α : Type) where
  slot : Nat
  name : String
  value : α

/-- Two handles refer to the same slot. -/
def Handle.same {α : Type} (h k : Handle α) : Bool := h.slot == k.slot

/-- A name that still has handles, and how many. -/
structure Leak where
  name : String
  count : Nat
  deriving DecidableEq, Repr

/-- Why an operation on a pool of some kind fails. -/
inductive PoolError where
  /-- The name is registered already. -/
  | duplicate (kind name : String)
  /-- The name is not registered. -/
  | notFound (kind name : String)
  /-- The name still has handles. -/
  | inUse (kind name : String) (count : Nat)
  /-- Names still have handles as the pool goes. -/
  | leaked (kind : String) (leaks : List Leak)
  deriving DecidableEq, Repr

/-- The text of the error. -/
def PoolError.message : PoolError → String
  | duplicate kind name => s!"{kind} '{name}' is already registered"
  | notFound kind name => s!"{kind} '{name}' is not registered"
  | inUse kind name count => s!"{kind} '{name}' still has {count} outstanding reference(s)"
  | leaked kind leaks => s!"{leaks.length} {kind} resource(s) still referenced at teardown"

/-- What is told as a pool goes: the lines it logs, and the error it panics with. -/
structure Teardown where
  panic : Option PoolError
  log : List String
  deriving DecidableEq, Repr

/-- A pool: its slots by number, and the registered names in ascending order with their slots. -/
structure Pool (α : Type) where
  kind : String
  /-- The pool has not been torn down. -/
  isOpen : Bool
  slots : List (Slot α)
  directory : List (String × Nat)

namespace Pool

variable {α : Type}

/-- An open pool that registers nothing. -/
def empty (kind : String) : Pool α := ⟨kind, true, [], []⟩

/-- The kind of a pool that is given none. -/
def generalKind : String := "resource"

/-! ### Queries -/

/-- The name is registered. -/
def contains (p : Pool α) (name : String) : Bool := p.directory.any (·.1 == name)

/-- The number of registered names. -/
def size (p : Pool α) : Nat := p.directory.length

/-- The registered names, ascending. -/
def names (p : Pool α) : List String := p.directory.map (·.1)

/-- The slot registered under a name. -/
def slot? (p : Pool α) (name : String) : Option (Slot α) :=
  (p.directory.lookup name).bind (p.slots[·]?)

/-- How many handles a registered name has. -/
def refs? (p : Pool α) (name : String) : Option Nat := (p.slot? name).map (·.refs)

/-- How many handles there are to a handle's slot. -/
def count (p : Pool α) (h : Handle α) : Nat := (p.slots[h.slot]?.map (·.refs)).getD 0

/-- Every registered name with the number of its handles, ascending. -/
def census (p : Pool α) : List (String × Nat) :=
  p.directory.filterMap fun (name, i) => p.slots[i]?.map fun s => (name, s.refs)

/-- The registered names that have handles, ascending. -/
def leaks (p : Pool α) : List Leak :=
  p.census.filterMap fun (name, count) => if 0 < count then some ⟨name, count⟩ else none

/-- Fails when a registered name has handles. -/
def check (p : Pool α) : Except PoolError Unit :=
  if p.leaks.isEmpty then .ok () else .error (.leaked p.kind p.leaks)

/-! ### Handles -/

/-- The pool with the count of one slot changed. -/
def adjust (p : Pool α) (i : Nat) (f : Nat → Nat) : Pool α :=
  { p with slots := p.slots.modify i fun s => { s with refs := f s.refs } }

/-- A handle to the value registered under a name. -/
def find? (p : Pool α) (name : String) : Option (Handle α × Pool α) :=
  match p.directory.lookup name with
  | none => none
  | some i => p.slots[i]?.map fun s => (⟨i, s.name, s.value⟩, p.adjust i (· + 1))

/-- One more handle to the slot of `h`. -/
def clone (p : Pool α) (h : Handle α) : Pool α := p.adjust h.slot (· + 1)

/-- A slot is held by its registration or by a handle. -/
def isHeld (p : Pool α) (i : Nat) : Bool :=
  p.directory.any (·.2 == i) || (p.slots[i]?.any fun s => 0 < s.refs)

/-- One handle fewer. The value comes back with the last hold on it. -/
def release (p : Pool α) (h : Handle α) : Pool α × Option α :=
  let p := p.adjust h.slot (· - 1)
  (p, if p.isHeld h.slot then none else some h.value)

/-- One handle fewer for each of a list. -/
def releaseAll (p : Pool α) (hs : List (Handle α)) : Pool α :=
  hs.foldl (fun p h => (p.release h).1) p

/-! ### Registration -/

/-- A name put at its place in an ascending directory. -/
def insertName (name : String) (i : Nat) : List (String × Nat) → List (String × Nat)
  | [] => [(name, i)]
  | entry :: rest =>
    if name < entry.1 then (name, i) :: entry :: rest else entry :: insertName name i rest

/-- Register a value in a new slot. A registered name keeps its value. -/
def create (p : Pool α) (name : String) (value : α) : Except PoolError (Pool α) :=
  if p.contains name then .error (.duplicate p.kind name)
  else
    .ok { p with
      slots := p.slots ++ [⟨name, value, 0⟩]
      directory := insertName name p.slots.length p.directory }

/-- Give up a name that has no handles, and hand its value back. -/
def unregister (p : Pool α) (name : String) : Except PoolError (α × Pool α) :=
  match p.slot? name with
  | none => .error (.notFound p.kind name)
  | some s =>
    if 0 < s.refs then .error (.inUse p.kind name s.refs)
    else .ok (s.value, { p with directory := p.directory.filter (·.1 != name) })

/-! ### Teardown -/

/-- The pool registers nothing more. The values that have no handles come back. -/
def close (p : Pool α) : Pool α × List α :=
  ({ p with isOpen := false, directory := [] },
    p.directory.filterMap fun (_, i) =>
      p.slots[i]?.bind fun s => if s.refs = 0 then some s.value else none)

/-- The line logged for a leak as a shutdown is refused. -/
def shutdownLine (kind : String) (leak : Leak) : String :=
  let (verb, noun) := if 1 < leak.count then ("are", "references") else ("is", "reference")
  s!"There {verb} still {leak.count} {noun} pointing to {kind} \"{leak.name}\"."

/-- The line logged for a leak as a pool is dropped. -/
def dropLine (kind : String) (leak : Leak) : String :=
  s!"{kind} '{leak.name}' dropped with {leak.count} outstanding reference(s)"

/-- Tear the pool down in good order: it panics when a registered name has handles, after a line for
each such name. -/
def shutdown (p : Pool α) : Teardown × Pool α × List α :=
  match p.check with
  | .ok () => (⟨none, []⟩, p.close)
  | .error e => (⟨some e, p.leaks.map (shutdownLine p.kind)⟩, p.close)

/-- Let the pool go as it is, with a line for each registered name that has handles. -/
def drop (p : Pool α) : Teardown × Pool α × List α :=
  (⟨none, p.leaks.map (dropLine p.kind)⟩, p.close)

/-- A fresh pool of some kind in the place of one that was torn down. Its slots go on counting. -/
def reopen (p : Pool α) (kind : String) : Pool α :=
  { p with kind := kind, isOpen := true, directory := [] }

end Pool

/-- A pool's description of itself. -/
def Pool.describe {α : Type} (p : Pool α) : String :=
  s!"ResourceManager \x7b kind: {Quoted.quote p.kind}, names: {Quoted.quoteAll p.names} \x7d"

/-- A handle's description, with the count its pool keeps. -/
def Pool.describeHandle {α : Type} (p : Pool α) (h : Handle α) : String :=
  s!"Handle \x7b name: {Quoted.quote h.name}, refs: {p.count h} \x7d"

end ShadeTree
