import ShadeTree.Named
import ShadeTree.Pool.Basic

/-!
# Holdings

A pool together with the handles taken from it, each under a name of its own. These are all the
handles there are, so a run of these operations accounts for every one of them. The handles stay
usable when the pool is torn down.
-/

namespace ShadeTree

/-- A pool and the handles to it. -/
structure Holdings (α : Type) where
  pool : Pool α
  held : Named (Handle α)

namespace Holdings

variable {α : Type}

/-- An open pool with no handle. -/
def empty (kind : String) : Holdings α := ⟨.empty kind, []⟩

/-- Give back the handle held under a name, if there is one. -/
def release (s : Holdings α) (key : String) : Holdings α :=
  match s.held.get? key with
  | some h => ⟨(s.pool.release h).1, s.held.erase key⟩
  | none => s

/-- Hold a handle under a name, and give back the one that was held under it. -/
def hold (s : Holdings α) (key : String) (h : Handle α) : Holdings α :=
  let s := s.release key
  { s with held := s.held.put key h }

/-- Take a handle to a registered value, to be held under a name. The pool between is the one that
counts the new handle and still the one it replaces. -/
def find (s : Holdings α) (name key : String) : Option (Handle α × Pool α × Holdings α) :=
  (s.pool.find? name).map fun (h, pool) => (h, pool, { s with pool := pool }.hold key h)

/-- One more handle like the one held under a name, to be held under another. -/
def clone (s : Holdings α) (key newKey : String) : Option (Holdings α) :=
  (s.held.get? key).map fun h => { s with pool := s.pool.clone h }.hold newKey h

/-- Put what a transition of the pool leaves in its place. -/
def withPool (s : Holdings α) (pool : Pool α) : Holdings α := { s with pool := pool }

end Holdings

end ShadeTree
