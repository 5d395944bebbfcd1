/-!
# Things by name

A list of things under names, at most one to a name.
-/

namespace ShadeTree

/-- Things under names. A name is looked up at its first entry. -/
abbrev Named (α : Type) := List (String × α)

namespace Named

variable {α : Type}

/-- The thing of a name. -/
def get? (ns : Named α) (name : String) : Option α := ns.lookup name

/-- The name has a thing. -/
def has (ns : Named α) (name : String) : Bool := ns.any (·.1 == name)

/-- The things without that of a name. -/
def erase (ns : Named α) (name : String) : Named α := ns.filter (·.1 != name)

/-- The things with one more, which takes the place of an earlier one of its name. -/
def put (ns : Named α) (name : String) (a : α) : Named α := (name, a) :: ns.erase name

/-- The things of `own`, and those of `inherited` under other names. -/
def overlay (own inherited : Named α) : Named α :=
  own ++ inherited.filter fun entry => !own.has entry.1

end Named

end ShadeTree
