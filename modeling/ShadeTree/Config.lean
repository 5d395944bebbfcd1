import ShadeTree.Json.Record

/-!
# Configuration

What is settled for a whole run: the colour of an invalid material, how deep descriptions may nest,
and whether constant subtrees are folded.
-/

namespace ShadeTree

/-- The configuration of a run. -/
structure Config where
  /-- The colour of the lobe an invalid material shades with. -/
  fallbackColor : Spectrum
  /-- The depth below which no described node is built. -/
  maxDepth : Nat
  /-- Preparation folds value subtrees that do not vary. -/
  foldConstants : Bool
  deriving Repr, Inhabited

namespace Config

/-- The configuration of a run that is given none. -/
def standard : Config := ⟨⟨0.3, 0, 0⟩, 64, true⟩

/-- A colour written as an array of three numbers. -/
def color? (room : Nat) (w : Json.Written) : Option Spectrum := do
  match ← (← w.items? room).mapM Json.Written.single? with
  | [r, g, b] => some ⟨r, g, b⟩
  | _ => none

/-- The fields of a configuration document. -/
def ofWritten? (room : Nat) (w : Json.Written) : Option Config :=
  if room = 0 then none
  else do
    match ← w.fields? ["fallback_color", "max_depth", "fold_constants"] with
    | [color, depth, fold] =>
      let color ← Json.Written.orElse standard.fallbackColor (color? (room - 1)) color
      let depth ← Json.Written.orElse standard.maxDepth Json.Written.natural? depth
      let fold ← Json.Written.orElse standard.foldConstants Json.Written.boolean? fold
      some ⟨color, depth, fold⟩
    | _ => none

/-- Read a configuration document. -/
def ofText? (text : String) : Option Config :=
  (Json.Written.ofText? text).bind (ofWritten? Json.greatestDepth)

end Config

end ShadeTree
