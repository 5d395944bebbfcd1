import ShadeTree.Description.Json
import ShadeTree.Description.Xml
import ShadeTree.Proofs.Importing
import ShadeTree.Proofs.Ledger

/-!
# The gallery

A gallery is a library beside the textures that its materials use, with the handles held to either.
A step opens a library, imports a document into it, takes, copies or gives back a handle, or tears
the library down; or it is a call on the textures. Each import has a context of its own. Steps come
in any order, those that fail are steps too, and a library may follow another whose materials are
still referred to.

After any steps the counts of the library are right (`Sound`). So the main statement is
`imports_run`: whatever was imported before, any document that is imported is accounted for, and one
that cannot be read changes nothing (`Imports`).
-/

namespace ShadeTree

/-- What a library imports. -/
inductive Document where
  | xml (text : String)
  | json (text : String)
  /-- The descriptions themselves. -/
  | descs (materials : List GraphDesc)

/-- What a document describes. -/
def Document.read : Document → Except DocumentError LibraryDesc
  | .xml text => LibraryDesc.ofXmlText text
  | .json text => LibraryDesc.ofJsonText text
  | .descs materials => .ok ⟨materials, []⟩

/-- A library beside its textures, with the handles to both. -/
structure Gallery where
  textures : Holdings Image
  library : Library
  handles : Named (Handle Material)
  /-- Of every material that was ever registered, by its slot, the textures that were registered as
  it was imported. -/
  offers : List (List String)

namespace Gallery

/-! ### Steps -/

/-- A step. A handle is held under a key, and the one held under it before is given back. -/
inductive Step where
  /-- A call on the textures, or on the handles to them that are held directly. -/
  | texture (c : Holdings.Call Image)
  /-- Open a library. The one that is there is dropped. -/
  | found (ctx : Context)
  | load (ctx : Context) (doc : Document)
  | find (name key : String)
  | clone (key newKey : String)
  | release (key : String)
  | shutdown
  | drop

/-- A gallery with no library and no texture. -/
def new : Gallery := ⟨.empty "texture", .closed, [], []⟩

/-- The gallery with another library, and other textures as it leaves them. -/
def withLibrary (s : Gallery) (library : Library) (textures : Pool Image) : Gallery :=
  { s with library := library, textures := s.textures.withPool textures }

/-- Give back the handle held under a key, if there is one. -/
def release (s : Gallery) (key : String) : Gallery :=
  match s.handles.get? key with
  | none => s
  | some h =>
    let (library, textures) := s.library.release h s.textures.pool
    { s.withLibrary library textures with handles := s.handles.erase key }

/-- Hold a handle under a key, and give back the one that was held under it. -/
def hold (s : Gallery) (key : String) (h : Handle Material) : Gallery :=
  let s := s.release key
  { s with handles := s.handles.put key h }

/-- Import a document. -/
def load (s : Gallery) (ctx : Context) (doc : Document) :
    Except DocumentError ImportReport × Gallery :=
  match doc.read with
  | .error e => (.error e, s)
  | .ok desc =>
    let (library, textures, report) := s.library.importAll ctx desc s.textures.pool
    let imported := library.materials.slots.length - s.library.materials.slots.length
    (.ok report, { s.withLibrary library textures with
      offers := s.offers ++ .replicate imported s.textures.pool.names })

/-- What a step leaves, also when it fails. -/
def step (s : Gallery) : Step → Gallery
  | .texture c => { s with textures := s.textures.call c }
  | .found ctx =>
    let (_, library, textures) := s.library.drop s.textures.pool
    let (library, textures) := library.reopen ctx textures
    s.withLibrary library textures
  | .load ctx doc => if s.library.isOpen then (s.load ctx doc).2 else s
  | .find name key =>
    match s.library.find? name with
    | none => s
    | some (h, library) => { s with library := library }.hold key h
  | .clone key newKey =>
    match s.handles.get? key with
    | none => s
    | some h => { s with library := s.library.clone h }.hold newKey h
  | .release key => s.release key
  | .shutdown =>
    let (_, library, textures) := s.library.shutdown s.textures.pool
    s.withLibrary library textures
  | .drop =>
    let (_, library, textures) := s.library.drop s.textures.pool
    s.withLibrary library textures

/-- What steps leave, one after the other. -/
def run (s : Gallery) (steps : List Step) : Gallery := steps.foldl step s

/-! ### What every step keeps -/

/-- The library counts the handles held here, and those in hand besides. -/
structure Sound (s : Gallery) (inHand : Multiset (Handle Material)) : Prop where
  distinct : s.handles.Distinct
  tallies : s.library.materials.Tallies (s.handles.things + inHand)

variable {s : Gallery} {inHand : Multiset (Handle Material)}

theorem mem_live_of_get? {key : String} {k : Handle Material} (hk : s.handles.get? key = some k) :
    k ∈ s.handles.things + inHand :=
  Multiset.mem_add.mpr (.inl (Named.mem_things_of_get? hk))

theorem sound_new : new.Sound 0 :=
  ⟨Named.distinct_nil, (Pool.accounts_empty Library.poolKind).toTallies.close⟩

theorem Sound.release (h : s.Sound inHand) (key : String) : (s.release key).Sound inHand := by
  rw [Gallery.release]
  cases hkey : s.handles.get? key with
  | none => exact h
  | some k =>
    refine ⟨h.distinct.erase key, ?_⟩
    have htallies := h.tallies
    rw [h.distinct.things_eq key, hkey, Option.toList_some, Multiset.coe_singleton,
      Multiset.singleton_add, Multiset.cons_add] at htallies
    exact htallies.release

theorem handles_release (s : Gallery) (key : String) :
    (s.release key).handles = s.handles.erase key := by
  rw [release]
  split
  · exact (Named.erase_of_get?_eq_none ‹_›).symm
  · rfl

/-- A handle in hand comes to be held. -/
theorem Sound.hold {k : Handle Material} (h : s.Sound (k ::ₘ inHand)) (key : String) :
    (s.hold key k).Sound inHand := by
  have hrelease := h.release key
  refine ⟨hrelease.distinct.put key k, ?_⟩
  have htallies := hrelease.tallies
  rw [handles_release, Multiset.add_cons] at htallies
  rw [Gallery.hold, Named.things_put, handles_release,
    Named.erase_of_get?_eq_none (Named.get?_erase s.handles key), Multiset.cons_add]
  exact htallies

/-- To take a handle to a registered material is to have it in hand. -/
theorem Sound.find? (h : s.Sound inHand) {name : String} {k : Handle Material} {library : Library}
    (hfind : s.library.find? name = some (k, library)) :
    Sound { s with library := library } (k ::ₘ inHand) := by
  obtain ⟨⟨l, materials⟩, hl, heq⟩ := Option.map_eq_some_iff.mp hfind
  obtain ⟨rfl, rfl⟩ := Prod.mk.inj heq
  obtain ⟨-, -, rfl, hshown⟩ := h.tallies.find?_eq_some hl
  refine ⟨h.distinct, ?_⟩
  rw [Multiset.add_cons]
  exact h.tallies.clone hshown

theorem Sound.clone (h : s.Sound inHand) {key : String} {k : Handle Material}
    (hk : s.handles.get? key = some k) :
    Sound { s with library := s.library.clone k } (k ::ₘ inHand) := by
  refine ⟨h.distinct, ?_⟩
  rw [Multiset.add_cons]
  exact h.tallies.clone (h.tallies.shown k (mem_live_of_get? hk))

theorem Sound.load (h : s.Sound inHand) (ctx : Context) (doc : Document) :
    (s.load ctx doc).2.Sound inHand := by
  rw [Gallery.load]
  split
  · exact h
  · exact ⟨h.distinct, Library.tallies_importFrom h.tallies ctx 0 _ _ _⟩

theorem Sound.step (h : s.Sound 0) (e : Step) : (s.step e).Sound 0 := by
  cases e with
  | texture c => exact ⟨h.distinct, h.tallies⟩
  | found ctx => exact ⟨h.distinct, h.tallies.close.reopen Library.poolKind⟩
  | load ctx doc =>
    rw [Gallery.step]
    split
    · exact h.load ctx doc
    · exact h
  | find name key =>
    rw [Gallery.step]
    cases hfind : s.library.find? name with
    | none => exact h
    | some found => exact (h.find? hfind).hold key
  | clone key newKey =>
    rw [Gallery.step]
    cases hk : s.handles.get? key with
    | none => exact h
    | some k => exact (h.clone hk).hold newKey
  | release key => exact h.release key
  | shutdown =>
    refine ⟨h.distinct, ?_⟩
    have hclose := h.tallies.close
    rwa [← Pool.shutdown_snd] at hclose
  | drop => exact ⟨h.distinct, h.tallies.close⟩

theorem Sound.run (h : s.Sound 0) (steps : List Step) : (s.run steps).Sound 0 := by
  induction steps generalizing s with
  | nil => exact h
  | cons e rest ih => exact ih (h.step e)

/-! ### Imports -/

open Library (Accounted fates)

/-- What it means to import any document into the library of a gallery. -/
structure Imports (s : Gallery) : Prop where
  /-- A document that can be read is accounted for, description by description. -/
  accounted : ∀ (ctx : Context) (doc : Document) (desc : LibraryDesc), doc.read = .ok desc →
    ∃ report, (s.load ctx doc).1 = .ok report ∧
      Accounted ctx desc s.library s.textures.pool
        ((s.load ctx doc).2.library, (s.load ctx doc).2.textures.pool, report)
        (fates s.library.materials.names desc.materials)
  /-- One that cannot be read changes nothing. -/
  unread : ∀ (ctx : Context) (doc : Document) (e : DocumentError), doc.read = .error e →
    s.load ctx doc = (.error e, s)

/-- **Every import is accounted for**: whatever was done with the library before, each description
of a document meets one fate, the first definition of a name stands, and what is reported follows
the order of the document. -/
theorem imports_run (steps : List Step) : (new.run steps).Imports where
  accounted ctx doc desc hread := by
    have htallies := (sound_new.run steps).tallies
    rw [load, hread]
    exact ⟨_, rfl, Library.accounted_importAll htallies ctx desc _⟩
  unread ctx doc e hread := by rw [load, hread]

end Gallery

end ShadeTree
