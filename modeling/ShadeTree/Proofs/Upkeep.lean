import ShadeTree.Proofs.Gallery
import ShadeTree.Proofs.Stock

/-!
# The textures of a library

Ownership nests. A material is held by its registration and by the handles to it, and for as long as
it is held it holds handles to textures, which the textures count in turn. It took one handle for
each of its nodes that names a texture that was registered as it was imported.

A texture counts the nodes that draw on it: those of the materials that are registered (`stocked`),
and those of the materials that outlived their library (`leaked`). Every step of a gallery keeps
this, with what it needs to go on (`Supplied`). So the main statement is `upheld_run`: after any
steps the counts are exact, an import takes what it has to and no more, and a library that goes, in
good order or not, gives back all but what is still referred to (`Upheld`).
-/

namespace ShadeTree

namespace Gallery

open Library (fates)

/-! ### What is drawn on a texture -/

/-- How many handles to a texture are held directly. -/
def direct (s : Gallery) (texture : String) : ℕ :=
  (s.textures.held.map (·.2)).countP (·.name = texture)

/-- How many nodes of the material of a slot name a texture, if it was registered as the material
was imported. -/
def draws (s : Gallery) (texture : String) (i : ℕ) : ℕ :=
  if texture ∈ s.offers[i]?.getD [] then s.library.namersAt texture i else 0

/-- How many nodes draw on a texture, over the materials that are registered. -/
def stocked (s : Gallery) (texture : String) : ℕ :=
  (s.library.materials.directory.map fun entry => s.draws texture entry.2).sum

/-- There is a handle to the material of a slot. -/
def refers (s : Gallery) (i : ℕ) : Bool := s.handles.any (·.2.slot == i)

/-- How many nodes draw on a texture, over the materials that are not registered any longer and have
handles still. -/
def leaked (s : Gallery) (texture : String) : ℕ :=
  ∑ i ∈ Finset.range s.library.materials.slots.length,
    if !s.library.materials.isListed i && s.refers i then s.draws texture i else 0

/-- What every step keeps, with some handles in hand: the library counts the handles to materials,
the textures count the handles that materials hold, and each of these is held for a node that draws
on its texture. -/
structure Supplied (s : Gallery) (inHand : Multiset (Handle Material)) : Prop where
  sound : s.Sound inHand
  textures : s.textures.Sound s.library.owned
  fallback : ∀ m ∈ s.library.fallback, m.handles = []
  length_offers : s.offers.length = s.library.materials.slots.length
  drawn : ∀ texture i, (s.library.handlesAt i).countP (·.name = texture) = s.draws texture i

section Steps

variable {s s' : Gallery} {inHand : Multiset (Handle Material)}

/-- What is drawn stays as it is with the slots and what they keep. -/
theorem drawn_congr (h : ∀ texture i, (s.library.handlesAt i).countP (·.name = texture) =
      s.draws texture i) (hoffers : s'.offers = s.offers)
    (hvalue : ∀ i, s'.library.materials.value? i = s.library.materials.value? i)
    (texture : String) (i : ℕ) :
    (s'.library.handlesAt i).countP (·.name = texture) = s'.draws texture i := by
  rw [Library.handlesAt, hvalue, draws, hoffers, Library.namersAt, hvalue]
  exact h texture i

theorem Sound.isHeld_of_get? (h : s.Sound inHand) {key : String} {k : Handle Material}
    (hk : s.handles.get? key = some k) : s.library.materials.isHeld k.slot = true := by
  rw [Pool.isHeld_eq, (Pool.isReferred_iff h.tallies).mpr ⟨k, mem_live_of_get? hk, rfl⟩,
    Bool.or_true]

/-- To take a handle to a registered material is to take one more. -/
theorem Sound.eq_clone_of_find? (h : s.Sound inHand) {name : String} {k : Handle Material}
    {library : Library} (hfind : s.library.find? name = some (k, library)) :
    library = s.library.clone k ∧ s.library.materials.isHeld k.slot = true := by
  obtain ⟨⟨l, materials⟩, hl, heq⟩ := Option.map_eq_some_iff.mp hfind
  obtain ⟨rfl, rfl⟩ := Prod.mk.inj heq
  obtain ⟨-, hmem, rfl, -⟩ := h.tallies.find?_eq_some hl
  refine ⟨rfl, ?_⟩
  rw [Pool.isHeld_eq, Pool.isListed_iff.mpr ⟨_, hmem⟩, Bool.true_or]

/-- A handle shows the material of its slot. -/
theorem Sound.value?_of_get? (h : s.Sound inHand) {key : String} {k : Handle Material}
    (hk : s.handles.get? key = some k) : s.library.materials.value? k.slot = some k.value := by
  obtain ⟨slot, hslot, -, hvalue⟩ := h.tallies.shown k (mem_live_of_get? hk)
  rw [Pool.value?, hslot, Option.map_some, hvalue]

theorem release_eq {key : String} {k : Handle Material} (hk : s.handles.get? key = some k) :
    s.release key = { s.withLibrary (s.library.release k s.textures.pool).1
      (s.library.release k s.textures.pool).2 with handles := s.handles.erase key } := by
  rw [Gallery.release, hk]

/-- Before a handle is given back the textures count what goes with it, and what stays. -/
theorem Supplied.accounts_release (h : s.Supplied inHand) {key : String} {k : Handle Material}
    (hk : s.handles.get? key = some k) :
    s.textures.pool.Accounts
      (((s.library.materials.release k).2.toList.flatMap Material.handles : Multiset _) +
        (s.textures.held.things + (s.library.release k s.textures.pool).1.owned)) := by
  have haccounts := h.textures.accounts
  rwa [Library.owned_release (h.sound.isHeld_of_get? hk) (h.sound.value?_of_get? hk)
    (t := s.textures.pool), add_left_comm] at haccounts

theorem Supplied.release (h : s.Supplied inHand) (key : String) :
    (s.release key).Supplied inHand := by
  have hsound := h.sound.release key
  rcases Option.eq_none_or_eq_some (s.handles.get? key) with hkey | ⟨k, hkey⟩
  · rw [Gallery.release, hkey]
    exact h
  · rw [release_eq hkey] at hsound ⊢
    refine ⟨hsound, ⟨h.textures.distinct, (h.accounts_release hkey).releaseAll⟩, h.fallback, ?_, ?_⟩
    · exact h.length_offers.trans (Pool.length_adjust _ _ _).symm
    · exact drawn_congr h.drawn rfl (Pool.value?_adjust _ _ _)

theorem Supplied.hold {k : Handle Material} (h : s.Supplied (k ::ₘ inHand)) (key : String) :
    (s.hold key k).Supplied inHand := by
  have hrelease := h.release key
  exact ⟨h.sound.hold key, hrelease.textures, hrelease.fallback, hrelease.length_offers,
    hrelease.drawn⟩

/-- One more handle to what is held draws on no texture. -/
theorem Supplied.clone {k : Handle Material} (h : s.Supplied inHand)
    (hk : s.library.materials.isHeld k.slot = true)
    (hsound : Sound { s with library := s.library.clone k } (k ::ₘ inHand)) :
    Supplied { s with library := s.library.clone k } (k ::ₘ inHand) := by
  refine ⟨hsound, ?_, h.fallback, h.length_offers.trans (Pool.length_adjust _ _ _).symm,
    drawn_congr h.drawn rfl (Pool.value?_adjust _ _ _)⟩
  rw [Library.owned_clone hk]
  exact h.textures

/-- A library that is torn down gives back what its materials without handles hold. -/
theorem Supplied.close (h : s.Supplied inHand) (torn : Teardown) :
    Supplied (s.withLibrary
      (s.library.close (torn, s.library.materials.close) s.textures.pool).2.1
      (s.library.close (torn, s.library.materials.close) s.textures.pool).2.2) inHand := by
  refine ⟨⟨h.sound.distinct, h.sound.tallies.close⟩, ⟨h.textures.distinct, ?_⟩,
    fun m hm => (nomatch hm), h.length_offers, drawn_congr h.drawn rfl fun _ => rfl⟩
  have hfallback : s.library.fallback.toList.flatMap Material.handles = [] :=
    List.flatMap_eq_nil_iff.mpr fun m hm => h.fallback m (Option.mem_toList.mp hm)
  have haccounts := h.textures.accounts
  rw [Library.owned_close h.sound.tallies none, add_left_comm] at haccounts
  have hgiven := haccounts.releaseAll
  rw [← List.append_nil (List.flatMap _ _), ← hfallback, ← List.flatMap_append] at hgiven
  exact hgiven

/-- A library that is opened in the place of one that was torn down has no materials. -/
theorem Supplied.reopen (h : s.Supplied inHand)
    (hclosed : s.library.materials.directory = []) (ctx : Context) :
    Supplied (s.withLibrary (s.library.reopen ctx s.textures.pool).1
      (s.library.reopen ctx s.textures.pool).2) inHand := by
  obtain ⟨hfallback, hpool⟩ := Library.reopen_eq ctx s.library s.textures.pool
  have howned : (s.library.reopen ctx s.textures.pool).1.owned = s.library.owned := by
    refine Library.owned_congr rfl (fun i => ?_) fun _ => rfl
    rw [Pool.isHeld, Pool.isHeld, hclosed]
    rfl
  refine ⟨⟨h.sound.distinct, h.sound.tallies.reopen Library.poolKind⟩,
    ⟨h.textures.distinct, ?_⟩, hfallback, h.length_offers, drawn_congr h.drawn rfl fun _ => rfl⟩
  have haccounts := h.textures.accounts
  rw [← howned] at haccounts
  rwa [withLibrary, hpool]

theorem library_load {ctx : Context} {doc : Document} {desc : LibraryDesc}
    (hread : doc.read = .ok desc) :
    (s.load ctx doc).2.library = (s.library.importAll ctx desc s.textures.pool).1 := by
  rw [Gallery.load, hread]
  rfl

/-- A material that is imported is offered the textures that are registered, and one that was there
keeps its offer. -/
theorem getElem?_offers_load {ctx : Context} {doc : Document} {desc : LibraryDesc}
    (hread : doc.read = .ok desc) (hlength : s.offers.length = s.library.materials.slots.length)
    (i : ℕ) : (s.load ctx doc).2.offers[i]? =
      if i < s.library.materials.slots.length then s.offers[i]?
      else if i < (s.load ctx doc).2.library.materials.slots.length then some s.textures.pool.names
      else none := by
  rw [library_load hread, Gallery.load, hread]
  dsimp only
  split
  · rename_i hold
    rw [List.getElem?_append_left (hlength ▸ hold)]
  · rename_i hnew
    rw [List.getElem?_append_right (hlength ▸ not_lt.mp hnew), hlength, List.getElem?_replicate]
    exact if_congr (by omega) rfl rfl

/-- What an import makes draws on what it is offered. -/
theorem Supplied.drawn_load (h : s.Supplied inHand) {ctx : Context} (hctx : ctx.registry.Fresh)
    {doc : Document} {desc : LibraryDesc} (hread : doc.read = .ok desc) (texture : String) (i : ℕ) :
    ((s.load ctx doc).2.library.handlesAt i).countP (·.name = texture) =
      (s.load ctx doc).2.draws texture i := by
  have hprogress := Library.progress_importFrom ctx 0 desc.materials s.library
    (.start desc.warnings) (rfl : s.textures.pool.bare = _)
  rw [← Library.importAll] at hprogress
  rw [draws, getElem?_offers_load hread h.length_offers, Library.handlesAt, Library.namersAt,
    library_load hread]
  rcases hprogress.value?_cases i with ⟨hi, hold⟩ | ⟨hi, hnone | ⟨hlt, name, d, hnew⟩⟩
  · rw [if_pos hi, hold]
    exact h.drawn texture i
  · rw [hnone]
    exact (ite_self 0).symm
  · have haccounts := h.textures.accounts
    rw [add_comm] at haccounts
    rw [if_neg (not_lt.mpr hi), if_pos hlt, hnew]
    exact Material.countP_handles_ofDesc hctx name d haccounts texture

theorem Supplied.load (h : s.Supplied inHand) {ctx : Context} (hctx : ctx.registry.Fresh)
    (doc : Document) : (s.load ctx doc).2.Supplied inHand := by
  cases hread : doc.read with
  | error e =>
    rw [Gallery.load, hread]
    exact h
  | ok desc =>
    have hprogress := Library.progress_importFrom ctx 0 desc.materials s.library
      (.start desc.warnings) (rfl : s.textures.pool.bare = _)
    have haccounts := h.textures.accounts
    rw [add_comm] at haccounts
    have htakes := Library.takes_importFrom hctx 0 desc.materials (.start desc.warnings) haccounts
    refine ⟨h.sound.load ctx doc, ?_, ?_, ?_, h.drawn_load hctx hread⟩
    · rw [Gallery.load, hread]
      refine ⟨h.textures.distinct, ?_⟩
      rw [add_comm]
      exact htakes.accounts
    · rw [library_load hread]
      exact hprogress.fallback_eq ▸ h.fallback
    · have hgrown : s.library.materials.slots.length ≤
          (s.library.importAll ctx desc s.textures.pool).1.materials.slots.length := by
        have hslots := congrArg List.length hprogress.slots_eq
        rw [List.length_append] at hslots
        exact hslots ▸ Nat.le_add_right _ _
      rw [Gallery.load, hread]
      dsimp only
      rw [List.length_append, List.length_replicate, h.length_offers]
      exact Nat.add_sub_cancel' hgrown

/-- The step imports with fresh node types, if it imports. -/
def Step.Fresh : Step → Prop
  | .load ctx _ => ctx.registry.Fresh
  | _ => True

theorem Supplied.step (h : s.Supplied 0) {e : Step} (he : e.Fresh) : (s.step e).Supplied 0 := by
  cases e with
  | texture c =>
    exact ⟨h.sound.step (.texture c), h.textures.call c, h.fallback, h.length_offers, h.drawn⟩
  | found ctx => exact (h.close s.library.materials.drop.1).reopen rfl ctx
  | load ctx doc =>
    rw [Gallery.step]
    split
    · exact h.load he doc
    · exact h
  | find name key =>
    rw [Gallery.step]
    cases hfind : s.library.find? name with
    | none => exact h
    | some found =>
      obtain ⟨k, library⟩ := found
      obtain ⟨rfl, hheld⟩ := h.sound.eq_clone_of_find? hfind
      exact (h.clone hheld (h.sound.find? hfind)).hold key
  | clone key newKey =>
    rw [Gallery.step]
    cases hk : s.handles.get? key with
    | none => exact h
    | some k => exact (h.clone (h.sound.isHeld_of_get? hk) (h.sound.clone hk)).hold newKey
  | release key => exact h.release key
  | shutdown =>
    rw [Gallery.step, Library.shutdown_eq]
    exact h.close s.library.materials.shutdown.1
  | drop => exact h.close s.library.materials.drop.1

theorem Supplied.run (h : s.Supplied 0) {steps : List Step} (hsteps : ∀ e ∈ steps, e.Fresh) :
    (s.run steps).Supplied 0 := by
  induction steps generalizing s with
  | nil => exact h
  | cons e rest ih =>
    obtain ⟨he, hrest⟩ := List.forall_mem_cons.mp hsteps
    exact ih (h.step he) hrest

theorem supplied_new : new.Supplied 0 :=
  ⟨sound_new, Holdings.sound_empty "texture", fun _ hm => (nomatch hm), rfl, fun _ _ => rfl⟩

end Steps

/-! ### What the textures count -/

section Counts

variable {s s' : Gallery} {texture : String}

theorem Sound.refers_eq (h : s.Sound 0) (i : ℕ) :
    s.refers i = s.library.materials.isReferred i := by
  rw [Bool.eq_iff_iff, Pool.isReferred_iff h.tallies, add_zero, refers, List.any_eq_true]
  constructor
  · rintro ⟨entry, hentry, hslot⟩
    exact ⟨entry.2, List.mem_map_of_mem hentry, beq_iff_eq.mp hslot⟩
  · rintro ⟨k, hk, hslot⟩
    obtain ⟨entry, hentry, rfl⟩ := List.mem_map.mp hk
    exact ⟨entry, hentry, beq_iff_eq.mpr hslot⟩

/-- The handles that materials hold, by the materials that hold them. -/
theorem Supplied.countP_owned (h : s.Supplied 0) (texture : String) :
    s.library.owned.countP (·.name = texture) = s.stocked texture + s.leaked texture := by
  have htotal : s.library.owned.countP (·.name = texture) =
      s.library.materials.total (s.draws texture) := by
    rw [Library.owned, ← Multiset.coe_countPAddMonoidHom, Pool.map_total]
    refine Pool.total_congr_weight fun i _ => ?_
    rw [Multiset.coe_countPAddMonoidHom, Multiset.coe_countP, h.drawn]
  rw [htotal, h.sound.tallies.total_eq, stocked, leaked]
  simp only [h.sound.refers_eq]

theorem Supplied.refs?_eq (h : s.Supplied 0) (hregistered : texture ∈ s.textures.pool.names) :
    s.textures.pool.refs? texture =
      some (s.direct texture + s.stocked texture + s.leaked texture) := by
  rw [h.textures.accounts.refs?_eq hregistered, Multiset.countP_add, h.countP_owned, ← add_assoc]
  rfl

/-- Nothing draws on a texture that is not registered. -/
theorem Supplied.eq_zero_of_not_mem (h : s.Supplied 0)
    (hregistered : texture ∉ s.textures.pool.names) :
    s.stocked texture + s.leaked texture = 0 := by
  rw [← h.countP_owned, Multiset.countP_eq_zero]
  rintro k hk rfl
  have hk' := h.textures.accounts.registered k (Multiset.mem_add.mpr (.inr hk))
  exact hregistered (Pool.mem_names_iff.mpr ⟨_, hk'⟩)

/-- An import takes handles for what it imports. -/
theorem Supplied.rises_load (h : s.Supplied 0) {ctx : Context} (hctx : ctx.registry.Fresh)
    {doc : Document} {desc : LibraryDesc} (hread : doc.read = .ok desc) :
    s.textures.pool.Rises (s.load ctx doc).2.textures.pool fun texture =>
      ((fates s.library.materials.names desc.materials).map (·.demand ctx texture)).sum := by
  have haccounts := h.textures.accounts
  rw [add_comm] at haccounts
  rw [Gallery.load, hread]
  exact (Library.takes_importFrom hctx 0 desc.materials (.start desc.warnings) haccounts).rises
    haccounts

/-- The last handle to a material that is not registered gives back what the material draws. -/
theorem Supplied.rises_release (h : s.Supplied 0) {key : String} {k : Handle Material}
    (hk : s.handles.get? key = some k) :
    (s.release key).textures.pool.Rises s.textures.pool fun texture =>
      if s.library.materials.isListed k.slot || (s.release key).refers k.slot then 0
      else s.draws texture k.slot := by
  have hrises := (h.accounts_release hk).rises_of_releaseAll
  have hheld : (s.library.materials.isListed k.slot || (s.release key).refers k.slot) =
      (s.library.materials.release k).1.isHeld k.slot := by
    rw [(h.sound.release key).refers_eq, release_eq hk]
    rfl
  have hgone : ∀ texture,
      ((s.library.materials.release k).2.toList.flatMap Material.handles).countP
          (·.name = texture) =
        if s.library.materials.isListed k.slot || (s.release key).refers k.slot then 0
        else s.draws texture k.slot := by
    intro texture
    rw [Library.handles_gone (h.sound.value?_of_get? hk), hheld]
    split
    · rfl
    · exact h.drawn texture k.slot
  rw [← funext hgone]
  rwa [release_eq hk]

end Counts

/-! ### Libraries that go -/

/-- The step tears down the library that is there. -/
def Step.Tears : Step → Prop
  | .found _ | .shutdown | .drop => True
  | _ => False

/-- How many nodes draw on a texture, over the materials that have handles. -/
def outstanding (s : Gallery) (texture : String) : ℕ :=
  ∑ i ∈ Finset.range s.library.materials.slots.length,
    if s.refers i then s.draws texture i else 0

section Teardown

variable {s s' : Gallery} {e : Step} {i : ℕ}

theorem isListed_of_kept
    (hdirectory : s'.library.materials.directory = s.library.materials.directory)
    (hlength : s'.library.materials.slots.length = s.library.materials.slots.length)
    (hi : i < s'.library.materials.slots.length) :
    s'.library.materials.isListed i = (s.library.materials.isListed i ||
      decide (s.library.materials.slots.length ≤ i)) := by
  have hlt : ¬ s.library.materials.slots.length ≤ i := by omega
  rw [decide_eq_false hlt, Bool.or_false, Pool.isListed, hdirectory, Pool.isListed]

theorem release_kept (s : Gallery) (key : String) :
    (s.release key).library.materials.directory = s.library.materials.directory ∧
      (s.release key).library.materials.slots.length = s.library.materials.slots.length := by
  rcases Option.eq_none_or_eq_some (s.handles.get? key) with hkey | ⟨k, hkey⟩
  · rw [Gallery.release, hkey]
    exact ⟨rfl, rfl⟩
  · rw [release_eq hkey]
    exact ⟨rfl, Pool.length_adjust _ _ _⟩

theorem clone_hold_kept (s : Gallery) (key : String) (k : Handle Material) :
    let s' := hold { s with library := s.library.clone k } key k
    s'.library.materials.directory = s.library.materials.directory ∧
      s'.library.materials.slots.length = s.library.materials.slots.length := by
  obtain ⟨hdirectory, hlength⟩ := release_kept { s with library := s.library.clone k } key
  exact ⟨hdirectory, hlength.trans (Pool.length_adjust _ _ _)⟩

/-- For as long as a library is there what was registered stays so, and what is imported is
registered. -/
theorem Sound.isListed_step (h : s.Sound 0) (he : ¬ e.Tears)
    (hi : i < (s.step e).library.materials.slots.length) :
    (s.step e).library.materials.isListed i = (s.library.materials.isListed i ||
      decide (s.library.materials.slots.length ≤ i)) := by
  cases e with
  | texture c => exact isListed_of_kept rfl rfl hi
  | found ctx => exact absurd trivial he
  | load ctx doc =>
    revert hi
    rw [Gallery.step, Gallery.load]
    split
    · split
      · exact isListed_of_kept rfl rfl
      · exact (Library.progress_importFrom ctx 0 _ s.library _ rfl).isListed_eq
    · exact isListed_of_kept rfl rfl
  | find name key =>
    revert hi
    rw [Gallery.step]
    cases hfind : s.library.find? name with
    | none => exact isListed_of_kept rfl rfl
    | some found =>
      obtain ⟨k, library⟩ := found
      obtain ⟨rfl, -⟩ := h.eq_clone_of_find? hfind
      obtain ⟨hdirectory, hlength⟩ := clone_hold_kept s key k
      exact isListed_of_kept hdirectory hlength
  | clone key newKey =>
    revert hi
    rw [Gallery.step]
    cases s.handles.get? key with
    | none => exact isListed_of_kept rfl rfl
    | some k =>
      obtain ⟨hdirectory, hlength⟩ := clone_hold_kept s newKey k
      exact isListed_of_kept hdirectory hlength
  | release key =>
    obtain ⟨hdirectory, hlength⟩ := release_kept s key
    exact isListed_of_kept hdirectory hlength hi
  | shutdown => exact absurd trivial he
  | drop => exact absurd trivial he

/-- What a library leaves as it goes: nothing is registered, and everything else is as it was. -/
structure Torn (s s' : Gallery) : Prop where
  directory_eq : s'.library.materials.directory = []
  slots_eq : s'.library.materials.slots = s.library.materials.slots
  handles_eq : s'.handles = s.handles
  offers_eq : s'.offers = s.offers
  held_eq : s'.textures.held = s.textures.held
  names_eq : s'.textures.pool.names = s.textures.pool.names

theorem Step.Tears.fresh (he : e.Tears) : e.Fresh := by
  cases e with
  | load => exact he.elim
  | _ => exact trivial

theorem Step.Tears.torn (he : e.Tears) (s : Gallery) : s.Torn (s.step e) := by
  cases e with
  | found ctx => exact ⟨rfl, rfl, rfl, rfl, rfl, Pool.names_releaseAll _ _⟩
  | shutdown =>
    rw [Gallery.step, Library.shutdown_eq]
    exact ⟨rfl, rfl, rfl, rfl, rfl, Pool.names_releaseAll _ _⟩
  | drop => exact ⟨rfl, rfl, rfl, rfl, rfl, Pool.names_releaseAll _ _⟩
  | texture | load | find | clone | release => exact he.elim

/-- Only what has handles is drawn on any longer. -/
theorem Torn.counts_eq (h : s.Torn s') (texture : String) :
    s'.direct texture + s'.stocked texture + s'.leaked texture =
      s.direct texture + s.outstanding texture := by
  have hdirect : s'.direct texture = s.direct texture := by rw [direct, h.held_eq, direct]
  have hstocked : s'.stocked texture = 0 := by
    rw [stocked, h.directory_eq]
    rfl
  have hleaked : s'.leaked texture = s.outstanding texture := by
    rw [leaked, outstanding, h.slots_eq]
    refine Finset.sum_congr rfl fun i _ => ?_
    rw [Pool.isListed, h.directory_eq, refers, h.handles_eq, draws, h.offers_eq,
      Library.namersAt, Pool.value?, h.slots_eq]
    rfl
  rw [hdirect, hstocked, hleaked, add_zero]

theorem outstanding_eq_zero (h : s.handles = []) (texture : String) :
    s.outstanding texture = 0 := by
  refine Finset.sum_eq_zero fun i _ => ?_
  rw [refers, h]
  rfl

end Teardown

/-! ### Every run -/

/-- What holds of the textures of a gallery, as it is and as it goes on. -/
structure Upheld (s : Gallery) : Prop where
  /-- A material holds a handle for each of its nodes that names a texture, if the texture was
  registered as the material was imported, and no handle besides. -/
  held : ∀ (i : ℕ) (m : Material), s.library.materials.value? i = some m → ∀ texture,
    m.handles.countP (·.name = texture) =
      if texture ∈ s.offers[i]?.getD [] then m.graph.root.namers texture else 0
  /-- A texture counts the handles held directly and those of the materials that are held: of the
  registered ones, and of those that outlived their library. -/
  refs?_eq : ∀ texture ∈ s.textures.pool.names,
    s.textures.pool.refs? texture =
      some (s.direct texture + s.stocked texture + s.leaked texture)
  /-- Nothing draws on a texture that is not registered. -/
  unregistered : ∀ texture, texture ∉ s.textures.pool.names →
    s.stocked texture + s.leaked texture = 0
  /-- For as long as a library is there what is imported into it stays registered. -/
  isListed_eq : ∀ e : Step, ¬ e.Tears → ∀ i < (s.step e).library.materials.slots.length,
    (s.step e).library.materials.isListed i = (s.library.materials.isListed i ||
      decide (s.library.materials.slots.length ≤ i))
  /-- An import takes handles for what it imports: not for a duplicate or for what has no name. -/
  load : ∀ (ctx : Context) (doc : Document) (desc : LibraryDesc), ctx.registry.Fresh →
    doc.read = .ok desc →
      s.textures.pool.Rises (s.load ctx doc).2.textures.pool fun texture =>
        ((fates s.library.materials.names desc.materials).map (·.demand ctx texture)).sum
  /-- The last handle to a material that is not registered any longer gives back what the material
  drew, and any other handle gives back nothing. -/
  release : ∀ (key : String) (k : Handle Material), s.handles.get? key = some k →
    (s.release key).textures.pool.Rises s.textures.pool fun texture =>
      if s.library.materials.isListed k.slot || (s.release key).refers k.slot then 0
      else s.draws texture k.slot
  /-- Of a library that goes, in good order or not, the materials that have handles keep what they
  drew, and all else is given back. -/
  torn : ∀ e : Step, e.Tears → (s.step e).textures.pool.names = s.textures.pool.names ∧
    ∀ texture ∈ s.textures.pool.names, (s.step e).textures.pool.refs? texture =
      some (s.direct texture + s.outstanding texture)
  /-- Without handles all is given back. -/
  bare : s.handles = [] → ∀ e : Step, e.Tears → ∀ texture ∈ s.textures.pool.names,
    (s.step e).textures.pool.refs? texture = some (s.direct texture)
  /-- A library is shut down in good order when none of its materials has handles. -/
  panic_eq_none_iff : (s.library.shutdown s.textures.pool).1.panic = none ↔
    ∀ entry ∈ s.library.materials.directory, s.refers entry.2 = false

theorem Supplied.upheld {s : Gallery} (h : s.Supplied 0) : s.Upheld := by
  have htorn : ∀ e : Step, e.Tears → ∀ texture ∈ s.textures.pool.names,
      (s.step e).textures.pool.refs? texture =
        some (s.direct texture + s.outstanding texture) := by
    intro e he texture hregistered
    have hleft := he.torn s
    rw [← hleft.names_eq] at hregistered
    rw [(h.step he.fresh).refs?_eq hregistered, hleft.counts_eq]
  constructor
  case held =>
    intro i m hm texture
    have hdrawn := h.drawn texture i
    rwa [Library.handlesAt, hm, Option.elim_some, draws, Library.namersAt, hm,
      Option.elim_some] at hdrawn
  case refs?_eq => exact fun texture hregistered => h.refs?_eq hregistered
  case unregistered => exact fun texture hregistered => h.eq_zero_of_not_mem hregistered
  case isListed_eq => exact fun e he i hi => h.sound.isListed_step he hi
  case load => exact fun ctx doc desc hctx hread => h.rises_load hctx hread
  case release => exact fun key k hk => h.rises_release hk
  case torn => exact fun e he => ⟨(he.torn s).names_eq, htorn e he⟩
  case bare =>
    intro hhandles e he texture hregistered
    rw [htorn e he texture hregistered, outstanding_eq_zero hhandles, add_zero]
  case panic_eq_none_iff =>
    rw [Library.shutdown_eq]
    simp only [h.sound.refers_eq]
    exact Pool.panic_shutdown_eq_none_iff s.library.materials

/-- **The textures of a library are upheld through every run**, whatever is imported, whatever
handles are taken and given back, and however the library goes. -/
theorem upheld_run (steps : List Step) (hsteps : ∀ e ∈ steps, e.Fresh) :
    (new.run steps).Upheld :=
  (supplied_new.run hsteps).upheld

/-- A material that names a registered texture twice and once one that is not registered, described
once more and without a name; and a handle to it that outlives the library. -/
def tenancy : List Step :=
  let ctx : Context := ⟨.builtin, .standard⟩
  let texture (name : String) : PropertyValue :=
    .node (.mk "ImageTexture" none [("Texture", .literal name)])
  let grain : PropertyValue :=
    .node (.mk "Multiply" none [("Color1", texture "wood"), ("Color2", texture "wood")])
  let lacquer : PropertyValue :=
    .node (.mk "Mix" none [("Color1", grain), ("Color2", texture "lacquer")])
  let output : NodeDesc := .output [("Surface", .node (.mk "Lambert" none [("Color", lacquer)]))]
  [.texture (.create "wood" (.solid .zero)), .found ctx,
    .load ctx (.descs [⟨some "floor", output, [], []⟩, ⟨some "floor", output, [], []⟩,
      ⟨none, output, [], []⟩]),
    .find "floor" "h", .drop]

theorem upheld_tenancy :
    let s := new.run tenancy
    s.Upheld ∧ s.leaked "wood" = 2 ∧ s.textures.pool.refs? "wood" = some 2 ∧
      (s.step (.release "h")).textures.pool.refs? "wood" = some 0 := by
  intro s
  have hfresh : ∀ e ∈ tenancy, e.Fresh := by
    simp [tenancy, Step.Fresh, Registry.fresh_builtin]
  exact ⟨upheld_run tenancy hfresh, rfl, rfl, rfl⟩

end Gallery

end ShadeTree
