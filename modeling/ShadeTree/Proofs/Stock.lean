import ShadeTree.Proofs.Importing
import ShadeTree.Proofs.Sparing
import ShadeTree.Proofs.Tenure
import Mathlib.Algebra.Order.Group.Multiset

/-!
# What a library holds

A described material takes one handle for each of its nodes that names a texture, if the texture is
registered as the material is made (`Material.takes_ofDesc`). A library owns the handles of its
materials for as long as these are held (`Library.owned`).

This module tells how what is owned changes. An import takes handles for what it imports and for
nothing else (`takes_importFrom`); the last hold on a material gives back what the material holds
(`owned_release`); and of a library that goes the materials that have handles keep what they hold
(`owned_close`).
-/

namespace ShadeTree

/-! ### The textures that a tree names -/

namespace Node

/-- How many image textures of the tree name a texture. -/
def namers (n : Node) (texture : String) : ℕ :=
  n.nodes.countP fun m => m.kind == .imageTexture && m.textureName == texture

theorem namers_reset (n : Node) (texture : String) : n.reset.namers texture = n.namers texture := by
  rw [namers, nodes_map sockets_reset, List.countP_map, namers]
  refine List.countP_congr fun m _ => ?_
  rw [Function.comp, kind_reset, textureName_reset]

/-- Which textures a tree names is a matter of the tree. -/
theorem namers_congr {a b : Node} (h : a.reset = b.reset) (texture : String) :
    a.namers texture = b.namers texture := by
  rw [← namers_reset, h, namers_reset]

theorem Fresh.validate {n : Node} (hn : n.Fresh) : n.validate.Fresh := by
  rw [Fresh, nodes_map sockets_validate, List.forall_mem_map]
  intro m hm
  rw [processed_validate, prepared_validate]
  exact hn m hm

/-- Preparation passes every node of a fresh tree. -/
theorem processed_nodes_processAt (config : Config) (path : String) {n : Node} (hn : n.Fresh)
    (p : Pool Image) : ∀ m ∈ (processAt config path n p).1.nodes, m.processed = true := by
  induction n using Node.induction generalizing path p with
  | step n ih =>
    obtain ⟨⟨hprocessed, -⟩, hchildren⟩ := forall_nodes_iff.mp hn
    refine forall_nodes_iff.mpr ⟨processed_processAt config path n p, ?_⟩
    rw [processAt_eq, hprocessed, if_neg Bool.false_ne_true]
    dsimp only
    rw [settle_fst]
    exact forall_nodes_processIn config path n.sockets
      (fun c hc path p => ih c hc path (hchildren c hc) p) p

/-- On its way through a fresh tree preparation passes every image texture. -/
theorem Fresh.passed_eq {n : Node} (hn : n.Fresh) (config : Config) (path : String)
    (p : Pool Image) (texture : String) :
    passed texture n.nodes (processAt config path n p).1.nodes = n.namers texture := by
  have hlength : n.nodes.length ≤ (processAt config path n p).1.nodes.length := by
    rw [← length_nodes_reset, ← reset_processAt config path n p, length_nodes_reset]
  have hfirst := List.map_fst_zip hlength
  rw [passed, namers]
  conv_rhs => rw [← hfirst, List.countP_map]
  refine List.countP_congr fun pair hpair => ?_
  obtain ⟨hbefore, hafter⟩ := List.of_mem_zip hpair
  have hpassed := processed_nodes_processAt config path hn p pair.2 hafter
  simp [passes, (hn pair.1 hbefore).1, hpassed]

end Node

/-! ### The handles of a material -/

section Materials

variable {ctx : Context} {p : Pool Image} {others : Multiset (Handle Image)}

theorem Graph.fresh_ofDesc (hctx : ctx.registry.Fresh) (desc : GraphDesc) :
    (Graph.ofDesc ctx desc).1.root.Fresh :=
  Assembly.fresh_fill hctx desc.templates _ desc.output _ (Node.fresh_new .output)

/-- A described material takes a handle for each of its nodes that names a registered texture. -/
theorem Material.takes_ofDesc (hctx : ctx.registry.Fresh) (name : String) (desc : GraphDesc)
    (h : p.Accounts others) :
    Node.Takes others p (ofDesc ctx name desc p).2.1 0 (ofDesc ctx name desc p).1.handles
      (Graph.ofDesc ctx desc).1.root.namers := by
  let n := (Graph.ofDesc ctx desc).1.root.validate
  have hn : n.Fresh := (Graph.fresh_ofDesc hctx desc).validate
  have hnone : (n.handles : Multiset (Handle Image)) = 0 := by
    rw [hn.handles_eq]
    rfl
  have hstart : p.Accounts ((n.handles : Multiset (Handle Image)) + others) := by
    rwa [hnone, zero_add]
  obtain ⟨-, htakes⟩ := Node.takes_processAt ctx.config n.typeName hn.tidy hstart
  simp only [hn.passed_eq, hnone] at htakes
  have hnamers : n.namers = (Graph.ofDesc ctx desc).1.root.namers :=
    funext fun texture => Node.namers_congr (Node.reset_validate _) texture
  exact hnamers ▸ htakes

theorem Material.reset_ofDesc (name : String) (desc : GraphDesc) :
    (ofDesc ctx name desc p).1.graph.root.reset = (Graph.ofDesc ctx desc).1.root.reset :=
  (Node.reset_process ctx.config _ p).trans (Node.reset_validate _)

/-- The handles of a described material, by the textures that were registered as it was made. -/
theorem Material.countP_handles_ofDesc (hctx : ctx.registry.Fresh) (name : String)
    (desc : GraphDesc) (h : p.Accounts others) (texture : String) :
    (ofDesc ctx name desc p).1.handles.countP (·.name = texture) =
      if texture ∈ p.names then (ofDesc ctx name desc p).1.graph.root.namers texture else 0 := by
  have htakes := takes_ofDesc hctx name desc h
  split
  · rename_i hregistered
    have hgained := htakes.gained texture hregistered
    rw [Multiset.countP_zero, zero_add, Multiset.coe_countP] at hgained
    rw [hgained, Node.namers_congr (reset_ofDesc name desc)]
  · rename_i hregistered
    rw [List.countP_eq_zero]
    intro k hk hname
    have hk' := htakes.accounts.registered k (Multiset.mem_add.mpr (.inl (Multiset.mem_coe.mpr hk)))
    rw [htakes.directory_eq, of_decide_eq_true hname] at hk'
    exact hregistered (Pool.mem_names_iff.mpr ⟨_, hk'⟩)

end Materials

namespace Library

/-- The handles that the material of a slot holds. -/
def handlesAt (l : Library) (i : ℕ) : List (Handle Image) :=
  (l.materials.value? i).elim [] Material.handles

/-- How many nodes of the material of a slot name a texture. -/
def namersAt (l : Library) (texture : String) (i : ℕ) : ℕ :=
  (l.materials.value? i).elim 0 (·.graph.root.namers texture)

/-- The handles to textures that materials hold which are held themselves. -/
def owned (l : Library) : Multiset (Handle Image) :=
  l.materials.total fun i => (l.handlesAt i : Multiset (Handle Image))

/-! ### Imports -/

/-- How many handles to a texture an import takes for a description: none, if it is not imported. -/
def Fate.demand (ctx : Context) (texture : String) : Fate → ℕ
  | .imported _ desc => (Graph.ofDesc ctx desc).1.root.namers texture
  | _ => 0

section Imports

variable {ctx : Context} {l : Library} {t : Pool Image} {others : Multiset (Handle Image)}

theorem owned_create {name : String} {m : Material} {materials : Pool Material}
    (hcreate : l.materials.create name m = .ok materials) :
    owned { l with materials := materials } =
      l.owned + (m.handles : Multiset (Handle Image)) := by
  obtain ⟨hold, hnew⟩ := Pool.value?_create hcreate
  rw [owned, Pool.total_create hcreate, owned]
  congr 1
  · refine Pool.total_congr_weight fun i hi => ?_
    rw [handlesAt, hold i hi, handlesAt]
  · rw [handlesAt, hnew, Option.elim_some]

theorem takes_importOne (hctx : ctx.registry.Fresh) (index : ℕ) (desc : GraphDesc)
    (r : ImportReport) (h : t.Accounts (l.owned + others)) :
    Node.Takes others t (importOne ctx index desc l t r).2.1 l.owned
      (importOne ctx index desc l t r).1.owned
      ((Fate.of l.materials.names desc).demand ctx · ) := by
  rw [importOne, Fate.of]
  cases desc.name with
  | none => exact .refl h
  | some name =>
    dsimp only
    by_cases hname : name ∈ l.materials.names
    · rw [if_pos hname, if_pos (Pool.contains_iff.mpr hname)]
      exact .refl h
    · have htakes := (Material.takes_ofDesc hctx name desc h).beside
      rw [add_zero] at htakes
      rw [if_neg hname, if_neg (Pool.contains_iff.not.mpr hname), Pool.create_of_not_mem hname]
      dsimp only
      rw [owned_create (Pool.create_of_not_mem hname)]
      exact htakes

/-- An import takes handles for what is imported, and for nothing else. -/
theorem takes_importFrom (hctx : ctx.registry.Fresh) (index : ℕ) (descs : List GraphDesc)
    (r : ImportReport) (h : t.Accounts (l.owned + others)) :
    Node.Takes others t (importFrom ctx index descs l t r).2.1 l.owned
      (importFrom ctx index descs l t r).1.owned
      fun texture => ((fates l.materials.names descs).map (·.demand ctx texture)).sum := by
  induction descs generalizing index l t r with
  | nil => exact .refl h
  | cons desc rest ih =>
    have hfirst := takes_importOne hctx index desc r h
    have hrest := ih (index + 1) (importOne ctx index desc l t r).2.2 hfirst.accounts
    rw [fates_congr (mem_names_importOne ctx index desc l r rfl)] at hrest
    exact hfirst.trans hrest

/-- A slot that was there keeps its material, and a new one has a described material. -/
theorem Progress.value?_cases {fs : List Fate} {r : ImportReport}
    {x : Library × Pool Image × ImportReport} (h : Progress ctx t 0 fs l r x) (i : ℕ) :
    (i < l.materials.slots.length ∧ x.1.materials.value? i = l.materials.value? i) ∨
      (l.materials.slots.length ≤ i ∧ (x.1.materials.value? i = none ∨
        i < x.1.materials.slots.length ∧ ∃ name desc,
          x.1.materials.value? i = some (Material.ofDesc ctx name desc t).1)) := by
  by_cases hi : i < l.materials.slots.length
  · refine .inl ⟨hi, ?_⟩
    rw [Pool.value?, getElem?_slots_of_lt h hi, Pool.value?]
  · refine .inr ⟨not_lt.mp hi, ?_⟩
    rw [Pool.value?]
    rcases Option.eq_none_or_eq_some x.1.materials.slots[i]? with hnone | ⟨slot, hslot⟩
    · exact .inl (by rw [hnone, Option.map_none])
    · refine .inr ⟨(List.getElem?_eq_some_iff.mp hslot).1, ?_⟩
      have hnew := hslot
      rw [h.slots_eq, List.getElem?_append_right (not_lt.mp hi), slotsOf, List.getElem?_map] at hnew
      obtain ⟨⟨name, desc⟩, -, rfl⟩ := Option.map_eq_some_iff.mp hnew
      exact ⟨name, desc, by rw [hslot, Option.map_some]⟩

/-- What was registered stays so, and every new slot is registered. -/
theorem Progress.isListed_eq {fs : List Fate} {r : ImportReport}
    {x : Library × Pool Image × ImportReport} (h : Progress ctx t 0 fs l r x) {i : ℕ}
    (hi : i < x.1.materials.slots.length) :
    x.1.materials.isListed i =
      (l.materials.isListed i || decide (l.materials.slots.length ≤ i)) := by
  rw [h.slots_eq, List.length_append, slotsOf, List.length_map] at hi
  have hnew : (entriesOf l.materials.slots.length fs).any (·.2 == i) =
      decide (l.materials.slots.length ≤ i) := by
    rw [Bool.eq_iff_iff, List.any_eq_true, decide_eq_true_iff]
    constructor
    · rintro ⟨entry, hentry, heq⟩
      obtain ⟨⟨newcomer, j⟩, hj, rfl⟩ := List.mem_map.mp hentry
      exact beq_iff_eq.mp heq ▸ (List.mem_zipIdx hj).1
    · intro hle
      have hlt : i - l.materials.slots.length < (newcomers fs).length := by omega
      refine ⟨((newcomers fs)[i - l.materials.slots.length].1, i), ?_, beq_self_eq_true i⟩
      refine List.mem_map.mpr ⟨((newcomers fs)[i - l.materials.slots.length], i), ?_, rfl⟩
      exact List.mk_mem_zipIdx_iff_le_and_getElem?_sub.mpr ⟨hle, List.getElem?_eq_getElem hlt⟩
  rw [Pool.isListed, h.directory_perm.any_eq, List.any_append, hnew, Pool.isListed]

end Imports

/-! ### Materials let go -/

section Leaving

variable {l : Library} {t : Pool Image} {others : Multiset (Handle Image)}

theorem owned_congr {l' : Library}
    (hlength : l'.materials.slots.length = l.materials.slots.length)
    (hheld : ∀ i, l'.materials.isHeld i = l.materials.isHeld i)
    (hvalue : ∀ i, l'.materials.value? i = l.materials.value? i) : l'.owned = l.owned := by
  rw [owned, Pool.total_congr hlength hheld, owned]
  exact Pool.total_congr_weight fun i _ => by rw [handlesAt, hvalue, handlesAt]

theorem owned_clone {k : Handle Material} (hk : l.materials.isHeld k.slot = true) :
    (l.clone k).owned = l.owned :=
  owned_congr (Pool.length_adjust _ _ _) (Pool.isHeld_clone hk) (Pool.value?_adjust _ _ _)

/-- What goes with a handle: with the last hold on a material, all that the material holds. -/
theorem handles_gone {k : Handle Material} (hvalue : l.materials.value? k.slot = some k.value) :
    (l.materials.release k).2.toList.flatMap Material.handles =
      if (l.materials.release k).1.isHeld k.slot then [] else l.handlesAt k.slot := by
  rw [Pool.release]
  dsimp only
  split
  · rfl
  · rw [handlesAt, hvalue, Option.elim_some, Option.toList_some, List.flatMap_singleton]

/-- The material that goes with the last handle releases what it holds. -/
theorem owned_release {k : Handle Material} (hk : l.materials.isHeld k.slot = true)
    (hvalue : l.materials.value? k.slot = some k.value) :
    l.owned =
      ((l.materials.release k).2.toList.flatMap Material.handles : Multiset (Handle Image)) +
        (l.release k t).1.owned := by
  obtain ⟨s, hs, -⟩ := Option.map_eq_some_iff.mp hvalue
  have hlt : k.slot < l.materials.slots.length := (List.getElem?_eq_some_iff.mp hs).1
  have hweight : (l.materials.release k).1.total
      (fun i => (l.handlesAt i : Multiset (Handle Image))) = (l.release k t).1.owned := by
    refine Pool.total_congr_weight fun i _ => ?_
    rw [handlesAt, handlesAt, release, Pool.release, Pool.value?_adjust]
  have hgone : (if (l.materials.release k).1.isHeld k.slot then 0
        else (l.handlesAt k.slot : Multiset (Handle Image))) =
      ((l.materials.release k).2.toList.flatMap Material.handles : Multiset (Handle Image)) := by
    rw [handles_gone hvalue]
    split <;> rfl
  rw [owned, Pool.total_release hk hlt, hweight, hgone, add_comm]

/-- Of a library that is torn down the materials that have handles keep what they hold. -/
theorem owned_close {live : Multiset (Handle Material)} (h : l.materials.Tallies live)
    (fallback : Option Material) : l.owned =
      (l.materials.close.2.flatMap Material.handles : Multiset (Handle Image)) +
        owned ⟨l.materials.close.1, fallback⟩ := by
  rw [owned, h.total_close, Pool.coe_flatMap_close, add_comm]
  rfl

theorem shutdown_eq (l : Library) (t : Pool Image) :
    l.shutdown t = l.close (l.materials.shutdown.1, l.materials.close) t := by
  rw [shutdown, ← Pool.shutdown_snd]

/-- The material to use where none is found holds no textures, and takes none. -/
theorem reopen_eq (ctx : Context) (l : Library) (t : Pool Image) :
    (∀ m ∈ (l.reopen ctx t).1.fallback, m.handles = []) ∧ (l.reopen ctx t).2 = t := by
  refine ⟨fun m hm => ?_, rfl⟩
  obtain rfl := Option.some.inj hm
  rfl

end Leaving

end Library

end ShadeTree
