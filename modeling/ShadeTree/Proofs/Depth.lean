import ShadeTree.Proofs.Meaning
import Mathlib.Logic.Relation

/-!
# Descriptions that go round in circles

A template may refer to itself, so a description may go on for ever. Assembly follows it down to the
configured depth.

To assemble a description into a node at some depth is a `Visit`, and it calls for a visit one level
down for each of its properties that is a node or a reference, fits its socket and is of a
registered type, as long as the visit is not at the greatest depth (`Calls`). A visit finishes when
those it calls for do (`Finishes`). This is a relation on visits that knows their depth and no bound
on the levels still to come, so that it holds of a visit is that its calls come to an end.

Besides that every visit finishes, `Context.assemble_depthLimited` says what the depth does to the
tree and to the report.
-/

namespace ShadeTree

open Relation (ReflTransGen)

/-! ### Visits -/

/-- A description to be assembled into a node. -/
structure Visit where
  /-- How many levels below the node that the outermost description is assembled into. -/
  depth : ℕ
  path : String
  desc : NodeDesc
  /-- The node as it is before the first property. -/
  node : Node

section Visits

variable (ctx : Context) (templates : Templates)

/-- A property is a node or a reference to one, and the socket of its name is one that nodes may be
plugged into. -/
structure Asks (n : Node) (p : String × PropertyValue) (desc : NodeDesc) : Prop where
  subject : p.2.subject? templates = some desc
  socket : ∃ kind, n.socketKind? p.1 = some kind ∧ kind ≠ .text

/-- What a visit calls for. -/
inductive Calls : Visit → Visit → Prop where
  | intro {v : Visit} {p : String × PropertyValue} {desc : NodeDesc} {fresh : Node}
    (hp : p ∈ v.desc.properties) (hasks : Asks templates v.node p desc)
    (hdepth : v.depth < ctx.config.maxDepth)
    (hfresh : ctx.registry.create? desc.nodeType = some fresh) :
    Calls v ⟨v.depth + 1, childPath v.path p.1 desc.nodeType, desc, fresh⟩

/-- A visit finishes, and what it leaves: the visits that it calls for finish, and `below` is what
they leave. -/
inductive Finishes : Visit → Assembly → Prop where
  | intro (v : Visit) (below : NodeDesc → String → Node → Assembly)
    (hbelow : ∀ w, Calls ctx templates v w → Finishes w (below w.desc w.path w.node)) :
    Finishes v (v.desc.properties.foldl
      (Assembly.applyProperty ctx templates
        (if v.depth < ctx.config.maxDepth then some below else none) v.path)
      (Assembly.start v.node))

end Visits

/-- A report tells of nothing that was too deep. -/
def Shallow (ws : Report) : Prop := ∀ path limit, Warning.depthExceeded path limit ∉ ws

namespace Assembly

/-! ### Effects by what they ask for -/

section Asking

variable {ctx : Context} {templates : Templates}
  {assemble : Option (NodeDesc → String → Node → Assembly)} {path : String} {n : Node}
  {p : String × PropertyValue}

theorem effect_of_asks {desc : NodeDesc} (h : Asks templates n p desc) :
    effect ctx templates assemble path (n.socketKind? p.1) p =
      plugEffect ctx assemble path p.1 desc := by
  obtain ⟨name, value⟩ := p
  obtain ⟨hsubject, kind, hkind, htext⟩ := h
  rw [hkind]
  cases value with
  | node d =>
    obtain rfl := Option.some.inj hsubject
    simp only [effect, nodeEffect, if_neg htext]
  | reference target =>
    have htarget : templates.get? target = some desc := hsubject
    simp only [effect, nodeEffect, if_neg htext, htarget]
  | literal text => cases hsubject
  | missing what => cases hsubject
  | invalid reason => cases hsubject

/-- A property that asks for no node does the same at every depth, and tells nothing of depth. -/
theorem effect_of_not_asks (h : ∀ desc, ¬ Asks templates n p desc) (ctx' : Context)
    (assemble' : Option (NodeDesc → String → Node → Assembly)) :
    effect ctx' templates assemble' path (n.socketKind? p.1) p =
        effect ctx templates assemble path (n.socketKind? p.1) p ∧
      Shallow (effect ctx templates assemble path (n.socketKind? p.1) p).report := by
  obtain ⟨name, value⟩ := p
  cases hkind : n.socketKind? name with
  | none => cases value <;> simp [effect, Effect.report, Shallow]
  | some kind =>
    have htext : ∀ desc, value.subject? templates = some desc → kind = .text := by
      intro desc hsubject
      by_contra htext
      exact h desc ⟨hsubject, kind, hkind, htext⟩
    cases value with
    | literal text =>
      cases kind <;> simp [effect, literalEffect, literalReport, Effect.report, Shallow]
    | node desc => simp [effect, nodeEffect, htext desc rfl, Effect.report, Shallow]
    | reference target =>
      cases htarget : templates.get? target with
      | none => simp [effect, htarget, Effect.report, Shallow]
      | some desc => simp [effect, htarget, nodeEffect, htext desc htarget, Effect.report, Shallow]
    | missing what => simp [effect, Effect.report, Shallow]
    | invalid reason => simp [effect, Effect.report, Shallow]

end Asking

section Deeper

variable {ctx ctx' : Context} {templates : Templates}
  {assemble assemble' : Option (NodeDesc → String → Node → Assembly)} {desc : NodeDesc}
  {path : String} {n : Node}

/-- Two ways to assemble the nodes below do the same, when they do so for every property that asks
for a node. -/
theorem effects_congr (h : ∀ p ∈ desc.properties, ∀ sub, Asks templates n p sub →
      plugEffect ctx' assemble' path p.1 sub = plugEffect ctx assemble path p.1 sub) :
    effects ctx' templates assemble' desc path n = effects ctx templates assemble desc path n := by
  refine List.map_congr_left fun p hp => congrArg (p.1, ·) ?_
  by_cases hasks : ∃ sub, Asks templates n p sub
  · obtain ⟨sub, hsub⟩ := hasks
    rw [effect_of_asks hsub, effect_of_asks hsub]
    exact h p hp sub hsub
  · exact (effect_of_not_asks (not_exists.mp hasks) ctx' assemble').1

end Deeper

section Bounds

variable {ctx : Context} {templates : Templates}

/-! ### Visits finish -/

/-- What a visit with room for so many levels below finishes with. -/
theorem finishes_fill (room : ℕ) (v : Visit) (hroom : v.depth + room = ctx.config.maxDepth) :
    Finishes ctx templates v (fill ctx templates room v.desc v.path v.node) := by
  induction room generalizing v with
  | zero =>
    have hdeepest : ¬ v.depth < ctx.config.maxDepth := by omega
    have hbelow : ∀ w, Calls ctx templates v w →
        Finishes ctx templates w (fill ctx templates 0 w.desc w.path w.node) := by
      rintro w ⟨_, _, hdepth, _⟩
      exact absurd hdepth hdeepest
    have h := Finishes.intro v (fill ctx templates 0) hbelow
    rw [if_neg hdeepest] at h
    exact h
  | succ room ih =>
    have hdepth : v.depth < ctx.config.maxDepth := by omega
    have hbelow : ∀ w, Calls ctx templates v w →
        Finishes ctx templates w (fill ctx templates room w.desc w.path w.node) := by
      rintro w ⟨_, _, _, _⟩
      exact ih _ (by dsimp only; omega)
    have h := Finishes.intro v (fill ctx templates room) hbelow
    rw [if_pos hdepth] at h
    exact h

/-- **A visit finishes in one way**: with what is assembled in the room that the depth leaves. -/
theorem finishes_iff {v : Visit} {a : Assembly} (hdepth : v.depth ≤ ctx.config.maxDepth) :
    Finishes ctx templates v a ↔
      a = fill ctx templates (ctx.config.maxDepth - v.depth) v.desc v.path v.node := by
  constructor
  · intro h
    induction h with
    | intro v below hbelow ih =>
      rw [foldl_applyProperty ctx templates _ v.path v.desc.properties rfl, fill_eq]
      refine congrArg (List.foldl _ _) (effects_congr fun p hp sub hsub => ?_)
      by_cases hdeepest : v.depth < ctx.config.maxDepth
      · obtain ⟨room, hroom⟩ := Nat.exists_eq_succ_of_ne_zero
          (show ctx.config.maxDepth - v.depth ≠ 0 by omega)
        rw [if_pos hdeepest, hroom, deeper]
        cases hfresh : ctx.registry.create? sub.nodeType with
        | none => simp only [plugEffect, hfresh]
        | some fresh =>
          have hcall := Calls.intro hp hsub hdeepest hfresh
          have hchild := ih _ hcall hdeepest
          have hroom' : ctx.config.maxDepth - (v.depth + 1) = room := by omega
          dsimp only at hchild
          rw [hroom'] at hchild
          rw [plugEffect_of_create? ctx _ hfresh, plugEffect_of_create? ctx _ hfresh, hchild]
      · have hroom : ctx.config.maxDepth - v.depth = 0 := by omega
        rw [if_neg hdeepest, hroom, deeper]
  · rintro rfl
    exact finishes_fill _ v (by omega)

/-! ### Room that is not needed -/

/-- The report of a visit tells all that its calls tell. -/
theorem mem_report_fill {room : ℕ} {desc : NodeDesc} {path : String} {n : Node} {w : Warning} :
    w ∈ (fill ctx templates room desc path n).report ↔ ∃ p ∈ desc.properties,
      w ∈ (effect ctx templates (deeper ctx templates room) path (n.socketKind? p.1) p).report := by
  rw [report_fill, List.mem_flatMap, effects]
  simp

/-- Where nothing was too deep, more room makes no difference. -/
theorem fill_eq_of_shallow {ctx' : Context} (hregistry : ctx'.registry = ctx.registry)
    {room room' : ℕ} (hroom : room ≤ room') {desc : NodeDesc} {path : String} {n : Node}
    (h : Shallow (fill ctx templates room desc path n).report) :
    fill ctx' templates room' desc path n = fill ctx templates room desc path n := by
  induction room generalizing room' desc path n with
  | zero =>
    rw [fill_eq, fill_eq, effects_congr fun p hp sub hsub => ?_]
    refine absurd ?_ (h s!"{path}/{p.1}" ctx.config.maxDepth)
    rw [mem_report_fill]
    refine ⟨p, hp, ?_⟩
    rw [effect_of_asks hsub]
    exact List.mem_singleton_self _
  | succ room ih =>
    obtain ⟨room', rfl⟩ := Nat.exists_eq_succ_of_ne_zero (show room' ≠ 0 by omega)
    rw [fill_eq, fill_eq, effects_congr fun p hp sub hsub => ?_]
    cases hfresh : ctx.registry.create? sub.nodeType with
    | none => simp only [plugEffect, deeper, hregistry, hfresh]
    | some fresh =>
      have hchild : Shallow
          (fill ctx templates room sub (childPath path p.1 sub.nodeType) fresh).report := by
        intro q limit hmem
        refine h q limit (mem_report_fill.mpr ⟨p, hp, ?_⟩)
        rw [effect_of_asks hsub, deeper, plugEffect_of_create? ctx _ hfresh]
        exact hmem
      have hfresh' : ctx'.registry.create? sub.nodeType = some fresh := hregistry ▸ hfresh
      rw [deeper, deeper, plugEffect_of_create? ctx' _ hfresh', plugEffect_of_create? ctx _ hfresh,
        ih (Nat.le_of_succ_le_succ hroom) hchild]

/-! ### What is cut off -/

/-- What was too deep is asked for by a visit at the greatest depth. -/
theorem exists_visit_of_depthExceeded (room : ℕ) {v : Visit}
    (hroom : v.depth + room = ctx.config.maxDepth) {path : String} {limit : ℕ}
    (h : .depthExceeded path limit ∈ (fill ctx templates room v.desc v.path v.node).report) :
    limit = ctx.config.maxDepth ∧ ∃ w p sub, ReflTransGen (Calls ctx templates) v w ∧
      w.depth = ctx.config.maxDepth ∧ p ∈ w.desc.properties ∧ Asks templates w.node p sub ∧
      path = s!"{w.path}/{p.1}" := by
  induction room generalizing v with
  | zero =>
    obtain ⟨p, hp, hmem⟩ := mem_report_fill.mp h
    by_cases hasks : ∃ sub, Asks templates v.node p sub
    · obtain ⟨sub, hsub⟩ := hasks
      rw [effect_of_asks hsub] at hmem
      obtain ⟨rfl, rfl⟩ := Warning.depthExceeded.inj (List.mem_singleton.mp hmem)
      exact ⟨rfl, v, p, sub, .refl, hroom, hp, hsub, rfl⟩
    · exact absurd hmem ((effect_of_not_asks (not_exists.mp hasks) ctx none).2 _ _)
  | succ room ih =>
    obtain ⟨p, hp, hmem⟩ := mem_report_fill.mp h
    by_cases hasks : ∃ sub, Asks templates v.node p sub
    · obtain ⟨sub, hsub⟩ := hasks
      rw [effect_of_asks hsub, deeper] at hmem
      cases hfresh : ctx.registry.create? sub.nodeType with
      | none => simp [plugEffect, hfresh, Effect.report] at hmem
      | some fresh =>
        rw [plugEffect_of_create? ctx _ hfresh] at hmem
        have hcall := Calls.intro hp hsub (show v.depth < ctx.config.maxDepth by omega) hfresh
        have hroom' : v.depth + 1 + room = ctx.config.maxDepth := by omega
        obtain ⟨hlimit, w, q, sub', hreach, hw⟩ :=
          ih (v := ⟨v.depth + 1, _, sub, fresh⟩) hroom' hmem
        exact ⟨hlimit, w, q, sub', .head hcall hreach, hw⟩
    · exact absurd hmem ((effect_of_not_asks (not_exists.mp hasks) ctx none).2 _ _)

/-- What a visit at the greatest depth asks for is too deep. -/
theorem depthExceeded_of_visit (room : ℕ) {v w : Visit}
    (hroom : v.depth + room = ctx.config.maxDepth) (hreach : ReflTransGen (Calls ctx templates) v w)
    (hdepth : w.depth = ctx.config.maxDepth) {p : String × PropertyValue}
    (hp : p ∈ w.desc.properties) {sub : NodeDesc} (hasks : Asks templates w.node p sub) :
    .depthExceeded s!"{w.path}/{p.1}" ctx.config.maxDepth ∈
      (fill ctx templates room v.desc v.path v.node).report := by
  induction hreach using ReflTransGen.head_induction_on generalizing room with
  | refl =>
    obtain rfl : room = 0 := by omega
    refine mem_report_fill.mpr ⟨p, hp, ?_⟩
    rw [effect_of_asks hasks]
    exact List.mem_singleton_self _
  | head hcall hreach ih =>
    obtain ⟨hq, hasks', hdeepest, hfresh⟩ := hcall
    obtain ⟨room, rfl⟩ := Nat.exists_eq_succ_of_ne_zero (show room ≠ 0 by omega)
    refine mem_report_fill.mpr ⟨_, hq, ?_⟩
    rw [effect_of_asks hasks', deeper, plugEffect_of_create? ctx _ hfresh]
    exact ih room (by dsimp only; omega)

end Bounds

end Assembly

/-! ### How far a description reaches -/

/-- The registered types are nodes with nothing plugged in. -/
def Registry.Childless (r : Registry) : Prop :=
  ∀ name fresh, r.create? name = some fresh → fresh.children = []

theorem Registry.childless_builtin : builtin.Childless := by
  intro name fresh h
  obtain ⟨node, hnode, rfl⟩ := exists_of_create? h
  obtain ⟨kind, rfl⟩ := exists_of_mem_builtin hnode
  exact Node.children_new kind

theorem Node.below?_of_childless {n : Node} (h : n.children = []) {position : List ℕ} {m : Node}
    (hm : n.below? position = some m) : position = [] := by
  cases position with
  | nil => rfl
  | cons i rest =>
    obtain ⟨c, hc, -⟩ := Option.bind_eq_some_iff.mp hm
    obtain ⟨s, hs, hnode⟩ := Option.bind_eq_some_iff.mp hc
    have hmem : c ∈ n.children := mem_children.mpr ⟨s, List.mem_of_getElem? hs, hnode⟩
    rw [h] at hmem
    cases hmem

theorem Gives.reads {ctx : Context} {templates : Templates} {room : ℕ} {kind : SocketKind}
    {value : PropertyValue} {n : Node} (h : Gives ctx templates room kind value (.node n)) :
    ∃ below desc fresh, room = below + 1 ∧ ctx.registry.create? desc.nodeType = some fresh ∧
      Reads ctx templates below desc fresh n := by
  cases h with
  | node _ _ hfresh _ hreads => exact ⟨_, _, _, rfl, hfresh, hreads⟩

/-- What lies deeper than a description reaches was there before it was read. -/
theorem Reads.below?_eq_some {ctx : Context} {templates : Templates}
    (hregistry : ctx.registry.Childless) {room : ℕ} {desc : NodeDesc} {before after : Node}
    (h : Reads ctx templates room desc before after) {position : List ℕ} {m : Node}
    (hdeep : room < position.length) (hm : after.below? position = some m) :
    before.below? position = some m := by
  induction position generalizing room desc before after with
  | nil => exact absurd hdeep (Nat.not_lt_zero room)
  | cons i rest ih =>
    obtain ⟨-, hdeclared, hholds⟩ := h
    obtain ⟨c, hc, hrest⟩ := Option.bind_eq_some_iff.mp hm
    obtain ⟨s', hs', hnode⟩ := Option.bind_eq_some_iff.mp hc
    have hi := congrArg (·[i]?) hdeclared
    simp only [List.getElem?_map, hs', Option.map_some] at hi
    obtain ⟨s, hs, -⟩ := Option.map_eq_some_iff.mp hi.symm
    cases hholds i s s' hs hs' with
    | prior =>
      exact Option.bind_eq_some_iff.mpr ⟨c, Option.bind_eq_some_iff.mpr ⟨_, hs, hnode⟩, hrest⟩
    | @last _ _ _ _ _ _ _ _ link _ _ _ _ hgives =>
      cases link with
      | literal v => cases hnode
      | text t => cases hnode
      | node n =>
        obtain rfl := Option.some.inj hnode
        obtain ⟨below, sub, fresh, rfl, hfresh, hreads⟩ := hgives.reads
        have hbelow := ih hreads (Nat.lt_of_succ_lt_succ hdeep) hrest
        obtain rfl := Node.below?_of_childless (hregistry _ _ hfresh) hbelow
        exact absurd (Nat.lt_of_succ_lt_succ hdeep) (Nat.not_lt_zero below)

/-- What the greatest depth does to the assembly of a description. -/
structure DepthLimited (ctx : Context) (templates : Templates) (desc : NodeDesc) (target : Node) :
    Prop where
  /-- Assembly comes to an end, and in one way. -/
  finishes : ∀ a, Finishes ctx templates ⟨0, target.typeName, desc, target⟩ a ↔
    a = ctx.assemble templates desc target
  /-- No node comes to lie deeper than that, where fresh nodes have nothing plugged in. -/
  reaches : ctx.registry.Childless → ∀ position m,
    ctx.config.maxDepth < position.length →
      (ctx.assemble templates desc target).node.below? position = some m →
        target.below? position = some m
  /-- So none lies deeper when nothing was plugged into the target. -/
  bounded : ctx.registry.Childless → target.children = [] → ∀ position m,
    (ctx.assemble templates desc target).node.below? position = some m →
      position.length ≤ ctx.config.maxDepth
  /-- Where nothing was too deep, the depth may be greater and makes no difference. -/
  settled : Shallow (ctx.assemble templates desc target).report →
    ∀ depth ≥ ctx.config.maxDepth,
      Context.assemble { ctx with config := { ctx.config with maxDepth := depth } } templates desc
        target = ctx.assemble templates desc target
  /-- What was too deep is what is asked for by a node that lies as deep as can be. -/
  cut : ∀ path limit,
    .depthExceeded path limit ∈ (ctx.assemble templates desc target).report ↔
      limit = ctx.config.maxDepth ∧ ∃ w p sub,
        ReflTransGen (Calls ctx templates) ⟨0, target.typeName, desc, target⟩ w ∧
          w.depth = ctx.config.maxDepth ∧ p ∈ w.desc.properties ∧ Asks templates w.node p sub ∧
            path = s!"{w.path}/{p.1}"

/-- **Assembly comes to an end and keeps to the depth**, whatever the description and however its
templates go round in circles. -/
theorem Context.assemble_depthLimited (ctx : Context) (templates : Templates) (desc : NodeDesc)
    (target : Node) : DepthLimited ctx templates desc target := by
  have hreads : Reads ctx templates ctx.config.maxDepth desc target
      (ctx.assemble templates desc target).node := by
    rw [assemble, Assembly.node_fill_eq_build]
    exact reads_build _ desc target
  have hreaches : ctx.registry.Childless → ∀ position m,
      ctx.config.maxDepth < position.length →
        (ctx.assemble templates desc target).node.below? position = some m →
          target.below? position = some m :=
    fun hregistry position m hdeep hm => hreads.below?_eq_some hregistry hdeep hm
  constructor
  case finishes =>
    intro a
    rw [Assembly.finishes_iff (Nat.zero_le _)]
    rfl
  case reaches => exact hreaches
  case bounded =>
    intro hregistry htarget position m hm
    by_contra hdeep
    have hposition := Node.below?_of_childless htarget
      (hreaches hregistry position m (Nat.lt_of_not_le hdeep) hm)
    subst hposition
    exact hdeep (Nat.zero_le _)
  case settled =>
    intro h depth hdepth
    refine Assembly.fill_eq_of_shallow ?_ hdepth h
    rfl
  case cut =>
    intro path limit
    have hroom : (⟨0, target.typeName, desc, target⟩ : Visit).depth + ctx.config.maxDepth =
        ctx.config.maxDepth := Nat.zero_add _
    constructor
    · exact Assembly.exists_visit_of_depthExceeded ctx.config.maxDepth hroom
    · rintro ⟨rfl, w, p, sub, hreach, hdepth, hp, hasks, rfl⟩
      exact Assembly.depthExceeded_of_visit ctx.config.maxDepth hroom hreach hdepth hp hasks

/-- A template that refers to itself is followed down to the depth, and cut off there. -/
example :
    let ctx : Context := ⟨.builtin, { Config.standard with maxDepth := 2 }⟩
    let loop : NodeDesc := .mk "Blend" none [("Bxdf1", .reference "loop")]
    let desc : NodeDesc := .output [("Surface", .reference "loop")]
    (ctx.assemble [("loop", loop)] desc (.new .output)).report =
      [.depthExceeded "Output/Surface(Blend)/Bxdf1(Blend)/Bxdf1" 2] := by
  rfl

/-- What was plugged into the target before stays there, however deep it lies. -/
theorem Context.assemble_leaves_deeper :
    let ctx : Context := ⟨.builtin, { Config.standard with maxDepth := 0 }⟩
    let target := (Node.new .blend).setLink "Bxdf1" (.node (.new .lambert))
    ctx.registry.Childless ∧ ∃ position m, ctx.config.maxDepth < position.length ∧
      (ctx.assemble [] (.mk "Blend" none []) target).node.below? position = some m := by
  intro ctx target
  exact ⟨Registry.childless_builtin, [0], .new .lambert, by decide, rfl⟩

end ShadeTree
