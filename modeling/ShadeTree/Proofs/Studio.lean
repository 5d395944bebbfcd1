import ShadeTree.Proofs.Keeping
import ShadeTree.Proofs.Ledger

/-!
# The studio

A studio is a workbench with its textures, and the handles to textures that are held beside its
trees. A step is an action on the trees and graphs, or a call on the pool and the handles. Steps
come in any order, and those that fail are steps too.

Handles are taken deep inside a tree as it is prepared, and given back wherever a subtree is
replaced, detached, reset or let go. The main statement is `balanced_run`: after any run the books
are balanced (`Balanced`). Every registered texture counts the nodes that hold it, over all trees,
and the handles held directly, no more and no less.
-/

namespace ShadeTree

open Node (custody)

/-! ### Holders -/

namespace Node

/-- How many nodes of the tree hold the texture of a name. -/
def holders (n : Node) (name : String) : ℕ := n.nodes.countP fun m => m.texture?.any (·.name = name)

theorem holders_eq (n : Node) (name : String) :
    n.holders name = n.handles.countP (·.name = name) := by
  rw [handles_eq_filterMap, List.countP_filterMap, holders]
  refine List.countP_congr fun m _ => ?_
  cases m.texture? <;> rfl

theorem holders_reset (n : Node) (name : String) : n.reset.holders name = 0 := by
  rw [holders_eq, handles_reset]
  rfl

theorem countP_custody (trees : List Node) (name : String) :
    (custody trees).countP (·.name = name) = (trees.map (·.holders name)).sum := by
  simp only [holders_eq, custody_coe, Multiset.coe_countP, List.countP_flatMap]
  rfl

/-- Validation passes nothing that preparation would pass. -/
theorem passed_validate (name : String) (n : Node) (after : List Node) :
    passed name n.validate.nodes after = passed name n.nodes after := by
  have hpasses : ∀ pair : Node × Node,
      passes name (Prod.map validate id pair) = passes name pair := by
    rintro ⟨m, m'⟩
    have htexture : m.validate.textureName = m.textureName :=
      textureName_eq_of_reset_eq (reset_validate m)
    simp [passes, htexture]
  rw [passed, nodes_map sockets_validate, List.zip_map_left, List.countP_map, passed]
  exact List.countP_congr fun pair _ => by rw [Function.comp, hpasses]

end Node

/-! ### Actions -/

/-- What is done with the trees and graphs of a workbench. An edit by way of the root that a graph
has `lent` does not withdraw the graph again. -/
inductive Action where
  | build (id : String) (b : Blueprint)
  | newGraph (id : String)
  | loadGraph (id : String) (desc : GraphDesc)
  | setLiteral (t : Target) (socket text : String) (lent : Bool)
  | connect (t : Target) (socket : String) (b : Blueprint) (into : Option String) (lent : Bool)
  | disconnect (t : Target) (socket : String) (into : Option String) (lent : Bool)
  | assemble (t : Target) (desc : NodeDesc) (templates : Templates) (lent : Bool)
  | infer (t : Target) (lent : Bool)
  | check (t : Target) (lent : Bool)
  | process (t : Target) (lent : Bool)
  | reset (t : Target) (lent : Bool)
  /-- A graph lends its root to be edited. -/
  | lend (id : String)
  | prepare (id : String)
  | discard (owner : Owner)
  | configure (config : Config)

namespace Workbench

/-- What a command leaves. -/
def after {β : Type} (c : Command β) (w : Workbench) : Workbench := (perform c w).2

/-- What an action leaves, also when it fails. -/
def act (w : Workbench) : Action → Workbench
  | .build id b => after (buildAs id b) w
  | .newGraph id => after (placeGraph id .new) w
  | .loadGraph id desc => after (loadGraph id desc) w
  | .setLiteral t socket text lent => after (setLiteral t socket text lent) w
  | .connect t socket b into lent => after (replace t socket b into lent) w
  | .disconnect t socket into lent => after (disconnect t socket into lent) w
  | .assemble t desc templates lent => after (assemble t desc templates lent) w
  | .infer t lent => after (infer t lent) w
  | .check t lent => after (check t lent) w
  | .process t lent => after (process t lent) w
  | .reset t lent => after (reset t lent) w
  | .lend id => after (rootToEdit (.graph id)) w
  | .prepare id => after (prepare id) w
  | .discard owner => after (discard owner) w
  | .configure config => after (configure config) w

/-- The node that a target reaches. -/
def node? (w : Workbench) (t : Target) : Option Node := (w.root? t.owner).bind (·.at? t.path)

section Acting

variable {β : Type} {w : Workbench} {others : Multiset (Handle Image)}

theorem Ends.after {c : Command β} {P : Workbench → Prop} (h : Ends c w (fun _ w' => P w') P) :
    P (w.after c) := by
  rw [Ends] at h
  rw [Workbench.after]
  cases hcw : perform c w with
  | mk r w' =>
    rw [hcw] at h
    cases r with
    | ok b => exact h
    | error e => exact h

theorem Keeps.orderly {c : Command β} (hc : Keeps 0 c (fun _ => 0) 0) (h : Orderly w 0 others) :
    Orderly (after c w) 0 others :=
  (hc w 0 others h).after

/-- Whatever is done with the trees, the pool goes on accounting for their handles. -/
theorem Orderly.act (h : Orderly w 0 others) (a : Action) : Orderly (w.act a) 0 others := by
  cases a with
  | build id b => exact (keeps_buildAs id b).orderly h
  | newGraph id =>
    have hfresh : Orderly w ({Graph.new.root} + 0) others := h.fresh (Node.fresh_new .output)
    exact (keeps_placeGraph id .new w 0 others hfresh).after
  | loadGraph id desc => exact (keeps_loadGraph id desc).orderly h
  | setLiteral t socket text lent => exact (keeps_setLiteral t socket text lent).orderly h
  | connect t socket b into lent => exact (keeps_replace t socket b into lent).orderly h
  | disconnect t socket into lent => exact (keeps_disconnect t socket into lent).orderly h
  | assemble t desc templates lent => exact (keeps_assemble t desc templates lent).orderly h
  | infer t lent => exact (keeps_infer t lent).orderly h
  | check t lent => exact (keeps_check t lent).orderly h
  | process t lent => exact (keeps_process t lent).orderly h
  | reset t lent => exact (keeps_reset t lent).orderly h
  | lend id =>
    have hends := ends_rootToEdit h (.graph id)
    exact (hends.mono (fun _ _ h' => h'.2) fun _ h' => h').after
  | prepare id => exact (keeps_prepare id).orderly h
  | discard owner => exact (keeps_discard owner).orderly h
  | configure config => exact (keeps_configure config).orderly h

/-- What a tree of the workbench holds at a path, and what is held besides. -/
theorem Orderly.exists_besides (h : Orderly w 0 others) {t : Target} {n : Node}
    (hn : w.node? t = some n) :
    n.Tidy ∧ ∃ besides, w.textures.Accounts ((n.handles : Multiset (Handle Image)) + besides) := by
  obtain ⟨whole, hwhole, hat⟩ := Option.bind_eq_some_iff.mp hn
  have htaken := h.without t.owner
  rw [hwhole, Option.toList_some, Multiset.coe_singleton] at htaken
  have htidy : whole.Tidy := htaken.tidy whole (by simp)
  obtain ⟨besides, hbesides, -⟩ := Node.exists_handles_putAt hat
  have haccounts := htaken.accounts
  rw [textures_without, add_zero, Node.custody_add, Node.custody_singleton, hbesides, add_left_comm,
    add_assoc, add_assoc] at haccounts
  exact ⟨htidy.at? hat, _, haccounts⟩

/-- Preparation puts the node that it prepares in its place. -/
theorem after_process {t : Target} {lent : Bool} {n : Node}
    (hn : w.node? (toPrepare t lent) = some n) :
    (after (process t lent) w).node? (toPrepare t lent) =
        some (n.process w.context.config w.textures).1 ∧
      (after (process t lent) w).textures = (n.process w.context.config w.textures).2.1 := by
  obtain ⟨whole, hwhole, hat⟩ := Option.bind_eq_some_iff.mp hn
  refine Ends.after (P := fun w' => w'.node? (toPrepare t lent) = _ ∧ w'.textures = _) ?_
  refine ends_root_bind_some hwhole (ends_require_bind_some hat ?_)
  refine ends_settle_bind (ends_putRoot_bind (ends_pure ⟨?_, textures_withRoot _ _ _⟩))
  rw [node?, root?_withRoot (m := whole) (by rw [root?_textures, hwhole])]
  exact Node.at?_putAt hat _

/-- A graph that is prepared is validated first. -/
theorem after_prepare {id : String} {g : Graph} (hg : w.graphs.get? id = some g) :
    (after (prepare id) w).graphs.get? id = some (g.prepare w.context.config w.textures).1 ∧
      (after (prepare id) w).textures = (g.prepare w.context.config w.textures).2.1 := by
  refine Ends.after (P := fun w' => w'.graphs.get? id = _ ∧ w'.textures = _) ?_
  refine ends_get_bind (ends_require_bind_some hg (ends_modify_bind (ends_pure ?_)))
  exact ⟨List.lookup_cons_self, rfl⟩

/-- A graph that lends its root is withdrawn. -/
theorem after_lend {id : String} {g : Graph} (hg : w.graphs.get? id = some g) :
    (after (rootToEdit (.graph id)) w).graphs.get? id = some (g.withdraw w.textures).1 ∧
      (after (rootToEdit (.graph id)) w).textures = w.textures.releaseAll g.root.handles := by
  refine Ends.after (P := fun w' => w'.graphs.get? id = _ ∧ w'.textures = _) ?_
  refine ends_root_bind_some (root?_graph hg) (ends_withdraw_bind (ends_putRoot_bind ?_))
  refine ends_pure ⟨get?_withRoot ?_ _, textures_withRoot _ _ _⟩
  exact hg

/-- What is discarded gives its handles back. -/
theorem after_discard (w : Workbench) (owner : Owner) :
    after (discard owner) w = { w.without owner with
      textures := w.textures.releaseAll ((w.root? owner).toList.flatMap Node.handles) } := by
  cases owner <;> rfl

end Acting

end Workbench

/-! ### Studios -/

/-- A workbench, and the handles to its textures that are held directly. -/
structure Studio where
  bench : Workbench
  held : Named (Handle Image)

namespace Studio

/-- A step: an action on the trees and graphs, or a call on the pool and the handles. -/
inductive Step where
  | act (a : Action)
  | call (c : Holdings.Call Image)

/-- A studio with nothing in it. -/
def new (context : Context) : Studio := ⟨.new context, []⟩

/-- The textures. -/
def textures (s : Studio) : Pool Image := s.bench.textures

/-- What a step leaves, also when it fails. -/
def step (s : Studio) : Step → Studio
  | .act a => { s with bench := s.bench.act a }
  | .call c =>
    let t := Holdings.call ⟨s.textures, s.held⟩ c
    ⟨{ s.bench with textures := t.pool }, t.held⟩

/-- What steps leave, one after the other. -/
def run (s : Studio) (steps : List Step) : Studio := steps.foldl step s

/-- The trees, those of the graphs included. -/
def trees (s : Studio) : List Node := s.bench.nodes.map (·.2) ++ s.bench.graphs.map (·.2.root)

/-- How many nodes hold the texture of a name, over all trees. -/
def holders (s : Studio) (name : String) : ℕ := (s.trees.map (·.holders name)).sum

/-- How many handles to the texture of a name are held directly. -/
def direct (s : Studio) (name : String) : ℕ := (s.held.map (·.2)).countP (·.name = name)

/-- The handles that are live: those bound to nodes, and those held directly. -/
def live (s : Studio) : List (Handle Image) := s.trees.flatMap Node.handles ++ s.held.map (·.2)

/-- Something to be let go of. -/
inductive Item where
  | tree (owner : Owner)
  | handle (key : String)

/-- The step that lets go of it. -/
def Item.drop : Item → Step
  | .tree owner => .act (.discard owner)
  | .handle key => .call (.release key)

/-- It is there to be let go of. -/
def Has (s : Studio) : Item → Prop
  | .tree owner => ∃ n, s.bench.root? owner = some n
  | .handle key => ∃ k, s.held.get? key = some k

/-! ### Balance -/

/-- The books of a studio are balanced. -/
structure Balanced (s : Studio) : Prop where
  /-- A registered texture counts the nodes that hold it and the handles held directly. -/
  refs?_eq : ∀ name ∈ s.textures.names,
    s.textures.refs? name = some (s.holders name + s.direct name)
  /-- Every live handle is to the texture that is now registered under its name. -/
  current : ∀ k ∈ s.live, s.textures.Registers k.name k.slot k.value
  /-- To prepare a node raises the count of a texture by the image textures that are newly passed
  and name it. -/
  process : ∀ t lent n, s.bench.node? (Workbench.toPrepare t lent) = some n →
    let n' := (n.process s.bench.context.config s.textures).1
    let s' := s.step (.act (.process t lent))
    s'.bench.node? (Workbench.toPrepare t lent) = some n' ∧
      s.textures.Rises s'.textures fun name => Node.passed name n.nodes n'.nodes
  /-- So does to prepare a graph. -/
  prepare : ∀ id g, s.bench.graphs.get? id = some g →
    let g' := (g.prepare s.bench.context.config s.textures).1
    let s' := s.step (.act (.prepare id))
    s'.bench.graphs.get? id = some g' ∧
      s.textures.Rises s'.textures fun name => Node.passed name g.root.nodes g'.root.nodes
  /-- A graph that lends its root gives back every handle that it held. -/
  lend : ∀ id g, s.bench.graphs.get? id = some g →
    let s' := s.step (.act (.lend id))
    s'.bench.graphs.get? id = some (g.withdraw s.textures).1 ∧
      (∀ name, (g.withdraw s.textures).1.root.holders name = 0) ∧
        s'.textures.Rises s.textures g.root.holders
  /-- When everything is let go of, in whatever order, no texture counts any handle. -/
  clear : ∀ order : List Item, (∀ i, s.Has i → i ∈ order) →
    let s' := s.run (order.map Item.drop)
    s'.trees = [] ∧ s'.held = [] ∧ s'.textures.names = s.textures.names ∧
      ∀ name ∈ s.textures.names, s'.textures.refs? name = some 0

/-- What every step keeps: the names are distinct, and the pool accounts for the handles in trees
and for those held directly. -/
structure Sound (s : Studio) : Prop where
  distinct : s.held.Distinct
  orderly : s.bench.Orderly 0 s.held.things

variable {s : Studio}

theorem sound_new {context : Context} (h : context.registry.Fresh) : (new context).Sound :=
  ⟨Named.distinct_nil, h, Named.distinct_nil, Named.distinct_nil,
    fun _ hn => absurd hn (Multiset.notMem_zero _), Pool.accounts_empty _⟩

theorem Sound.step (h : s.Sound) (e : Step) : (s.step e).Sound := by
  cases e with
  | act a => exact ⟨h.distinct, h.orderly.act a⟩
  | call c =>
    have hholdings : Holdings.Sound ⟨s.textures, s.held⟩ (custody (s.bench.trees + 0)) :=
      ⟨h.distinct, add_comm (custody _) _ ▸ h.orderly.accounts⟩
    have hcall := hholdings.call c
    exact ⟨hcall.distinct, h.orderly.registry, h.orderly.nodes, h.orderly.graphs, h.orderly.tidy,
      add_comm (custody _) _ ▸ hcall.accounts⟩

theorem Sound.run (h : s.Sound) (steps : List Step) : (s.run steps).Sound := by
  induction steps generalizing s with
  | nil => exact h
  | cons e rest ih => exact ih (h.step e)

theorem trees_coe (s : Studio) : s.bench.trees = (s.trees : Multiset Node) := by
  rw [Workbench.trees, Named.things, Named.things, Multiset.map_coe, List.map_map,
    Multiset.coe_add]
  rfl

/-- The pool accounts for the handles that are live. -/
theorem Sound.accounts (h : s.Sound) : s.textures.Accounts (s.live : Multiset (Handle Image)) := by
  have haccounts := h.orderly.accounts
  rw [add_zero, trees_coe, Node.custody_coe] at haccounts
  exact haccounts

theorem countP_live (s : Studio) (name : String) :
    (s.live : Multiset (Handle Image)).countP (·.name = name) = s.holders name + s.direct name := by
  rw [live, ← Multiset.coe_add, Multiset.countP_add, ← Node.custody_coe, Node.countP_custody]
  rfl

/-! ### Letting go -/

theorem step_drop_tree (s : Studio) (owner : Owner) :
    s.step (Item.tree owner).drop = ⟨{ s.bench.without owner with
      textures := s.textures.releaseAll ((s.bench.root? owner).toList.flatMap Node.handles) },
        s.held⟩ := by
  rw [Item.drop, step, Workbench.act, Workbench.after_discard]
  rfl

theorem step_drop_handle (s : Studio) (key : String) :
    s.step (Item.handle key).drop =
      ⟨{ s.bench with textures := (Holdings.release ⟨s.textures, s.held⟩ key).pool },
        s.held.erase key⟩ := by
  rw [Item.drop, step, Holdings.call_release, Holdings.held_release]

/-- What was let go of is gone, and nothing else came. -/
theorem Has.of_drop {i j : Item} (h : (s.step i.drop).Has j) : s.Has j ∧ j ≠ i := by
  cases i with
  | tree owner =>
    rw [step_drop_tree] at h
    cases j with
    | tree other =>
      obtain ⟨n, hn⟩ := h
      rw [Workbench.root?_textures] at hn
      obtain ⟨hn, hne⟩ := Workbench.root?_without hn
      exact ⟨⟨n, hn⟩, by simpa using hne⟩
    | handle key => exact ⟨h, by simp⟩
  | handle key =>
    rw [step_drop_handle] at h
    cases j with
    | tree owner =>
      obtain ⟨n, hn⟩ := h
      rw [Workbench.root?_textures] at hn
      exact ⟨⟨n, hn⟩, by simp⟩
    | handle other =>
      obtain ⟨k, hk⟩ := h
      obtain ⟨hk, hne⟩ := Named.of_get?_erase hk
      exact ⟨⟨k, hk⟩, by simpa using hne⟩

theorem Has.of_drops {order : List Item} {i : Item} (h : (s.run (order.map Item.drop)).Has i) :
    s.Has i ∧ i ∉ order := by
  induction order generalizing s with
  | nil => exact ⟨h, List.not_mem_nil⟩
  | cons j rest ih =>
    obtain ⟨hstep, hrest⟩ := ih h
    obtain ⟨hi, hne⟩ := hstep.of_drop
    exact ⟨hi, List.not_mem_cons_of_ne_of_not_mem hne hrest⟩

theorem names_drop (s : Studio) (i : Item) : (s.step i.drop).textures.names = s.textures.names := by
  change List.map _ (s.step i.drop).textures.directory = List.map _ s.textures.directory
  refine congrArg (List.map fun entry : String × ℕ => entry.1) ?_
  cases i with
  | tree owner =>
    rw [step_drop_tree]
    exact Pool.directory_releaseAll _ _
  | handle key =>
    rw [step_drop_handle]
    exact Holdings.directory_pool_release ⟨s.textures, s.held⟩ key

theorem names_drops (s : Studio) (order : List Item) :
    (s.run (order.map Item.drop)).textures.names = s.textures.names := by
  induction order generalizing s with
  | nil => rfl
  | cons i rest ih => exact (ih (s.step i.drop)).trans (names_drop s i)

/-- Where there is nothing to be let go of there is nothing. -/
theorem eq_nil_of_not_has (h : ∀ i, ¬ s.Has i) : s.trees = [] ∧ s.held = [] := by
  have hnodes : s.bench.nodes = [] := Named.eq_nil_of_get?_eq_none fun id =>
    Option.eq_none_iff_forall_ne_some.mpr fun n hn => h (.tree (.node id)) ⟨n, hn⟩
  have hgraphs : s.bench.graphs = [] := Named.eq_nil_of_get?_eq_none fun id =>
    Option.eq_none_iff_forall_ne_some.mpr fun g hg =>
      h (.tree (.graph id)) ⟨g.root, Workbench.root?_graph hg⟩
  have hheld : s.held = [] := Named.eq_nil_of_get?_eq_none fun key =>
    Option.eq_none_iff_forall_ne_some.mpr fun k hk => h (.handle key) ⟨k, hk⟩
  exact ⟨by rw [trees, hnodes, hgraphs, List.map_nil, List.map_nil, List.append_nil], hheld⟩

/-! ### Every run -/

theorem Sound.refs?_eq (h : s.Sound) {name : String} (hname : name ∈ s.textures.names) :
    s.textures.refs? name = some (s.holders name + s.direct name) := by
  rw [h.accounts.refs?_eq hname, countP_live]

theorem node?_graph {id : String} {g : Graph} (hg : s.bench.graphs.get? id = some g) :
    s.bench.node? ⟨.graph id, []⟩ = some g.root := by
  rw [Workbench.node?, Workbench.root?_graph hg]
  rfl

theorem Sound.rises_process (h : s.Sound) {t : Target} {lent : Bool} {n : Node}
    (hn : s.bench.node? (Workbench.toPrepare t lent) = some n) :
    s.textures.Rises (s.step (.act (.process t lent))).textures fun name =>
      Node.passed name n.nodes (n.process s.bench.context.config s.textures).1.nodes := by
  obtain ⟨-, htextures⟩ := Workbench.after_process hn
  obtain ⟨htidy, besides, haccounts⟩ := h.orderly.exists_besides hn
  obtain ⟨-, htakes⟩ := Node.takes_processAt s.bench.context.config n.typeName htidy haccounts
  have hrises := htakes.rises haccounts
  rwa [← Node.process, ← htextures] at hrises

theorem Sound.rises_prepare (h : s.Sound) {id : String} {g : Graph}
    (hg : s.bench.graphs.get? id = some g) :
    s.textures.Rises (s.step (.act (.prepare id))).textures fun name =>
      Node.passed name g.root.nodes
        (g.prepare s.bench.context.config s.textures).1.root.nodes := by
  obtain ⟨-, htextures⟩ := Workbench.after_prepare hg
  obtain ⟨htidy, besides, haccounts⟩ := h.orderly.exists_besides (node?_graph hg)
  rw [← Node.handles_validate] at haccounts
  obtain ⟨-, htakes⟩ := Node.takes_processAt s.bench.context.config g.root.validate.typeName
    htidy.validate haccounts
  have hrises := htakes.rises haccounts
  simp only [Node.passed_validate] at hrises
  change s.textures.Rises (Workbench.after (Workbench.prepare id) s.bench).textures _
  rw [htextures]
  exact hrises

/-- What a graph gives back as it lends its root is all that it held. -/
theorem Sound.rises_lend (h : s.Sound) {id : String} {g : Graph}
    (hg : s.bench.graphs.get? id = some g) :
    (s.step (.act (.lend id))).textures.Rises s.textures g.root.holders := by
  obtain ⟨-, htextures⟩ := Workbench.after_lend hg
  obtain ⟨-, besides, haccounts⟩ := h.orderly.exists_besides (node?_graph hg)
  change (Workbench.after (Workbench.rootToEdit (.graph id)) s.bench).textures.Rises s.textures _
  rw [htextures, funext (Node.holders_eq g.root)]
  exact haccounts.rises_of_releaseAll

/-- Without trees and direct handles a registered texture counts none. -/
theorem Sound.refs?_eq_zero (h : s.Sound) (htrees : s.trees = []) (hheld : s.held = [])
    {name : String} (hname : name ∈ s.textures.names) : s.textures.refs? name = some 0 := by
  rw [h.refs?_eq hname, holders, direct, htrees, hheld]
  rfl

theorem Sound.balanced (h : s.Sound) : s.Balanced := by
  constructor
  case refs?_eq => exact fun name hname => h.refs?_eq hname
  case current => exact fun k hk => h.accounts.registers_of_mem hk
  case process => exact fun t lent n hn => ⟨(Workbench.after_process hn).1, h.rises_process hn⟩
  case prepare => exact fun id g hg => ⟨(Workbench.after_prepare hg).1, h.rises_prepare hg⟩
  case lend =>
    exact fun id g hg =>
      ⟨(Workbench.after_lend hg).1, Node.holders_reset g.root, h.rises_lend hg⟩
  case clear =>
    intro order horder s'
    have hnone : ∀ i, ¬ s'.Has i := by
      intro i hi
      obtain ⟨hs, hnot⟩ := Has.of_drops hi
      exact hnot (horder i hs)
    obtain ⟨htrees, hheld⟩ := eq_nil_of_not_has hnone
    have hnames : s'.textures.names = s.textures.names := names_drops s order
    refine ⟨htrees, hheld, hnames, fun name hname => ?_⟩
    exact (h.run (order.map Item.drop)).refs?_eq_zero htrees hheld (hnames.symm ▸ hname)

/-- **The books are balanced after every run**, whatever its steps and their order. -/
theorem balanced_run (context : Context) (hregistry : context.registry.Fresh) (steps : List Step) :
    ((new context).run steps).Balanced :=
  ((sound_new hregistry).run steps).balanced

/-- A texture with a handle held directly and one in a tree, prepared twice. -/
def glance : List Step :=
  [.call (.create "wood" (.solid .zero)), .call (.find "wood" "h"),
    .act (.build "a" (.mk (.kind .imageTexture) [("Texture", "wood")] [])),
    .act (.process ⟨.node "a", []⟩ false), .act (.process ⟨.node "a", []⟩ false)]

theorem balanced_glance :
    let s := (new ⟨.builtin, .standard⟩).run glance
    s.Balanced ∧ s.textures.refs? "wood" = some 2 := by
  intro s
  exact ⟨balanced_run ⟨.builtin, .standard⟩ Registry.fresh_builtin glance, rfl⟩

end Studio

end ShadeTree
