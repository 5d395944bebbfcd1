import ShadeTree.Proofs.Effect
import ShadeTree.Proofs.Preparing

/-!
# Graphs that lend their root

A graph lends its root to be edited, and is reset as it does so. The edits put in and take out what
was never prepared, so the tree that comes back is fresh, whatever was found out about the graph
before: in any earlier preparation, with any textures, under any configuration.

The main statement is `forgetful_run`: after any steps a graph has no memory of them
(`Forgetful`). It counts as valid only if it is; from a loan until it is validated or prepared it
shades as one lobe of the default colour; prepared for the first time after a loan it comes out like
a new graph of the same design; and what is prepared stays as it is until the next loan.
-/

namespace ShadeTree

namespace Node

/-! ### Fresh trees -/

theorem Fresh.withSocket {n : Node} (hn : n.Fresh) {s : Socket Node}
    (hs : ∀ c, s.node? = some c → c.Fresh) : (n.withSocket s).Fresh :=
  forall_nodes_withSocket (fun _ _ h => h) hn hs

theorem Fresh.of_plugged {n c : Node} (hn : n.Fresh) {name : String} {s : Socket Node}
    (hs : n.socket? name = some s) (hc : s.node? = some c) : c.Fresh :=
  forall_nodes_plugged hn hs hc

/-! ### Edits -/

/-- A change of one socket of a node. What is plugged in was never prepared. -/
inductive Change where
  | setLiteral (socket text : String)
  | connect (socket : String) (child : Node) (fresh : child.Fresh)
  | disconnect (socket : String)

/-- The node with a change made to it, and what was plugged in there. -/
def change? (n : Node) : Change → Option (Node × Option Node)
  | .setLiteral socket text => (n.setLiteral socket text).map fun (n, _, old) => (n, old)
  | .connect socket child _ => n.connect socket child
  | .disconnect socket => n.disconnect socket

/-- A change of the node at a path. -/
structure Edit where
  path : List String
  change : Change

/-- The tree after an edit, and what came out of it. An edit that fails leaves the tree. -/
def edit (n : Node) (e : Edit) : Node × Option Node :=
  match (n.at? e.path).bind (·.change? e.change) with
  | some (m, old) => (n.putAt m e.path, old)
  | none => (n, none)

/-- The tree after edits, one after the other, and what came out of it. -/
def edits (n : Node) : List Edit → Node × List Node
  | [] => (n, [])
  | e :: rest =>
    let (n, old) := n.edit e
    let (n, olds) := n.edits rest
    (n, old.toList ++ olds)

/-- A change puts one socket in the place of another, and takes out what that one held. -/
theorem change?_eq_some {n n' : Node} {change : Change} {old : Option Node}
    (h : n.change? change = some (n', old)) :
    ∃ s s', n.socket? s.name = some s ∧ n' = n.withSocket s' ∧ old = s.node? ∧
      ∀ c, s'.node? = some c → c.Fresh := by
  cases change with
  | setLiteral socket text =>
    simp only [change?, Node.setLiteral, Option.map_map, Option.map_eq_some_iff] at h
    obtain ⟨s, hs, heq⟩ := h
    obtain ⟨rfl, rfl⟩ := Prod.mk.inj heq
    refine ⟨s, _, name_of_socket? hs ▸ hs, rfl, rfl, fun c hc => ?_⟩
    rw [s.node?_setLiteral] at hc
    cases hc
  | connect socket child fresh =>
    simp only [change?, Node.connect, Option.map_eq_some_iff] at h
    obtain ⟨s, hs, heq⟩ := h
    obtain ⟨rfl, rfl⟩ := Prod.mk.inj heq
    refine ⟨s, _, name_of_socket? hs ▸ hs, rfl, rfl, fun c hc => ?_⟩
    obtain rfl : child = c := Option.some.inj hc
    exact fresh
  | disconnect socket =>
    simp only [change?, Node.disconnect, Option.map_eq_some_iff] at h
    obtain ⟨s, hs, heq⟩ := h
    obtain ⟨rfl, rfl⟩ := Prod.mk.inj heq
    refine ⟨s, _, name_of_socket? hs ▸ hs, rfl, rfl, fun c hc => ?_⟩
    rw [s.node?_disconnect] at hc
    cases hc

/-- A fresh tree is fresh after an edit, and so is what came out of it. -/
theorem Fresh.edit {n : Node} (hn : n.Fresh) (e : Edit) :
    (n.edit e).1.Fresh ∧ ∀ m ∈ (n.edit e).2, m.Fresh := by
  rw [Node.edit]
  split
  · rename_i m old h
    obtain ⟨l, hl, hchange⟩ := Option.bind_eq_some_iff.mp h
    obtain ⟨s, s', hs, rfl, rfl, hplugged⟩ := change?_eq_some hchange
    have hfresh : l.Fresh := forall_nodes_at? hn hl
    exact ⟨forall_nodes_putAt (fun _ _ h => h) hn (hfresh.withSocket hplugged) e.path,
      fun m hm => hfresh.of_plugged hs hm⟩
  · exact ⟨hn, fun m hm => nomatch hm⟩

theorem Fresh.edits {n : Node} (hn : n.Fresh) (es : List Edit) :
    (n.edits es).1.Fresh ∧ ∀ m ∈ (n.edits es).2, m.Fresh := by
  induction es generalizing n with
  | nil => exact ⟨hn, fun m hm => absurd hm List.not_mem_nil⟩
  | cons e rest ih =>
    obtain ⟨hedit, hold⟩ := hn.edit e
    obtain ⟨hedits, holds⟩ := ih hedit
    refine ⟨hedits, fun m hm => ?_⟩
    rcases List.mem_append.mp hm with hm | hm
    · exact hold m (Option.mem_toList.mp hm)
    · exact holds m hm

theorem putAt_eq_of_at? {n m : Node} {path : List String} (h : n.at? path = some m) {new : Node}
    (hnew : new = { m with sockets := new.sockets }) :
    n.putAt new path = { n with sockets := (n.putAt new path).sockets } := by
  cases path with
  | nil =>
    obtain rfl := Option.some.inj h
    exact hnew
  | cons name path =>
    obtain ⟨child, hchild, -⟩ := Option.bind_eq_some_iff.mp h
    obtain ⟨s, hs, hnode⟩ := Option.bind_eq_some_iff.mp hchild
    rw [putAt_cons hs hnode]
    rfl

/-- Of the root an edit changes nothing but the sockets. -/
theorem edit_fst (n : Node) (e : Edit) :
    (n.edit e).1 = { n with sockets := (n.edit e).1.sockets } := by
  rw [edit]
  split
  · rename_i m old h
    obtain ⟨l, hl, hchange⟩ := Option.bind_eq_some_iff.mp h
    obtain ⟨s, s', -, rfl, -⟩ := change?_eq_some hchange
    exact putAt_eq_of_at? hl rfl
  · cases n
    rfl

theorem edits_fst (n : Node) (es : List Edit) :
    (n.edits es).1 = { n with sockets := (n.edits es).1.sockets } := by
  induction es generalizing n with
  | nil =>
    cases n
    rfl
  | cons e rest ih =>
    have hrest : (n.edits (e :: rest)).1 = ((n.edit e).1.edits rest).1 := rfl
    rw [hrest, ih, edit_fst]

/-! ### Invalid outputs -/

theorem compose_of_invalid {n : Node} (hkind : n.kind = .output) (hvalid : n.valid = false)
    (p : ShadingPoint) {weight : Spectrum} (hweight : weight.isBlack = false) (bsdf : Bsdf) :
    n.compose p weight bsdf = bsdf.add (.lambert (fallbackColor n.prepared)) weight := by
  obtain ⟨kind, _, _, valid, _, _, _, _⟩ := n
  obtain rfl : kind = .output := hkind
  obtain rfl : valid = false := hvalid
  simp only [compose, hweight, Bool.false_eq_true, if_false]

/-- Whether a tree is valid is a matter of the tree. -/
theorem rule_congr {a b : Node} (h : a.reset = b.reset) :
    a.Accepting ∧ a.Surfaced ↔ b.Accepting ∧ b.Surfaced := by
  rw [← accepting_reset_iff, ← surfaced_reset_iff, h, accepting_reset_iff, surfaced_reset_iff]

end Node

open Node (Edit Everywhere SameDesign)

namespace Graph

/-! ### Steps -/

/-- Where a graph comes from. -/
inductive Origin where
  | new
  | described (ctx : Context) (desc : GraphDesc)

/-- The graph at its start. -/
def ofOrigin : Origin → Graph
  | .new => .new
  | .described ctx desc => (ofDesc ctx desc).1

/-- What is done with a graph, each time with textures and a configuration of its own. -/
inductive Step where
  /-- The graph lends its root, and edits are made to it. -/
  | lend (textures : Pool Image) (edits : List Edit)
  | check
  | process (config : Config) (textures : Pool Image)
  | prepare (config : Config) (textures : Pool Image)

/-- The graph as it lent its root, with edits made to it, and what came out of it. -/
def lend (g : Graph) (textures : Pool Image) (edits : List Edit) : Graph × List Node :=
  let lent := (g.withdraw textures).1
  let (root, out) := lent.root.edits edits
  ({ lent with root := root }, out)

/-- The graph after a step. -/
def step (g : Graph) : Step → Graph
  | .lend textures edits => (g.lend textures edits).1
  | .check => { g with root := g.root.validate }
  | .process config textures => { g with root := (g.root.process config textures).1 }
  | .prepare config textures => (g.prepare config textures).1

/-- The graph after steps, one after the other. -/
def run (g : Graph) (steps : List Step) : Graph := steps.foldl step g

/-- The step is no loan. -/
def Step.Keeps : Step → Prop
  | .lend _ _ => False
  | _ => True

/-! ### Loans -/

theorem root_lend (g : Graph) (textures : Pool Image) (edits : List Edit) :
    (g.lend textures edits).1.root = (g.root.reset.edits edits).1 := rfl

/-- What is lent, and what comes out of it, is fresh. -/
theorem fresh_lend (g : Graph) (textures : Pool Image) (edits : List Edit) :
    (g.lend textures edits).1.root.Fresh ∧ ∀ m ∈ (g.lend textures edits).2, m.Fresh :=
  (Node.fresh_reset g.root).edits edits

theorem root_lend_eq (g : Graph) (textures : Pool Image) (edits : List Edit) :
    (g.lend textures edits).1.root =
      { Node.reset g.root with sockets := (g.lend textures edits).1.root.sockets } := by
  rw [root_lend, Node.edits_fst]

/-! ### Checks and preparations -/

/-- Checks have no part in what the next check finds. -/
theorem validate_run_checks (g : Graph) {checks : List Step} (h : ∀ s ∈ checks, s = .check) :
    (g.run checks).root.validate = g.root.validate := by
  induction checks generalizing g with
  | nil => rfl
  | cons s rest ih =>
    obtain ⟨rfl, hrest⟩ := List.forall_mem_cons.mp h
    exact (ih _ hrest).trans (Node.validate_validate g.root)

theorem prepare_congr {g k : Graph} (h : g.root.validate = k.root.validate) (config : Config)
    (textures : Pool Image) :
    (g.prepare config textures).1.root = (k.prepare config textures).1.root ∧
      (g.prepare config textures).2 = (k.prepare config textures).2 := by
  simp only [prepare, h, and_self]

/-- The graph is validated and prepared, and stands by what was found. -/
structure Settled (g : Graph) : Prop where
  processed : g.root.processed = true
  validate_eq : g.root.validate = g.root

theorem settled_prepare (g : Graph) (config : Config) (textures : Pool Image) :
    (g.prepare config textures).1.Settled :=
  ⟨Node.processed_processAt config _ g.root.validate textures,
    Node.validate_prepared config g.root textures⟩

theorem Settled.process {g : Graph} (h : g.Settled) (config : Config) (textures : Pool Image) :
    g.root.process config textures = (g.root, textures, []) :=
  Node.process_of_processed h.processed config textures

theorem Settled.prepare {g : Graph} (h : g.Settled) (config : Config) (textures : Pool Image) :
    g.prepare config textures = (g, textures, []) := by
  simp only [Graph.prepare, h.validate_eq, h.process]

theorem Settled.step {g : Graph} (h : g.Settled) {s : Step} (hs : s.Keeps) : g.step s = g := by
  cases s with
  | lend textures edits => exact hs.elim
  | check => simp only [Graph.step, h.validate_eq]
  | process config textures => simp only [Graph.step, h.process]
  | prepare config textures => simp only [Graph.step, h.prepare]

theorem Settled.run {g : Graph} (h : g.Settled) {steps : List Step} (hs : ∀ s ∈ steps, s.Keeps) :
    g.run steps = g := by
  induction steps with
  | nil => rfl
  | cons s rest ih =>
    obtain ⟨hs, hrest⟩ := List.forall_mem_cons.mp hs
    rw [Graph.run, List.foldl_cons, h.step hs]
    exact ih hrest

/-! ### What every step keeps -/

/-- The root is an output, and it counts as valid only if it is. -/
structure Grounded (g : Graph) : Prop where
  kind_eq : g.root.kind = .output
  sound : g.root.valid = true → g.root.Accepting ∧ g.root.Surfaced

theorem grounded_new : new.Grounded := ⟨rfl, fun h => nomatch h⟩

theorem root_ofDesc_eq (ctx : Context) (desc : GraphDesc) :
    (ofDesc ctx desc).1.root =
      { Node.new .output with sockets := (ofDesc ctx desc).1.root.sockets } := by
  have hroot : (ofDesc ctx desc).1.root = (Node.new .output).setLinks _ :=
    Assembly.node_fill ctx desc.templates _ _ _ _
  rw [hroot, Node.setLinks_eq]

theorem grounded_ofOrigin (o : Origin) : (ofOrigin o).Grounded := by
  cases o with
  | new => exact grounded_new
  | described ctx desc =>
    have hroot := root_ofDesc_eq ctx desc
    refine ⟨?_, fun hvalid => ?_⟩
    · rw [ofOrigin, hroot]
      rfl
    · rw [ofOrigin, hroot] at hvalid
      cases hvalid

variable {g : Graph}

theorem Grounded.lend (h : g.Grounded) (textures : Pool Image) (edits : List Edit) :
    (g.lend textures edits).1.Grounded := by
  refine ⟨?_, fun hvalid => ?_⟩
  · rw [root_lend_eq, Node.kind_reset]
    exact h.kind_eq
  · rw [root_lend_eq, Node.reset_eq] at hvalid
    cases hvalid

theorem Grounded.check (h : g.Grounded) : (g.step .check).Grounded := by
  refine ⟨(Node.kind_validate g.root).trans h.kind_eq, fun hvalid => ?_⟩
  exact (Node.rule_congr (Node.reset_validate g.root)).mpr ((Node.valid_validate_iff _).mp hvalid)

theorem Grounded.process (h : g.Grounded) (config : Config) (textures : Pool Image) :
    (g.step (.process config textures)).Grounded := by
  have hreset : (g.root.process config textures).1.reset = g.root.reset :=
    Node.reset_process config g.root textures
  refine ⟨(Node.reset_eq_reset_iff.mp hreset).1.trans h.kind_eq, fun hvalid => ?_⟩
  refine (Node.rule_congr hreset).mpr (h.sound ?_)
  rwa [step, Node.process, Node.valid_processAt] at hvalid

theorem Grounded.step (h : g.Grounded) (s : Step) : (g.step s).Grounded := by
  cases s with
  | lend textures edits => exact h.lend textures edits
  | check => exact h.check
  | process config textures => exact h.process config textures
  | prepare config textures => exact h.check.process config textures

theorem Grounded.run (h : g.Grounded) (steps : List Step) : (g.run steps).Grounded := by
  induction steps generalizing g with
  | nil => exact h
  | cons s rest ih => exact ih (h.step s)

/-! ### Without memory -/

/-- A graph has no memory of what was done with it. -/
structure Forgetful (g : Graph) : Prop where
  /-- It counts as valid only if every socket accepts what is plugged in and the output scatters. -/
  sound : g.root.valid = true → g.root.Accepting ∧ g.root.Surfaced
  /-- What is lent was never prepared, nor was what edits take out of it. -/
  fresh : ∀ textures edits, (g.lend textures edits).1.root.Fresh ∧
    ∀ m ∈ (g.lend textures edits).2, m.Fresh
  /-- After a loan it adds one lobe of the default colour. -/
  fallback : ∀ textures edits p weight bsdf, weight.isBlack = false →
    (g.step (.lend textures edits)).root.compose p weight bsdf =
      bsdf.add (.lambert unpreparedFallback) weight
  /-- Prepared after a loan, and after any checks, it comes out like a graph of the same design that
  was never prepared: the same tree, with the same handles taken and the same report. -/
  afresh : ∀ textures edits checks (built : Graph), (∀ s ∈ checks, s = Step.check) →
    built.root.Fresh →
    let lent := g.step (.lend textures edits)
    Everywhere SameDesign lent.root built.root → ∀ config pool,
      ((lent.run checks).prepare config pool).1.root = (built.prepare config pool).1.root ∧
        ((lent.run checks).prepare config pool).2 = (built.prepare config pool).2
  /-- Once it is prepared nothing but a loan changes it, and to prepare it again takes no handle and
  has nothing to tell. -/
  settled : ∀ config pool steps, (∀ s ∈ steps, Step.Keeps s) →
    let prepared := (g.prepare config pool).1
    prepared.run steps = prepared ∧
      ∀ config' pool', prepared.prepare config' pool' = (prepared, pool', [])

theorem Grounded.forgetful (h : g.Grounded) : g.Forgetful where
  sound := h.sound
  fresh := g.fresh_lend
  fallback textures edits p weight bsdf hweight := by
    have hroot := root_lend_eq g textures edits
    rw [Node.reset_eq] at hroot
    have hvalid : (g.lend textures edits).1.root.valid = false := by rw [hroot]
    have hprepared : (g.lend textures edits).1.root.prepared = .none := by rw [hroot]
    have hlobe := Node.compose_of_invalid (h.lend textures edits).kind_eq hvalid p hweight bsdf
    rwa [hprepared] at hlobe
  afresh := by
    intro textures edits checks built hchecks hbuilt lent hdesign config pool
    have hfresh : lent.root.Fresh := (g.fresh_lend textures edits).1
    have hchecked : (lent.run checks).root.validate = lent.root.validate :=
      lent.validate_run_checks hchecks
    obtain ⟨hroot, hrest⟩ := prepare_congr hchecked config pool
    have hsame := hfresh.prepare_congr hbuilt hdesign config pool
    rw [hroot, hrest]
    simp only [Graph.prepare, hsame, and_self]
  settled config pool _ hsteps :=
    ⟨(g.settled_prepare config pool).run hsteps, (g.settled_prepare config pool).prepare⟩

/-- **Edited graphs have no memory**: whatever a graph was made from and whatever was done with it,
it counts as valid only if it is, every loan leaves nothing of what was found out about it, and what
is prepared stays until the next loan. -/
theorem forgetful_run (o : Origin) (steps : List Step) : ((ofOrigin o).run steps).Forgetful :=
  ((grounded_ofOrigin o).run steps).forgetful

end Graph

end ShadeTree
