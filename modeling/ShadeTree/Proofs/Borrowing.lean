import ShadeTree.Proofs.Lending
import ShadeTree.Proofs.Studio

/-!
# Graphs on a workbench

A workbench edits a graph by commands. A command builds what it plugs in, makes the edit, and keeps
or lets go of what came out, and it may fail anywhere on the way. Several may go by way of a root
that a graph has lent once, with others about other things in between. This module shows that to the
graph all this is steps as the graph knows them (`Graph.Step`).

`CarriesOut` tells which actions carry out which steps of the graph of a name: an edit by itself is a
loan, and all the edits by way of a root that is lent are one. The main statement is
`CarriesOut.get?_acts`: the actions leave the graph as the steps do. So a graph has no memory of what
was done with it since it was put on the workbench (`forgetful_acts`).
-/

namespace ShadeTree

open Node (Edit)

/-! ### Edits one after the other -/

theorem Node.edits_concat (n : Node) (es : List Edit) (e : Edit) :
    (n.edits (es ++ [e])).1 = ((n.edits es).1.edit e).1 := by
  induction es generalizing n with
  | nil => rfl
  | cons first rest ih => exact ih (n.edit first).1

namespace Graph

variable (g : Graph)

theorem run_concat (steps : List Step) (s : Step) : g.run (steps ++ [s]) = (g.run steps).step s :=
  List.foldl_concat ..

theorem step_lend (textures : Pool Image) (es : List Edit) :
    g.step (.lend textures es) = { g with root := (g.root.reset.edits es).1 } := rfl

/-- An edit of what is lent is one more edit of the loan. -/
theorem step_lend_concat (textures : Pool Image) (es : List Edit) (e : Edit) :
    g.step (.lend textures (es ++ [e])) =
      { g.step (.lend textures es) with
        root := ((g.step (.lend textures es)).root.edit e).1 } := by
  rw [step_lend, Node.edits_concat, step_lend]

end Graph

namespace Workbench

variable {β γ : Type} {w w' : Workbench} {id : String} {g : Graph} {g? : Option Graph}

/-! ### What a command leaves of a graph -/

/-- However the command ends, this is the graph of the name then. -/
def Leaves (id : String) (g? : Option Graph) (c : Command β) (w : Workbench) : Prop :=
  Ends c w (fun _ w' => w'.graphs.get? id = g?) fun w' => w'.graphs.get? id = g?

/-- However the command ends, the graph of the name is what it was. -/
def Ignores (id : String) (c : Command β) : Prop := ∀ w, Leaves id (w.graphs.get? id) c w

theorem Leaves.after {c : Command β} (h : Leaves id g? c w) : (after c w).graphs.get? id = g? :=
  Ends.after (P := fun w' => w'.graphs.get? id = g?) h

theorem Leaves.bind {c : Command β} {f : β → Command γ} (hc : Leaves id g? c w)
    (hf : ∀ b, Ignores id (f b)) : Leaves id g? (c >>= f) w :=
  Ends.bind hc fun b w' hw' => hw' ▸ hf b w'

theorem Leaves.tryCatch {c : Command β} {f : Fault → Command β} (hc : Leaves id g? c w)
    (hf : ∀ e, Ignores id (f e)) : Leaves id g? (tryCatch c f) w :=
  Ends.tryCatch hc fun e w' hw' => hw' ▸ hf e w'

section Ignores

variable {c : Command β}

theorem Ignores.bind {f : β → Command γ} (hc : Ignores id c) (hf : ∀ b, Ignores id (f b)) :
    Ignores id (c >>= f) :=
  fun w => (hc w).bind hf

theorem Ignores.tryCatch {f : Fault → Command β} (hc : Ignores id c)
    (hf : ∀ e, Ignores id (f e)) : Ignores id (tryCatch c f) :=
  fun w => (hc w).tryCatch hf

theorem ignores_pure (b : β) : Ignores id (pure b) := fun _ => rfl

theorem ignores_throw (e : Fault) : Ignores id (throw e : Command β) := fun _ => rfl

theorem ignores_get : Ignores id (get : Command Workbench) := fun _ => rfl

theorem ignores_modify {f : Workbench → Workbench}
    (h : ∀ w, (f w).graphs.get? id = w.graphs.get? id) : Ignores id (modify f : Command Unit) :=
  fun w => h w

theorem ignores_require (fault : Fault) (b? : Option β) : Ignores id (require fault b?) := by
  cases b? with
  | none => exact ignores_throw fault
  | some b => exact ignores_pure b

theorem Ignores.get?_eq (hc : Ignores id c) {r : Except Fault β} (h : perform c w = (r, w')) :
    w'.graphs.get? id = w.graphs.get? id := by
  have hends := hc w
  rw [Leaves, Ends, h] at hends
  cases r with
  | ok b => exact hends
  | error e => exact hends

end Ignores

/-! ### Commands about other things -/

theorem ignores_letGo (ns : List Node) : Ignores id (letGo ns) := ignores_modify fun _ => rfl

theorem ignores_giveUp (ns : List Node) (e : Fault) :
    Ignores id (letGo ns >>= fun _ => throw e : Command β) :=
  (ignores_letGo ns).bind fun _ => ignores_throw e

theorem ignores_obtain (source : Source) : Ignores id (obtain source) := by
  cases source with
  | kind k => exact ignores_pure _
  | type name => exact ignores_get.bind fun _ => ignores_require _ _
  | take key =>
    refine ignores_get.bind fun _ => (ignores_require _ _).bind fun n => ?_
    exact (ignores_modify fun _ => rfl).bind fun _ => ignores_pure n

theorem ignores_setAll (n : Node) (literals : List (String × String)) :
    Ignores id (setAll n literals) := by
  induction literals generalizing n with
  | nil => exact ignores_pure n
  | cons entry rest ih =>
    obtain ⟨socket, text⟩ := entry
    rw [setAll]
    cases n.setLiteral socket text with
    | none => exact ignores_giveUp _ _
    | some result => exact (ignores_letGo _).bind fun _ => ih _

theorem ignores_plug (n : Node) (socket : String) (child : Node) :
    Ignores id (plug n socket child) := by
  rw [plug]
  cases n.connect socket child with
  | none => exact ignores_giveUp _ _
  | some result => exact (ignores_letGo _).bind fun _ => ignores_pure _

mutual

theorem ignores_build (b : Blueprint) : Ignores id (build b) :=
  match b with
  | .mk source literals plugs => by
    rw [build]
    exact (ignores_obtain source).bind fun n => (ignores_setAll n literals).bind fun n =>
      ignores_plugAll n plugs

theorem ignores_plugAll (n : Node) (plugs : List (String × Blueprint)) :
    Ignores id (plugAll n plugs) :=
  match plugs with
  | [] => by
    rw [plugAll]
    exact ignores_pure n
  | (socket, b) :: rest => by
    rw [plugAll]
    exact ((ignores_build b).tryCatch (ignores_giveUp [n])).bind fun child =>
      (ignores_plug n socket child).bind fun n => ignores_plugAll n rest

end

theorem ignores_place (key : String) (n : Node) : Ignores id (place key n) :=
  ignores_get.bind fun _ => (ignores_letGo _).bind fun _ => ignores_modify fun _ => rfl

theorem ignores_keep (old : Option Node) (into : Option String) : Ignores id (keep old into) := by
  cases old with
  | none => exact ignores_pure none
  | some n =>
    cases into with
    | none => exact (ignores_letGo [n]).bind fun _ => ignores_pure _
    | some key => exact (ignores_place key n).bind fun _ => ignores_pure _

theorem ignores_root (owner : Owner) : Ignores id (root owner) := by
  cases owner with
  | node key => exact ignores_get.bind fun _ => ignores_require _ _
  | graph key => exact ignores_get.bind fun _ => ignores_require _ _

theorem ignores_withdraw (n : Node) : Ignores id (withdraw n) := fun _ => rfl

theorem ignores_settle (n : Node) : Ignores id (settle n) := fun _ => rfl

theorem ignores_putRoot {owner : Owner} (h : owner ≠ .graph id) (n : Node) :
    Ignores id (putRoot owner n) := by
  cases owner with
  | node key => exact ignores_modify fun _ => rfl
  | graph key =>
    have hkey : id ≠ key := fun heq => h (heq ▸ rfl)
    refine ignores_modify fun w => ?_
    cases w.graphs.get? key with
    | none => rfl
    | some k => exact (Named.get?_put w.graphs key id _).trans (if_neg hkey)

theorem ignores_rootToEdit {owner : Owner} (h : owner ≠ .graph id) :
    Ignores id (rootToEdit owner) := by
  refine (ignores_root owner).bind fun n => ?_
  cases owner with
  | node key => exact ignores_pure n
  | graph key =>
    exact (ignores_withdraw n).bind fun n => (ignores_putRoot h n).bind fun _ => ignores_pure n

section Targets

variable {t : Target} (ht : t.owner ≠ .graph id) {f : Node → Command (Node × β)}
  (hf : ∀ n, Ignores id (f n))

include ht hf

theorem ignores_amend (whole : Node) : Ignores id (amend t whole f) := by
  refine (ignores_require _ _).bind fun n => (hf n).bind fun result => ?_
  exact (ignores_putRoot ht _).bind fun _ => ignores_pure _

theorem ignores_edit (lent : Bool) : Ignores id (edit t f lent) := by
  cases lent with
  | true => exact (ignores_root t.owner).bind fun whole => ignores_amend ht hf whole
  | false => exact (ignores_rootToEdit ht).bind fun whole => ignores_amend ht hf whole

theorem ignores_change (lent : Bool) : Ignores id (change t f lent) := by
  have howner : (toPrepare t lent).owner = t.owner := by
    obtain ⟨owner, path⟩ := t
    cases owner <;> cases lent <;> rfl
  exact (ignores_root _).bind fun whole => ignores_amend (howner ▸ ht) hf whole

end Targets

theorem ignores_placeGraph {key : String} (h : key ≠ id) (k : Graph) :
    Ignores id (placeGraph key k) := by
  refine ignores_get.bind fun _ => (ignores_letGo _).bind fun _ => ignores_modify fun w => ?_
  exact (Named.get?_put w.graphs key id k).trans (if_neg h.symm)

theorem ignores_prepare {key : String} (h : key ≠ id) : Ignores id (prepare key) := by
  refine fun w => ends_get_bind (ends_require_bind (fun k _ => ?_) rfl)
  refine ends_modify_bind (ends_pure ?_)
  exact (Named.get?_put w.graphs key id _).trans (if_neg h.symm)

theorem ignores_discard {owner : Owner} (h : owner ≠ .graph id) : Ignores id (discard owner) := by
  cases owner with
  | node key => exact fun _ => rfl
  | graph key =>
    have hkey : id ≠ key := fun heq => h (heq ▸ rfl)
    exact fun w => ends_get_bind (ends_modify_bind (ends_modify_bind (ends_pure
      (Named.get?_erase_of_ne w.graphs hkey))))

end Workbench

/-! ### Actions about other things -/

/-- The action is about something else than the graph of a name. -/
def Action.Ignores (id : String) : Action → Prop
  | .build _ _ | .configure _ => True
  | .newGraph key | .loadGraph key _ | .lend key | .prepare key => key ≠ id
  | .setLiteral t _ _ _ | .connect t _ _ _ _ | .disconnect t _ _ _ | .assemble t _ _ _ |
      .infer t _ | .check t _ | .process t _ | .reset t _ => t.owner ≠ .graph id
  | .discard owner => owner ≠ .graph id

namespace Workbench

variable {β : Type} {w w' : Workbench} {id : String} {g : Graph}

theorem get?_act_of_ignores {a : Action} (h : a.Ignores id) (w : Workbench) :
    (w.act a).graphs.get? id = w.graphs.get? id := by
  cases a with
  | build key b =>
    have hbuild : Ignores id (buildAs key b) := (ignores_build b).bind fun n =>
      (ignores_place key n).bind fun _ => ignores_pure n
    exact (hbuild w).after
  | newGraph key => exact (ignores_placeGraph h .new w).after
  | loadGraph key desc =>
    have hload : Ignores id (loadGraph key desc) := ignores_get.bind fun _ =>
      (ignores_placeGraph h _).bind fun _ => ignores_pure _
    exact (hload w).after
  | setLiteral t socket text lent =>
    have hset : Ignores id (setLiteral t socket text lent) :=
      (ignores_edit h (fun _ => ignores_require _ _) lent).bind fun _ =>
        (ignores_letGo _).bind fun _ => ignores_pure _
    exact (hset w).after
  | connect t socket b into lent =>
    have hreplace : Ignores id (replace t socket b into lent) :=
      (ignores_build b).bind fun child =>
        ((ignores_edit h (fun _ => ignores_require _ _) lent).tryCatch
          (ignores_giveUp [child])).bind fun old => ignores_keep old into
    exact (hreplace w).after
  | disconnect t socket into lent =>
    have hdisconnect : Ignores id (disconnect t socket into lent) :=
      (ignores_edit h (fun _ => ignores_require _ _) lent).bind fun old => ignores_keep old into
    exact (hdisconnect w).after
  | assemble t desc templates lent =>
    have hassemble : Ignores id (assemble t desc templates lent) :=
      ignores_get.bind fun _ => (ignores_edit h (fun _ => ignores_pure _) lent).bind fun _ =>
        (ignores_letGo _).bind fun _ => ignores_pure _
    exact (hassemble w).after
  | infer t lent => exact (ignores_edit h (fun _ => ignores_pure _) lent w).after
  | check t lent => exact (ignores_change h (fun _ => ignores_pure _) lent w).after
  | process t lent => exact (ignores_change h ignores_settle lent w).after
  | reset t lent =>
    have hreset : ∀ n, Ignores id
        (withdraw n >>= fun n => pure (n, ()) : Command (Node × Unit)) := fun n =>
      (ignores_withdraw n).bind fun _ => ignores_pure _
    exact (ignores_edit h hreset lent w).after
  | lend key =>
    have howner : Owner.graph key ≠ .graph id := fun heq => h (Owner.graph.inj heq)
    exact (ignores_rootToEdit howner w).after
  | prepare key => exact (ignores_prepare h w).after
  | discard owner => exact (ignores_discard h w).after
  | configure config => rfl

/-! ### Actions on a graph -/

/-- What actions leave, one after the other. -/
def acts (w : Workbench) (actions : List Action) : Workbench := actions.foldl act w

theorem acts_concat (w : Workbench) (actions : List Action) (a : Action) :
    w.acts (actions ++ [a]) = (w.acts actions).act a :=
  List.foldl_concat ..

/-- An action makes an edit to the graph of a name, by way of a root that is lent or by itself. What
it plugs in was never prepared, and it has been built on the workbench by then. -/
inductive Makes (w : Workbench) (id : String) : Action → Bool → Workbench → Edit → Prop where
  | setLiteral (path : List String) (socket text : String) (lent : Bool) :
      Makes w id (.setLiteral ⟨.graph id, path⟩ socket text lent) lent w
        ⟨path, .setLiteral socket text⟩
  | connect {b : Blueprint} {child : Node} {w' : Workbench} (path : List String) (socket : String)
      (into : Option String) (lent : Bool) (hbuild : perform (build b) w = (.ok child, w'))
      (fresh : child.Fresh) :
      Makes w id (.connect ⟨.graph id, path⟩ socket b into lent) lent w'
        ⟨path, .connect socket child fresh⟩
  | disconnect (path : List String) (socket : String) (into : Option String) (lent : Bool) :
      Makes w id (.disconnect ⟨.graph id, path⟩ socket into lent) lent w ⟨path, .disconnect socket⟩

section Edited

variable {e : Edit} {f? : Node → Option (Node × β)}

/-- To amend the root of a graph is to make an edit to it. -/
theorem leaves_amend (hf : ∀ n, (f? n).map Prod.fst = (n.change? e.change).map Prod.fst)
    (hg : w.graphs.get? id = some g) :
    Leaves id (some { g with root := (g.root.edit e).1 })
      (amend ⟨.graph id, e.path⟩ g.root fun n => require .noSuchSocket (f? n)) w := by
  have hleft (h : (g.root.at? e.path).bind (·.change? e.change) = none) :
      w.graphs.get? id = some { g with root := (g.root.edit e).1 } := by
    rw [Node.edit, h, hg]
  cases hat : g.root.at? e.path with
  | none =>
    rw [hat] at hleft
    refine ends_require_bind (fun n hn => ?_) (hleft rfl)
    rw [hat] at hn
    cases hn
  | some n =>
    rw [hat, Option.bind_some] at hleft
    have hchange := hf n
    refine ends_require_bind_some hat ?_
    cases hfn : f? n with
    | none =>
      rw [hfn, Option.map_none, eq_comm, Option.map_eq_none_iff] at hchange
      refine ends_require_bind (fun r hr => ?_) (hleft hchange)
      rw [hfn] at hr
      cases hr
    | some found =>
      rw [hfn, Option.map_some, eq_comm, Option.map_eq_some_iff] at hchange
      obtain ⟨⟨m, old⟩, hm, rfl⟩ := hchange
      refine ends_require_bind_some hfn (ends_putRoot_bind (ends_pure ?_))
      rw [get?_withRoot hg, Node.edit, hat, Option.bind_some, hm]

/-- To edit a graph is to make an edit to its root, which is reset if it was not lent before. -/
theorem leaves_edit (hf : ∀ n, (f? n).map Prod.fst = (n.change? e.change).map Prod.fst)
    (hg : w.graphs.get? id = some g) (lent : Bool) :
    Leaves id (some { g with root := ((if lent then g.root else g.root.reset).edit e).1 })
      (edit ⟨.graph id, e.path⟩ (fun n => require .noSuchSocket (f? n)) lent) w := by
  cases lent with
  | true => exact ends_root_bind_some (root?_graph hg) (leaves_amend hf hg)
  | false =>
    let lent : Graph := { g with root := g.root.reset }
    have hlent : Ends (rootToEdit (.graph id)) w
        (fun whole w' => whole = lent.root ∧ w'.graphs.get? id = some lent)
        fun w' => w'.graphs.get? id = some { lent with root := (lent.root.edit e).1 } := by
      refine ends_root_bind_some (root?_graph hg)
        (ends_withdraw_bind (ends_putRoot_bind (ends_pure ⟨rfl, get?_withRoot ?_ _⟩)))
      exact hg
    refine hlent.bind ?_
    rintro _ w' ⟨rfl, hw'⟩
    exact leaves_amend hf hw'

end Edited

theorem ends_bind_of_perform {γ : Type} {c : Command β} {b : β} {f : β → Command γ}
    {answer : γ → Workbench → Prop} {failure : Workbench → Prop}
    (hc : perform c w = (.ok b, w')) (h : Ends (f b) w' answer failure) :
    Ends (c >>= f) w answer failure := by
  rw [Ends, perform_bind, hc]
  exact h

/-- An action that makes an edit leaves the graph with the edit made to it. -/
theorem Makes.get?_act {a : Action} {lent : Bool} {e : Edit} (h : w.Makes id a lent w' e)
    (hg : w.graphs.get? id = some g) :
    (w.act a).graphs.get? id =
      some { g with root := ((if lent then g.root else g.root.reset).edit e).1 } := by
  cases h with
  | setLiteral path socket text =>
    have hf (n : Node) : (n.setLiteral socket text).map Prod.fst =
        (n.change? (.setLiteral socket text)).map Prod.fst := by
      rw [Node.change?, Option.map_map]
      rfl
    have hedit := leaves_edit (e := ⟨path, .setLiteral socket text⟩) hf hg lent
    exact (hedit.bind fun _ => (ignores_letGo _).bind fun _ => ignores_pure _).after
  | @connect b child _ path socket into _ hbuild fresh =>
    have hg' : w'.graphs.get? id = some g := ((ignores_build b).get?_eq hbuild).trans hg
    have hedit := leaves_edit (e := ⟨path, .connect socket child fresh⟩) (fun _ => rfl) hg' lent
    have hkept := (hedit.tryCatch (ignores_giveUp [child])).bind fun old => ignores_keep old into
    exact Leaves.after (ends_bind_of_perform hbuild hkept)
  | disconnect path socket into =>
    have hedit := leaves_edit (e := ⟨path, .disconnect socket⟩) (fun _ => rfl) hg lent
    exact (hedit.bind fun old => ignores_keep old into).after

theorem get?_act_check (path : List String) (hg : w.graphs.get? id = some g) :
    (w.act (.check ⟨.graph id, path⟩ false)).graphs.get? id = some (g.step .check) := by
  refine Leaves.after (ends_root_bind_some (root?_graph hg) ?_)
  refine ends_require_bind_some (rfl : g.root.at? [] = some g.root) ?_
  change Ends (putRoot (.graph id) g.root.validate >>= fun _ => pure _) w _ _
  exact ends_putRoot_bind (ends_pure (get?_withRoot hg _))

theorem get?_act_process (path : List String) (hg : w.graphs.get? id = some g) :
    (w.act (.process ⟨.graph id, path⟩ false)).graphs.get? id =
      some (g.step (.process w.context.config w.textures)) := by
  refine Leaves.after (ends_root_bind_some (root?_graph hg) ?_)
  refine ends_require_bind_some (rfl : g.root.at? [] = some g.root) ?_
  refine ends_settle_bind (ends_putRoot_bind (ends_pure (get?_withRoot ?_ _)))
  exact hg

/-! ### Every run -/

/-- The actions carry out the steps of the graph of a name. -/
inductive CarriesOut (w : Workbench) (id : String) : List Action → List Graph.Step → Prop where
  | nothing : CarriesOut w id [] []
  /-- An action about something else is no step of the graph. -/
  | aside {done : List Action} {steps : List Graph.Step} {a : Action} :
      CarriesOut w id done steps → a.Ignores id → CarriesOut w id (done ++ [a]) steps
  /-- Nor is an action that cannot build what it would plug in. -/
  | unbuilt {done : List Action} {steps : List Graph.Step} {t : Target} {socket : String}
      {b : Blueprint} {into : Option String} {lent : Bool} {fault : Fault} {w' : Workbench} :
      CarriesOut w id done steps → perform (build b) (w.acts done) = (.error fault, w') →
        CarriesOut w id (done ++ [.connect t socket b into lent]) steps
  /-- The graph lends its root. -/
  | lend {done : List Action} {steps : List Graph.Step} :
      CarriesOut w id done steps →
        CarriesOut w id (done ++ [.lend id]) (steps ++ [.lend (w.acts done).textures []])
  /-- An edit by way of the root that is lent is one more edit of the loan. -/
  | editLent {done : List Action} {steps : List Graph.Step} {textures : Pool Image}
      {edits : List Edit} {a : Action} {w' : Workbench} {e : Edit} :
      CarriesOut w id done (steps ++ [.lend textures edits]) → (w.acts done).Makes id a true w' e →
        CarriesOut w id (done ++ [a]) (steps ++ [.lend textures (edits ++ [e])])
  /-- An edit by itself is a loan for the one edit. -/
  | edit {done : List Action} {steps : List Graph.Step} {a : Action} {w' : Workbench} {e : Edit} :
      CarriesOut w id done steps → (w.acts done).Makes id a false w' e →
        CarriesOut w id (done ++ [a]) (steps ++ [.lend w'.textures [e]])
  | check {done : List Action} {steps : List Graph.Step} (path : List String) :
      CarriesOut w id done steps →
        CarriesOut w id (done ++ [.check ⟨.graph id, path⟩ false]) (steps ++ [.check])
  | process {done : List Action} {steps : List Graph.Step} (path : List String) :
      CarriesOut w id done steps →
        CarriesOut w id (done ++ [.process ⟨.graph id, path⟩ false])
          (steps ++ [.process (w.acts done).context.config (w.acts done).textures])
  | prepare {done : List Action} {steps : List Graph.Step} :
      CarriesOut w id done steps →
        CarriesOut w id (done ++ [.prepare id])
          (steps ++ [.prepare (w.acts done).context.config (w.acts done).textures])

/-- **A workbench does with its graphs what steps do**: actions that carry out steps of a graph
leave it as the steps do, whatever else is done on the workbench in between. -/
theorem CarriesOut.get?_acts {actions : List Action} {steps : List Graph.Step}
    (h : w.CarriesOut id actions steps) (hg : w.graphs.get? id = some g) :
    (w.acts actions).graphs.get? id = some (g.run steps) := by
  induction h with
  | nothing => exact hg
  | aside _ ha ih => rw [acts_concat, get?_act_of_ignores ha, ih]
  | @unbuilt done _ t socket b into lent _ w' _ hbuild ih =>
    have hact : (w.acts done).act (.connect t socket b into lent) = w' := by
      rw [act, Workbench.after, replace, perform_bind, hbuild]
    rw [acts_concat, hact, (ignores_build b).get?_eq hbuild, ih]
  | lend _ ih =>
    rw [acts_concat, Graph.run_concat]
    exact (after_lend ih).1
  | editLent _ ha ih =>
    rw [acts_concat, ha.get?_act ih, Graph.run_concat, Graph.run_concat, Graph.step_lend_concat]
    rfl
  | edit _ ha ih =>
    rw [acts_concat, ha.get?_act ih, Graph.run_concat]
    rfl
  | check path _ ih => rw [acts_concat, get?_act_check path ih, Graph.run_concat]
  | process path _ ih => rw [acts_concat, get?_act_process path ih, Graph.run_concat]
  | prepare _ ih =>
    rw [acts_concat, Graph.run_concat]
    exact (after_prepare ih).1

/-- The action puts a graph on the workbench under a name, as it comes from its origin. -/
inductive Puts (w : Workbench) (id : String) : Action → Graph.Origin → Prop where
  | new : Puts w id (.newGraph id) .new
  | load (desc : GraphDesc) : Puts w id (.loadGraph id desc) (.described w.context desc)

theorem Puts.get?_act {a : Action} {o : Graph.Origin} (h : w.Puts id a o) :
    (w.act a).graphs.get? id = some (Graph.ofOrigin o) := by
  cases h with
  | new => exact List.lookup_cons_self
  | load desc => exact List.lookup_cons_self

/-- A graph has no memory of what was done with it since it was put on the workbench. -/
theorem forgetful_acts {a : Action} {o : Graph.Origin} (ha : w.Puts id a o)
    {actions : List Action} {steps : List Graph.Step}
    (h : (w.act a).CarriesOut id actions steps) :
    ∃ g, ((w.act a).acts actions).graphs.get? id = some g ∧ g.Forgetful :=
  ⟨_, h.get?_acts ha.get?_act, ((Graph.grounded_ofOrigin o).run steps).forgetful⟩

end Workbench
end ShadeTree
