import ShadeTree.Workbench
import ShadeTree.Proofs.Sparing

/-!
# Commands keep account of handles

What a command of the workbench does with trees is to move them: from the workbench into its hands,
from one tree into another, and out again until they are let go. `Keeps given c answer left` says so
of a command `c`. It starts with the trees `given` in hand, and with it the pool accounts for the
handles of all trees, on the workbench and in hand. It ends with the trees that it answers in hand,
or with the trees `left` when it fails, and the pool accounts for all of them again. Whatever else
is in hand, or holds handles elsewhere, is left alone; that is part of the statement, so that it
applies to a command inside another.

An edit works on a node inside a tree of the workbench. There it is enough to know what it does to
the node, to what is given and to the pool (`Edits`).
-/

namespace ShadeTree

open Node (custody)

namespace Workbench

variable {β γ : Type}

/-! ### What a command leaves -/

/-- What a command answers, or why it fails, and what it leaves. -/
def perform (c : Command β) (w : Workbench) : Except Fault β × Workbench :=
  (ExceptT.run c).run w

/-- A command that is done on a workbench leaves one or the other, as it answers or fails. -/
def Ends (c : Command β) (w : Workbench) (answer : β → Workbench → Prop)
    (failure : Workbench → Prop) : Prop :=
  match perform c w with
  | (.ok b, w') => answer b w'
  | (.error _, w') => failure w'

section Ends

variable {w : Workbench} {answer : β → Workbench → Prop} {answer' : γ → Workbench → Prop}
  {failure failure' : Workbench → Prop}

theorem ends_pure {b : β} (h : answer b w) : Ends (pure b) w answer failure := h

theorem ends_modify {answer : Unit → Workbench → Prop} {f : Workbench → Workbench}
    (h : answer () (f w)) : Ends (modify f) w answer failure := h

theorem perform_bind (c : Command β) (f : β → Command γ) (w : Workbench) :
    perform (c >>= f) w =
      match perform c w with
      | (.ok b, w') => perform (f b) w'
      | (.error e, w') => (.error e, w') := by
  change (match perform c w with
    | (r, w') => (ExceptT.bindCont f r : StateM Workbench _).run w') = _
  cases perform c w with
  | mk r w' => cases r <;> rfl

theorem perform_tryCatch (c : Command β) (f : Fault → Command β) (w : Workbench) :
    perform (tryCatch c f) w =
      match perform c w with
      | (.ok b, w') => (.ok b, w')
      | (.error e, w') => perform (f e) w' := by
  have hrun : StateT.run c w = perform c w := rfl
  rw [perform]
  simp only [tryCatch, tryCatchThe, MonadExceptOf.tryCatch, ExceptT.tryCatch, ExceptT.run_mk,
    StateT.run_bind]
  rw [hrun]
  cases perform c w with
  | mk r w' => cases r <;> rfl

theorem ends_get_bind {f : Workbench → Command γ} (h : Ends (f w) w answer' failure) :
    Ends (get >>= f) w answer' failure := h

theorem ends_modify_bind {g : Workbench → Workbench} {f : Unit → Command γ}
    (h : Ends (f ()) (g w) answer' failure) :
    Ends (modify g >>= f) w answer' failure := h

theorem ends_require_bind {fault : Fault} {b? : Option β} {f : β → Command γ}
    (hsome : ∀ b, b? = some b → Ends (f b) w answer' failure) (hnone : failure w) :
    Ends (require fault b? >>= f) w answer' failure := by
  cases b? with
  | none => exact hnone
  | some b => exact hsome b rfl

theorem ends_require_bind_some {fault : Fault} {b? : Option β} {b : β} {f : β → Command γ}
    (hb : b? = some b) (h : Ends (f b) w answer' failure) :
    Ends (require fault b? >>= f) w answer' failure := by
  rw [hb]
  exact h

theorem Ends.bind {c : Command β} {f : β → Command γ} (hc : Ends c w answer failure)
    (hf : ∀ b w', answer b w' → Ends (f b) w' answer' failure) :
    Ends (c >>= f) w answer' failure := by
  rw [Ends] at hc ⊢
  rw [perform_bind]
  cases hcw : perform c w with
  | mk r w' =>
    rw [hcw] at hc
    cases r with
    | ok b => exact hf b w' hc
    | error e => exact hc

theorem Ends.tryCatch {c : Command β} {f : Fault → Command β}
    (hc : Ends c w answer failure) (hf : ∀ e w', failure w' → Ends (f e) w' answer failure') :
    Ends (tryCatch c f) w answer failure' := by
  rw [Ends] at hc ⊢
  rw [perform_tryCatch]
  cases hcw : perform c w with
  | mk r w' =>
    rw [hcw] at hc
    cases r with
    | ok b => exact hc
    | error e => exact hf e w' hc

theorem ends_require {fault : Fault} {b? : Option β} (hsome : ∀ b, b? = some b → answer b w)
    (hnone : failure w) : Ends (require fault b?) w answer failure := by
  cases b? with
  | none => exact hnone
  | some b => exact hsome b rfl

theorem Ends.mono {answer₂ : β → Workbench → Prop} {c : Command β} (hc : Ends c w answer failure)
    (hanswer : ∀ b w', answer b w' → answer₂ b w') (hfailure : ∀ w', failure w' → failure' w') :
    Ends c w answer₂ failure' := by
  rw [Ends] at hc ⊢
  cases hcw : perform c w with
  | mk r w' =>
    rw [hcw] at hc
    cases r with
    | ok b => exact hanswer b w' hc
    | error e => exact hfailure w' hc

end Ends

/-! ### Trees on the workbench and in hand -/

/-- The trees on the workbench and in its graphs. -/
def trees (w : Workbench) : Multiset Node :=
  w.nodes.things + w.graphs.things.map (·.root)

/-- The pool accounts for the handles of all trees, these `loose` in hand included, and for `others`
held elsewhere. -/
structure Orderly (w : Workbench) (loose : Multiset Node) (others : Multiset (Handle Image)) :
    Prop where
  registry : w.context.registry.Fresh
  nodes : w.nodes.Distinct
  graphs : w.graphs.Distinct
  tidy : ∀ n ∈ w.trees + loose, n.Tidy
  accounts : w.textures.Accounts (custody (w.trees + loose) + others)

/-- The tree of an owner. -/
def root? (w : Workbench) : Owner → Option Node
  | .node id => w.nodes.get? id
  | .graph id => (w.graphs.get? id).map (·.root)

/-- The workbench without what belongs to an owner. -/
def without (w : Workbench) : Owner → Workbench
  | .node id => { w with nodes := w.nodes.erase id }
  | .graph id => { w with graphs := w.graphs.erase id }

/-- The workbench with another tree in the place of that of an owner. -/
def withRoot (w : Workbench) (owner : Owner) (n : Node) : Workbench :=
  match owner with
  | .node id => { w with nodes := w.nodes.put id n }
  | .graph id =>
    match w.graphs.get? id with
    | some g => { w with graphs := w.graphs.put id { g with root := n } }
    | none => w

theorem root?_graph {w : Workbench} {id : String} {g : Graph} (hg : w.graphs.get? id = some g) :
    w.root? (.graph id) = some g.root := by
  rw [root?, hg, Option.map_some]

@[simp] theorem textures_without (w : Workbench) (owner : Owner) :
    (w.without owner).textures = w.textures := by
  cases owner <;> rfl

theorem without_textures (w : Workbench) (textures : Pool Image) (owner : Owner) :
    Workbench.without { w with textures := textures } owner =
      { w.without owner with textures := textures } := by
  cases owner <;> rfl

@[simp] theorem root?_textures (w : Workbench) (textures : Pool Image) (owner : Owner) :
    Workbench.root? { w with textures := textures } owner = w.root? owner := by
  cases owner <;> rfl

theorem root?_without {w : Workbench} {owner other : Owner} {n : Node}
    (h : (w.without owner).root? other = some n) : w.root? other = some n ∧ other ≠ owner := by
  cases owner with
  | node id =>
    cases other with
    | node key =>
      obtain ⟨hn, hne⟩ := Named.of_get?_erase h
      exact ⟨hn, by simpa using hne⟩
    | graph key => exact ⟨h, by simp⟩
  | graph id =>
    cases other with
    | node key => exact ⟨h, by simp⟩
    | graph key =>
      obtain ⟨g, hg, rfl⟩ := Option.map_eq_some_iff.mp h
      obtain ⟨hg, hne⟩ := Named.of_get?_erase hg
      exact ⟨root?_graph hg, by simpa using hne⟩

@[simp] theorem textures_withRoot (w : Workbench) (owner : Owner) (n : Node) :
    (w.withRoot owner n).textures = w.textures := by
  cases owner with
  | node id => rfl
  | graph id =>
    rw [withRoot]
    split <;> rfl

theorem get?_withRoot {w : Workbench} {id : String} {g : Graph} (hg : w.graphs.get? id = some g)
    (n : Node) : (w.withRoot (.graph id) n).graphs.get? id = some { g with root := n } := by
  rw [withRoot, hg]
  exact List.lookup_cons_self

theorem root?_withRoot {w : Workbench} {owner : Owner} {n m : Node} (h : w.root? owner = some m) :
    (w.withRoot owner n).root? owner = some n := by
  cases owner with
  | node id => exact List.lookup_cons_self
  | graph id =>
    obtain ⟨g, hg, -⟩ := Option.map_eq_some_iff.mp h
    exact root?_graph (get?_withRoot hg n)

section Orderly

variable {w : Workbench} {loose : Multiset Node} {others : Multiset (Handle Image)}

theorem Orderly.letGo {ns : List Node} (h : Orderly w (ns + loose) others) :
    Orderly { w with textures := w.textures.releaseAll (ns.flatMap Node.handles) }
      loose others where
  registry := h.registry
  nodes := h.nodes
  graphs := h.graphs
  tidy n hn := by
    refine h.tidy n ?_
    rw [add_left_comm]
    exact Multiset.mem_add.mpr (.inr hn)
  accounts := by
    have haccounts := h.accounts
    rw [add_left_comm, Node.custody_add, Node.custody_coe, add_assoc] at haccounts
    exact haccounts.releaseAll

/-- A tree without handles comes in hand. -/
theorem Orderly.adopt (h : Orderly w loose others) {n : Node} (hn : n.Tidy)
    (hhandles : n.handles = []) : Orderly w ({n} + loose) others where
  registry := h.registry
  nodes := h.nodes
  graphs := h.graphs
  tidy m hm := by
    rw [add_left_comm] at hm
    rcases Multiset.mem_add.mp hm with hm | hm
    · rw [Multiset.mem_singleton.mp hm]
      exact hn
    · exact h.tidy m hm
  accounts := by
    have hnone : custody {n} = 0 := by
      rw [Node.custody_singleton, hhandles]
      rfl
    rw [add_left_comm, Node.custody_add, hnone, zero_add]
    exact h.accounts

/-- A tree in hand trades what is in hand beside it. -/
theorem Orderly.trade {n n' : Node} {ins outs : Multiset Node}
    (h : Orderly w ({n} + ins + loose) others) (htrade : n.Trades n' ins outs) :
    Orderly w ({n'} + outs + loose) others := by
  have htidy := h.tidy
  simp only [Multiset.mem_add, Multiset.mem_singleton] at htidy
  obtain ⟨hn', houts⟩ := htrade.tidy (htidy n (.inr (.inl (.inl rfl))))
    fun m hm => htidy m (.inr (.inl (.inr hm)))
  refine ⟨h.registry, h.nodes, h.graphs, fun m hm => ?_, ?_⟩
  · simp only [Multiset.mem_add, Multiset.mem_singleton] at hm
    rcases hm with hm | (rfl | hm) | hm
    · exact htidy m (.inl hm)
    · exact hn'
    · exact houts m hm
    · exact htidy m (.inr (.inr hm))
  · have haccounts := h.accounts
    simp only [Node.custody_add, Node.custody_singleton] at haccounts ⊢
    rw [htrade.handles_eq]
    exact haccounts

theorem Orderly.fresh (h : Orderly w loose others) {n : Node} (hn : n.Fresh) :
    Orderly w ({n} + loose) others :=
  h.adopt hn.tidy hn.handles_eq

/-- A tree in hand is prepared. -/
theorem Orderly.process {n : Node} (h : Orderly w ({n} + loose) others) (config : Config) :
    Orderly { w with textures := (n.process config w.textures).2.1 }
      ({(n.process config w.textures).1} + loose) others := by
  have htidy := h.tidy
  simp only [Multiset.mem_add, Multiset.mem_singleton] at htidy
  have haccounts : w.textures.Accounts ((n.handles : Multiset (Handle Image)) +
      (custody (w.trees + loose) + others)) := by
    have hpool := h.accounts
    rw [add_left_comm, Node.custody_add, Node.custody_singleton, add_assoc] at hpool
    exact hpool
  have hn : n.Tidy := htidy n (.inr (.inl rfl))
  obtain ⟨hn', htakes⟩ := Node.takes_processAt config n.typeName hn haccounts
  refine ⟨h.registry, h.nodes, h.graphs, fun m hm => ?_, ?_⟩
  · simp only [Multiset.mem_add, Multiset.mem_singleton] at hm
    rcases hm with hm | rfl | hm
    · exact htidy m (.inl hm)
    · exact hn'
    · exact htidy m (.inr (.inr hm))
  · rw [add_left_comm, Node.custody_add, Node.custody_singleton, add_assoc]
    exact htakes.accounts

/-- What belongs to an owner is taken in hand. -/
theorem Orderly.without (h : Orderly w loose others) (owner : Owner) :
    Orderly (w.without owner) ((w.root? owner).toList + loose) others := by
  have htrees : w.trees + loose =
      (w.without owner).trees + (((w.root? owner).toList : Multiset Node) + loose) := by
    cases owner with
    | node id =>
      rw [trees, h.nodes.things_eq id]
      simp only [trees, Workbench.without, root?]
      abel
    | graph id =>
      rw [trees, h.graphs.things_eq id, Multiset.map_add]
      simp only [trees, Workbench.without, root?]
      cases w.graphs.get? id with
      | none => simp
      | some g => simp
  cases owner with
  | node id =>
    exact ⟨h.registry, h.nodes.erase id, h.graphs, htrees ▸ h.tidy, htrees ▸ h.accounts⟩
  | graph id =>
    exact ⟨h.registry, h.nodes, h.graphs.erase id, htrees ▸ h.tidy, htrees ▸ h.accounts⟩

/-- A tree in hand is put on the workbench. -/
theorem Orderly.putNode {id : String} {n : Node}
    (h : Orderly (w.without (.node id)) (n ::ₘ loose) others) :
    Orderly { w with nodes := w.nodes.put id n } loose others := by
  have htrees : (w.without (.node id)).trees + n ::ₘ loose =
      trees { w with nodes := w.nodes.put id n } + loose := by
    simp only [trees, Workbench.without, Named.things_put, Multiset.add_cons, Multiset.cons_add]
  exact ⟨h.registry, List.nodup_cons.mpr ⟨Named.not_mem_erase w.nodes id, h.nodes⟩, h.graphs,
    htrees ▸ h.tidy, htrees ▸ h.accounts⟩

/-- A tree in hand is put on the workbench as a graph. -/
theorem Orderly.putGraph {id : String} {g : Graph}
    (h : Orderly (w.without (.graph id)) (g.root ::ₘ loose) others) :
    Orderly { w with graphs := w.graphs.put id g } loose others := by
  have htrees : (w.without (.graph id)).trees + g.root ::ₘ loose =
      trees { w with graphs := w.graphs.put id g } + loose := by
    simp only [trees, Workbench.without, Named.things_put, Multiset.map_cons, Multiset.add_cons,
      Multiset.cons_add]
  exact ⟨h.registry, h.nodes, List.nodup_cons.mpr ⟨Named.not_mem_erase w.graphs id, h.graphs⟩,
    htrees ▸ h.tidy, htrees ▸ h.accounts⟩

/-- A tree in hand is put in the place of another. -/
theorem Orderly.withRoot {owner : Owner} {n m : Node} (howner : w.root? owner = some m)
    (h : Orderly (w.without owner) (n ::ₘ loose) others) :
    Orderly (w.withRoot owner n) loose others := by
  cases owner with
  | node id => exact h.putNode
  | graph id =>
    obtain ⟨g, hg, -⟩ := Option.map_eq_some_iff.mp howner
    rw [Workbench.withRoot, hg]
    exact h.putGraph (g := { g with root := n })

end Orderly

/-! ### Keeping account -/

/-- A command starts with trees in hand, and ends with those it answers or those it leaves when it
fails. The pool accounts for all handles before, and after. -/
def Keeps (given : Multiset Node) (c : Command β) (answer : β → Multiset Node)
    (left : Multiset Node) : Prop :=
  ∀ w loose others, Orderly w (given + loose) others →
    Ends c w (fun b w' => Orderly w' (answer b + loose) others)
      fun w' => Orderly w' (left + loose) others

section Keeps

variable {given left middle : Multiset Node} {answer : β → Multiset Node}
  {answer' : γ → Multiset Node}

theorem Keeps.pure (b : β) : Keeps (answer b) (Pure.pure b) answer left := fun _ _ _ h => h

theorem keeps_done (b : β) : Keeps 0 (pure b) (fun _ => 0) left := fun _ _ _ h => h

theorem Keeps.throw (e : Fault) : Keeps left (throw e) answer left := fun _ _ _ h => h

theorem Keeps.bind {c : Command β} {f : β → Command γ} (hc : Keeps given c answer left)
    (hf : ∀ b, Keeps (answer b) (f b) answer' left) : Keeps given (c >>= f) answer' left :=
  fun w loose others h => (hc w loose others h).bind fun b w' hb => hf b w' loose others hb

theorem Keeps.tryCatch {c : Command β} {f : Fault → Command β} (hc : Keeps given c answer middle)
    (hf : ∀ e, Keeps middle (f e) answer left) : Keeps given (tryCatch c f) answer left :=
  fun w loose others h => (hc w loose others h).tryCatch fun e w' he => hf e w' loose others he

/-- What else is in hand stays there. -/
theorem Keeps.beside {c : Command β} (hc : Keeps given c answer left) (more : Multiset Node) :
    Keeps (given + more) c (fun b => answer b + more) (left + more) := by
  intro w loose others h
  rw [add_assoc] at h
  refine (hc w (more + loose) others h).mono (fun b w' hb => ?_) fun w' he => ?_
  · rwa [add_assoc]
  · rwa [add_assoc]

/-- A tree in hand trades what is in hand beside it. -/
theorem Keeps.trade {n n' : Node} {ins outs : Multiset Node} (h : n.Trades n' ins outs)
    {c : Command β} (hc : Keeps ({n'} + outs) c answer left) : Keeps ({n} + ins) c answer left :=
  fun w loose others horderly => hc w loose others (horderly.trade h)

theorem keeps_letGo (ns : List Node) (more : Multiset Node) :
    Keeps (ns + more) (letGo ns) (fun _ => more) left := by
  intro w loose others h
  rw [add_assoc] at h
  exact ends_modify h.letGo

theorem keeps_obtain (source : Source) : Keeps 0 (obtain source) (fun n => {n}) 0 := by
  intro w loose others h
  rw [zero_add] at h
  cases source with
  | kind k => exact ends_pure (h.fresh (Node.fresh_new k))
  | type name =>
    refine ends_get_bind (ends_require (fun fresh hfresh => ?_) ?_)
    · exact h.fresh (h.registry name fresh hfresh)
    · rwa [zero_add]
  | take id =>
    refine ends_get_bind (ends_require_bind (fun n hn => ?_) ?_)
    · refine ends_modify_bind (ends_pure ?_)
      have htaken := h.without (.node id)
      rw [root?, hn] at htaken
      exact htaken
    · rwa [zero_add]

/-- Setting literals lets go of what was plugged in. -/
theorem keeps_setAll (n : Node) (literals : List (String × String)) :
    Keeps {n} (setAll n literals) (fun n => {n}) 0 := by
  induction literals generalizing n with
  | nil => exact .pure n
  | cons entry rest ih =>
    obtain ⟨socket, text⟩ := entry
    rw [setAll]
    cases hset : n.setLiteral socket text with
    | none => exact (keeps_letGo [n] 0).bind fun _ => .throw _
    | some result =>
      obtain ⟨n', tuple, old⟩ := result
      have hkeeps : Keeps ({n'} + old.toList) (letGo old.toList >>= fun _ => setAll n' rest)
          (fun n => {n}) 0 := by
        rw [add_comm]
        exact (keeps_letGo old.toList {n'}).bind fun _ => ih n'
      have htrade := hkeeps.trade (Node.trades_setLiteral hset)
      rwa [add_zero] at htrade

/-- Plugging a node in lets go of what was plugged in before. -/
theorem keeps_plug (n : Node) (socket : String) (child : Node) :
    Keeps ({n} + {child}) (plug n socket child) (fun n => {n}) 0 := by
  rw [plug]
  cases hconnect : n.connect socket child with
  | none => exact (keeps_letGo [n, child] 0).bind fun _ => .throw _
  | some result =>
    obtain ⟨n', old⟩ := result
    refine .trade (Node.trades_connect hconnect) ?_
    rw [add_comm]
    exact (keeps_letGo old.toList {n'}).bind fun _ => .pure n'

mutual

/-- Building a node takes trees from the workbench and comes with no handles beyond theirs. -/
theorem keeps_build (b : Blueprint) : Keeps 0 (build b) (fun n => {n}) 0 :=
  match b with
  | .mk source literals plugs => by
    rw [build]
    exact (keeps_obtain source).bind fun n => (keeps_setAll n literals).bind fun n =>
      keeps_plugAll n plugs

theorem keeps_plugAll (n : Node) (plugs : List (String × Blueprint)) :
    Keeps {n} (plugAll n plugs) (fun n => {n}) 0 :=
  match plugs with
  | [] => by
    rw [plugAll]
    exact .pure n
  | (socket, b) :: rest => by
    rw [plugAll]
    have hbuild := (keeps_build b).beside {n}
    have hgiveUp : ∀ e, Keeps (0 + {n}) (letGo [n] >>= fun _ => throw e : Command Node)
        (fun child => {child} + {n}) 0 := by
      intro e
      rw [add_comm]
      exact (keeps_letGo [n] 0).bind fun _ => .throw e
    have hchild := hbuild.tryCatch hgiveUp
    rw [zero_add] at hchild
    refine hchild.bind fun child => ?_
    rw [add_comm]
    exact (keeps_plug n socket child).bind fun n => keeps_plugAll n rest

end

/-- A tree in hand is put on the workbench, and that of its name is let go. -/
theorem keeps_place (id : String) (n : Node) : Keeps {n} (place id n) (fun _ => 0) left := by
  intro w loose others h
  refine ends_get_bind (ends_modify_bind (ends_modify ?_))
  rw [zero_add]
  have hgone := (h.without (.node id)).letGo
  exact hgone.putNode

theorem keeps_placeGraph (id : String) (g : Graph) :
    Keeps {g.root} (placeGraph id g) (fun _ => 0) left := by
  intro w loose others h
  refine ends_get_bind (ends_modify_bind (ends_modify ?_))
  rw [zero_add]
  have hgone := (h.without (.graph id)).letGo
  exact hgone.putGraph

/-- What came out of a tree is kept on the workbench or let go. -/
theorem keeps_keep (old : Option Node) (into : Option String) :
    Keeps old.toList (keep old into) (fun _ => 0) left := by
  cases old with
  | none => exact keeps_done none
  | some n =>
    cases into with
    | some id => exact (keeps_place id n).bind fun _ => keeps_done _
    | none => exact (keeps_letGo [n] 0).bind fun _ => keeps_done _

theorem keeps_discard (owner : Owner) : Keeps 0 (discard owner) (fun _ => 0) left := by
  intro w loose others h
  rw [zero_add] at h
  have hgone := (h.without owner).letGo
  rw [← zero_add loose] at hgone
  cases owner with
  | node id => exact ends_get_bind (ends_modify_bind (ends_modify_bind (ends_pure hgone)))
  | graph id => exact ends_get_bind (ends_modify_bind (ends_modify_bind (ends_pure hgone)))

/-! ### Edits in place -/

/-- An edit of a node trades what is given beside it, and the pool goes on accounting for the
handles. Nothing else on the workbench changes, and nothing at all when it fails. -/
def Edits (given : Multiset Node) (f : Node → Command (Node × β)) (gives : β → Multiset Node) :
    Prop :=
  ∀ w n others, n.Tidy → (∀ m ∈ given, m.Tidy) →
    w.textures.Accounts ((n.handles : Multiset (Handle Image)) + custody given + others) →
      Ends (f n) w
        (fun r w' => w' = { w with textures := w'.textures } ∧ r.1.Tidy ∧
          (∀ m ∈ gives r.2, m.Tidy) ∧ w'.textures.Accounts
            ((r.1.handles : Multiset (Handle Image)) + custody (gives r.2) + others))
        fun w' => w' = w

theorem edits_pure {g : Node → Node × β} {gives : β → Multiset Node}
    (h : ∀ n : Node, n.Tidy → n.Trades (g n).1 given (gives (g n).2)) :
    Edits given (fun n => pure (g n)) gives := by
  intro w n others hn hgiven haccounts
  have htrade := h n hn
  obtain ⟨hn', hgives⟩ := htrade.tidy hn hgiven
  refine ends_pure ⟨rfl, hn', hgives, ?_⟩
  rw [htrade.handles_eq]
  exact haccounts

theorem edits_require {fault : Fault} {g : Node → Option (Node × β)} {gives : β → Multiset Node}
    (h : ∀ (n n' : Node) b, g n = some (n', b) → n.Trades n' given (gives b)) :
    Edits given (fun n => require fault (g n)) gives := by
  intro w n others hn hgiven haccounts
  refine ends_require (fun r hr => ?_) rfl
  have htrade := h n r.1 r.2 hr
  obtain ⟨hn', hgives⟩ := htrade.tidy hn hgiven
  refine ⟨rfl, hn', hgives, ?_⟩
  rw [htrade.handles_eq]
  exact haccounts

theorem ends_putRoot_bind {w : Workbench} {owner : Owner} {n : Node} {f : Unit → Command γ}
    {answer : γ → Workbench → Prop} {failure : Workbench → Prop}
    (h : Ends (f ()) (w.withRoot owner n) answer failure) :
    Ends (putRoot owner n >>= f) w answer failure := by
  cases owner <;> exact h

theorem ends_amend {f : Node → Command (Node × β)} {gives : β → Multiset Node}
    (hf : Edits given f gives) {w : Workbench} {loose : Multiset Node}
    {others : Multiset (Handle Image)} (h : Orderly w (given + loose) others) {t : Target}
    {whole : Node} (hwhole : w.root? t.owner = some whole) :
    Ends (amend t whole f) w (fun b w' => Orderly w' (gives b + loose) others)
      fun w' => Orderly w' (given + loose) others := by
  obtain ⟨owner, path⟩ := t
  refine ends_require_bind (fun n hn => ?_) h
  have htaken := h.without owner
  rw [hwhole, Option.toList_some, Multiset.coe_singleton] at htaken
  obtain ⟨besides, hbesides, hputAt⟩ := Node.exists_handles_putAt hn
  have htidy := htaken.tidy
  simp only [Multiset.mem_add, Multiset.mem_singleton] at htidy
  have hwholeTidy : whole.Tidy := htidy whole (.inr (.inl rfl))
  have haccounts : w.textures.Accounts ((n.handles : Multiset (Handle Image)) + custody given +
      (besides + custody ((w.without owner).trees + loose) + others)) := by
    have hpool := htaken.accounts
    simp only [Node.custody_add, Node.custody_singleton, hbesides] at hpool ⊢
    rw [textures_without] at hpool
    convert hpool using 1
    abel
  have hdone := (hf w n _ (hwholeTidy.at? hn) (fun m hm => htidy m (.inr (.inr (.inl hm))))
    haccounts).mono (fun _ _ hr => hr)
      fun w' hw' => show Orderly w' (given + loose) others from hw' ▸ h
  refine hdone.bind ?_
  rintro ⟨n', b⟩ w' ⟨hw', hn', hgives, haccounts'⟩
  refine ends_putRoot_bind (ends_pure (Orderly.withRoot (m := whole) ?_ ?_))
  · rw [hw', root?_textures, hwhole]
  · rw [hw', without_textures]
    refine ⟨htaken.registry, htaken.nodes, htaken.graphs, fun m hm => ?_, ?_⟩
    · simp only [Multiset.mem_add, Multiset.mem_cons] at hm
      rcases hm with hm | rfl | hm | hm
      · exact htidy m (.inl hm)
      · exact hwholeTidy.putAt hn' path
      · exact hgives m hm
      · exact htidy m (.inr (.inr (.inr hm)))
    · have htrees : trees { w.without owner with textures := w'.textures } =
          (w.without owner).trees := rfl
      simp only [htrees, Node.custody_add, Node.custody_cons, hputAt] at haccounts' ⊢
      convert haccounts' using 1
      abel

theorem ends_root_bind {w : Workbench} {owner : Owner} {f : Node → Command γ}
    {answer : γ → Workbench → Prop} {failure : Workbench → Prop}
    (hsome : ∀ n, w.root? owner = some n → Ends (f n) w answer failure) (hnone : failure w) :
    Ends (root owner >>= f) w answer failure := by
  cases owner with
  | node id => exact ends_require_bind hsome hnone
  | graph id => exact ends_require_bind hsome hnone

theorem ends_root_bind_some {w : Workbench} {owner : Owner} {n : Node} {f : Node → Command γ}
    {answer : γ → Workbench → Prop} {failure : Workbench → Prop} (hn : w.root? owner = some n)
    (h : Ends (f n) w answer failure) : Ends (root owner >>= f) w answer failure := by
  cases owner with
  | node id => exact ends_require_bind_some hn h
  | graph id => exact ends_require_bind_some hn h

/-- The tree of an owner gives back its handles. -/
theorem Orderly.withdraw {w : Workbench} {loose : Multiset Node} {others : Multiset (Handle Image)}
    (h : Orderly w loose others) {owner : Owner} {n : Node} (hn : w.root? owner = some n) :
    let withdrawn : Workbench := { w with textures := w.textures.releaseAll n.handles }
    Orderly (withdrawn.withRoot owner n.reset) loose others := by
  intro withdrawn
  have htaken := h.without owner
  rw [hn] at htaken
  have hgone := htaken.letGo.fresh (Node.fresh_reset n)
  refine Orderly.withRoot (m := n) ?_ ?_
  · rw [root?_textures, hn]
  · rw [without_textures]
    simpa using hgone

theorem ends_withdraw_bind {w : Workbench} {n : Node} {f : Node → Command γ}
    {answer : γ → Workbench → Prop} {failure : Workbench → Prop}
    (h : Ends (f n.reset) { w with textures := w.textures.releaseAll n.handles } answer failure) :
    Ends (withdraw n >>= f) w answer failure := h

/-- The root that a command edits is on the workbench. -/
theorem ends_rootToEdit {w : Workbench} {loose : Multiset Node} {others : Multiset (Handle Image)}
    (h : Orderly w loose others) (owner : Owner) :
    Ends (rootToEdit owner) w
      (fun whole w' => w'.root? owner = some whole ∧ Orderly w' loose others)
      fun w' => Orderly w' loose others := by
  refine ends_root_bind (fun n hn => ?_) h
  cases owner with
  | node id => exact ends_pure ⟨hn, h⟩
  | graph id =>
    refine ends_withdraw_bind (ends_putRoot_bind (ends_pure ⟨?_, h.withdraw hn⟩))
    exact root?_withRoot (m := n) hn

/-- A node of a tree is edited in place. A graph is withdrawn first, if its root is not lent. -/
theorem keeps_edit {f : Node → Command (Node × β)} {gives : β → Multiset Node}
    (hf : Edits given f gives) (t : Target) (lent : Bool) :
    Keeps given (edit t f lent) gives given := by
  intro w loose others h
  cases lent with
  | false =>
    refine (ends_rootToEdit h t.owner).bind ?_
    rintro whole w' ⟨hwhole, h'⟩
    exact ends_amend hf h' hwhole
  | true => exact ends_root_bind (fun whole hwhole => ends_amend hf h hwhole) h

/-- A node of a tree is changed in place. -/
theorem keeps_change {f : Node → Command (Node × β)} {gives : β → Multiset Node}
    (hf : Edits given f gives) (t : Target) (lent : Bool) :
    Keeps given (change t f lent) gives given := by
  intro w loose others h
  exact ends_root_bind (fun whole hwhole => ends_amend hf h hwhole) h

/-! ### Commands on trees -/

theorem keeps_setLiteral (t : Target) (socket text : String) (lent : Bool) :
    Keeps 0 (setLiteral t socket text lent) (fun _ => 0) 0 := by
  have hedits : Edits 0 (fun n => require .noSuchSocket (n.setLiteral socket text))
      fun r : Tuple × Option Node => r.2.toList :=
    edits_require fun n n' r hr => Node.trades_setLiteral hr
  refine (keeps_edit hedits t lent).bind ?_
  rintro ⟨tuple, old⟩
  dsimp only
  rw [← add_zero (old.toList : Multiset Node)]
  exact (keeps_letGo old.toList 0).bind fun _ => keeps_done tuple

/-- What a blueprint builds is plugged in, and what it replaces is kept or let go. -/
theorem keeps_replace (t : Target) (socket : String) (b : Blueprint) (into : Option String)
    (lent : Bool) : Keeps 0 (replace t socket b into lent) (fun _ => 0) 0 := by
  refine (keeps_build b).bind fun child => ?_
  have hedits : Edits {child} (fun n => require .noSuchSocket (n.connect socket child))
      fun old : Option Node => old.toList :=
    edits_require fun n n' old hold => Node.trades_connect hold
  have hgiveUp : ∀ e, Keeps {child} (letGo [child] >>= fun _ => throw e : Command (Option Node))
      (fun old => old.toList) 0 := fun e =>
    (keeps_letGo [child] 0).bind fun _ => .throw e
  exact ((keeps_edit hedits t lent).tryCatch hgiveUp).bind fun old => keeps_keep old into

theorem keeps_disconnect (t : Target) (socket : String) (into : Option String) (lent : Bool) :
    Keeps 0 (disconnect t socket into lent) (fun _ => 0) 0 := by
  have hedits : Edits 0 (fun n => require .noSuchSocket (n.disconnect socket))
      fun old : Option Node => old.toList :=
    edits_require fun n n' old hold => Node.trades_disconnect hold
  exact (keeps_edit hedits t lent).bind fun old => keeps_keep old into

theorem edits_reset :
    Edits 0 (fun n => do pure (← withdraw n, ())) fun _ => 0 := by
  intro w n others hn _ haccounts
  refine ends_withdraw_bind (ends_pure ⟨rfl, (Node.fresh_reset n).tidy, ?_, ?_⟩)
  · exact fun m hm => absurd hm (Multiset.notMem_zero m)
  · rw [Node.custody_zero, add_zero] at haccounts
    simpa [Node.handles_reset] using haccounts.releaseAll

theorem keeps_reset (t : Target) (lent : Bool) : Keeps 0 (reset t lent) (fun _ => 0) 0 :=
  keeps_edit edits_reset t lent

theorem keeps_infer (t : Target) (lent : Bool) : Keeps 0 (infer t lent) (fun _ => 0) 0 :=
  keeps_edit (edits_pure fun n _ => Node.trades_infer n) t lent

theorem keeps_check (t : Target) (lent : Bool) : Keeps 0 (check t lent) (fun _ => 0) 0 :=
  keeps_change (edits_pure fun n _ => Node.trades_validate n) t lent

theorem keeps_assemble (t : Target) (desc : NodeDesc) (templates : Templates) (lent : Bool) :
    Keeps 0 (assemble t desc templates lent) (fun _ => 0) 0 := by
  intro w loose others h
  refine ends_get_bind ?_
  have htrades : ∀ n : Node, n.Tidy → n.Trades (w.context.assemble templates desc n).node 0
      (w.context.assemble templates desc n).displaced := by
    intro n hn
    have hspares := Assembly.spares_fill h.registry templates w.context.config.maxDepth desc
      n.typeName hn
    exact ⟨fun _ _ => ⟨hspares.tidy, hspares.tidy_displaced⟩,
      hspares.handles_eq.trans (add_zero _).symm⟩
  have hedits : Edits 0 (fun n =>
        let a := w.context.assemble templates desc n
        pure (a.node, a.report, a.displaced))
      fun r : Report × List Node => r.2 := edits_pure htrades
  refine Keeps.bind (keeps_edit hedits t lent) ?_ w loose others h
  rintro ⟨report, old⟩
  dsimp only
  rw [← add_zero (old : Multiset Node)]
  exact (keeps_letGo old 0).bind fun _ => keeps_done report

theorem ends_settle_bind {w : Workbench} {n : Node} {f : Node × Report → Command γ}
    {answer : γ → Workbench → Prop} {failure : Workbench → Prop}
    (h : Ends
      (f ((n.process w.context.config w.textures).1, (n.process w.context.config w.textures).2.2))
      { w with textures := (n.process w.context.config w.textures).2.1 } answer failure) :
    Ends (settle n >>= f) w answer failure := h

theorem edits_settle : Edits 0 settle fun _ => 0 := by
  intro w n others hn _ haccounts
  rw [Node.custody_zero, add_zero] at haccounts
  obtain ⟨htidy, htakes⟩ := Node.takes_processAt w.context.config n.typeName hn haccounts
  refine ends_settle_bind (ends_pure ⟨rfl, htidy, ?_, ?_⟩)
  · exact fun m hm => absurd hm (Multiset.notMem_zero m)
  · rw [Node.custody_zero, add_zero]
    exact htakes.accounts

theorem keeps_process (t : Target) (lent : Bool) : Keeps 0 (process t lent) (fun _ => 0) 0 :=
  keeps_change edits_settle t lent

theorem keeps_prepare (id : String) : Keeps 0 (prepare id) (fun _ => 0) 0 := by
  intro w loose others h
  rw [zero_add] at h
  refine ends_get_bind (ends_require_bind (fun g hg => ends_modify_bind (ends_pure ?_)) ?_)
  · rw [zero_add]
    have htaken := h.without (.graph id)
    rw [root?, hg] at htaken
    have hroot : Orderly (w.without (.graph id)) ({g.root} + 0 + loose) others := by
      simpa using htaken
    have hvalid := hroot.trade (Node.trades_validate g.root)
    rw [add_zero] at hvalid
    exact Orderly.putGraph (w := { w with textures := (g.prepare w.context.config w.textures).2.1 })
      (g := (g.prepare w.context.config w.textures).1) (hvalid.process w.context.config)
  · rwa [zero_add]

theorem keeps_loadGraph (id : String) (desc : GraphDesc) :
    Keeps 0 (loadGraph id desc) (fun _ => 0) 0 := by
  intro w loose others h
  rw [zero_add] at h
  have hspares := Assembly.spares_fill h.registry desc.templates w.context.config.maxDepth
    desc.output (Node.new .output).typeName (Node.fresh_new .output).tidy
  rw [(Node.fresh_new .output).handles_eq] at hspares
  obtain ⟨htidy, hhandles⟩ := hspares.clean.1 _ rfl
  have hload : Keeps {(Graph.ofDesc w.context desc).1.root}
      (placeGraph id (Graph.ofDesc w.context desc).1 >>= fun _ =>
        pure (Graph.ofDesc w.context desc).2) (fun _ => 0) 0 :=
    (keeps_placeGraph id _).bind fun _ => keeps_done _
  exact ends_get_bind (hload w loose others (h.adopt htidy hhandles))

theorem keeps_configure (config : Config) : Keeps 0 (configure config) (fun _ => 0) 0 :=
  fun _ _ _ h => ⟨h.registry, h.nodes, h.graphs, h.tidy, h.accounts⟩

theorem keeps_buildAs (id : String) (b : Blueprint) :
    Keeps 0 (buildAs id b) (fun _ => 0) 0 :=
  (keeps_build b).bind fun n => (keeps_place id n).bind fun _ => keeps_done n

end Keeps

end Workbench

end ShadeTree
