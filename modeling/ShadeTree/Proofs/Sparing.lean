import ShadeTree.Assembly
import ShadeTree.Proofs.Custody
import ShadeTree.Proofs.Effect

/-!
# Where handles go in edits and in assembly

An edit of a node lets trees into its tree and others out of it, and with them the handles they hold
(`Node.Trades`). Assembly puts fresh nodes in, which hold no handles, so that what is assembled and
what came out of it hold between them what was held before (`Assembly.spares_fill`).
-/

namespace ShadeTree

open Node (custody)

/-! ### Fresh registries -/

/-- The name a node was created under has no part in whether it is fresh. -/
theorem Node.Fresh.rename {n : Node} (hn : n.Fresh) (typeName : String) :
    Node.Fresh { n with typeName := typeName } := by
  have h := forall_nodes_iff.mp hn
  exact forall_nodes_iff.mpr h

/-- The registered types hold nothing from preparation: what is created was never prepared. -/
def Registry.Fresh (r : Registry) : Prop := ∀ name fresh, r.create? name = some fresh → fresh.Fresh

theorem Registry.fresh_builtin : builtin.Fresh := by
  intro name fresh h
  obtain ⟨node, hnode, rfl⟩ := exists_of_create? h
  obtain ⟨kind, hkind⟩ := exists_of_mem_builtin hnode
  dsimp only at hkind
  subst hkind
  exact (Node.fresh_new kind).rename name

/-! ### Assembly brings no handles in -/

/-- What is put in a socket, and what came out on the way, holds no handles. -/
def Effect.Clean : Effect → Prop
  | .skip _ => True
  | .set link displaced _ =>
    (∀ c, link = .node c → c.Tidy ∧ c.handles = []) ∧ ∀ d ∈ displaced, d.Tidy ∧ d.handles = []

namespace Node

variable {n : Node} {name : String} {link : Link Node}

theorem forall_nodes_setLink {P : Node → Prop}
    (hP : ∀ n sockets, P n → P { n with sockets := sockets }) (hn : ∀ m ∈ n.nodes, P m)
    (hlink : ∀ c, link = .node c → ∀ m ∈ c.nodes, P m) :
    ∀ m ∈ (n.setLink name link).nodes, P m := by
  cases hs : n.socket? name with
  | none => rwa [setLink_of_socket?_eq_none hs]
  | some s =>
    rw [← withSocket_eq_setLink hs]
    refine forall_nodes_withSocket hP hn fun c hc => ?_
    cases link with
    | literal v => cases hc
    | text t => cases hc
    | node m =>
      obtain rfl := Option.some.inj hc
      exact hlink m rfl

theorem Tidy.setLink (hn : n.Tidy) (hlink : ∀ c, link = .node c → c.Tidy) :
    (n.setLink name link).Tidy :=
  forall_nodes_setLink (fun _ _ h => h) hn hlink

theorem Fresh.setLink (hn : n.Fresh) (hlink : ∀ c, link = .node c → c.Fresh) :
    (n.setLink name link).Fresh :=
  forall_nodes_setLink (fun _ _ h => h) hn hlink

/-- What is put in a socket without handles takes the place of what was plugged in. -/
theorem handles_setLink (hlink : ∀ c, link = .node c → c.handles = []) :
    ((n.setLink name link).handles : Multiset (Handle Image)) + custody (n.plugged? name).toList =
      n.handles := by
  cases hs : n.socket? name with
  | none =>
    have hplugged : n.plugged? name = none := by
      rw [plugged?, hs]
      rfl
    rw [setLink_of_socket?_eq_none hs, hplugged]
    exact add_zero _
  | some s =>
    obtain rfl := name_of_socket? hs
    have hplugged : n.plugged? s.name = s.node? := by
      rw [plugged?, hs]
      rfl
    have hnone : custody (Socket.node? { s with link := link }).toList = 0 := by
      cases link with
      | literal v => rfl
      | text t => rfl
      | node c =>
        change custody {c} = 0
        rw [custody_singleton, hlink c rfl]
        rfl
    rw [← withSocket_eq_setLink hs, hplugged, handles_withSocket (s := { s with link := link }) hs,
      hnone, add_zero]

/-- A node has become another: these came into its tree, and those came out. -/
structure Trades (n n' : Node) (ins outs : Multiset Node) : Prop where
  tidy : n.Tidy → (∀ m ∈ ins, m.Tidy) → n'.Tidy ∧ ∀ m ∈ outs, m.Tidy
  handles_eq : (n'.handles : Multiset (Handle Image)) + custody outs =
    (n.handles : Multiset (Handle Image)) + custody ins

theorem trades_withSocket {s t : Socket Node} (ht : n.socket? s.name = some t) :
    Trades n (n.withSocket s) s.node?.toList t.node?.toList where
  tidy hn hins := by
    refine ⟨hn.withSocket fun c hc => hins c ?_, fun c hc => ?_⟩
    · simp [hc]
    · have hplugged : t.node? = some c := by simpa [eq_comm] using hc
      exact hn.of_plugged ht hplugged
  handles_eq := handles_withSocket ht

theorem trades_infer (n : Node) : Trades n n.infer 0 0 :=
  ⟨fun hn _ => ⟨hn.infer, fun m hm => absurd hm (Multiset.notMem_zero m)⟩, by rw [handles_infer]⟩

theorem trades_validate (n : Node) : Trades n n.validate 0 0 :=
  ⟨fun hn _ => ⟨hn.validate, fun m hm => absurd hm (Multiset.notMem_zero m)⟩, by
    rw [handles_validate]⟩

theorem trades_setLiteral {n n' : Node} {socket text : String} {tuple : Tuple} {old : Option Node}
    (h : n.setLiteral socket text = some (n', tuple, old)) : Trades n n' 0 old.toList := by
  obtain ⟨s, hs, heq⟩ := Option.map_eq_some_iff.mp h
  obtain rfl := name_of_socket? hs
  obtain ⟨rfl, -, rfl⟩ : n.withSocket (s.setLiteral text).1 = n' ∧ _ ∧ s.node? = old := by
    simpa using heq
  have htrade := trades_withSocket (s := (s.setLiteral text).1) (t := s) (n := n)
  rw [s.node?_setLiteral] at htrade
  exact htrade ((congrArg n.socket? (congrArg Prod.fst (s.declared_setLiteral text))).trans hs)

theorem trades_connect {n n' child : Node} {socket : String} {old : Option Node}
    (h : n.connect socket child = some (n', old)) : Trades n n' {child} old.toList := by
  obtain ⟨s, hs, heq⟩ := Option.map_eq_some_iff.mp h
  obtain rfl := name_of_socket? hs
  obtain ⟨rfl, rfl⟩ := Prod.mk.inj heq
  exact trades_withSocket (s := s.connect child) hs

theorem trades_disconnect {n n' : Node} {socket : String} {old : Option Node}
    (h : n.disconnect socket = some (n', old)) : Trades n n' 0 old.toList := by
  obtain ⟨s, hs, heq⟩ := Option.map_eq_some_iff.mp h
  obtain rfl := name_of_socket? hs
  obtain ⟨rfl, rfl⟩ := Prod.mk.inj heq
  have htrade := trades_withSocket (s := s.disconnect) (t := s) (n := n)
  rw [s.node?_disconnect] at htrade
  exact htrade ((congrArg n.socket? (congrArg Prod.fst s.declared_disconnect)).trans hs)

end Node

namespace Assembly

/-- What is under assembly and what came out of it hold some handles between them. -/
structure Spares (held : Multiset (Handle Image)) (a : Assembly) : Prop where
  tidy : a.node.Tidy
  tidy_displaced : ∀ d ∈ a.displaced, d.Tidy
  handles_eq : (a.node.handles : Multiset (Handle Image)) + custody a.displaced = held

theorem spares_start {n : Node} (hn : n.Tidy) : Spares n.handles (start n) :=
  ⟨hn, fun _ h => absurd h List.not_mem_nil, add_zero _⟩

theorem custody_eq_zero {ns : List Node} (h : ∀ n ∈ ns, n.handles = []) : custody ns = 0 := by
  rw [Node.custody_coe, List.flatMap_eq_nil_iff.mpr h]
  rfl

theorem Spares.clean {a : Assembly} (h : Spares 0 a) : (Effect.set (.node a.node) a.displaced
    a.report).Clean := by
  have hnone : ∀ k, k ∉ (a.node.handles : Multiset (Handle Image)) + custody a.displaced := by
    rw [h.handles_eq]
    exact Multiset.notMem_zero
  refine ⟨?_, fun d hd =>
    ⟨h.tidy_displaced d hd, List.eq_nil_iff_forall_not_mem.mpr fun k hk => ?_⟩⟩
  · rintro c ⟨⟩
    exact ⟨h.tidy, List.eq_nil_iff_forall_not_mem.mpr fun k hk =>
      hnone k (Multiset.mem_add.mpr (.inl hk))⟩
  · exact hnone k (Multiset.mem_add.mpr (.inr (Multiset.mem_bind.mpr ⟨d, hd, hk⟩)))

theorem Spares.take {held : Multiset (Handle Image)} {a : Assembly} (h : Spares held a)
    (name : String) {e : Effect} (he : e.Clean) : Spares held (a.take name e) := by
  cases e with
  | skip ws => exact ⟨h.tidy, h.tidy_displaced, h.handles_eq⟩
  | set link displaced ws =>
    obtain ⟨hlink, hdisplaced⟩ := he
    refine ⟨h.tidy.setLink fun c hc => (hlink c hc).1, fun d hd => ?_, ?_⟩
    · rcases List.mem_append.mp hd with hd | hd
      · rcases List.mem_append.mp hd with hd | hd
        · exact h.tidy_displaced d hd
        · have hplugged : a.node.plugged? name = some d := Option.mem_toList.mp hd
          exact (Node.tidy_iff.mp h.tidy).2 d (Node.mem_children_of_plugged? hplugged)
      · exact (hdisplaced d hd).1
    · have hset : ((a.node.setLink name link).handles : Multiset (Handle Image)) +
          custody (a.node.plugged? name).toList = a.node.handles :=
        Node.handles_setLink fun c hc => (hlink c hc).2
      have hzero := custody_eq_zero fun d hd => (hdisplaced d hd).2
      simp only [Assembly.take, ← Multiset.coe_add, Node.custody_add, hzero, add_zero]
      rw [add_left_comm, hset, add_comm]
      exact h.handles_eq

/-- What is assembled from fresh nodes one level down holds no handles. -/
theorem clean_effect {ctx : Context} (hctx : ctx.registry.Fresh) (templates : Templates)
    {assemble : Option (NodeDesc → String → Node → Assembly)}
    (hassemble : ∀ f, assemble = some f → ∀ desc path fresh, fresh.Fresh →
      Spares 0 (f desc path fresh))
    (path : String) (kind? : Option SocketKind) (property : String × PropertyValue) :
    (effect ctx templates assemble path kind? property).Clean := by
  rcases effect_cases ctx templates assemble path kind? property with ⟨ws, heq⟩ |
    ⟨link, ws, hlink, heq⟩ | ⟨f, desc, path', fresh, hf, hfresh, heq⟩
  · rw [heq]
    trivial
  · rw [heq]
    exact ⟨fun c hc => absurd hc (hlink c), fun d hd => absurd hd List.not_mem_nil⟩
  · rw [heq]
    exact (hassemble f hf desc path' fresh (hctx _ fresh hfresh)).clean

theorem Spares.foldl_take {held : Multiset (Handle Image)} {a : Assembly} (h : Spares held a)
    {es : List (String × Effect)} (hes : ∀ e ∈ es, e.2.Clean) :
    Spares held (es.foldl (fun a entry => a.take entry.1 entry.2) a) := by
  induction es generalizing a with
  | nil => exact h
  | cons entry es ih =>
    obtain ⟨hentry, hes⟩ := List.forall_mem_cons.mp hes
    exact ih (h.take entry.1 hentry) hes

theorem spares_effects {ctx : Context} (hctx : ctx.registry.Fresh) (templates : Templates)
    {assemble : Option (NodeDesc → String → Node → Assembly)}
    (hassemble : ∀ f, assemble = some f → ∀ desc path fresh, fresh.Fresh →
      Spares 0 (f desc path fresh))
    (desc : NodeDesc) (path : String) {target : Node} (htarget : target.Tidy) :
    Spares target.handles ((effects ctx templates assemble desc path target).foldl
      (fun a entry => a.take entry.1 entry.2) (start target)) := by
  refine (spares_start htarget).foldl_take fun e he => ?_
  obtain ⟨p, -, rfl⟩ := List.mem_map.mp he
  exact clean_effect hctx templates hassemble path _ p

/-- **Assembly brings no handles in and loses none.** -/
theorem spares_fill {ctx : Context} (hctx : ctx.registry.Fresh) (templates : Templates) (room : ℕ)
    (desc : NodeDesc) (path : String) {target : Node} (htarget : target.Tidy) :
    Spares target.handles (fill ctx templates room desc path target) := by
  induction room generalizing desc path target with
  | zero =>
    rw [fill_eq]
    exact spares_effects hctx templates (fun f hf => by cases hf) desc path htarget
  | succ room ih =>
    rw [fill_eq]
    refine spares_effects hctx templates (fun f hf desc path fresh hfresh => ?_) desc path htarget
    obtain rfl := Option.some.inj hf
    have hchild := ih desc path hfresh.tidy
    rwa [hfresh.handles_eq] at hchild

/-! ### Assembly keeps trees fresh -/

/-- What is put in a socket is fresh. -/
theorem fresh_effect {ctx : Context} (hctx : ctx.registry.Fresh) (templates : Templates)
    {assemble : Option (NodeDesc → String → Node → Assembly)}
    (hassemble : ∀ f, assemble = some f → ∀ desc path fresh, fresh.Fresh →
      (f desc path fresh).node.Fresh)
    (path : String) (kind? : Option SocketKind) (property : String × PropertyValue) {c : Node}
    (hc : (effect ctx templates assemble path kind? property).link? = some (.node c)) :
    c.Fresh := by
  rcases effect_cases ctx templates assemble path kind? property with ⟨ws, heq⟩ |
    ⟨link, ws, hlink, heq⟩ | ⟨f, desc, path', fresh, hf, hfresh, heq⟩
  · rw [heq] at hc
    cases hc
  · rw [heq] at hc
    exact absurd (Option.some.inj hc) (hlink c)
  · rw [heq] at hc
    obtain rfl : (f desc path' fresh).node = c := Link.node.inj (Option.some.inj hc)
    exact hassemble f hf desc path' fresh (hctx _ fresh hfresh)

theorem fresh_setLinks {n : Node} (hn : n.Fresh) {links : List (String × Link Node)}
    (hlinks : ∀ entry ∈ links, ∀ c, entry.2 = .node c → c.Fresh) : (n.setLinks links).Fresh := by
  induction links generalizing n with
  | nil => exact hn
  | cons entry rest ih =>
    obtain ⟨hentry, hrest⟩ := List.forall_mem_cons.mp hlinks
    exact ih (hn.setLink hentry) hrest

theorem fresh_effects {ctx : Context} (hctx : ctx.registry.Fresh) (templates : Templates)
    {assemble : Option (NodeDesc → String → Node → Assembly)}
    (hassemble : ∀ f, assemble = some f → ∀ desc path fresh, fresh.Fresh →
      (f desc path fresh).node.Fresh)
    (desc : NodeDesc) (path : String) {target : Node} (htarget : target.Fresh) :
    (target.setLinks (links (effects ctx templates assemble desc path target))).Fresh := by
  refine fresh_setLinks htarget fun entry hentry c hc => ?_
  obtain ⟨e, he, hput⟩ := List.mem_filterMap.mp hentry
  obtain ⟨p, -, rfl⟩ := List.mem_map.mp he
  obtain ⟨link, hlink, rfl⟩ := Option.map_eq_some_iff.mp hput
  obtain rfl : link = .node c := hc
  exact fresh_effect hctx templates hassemble path _ p hlink

/-- **What is assembled from fresh nodes is fresh.** -/
theorem fresh_fill {ctx : Context} (hctx : ctx.registry.Fresh) (templates : Templates) (room : ℕ)
    (desc : NodeDesc) (path : String) {target : Node} (htarget : target.Fresh) :
    (fill ctx templates room desc path target).node.Fresh := by
  induction room generalizing desc path target with
  | zero =>
    rw [node_fill]
    exact fresh_effects hctx templates (fun f hf => by cases hf) desc path htarget
  | succ room ih =>
    rw [node_fill]
    refine fresh_effects hctx templates (fun f hf desc path fresh hfresh => ?_) desc path htarget
    obtain rfl := Option.some.inj hf
    exact ih desc path hfresh

end Assembly

end ShadeTree
