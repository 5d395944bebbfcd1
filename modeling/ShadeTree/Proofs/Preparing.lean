import ShadeTree.Proofs.Custody
import ShadeTree.Proofs.Folding
import ShadeTree.Proofs.Validity

/-!
# Preparing again

What preparation leaves depends on the tree and on nothing that was found out about it before, as
long as preparation has not passed it yet: two fresh trees of the same design come out the same
(`Fresh.prepare_congr`). Of the textures it reads which are registered and not how many handles
there are to them (`processAt_sameButCounts`). What it has left stays, for it passes no node twice,
and validation finds the same again, because validation and preparation commute
(`processAt_validate`, `validate_prepared`).
-/

namespace ShadeTree

open List (Forall₂)

/-! ### Nodes plugged in and below -/

/-- A socket with a function applied to the node plugged in is related to the socket, when what the
function makes of that node is related to the node. -/
theorem Socket.rel_map {ν μ : Type} {R : μ → ν → Prop} {f : ν → μ} {s : Socket ν}
    (h : ∀ c, s.node? = some c → R (f c) c) : (s.map f).Rel R s := by
  refine ⟨rfl, rfl, ?_⟩
  obtain ⟨name, kind, link⟩ := s
  cases link with
  | literal v => exact .literal v
  | text t => exact .text t
  | node c => exact .node (h c rfl)

theorem Socket.Rel.imp {ν μ : Type} {R S : ν → μ → Prop} {s : Socket ν} {t : Socket μ}
    (h : s.Rel R t) (himp : ∀ c d, s.node? = some c → R c d → S c d) : s.Rel S t := by
  refine ⟨h.name_eq, h.kind_eq, ?_⟩
  obtain ⟨_, _, link⟩ := s
  obtain ⟨_, _, link'⟩ := t
  cases h.link with
  | literal v => exact .literal v
  | text t => exact .text t
  | node hR => exact .node (himp _ _ rfl hR)

/-- What holds of every node plugged in holds of the nodes they are related to. -/
theorem Socket.forall_plugged_iff {P Q : Node → Prop} {R : Node → Node → Prop}
    {ss ts : List (Socket Node)} (h : Forall₂ (Socket.Rel R) ss ts)
    (hPQ : ∀ c d, R c d → (P c ↔ Q d)) :
    (∀ c ∈ ss.filterMap Socket.node?, P c) ↔ ∀ d ∈ ts.filterMap Socket.node?, Q d := by
  induction h with
  | nil => simp
  | cons hst _ ih =>
    rcases optionRel_cases hst.node? with ⟨hs, ht⟩ | ⟨c, d, hs, ht, hcd⟩
    · rw [List.filterMap_cons_none hs, List.filterMap_cons_none ht, ih]
    · rw [List.filterMap_cons_some hs, List.filterMap_cons_some ht, List.forall_mem_cons,
        List.forall_mem_cons, ih, hPQ c d hcd]

/-- The sockets of a node are related to what preparation makes of them, when each node plugged in
is. -/
theorem Node.rel_processIn {R : Node → Node → Prop} (config : Config) (path : String)
    (sockets : List (Socket Node))
    (hchildren : ∀ c ∈ sockets.filterMap Socket.node?, ∀ path textures,
      R c (processAt config path c textures).1) (textures : Pool Image) :
    Forall₂ (Socket.Rel R) sockets (processIn config path sockets textures).1 := by
  induction sockets generalizing textures with
  | nil => exact .nil
  | cons s rest ih =>
    obtain ⟨name, kind, link⟩ := s
    cases link with
    | literal v => exact .cons ⟨rfl, rfl, .literal v⟩ (ih hchildren textures)
    | text t => exact .cons ⟨rfl, rfl, .text t⟩ (ih hchildren textures)
    | node c =>
      obtain ⟨hc, hrest⟩ := List.forall_mem_cons.mp hchildren
      exact .cons ⟨rfl, rfl, .node (hc _ textures)⟩ (ih hrest _)

theorem Node.mem_nodes_trans {k m n : Node} (hk : k ∈ m.nodes) (hm : m ∈ n.nodes) :
    k ∈ n.nodes := by
  induction n using Node.induction with
  | step n ih =>
    rcases Node.mem_nodes_iff.mp hm with rfl | ⟨c, hc, hm⟩
    · exact hk
    · exact Node.mem_nodes_iff.mpr (.inr ⟨c, hc, ih c hc hm⟩)

/-! ### Pools without their counts -/

namespace Pool

variable {α : Type}

/-- What is registered in a pool, without the counts. -/
def bare (p : Pool α) : Pool α := { p with slots := p.slots.map fun s => { s with refs := 0 } }

theorem bare_adjust (p : Pool α) (i : ℕ) (f : ℕ → ℕ) : (p.adjust i f).bare = p.bare := by
  have hslots : (p.adjust i f).bare.slots = p.bare.slots := by
    refine List.ext_getElem? fun j => ?_
    rw [bare, bare, List.getElem?_map, List.getElem?_map, slots_adjust, Option.map_map]
    refine Option.map_congr fun s _ => ?_
    simp only [Function.comp]
    split <;> rfl
  exact congrArg (Pool.mk p.kind p.isOpen · p.directory) hslots

/-- In pools that register the same, the same is found. -/
theorem find?_cases {p q : Pool α} (h : p.bare = q.bare) (name : String) :
    (p.find? name = none ∧ q.find? name = none) ∨
      ∃ k p' q', p.find? name = some (k, p') ∧ q.find? name = some (k, q') ∧
        p'.bare = p.bare ∧ q'.bare = q.bare := by
  obtain ⟨-, -, hslots, hdirectory⟩ := Pool.mk.inj h
  rw [find?, find?, ← hdirectory]
  cases p.directory.lookup name with
  | none => exact .inl ⟨rfl, rfl⟩
  | some i =>
    have hi := congrArg (·[i]?) hslots
    simp only [List.getElem?_map] at hi
    dsimp only
    cases hs : p.slots[i]? with
    | none =>
      rw [hs, Option.map_none, eq_comm, Option.map_eq_none_iff] at hi
      exact .inl ⟨rfl, by rw [hi]; rfl⟩
    | some s =>
      rw [hs, Option.map_some, eq_comm, Option.map_eq_some_iff] at hi
      obtain ⟨t, ht, hst⟩ := hi
      obtain ⟨hname, hvalue, -⟩ := Slot.mk.inj hst
      refine .inr ⟨⟨i, s.name, s.value⟩, _, q.adjust i (· + 1), rfl, ?_, bare_adjust p i _,
        bare_adjust q i _⟩
      rw [ht, Option.map_some, hname, hvalue]

end Pool

namespace Node

/-! ### Trees of one design -/

/-- Two nodes of one kind and type name, whose sockets agree in all but the nodes plugged in. -/
structure SameDesign (a b : Node) : Prop where
  kind_eq : a.kind = b.kind
  typeName_eq : a.typeName = b.typeName
  sockets_eq : a.sockets.map (Socket.map fun _ => ()) = b.sockets.map (Socket.map fun _ => ())

/-- Trees of the same design everywhere differ in nothing but what was found out about them. -/
theorem reset_eq_of_sameDesign {a b : Node} (h : Everywhere SameDesign a b) :
    a.reset = b.reset := by
  induction a using Node.induction generalizing b with
  | step a ih =>
    obtain ⟨kind_eq, typeName_eq, sockets_eq⟩ := h.root
    refine reset_eq_reset_iff.mpr ⟨kind_eq, typeName_eq, List.ext_getElem? fun i => ?_⟩
    have hi := congrArg (·[i]?) sockets_eq
    simp only [List.getElem?_map] at hi ⊢
    cases hs : a.sockets[i]? with
    | none =>
      rw [hs, Option.map_none, eq_comm, Option.map_eq_none_iff] at hi
      rw [hi]
    | some s =>
      rw [hs, Option.map_some, eq_comm, Option.map_eq_some_iff] at hi
      obtain ⟨t, ht, hst⟩ := hi
      rw [ht, Option.map_some, Option.map_some]
      have hbelow : ∀ rest, Option.Rel SameDesign (s.node?.bind (below? · rest))
          (t.node?.bind (below? · rest)) := by
        intro rest
        have hrest := h (i :: rest)
        rwa [below?, below?, hs, ht] at hrest
      have hmem : s ∈ a.sockets := List.mem_of_getElem? hs
      obtain ⟨name, kind, link⟩ := s
      obtain ⟨name', kind', link'⟩ := t
      cases link <;> cases link' <;>
        simp only [Socket.map, Link.map, Socket.mk.injEq, Link.literal.injEq, Link.text.injEq,
          reduceCtorEq, and_false] at hst
      case literal.literal => simp only [Socket.map, Link.map, hst]
      case text.text => simp only [Socket.map, Link.map, hst]
      case node.node c d =>
        have hchild : c.reset = d.reset := ih c (mem_children.mpr ⟨_, hmem, rfl⟩) hbelow
        simp only [Socket.map, Link.map, hst, hchild]

/-! ### Validating a fresh tree -/

/-- Of a fresh tree validation finds what it finds of the tree reset. -/
theorem Fresh.validate_eq {n : Node} (hn : n.Fresh) : n.validate = n.reset.validate := by
  induction n using Node.induction with
  | step n ih =>
    obtain ⟨⟨hprocessed, hprepared⟩, hchildren⟩ := forall_nodes_iff.mp hn
    obtain ⟨hmask, hvalid⟩ := validate_congr (reset_reset n).symm
    have hsockets : n.validate.sockets = n.reset.validate.sockets := by
      rw [sockets_validate, sockets_validate, sockets_reset, List.map_map]
      refine List.map_congr_left fun s hs => ?_
      obtain ⟨name, kind, link⟩ := s
      cases link with
      | literal v => rfl
      | text t => rfl
      | node c =>
        have hc : c ∈ n.children := mem_children.mpr ⟨_, hs, rfl⟩
        simp only [Function.comp, Socket.map, Link.map, ih c hc (hchildren c hc)]
    have hn' := ShadeTree.Node.validate_eq n
    have hreset := ShadeTree.Node.validate_eq n.reset
    dsimp only at hn' hreset
    rw [hn', hreset] at hmask hvalid hsockets ⊢
    rw [Node.mk.injEq]
    simp only at hmask hvalid hsockets
    rw [reset_eq] at hmask hvalid hsockets ⊢
    exact ⟨rfl, rfl, hmask, hvalid, rfl, hprocessed, hprepared, hsockets⟩

/-- Fresh trees of one design come out of preparation the same, with the same handles taken and the
same report. -/
theorem Fresh.prepare_congr {a b : Node} (ha : a.Fresh) (hb : b.Fresh)
    (h : Everywhere SameDesign a b) (config : Config) (textures : Pool Image) :
    a.validate.process config textures = b.validate.process config textures := by
  rw [ha.validate_eq, hb.validate_eq, reset_eq_of_sameDesign h]

/-! ### Validation and preparation commute -/

theorem validate_validate (n : Node) : n.validate.validate = n.validate := by
  induction n using Node.induction with
  | step n ih =>
    have hsockets : n.validate.sockets.map (Socket.map validate) = n.validate.sockets := by
      rw [sockets_validate, List.map_map]
      refine List.map_congr_left fun s hs => ?_
      obtain ⟨name, kind, link⟩ := s
      cases link with
      | literal v => rfl
      | text t => rfl
      | node c =>
        simp only [Function.comp, Socket.map, Link.map, ih c (mem_children.mpr ⟨_, hs, rfl⟩)]
    obtain ⟨hmask, hvalid⟩ := validate_congr (reset_validate n)
    rw [validate_eq n.validate] at hmask hvalid ⊢
    dsimp only at hmask hvalid ⊢
    rw [hmask, hvalid, hsockets]
    rw [validate_eq]

/-- Validation does not change what a node resolves to. -/
theorem resolve_validate (n : Node) (p : ShadingPoint) : n.validate.resolve p = n.resolve p := by
  induction n using Node.induction with
  | step n ih =>
    have hsockets : Forall₂ (Socket.Rel fun a b => a.resolve p = b.resolve p) n.validate.sockets
        n.sockets := by
      rw [sockets_validate, List.forall₂_map_left_iff, List.forall₂_same]
      exact fun s hs => Socket.rel_map fun c hc => ih c (mem_children.mpr ⟨s, hs, hc⟩)
    exact resolve_congr (kind_validate n) (prepared_validate n) (fun _ => rfl)
      (input_congr (fun _ _ h => h) hsockets)

theorem isFoldable_validate (n : Node) : n.validate.isFoldable = n.isFoldable := by
  have hfolded : ∀ c : Node, c.validate.folded? = c.folded? := fun c => by
    rw [folded?, prepared_validate, folded?]
  rw [isFoldable, kind_validate, children_map sockets_validate, List.all_map, isFoldable]
  simp only [Function.comp_def, hfolded]

theorem settle_of_output (config : Config) (path : String) {n : Node} (textures : Pool Image)
    (h : n.kind = .output) : settle config path n textures =
      ({ n with prepared := .fallback config.fallbackColor }, textures, []) := by
  rw [settle, h]

theorem settle_of_imageTexture (config : Config) (path : String) {n : Node} (textures : Pool Image)
    (h : n.kind = .imageTexture) : settle config path n textures =
      match textures.find? n.textureName with
      | some (k, textures) => ({ n with prepared := .texture (some k) }, textures, [])
      | none =>
        ({ n with prepared := .texture none }, textures, [.missingTexture path n.textureName]) := by
  obtain ⟨kind, _, _, _, _, _, _, _⟩ := n
  obtain rfl : kind = .imageTexture := h
  rfl

/-- What preparation leaves on a node it leaves on the node validated. -/
theorem settle_validate (config : Config) (path : String) (n : Node) (textures : Pool Image) :
    settle config path n.validate textures =
      ((settle config path n textures).1.validate, (settle config path n textures).2) := by
  have hleave : ∀ prepared : Prepared,
      ({ n.validate with prepared := prepared } : Node) =
        ({ n with prepared := prepared } : Node).validate := fun prepared => by
    rw [validate_eq, validate_eq]
    rfl
  have htexture : n.validate.textureName = n.textureName :=
    textureName_eq_of_reset_eq (reset_validate n)
  by_cases houtput : n.kind = .output
  · rw [settle_of_output config path textures houtput,
      settle_of_output config path textures (by rwa [kind_validate]), hleave]
  by_cases himage : n.kind = .imageTexture
  · rw [settle_of_imageTexture config path textures himage,
      settle_of_imageTexture config path textures (by rwa [kind_validate]), htexture]
    cases textures.find? n.textureName <;> simp only [hleave]
  · rw [settle_of_plain config path textures houtput himage,
      settle_of_plain config path textures (by rwa [kind_validate]) (by rwa [kind_validate]),
      isFoldable_validate, resolve_validate, hleave]
    split <;> rfl

theorem processIn_validate (config : Config) (path : String) (sockets : List (Socket Node))
    (hchildren : ∀ c ∈ sockets.filterMap Socket.node?, ∀ path textures,
      processAt config path c.validate textures =
        ((processAt config path c textures).1.validate, (processAt config path c textures).2))
    (textures : Pool Image) :
    processIn config path (sockets.map (Socket.map validate)) textures =
      ((processIn config path sockets textures).1.map (Socket.map validate),
        (processIn config path sockets textures).2) := by
  induction sockets generalizing textures with
  | nil => rfl
  | cons s rest ih =>
    obtain ⟨name, kind, link⟩ := s
    cases link with
    | literal v => simp only [List.map_cons, Socket.map, Link.map, processIn, ih hchildren]
    | text t => simp only [List.map_cons, Socket.map, Link.map, processIn, ih hchildren]
    | node c =>
      obtain ⟨hc, hrest⟩ := List.forall_mem_cons.mp hchildren
      simp only [List.map_cons, Socket.map, Link.map, processIn, typeName_validate, hc, ih hrest]

/-- **Validation and preparation commute.** -/
theorem processAt_validate (config : Config) (path : String) (n : Node) (textures : Pool Image) :
    processAt config path n.validate textures =
      ((processAt config path n textures).1.validate, (processAt config path n textures).2) := by
  induction n using Node.induction generalizing path textures with
  | step n ih =>
    rw [processAt_eq, processAt_eq, processed_validate]
    cases n.processed with
    | true => rfl
    | false =>
      rw [if_neg Bool.false_ne_true, if_neg Bool.false_ne_true, sockets_validate,
        processIn_validate config path n.sockets ih]
      let m : Node :=
        { n with processed := true, sockets := (processIn config path n.sockets textures).1 }
      have hreset : m.reset = n.reset := reset_eq_reset_iff.mpr ⟨rfl, rfl,
        map_reset_processIn config path n.sockets
          (fun c _ path t => reset_processAt config path c t) textures⟩
      have hnode : ({ n.validate with
          processed := true, sockets := m.sockets.map (Socket.map validate) } : Node) =
            m.validate := by
        obtain ⟨hmask, hvalid⟩ := validate_congr hreset
        rw [validate_eq m] at hmask hvalid ⊢
        dsimp only at hmask hvalid ⊢
        rw [hmask, hvalid, validate_eq n]
      dsimp only
      rw [hnode, settle_validate]

/-! ### What preparation reads of the textures -/

/-- Two results of one operation on pools that register what `p` registers: they differ at most in
the handles that their pools count, and register the same still. -/
structure SameButCounts {β : Type} (p : Pool Image) (x y : β × Pool Image × Report) : Prop where
  value_eq : x.1 = y.1
  report_eq : x.2.2 = y.2.2
  left : x.2.1.bare = p.bare
  right : y.2.1.bare = p.bare

section Counts

variable {p q : Pool Image} (h : p.bare = q.bare)

include h

theorem settle_sameButCounts (config : Config) (path : String) (n : Node) :
    SameButCounts p (settle config path n p) (settle config path n q) := by
  by_cases houtput : n.kind = .output
  · rw [settle_of_output config path p houtput, settle_of_output config path q houtput]
    exact ⟨rfl, rfl, rfl, h.symm⟩
  by_cases himage : n.kind = .imageTexture
  · rw [settle_of_imageTexture config path p himage, settle_of_imageTexture config path q himage]
    rcases Pool.find?_cases h n.textureName with ⟨hp, hq⟩ | ⟨k, p', q', hp, hq, hp', hq'⟩
    · rw [hp, hq]
      exact ⟨rfl, rfl, rfl, h.symm⟩
    · rw [hp, hq]
      exact ⟨rfl, rfl, hp', hq'.trans h.symm⟩
  · rw [settle_of_plain config path p houtput himage, settle_of_plain config path q houtput himage]
    exact ⟨rfl, rfl, rfl, h.symm⟩

theorem processIn_sameButCounts (config : Config) (path : String) (sockets : List (Socket Node))
    (hchildren : ∀ c ∈ sockets.filterMap Socket.node?, ∀ path (p q : Pool Image),
      p.bare = q.bare → SameButCounts p (processAt config path c p) (processAt config path c q)) :
    SameButCounts p (processIn config path sockets p) (processIn config path sockets q) := by
  induction sockets generalizing p q with
  | nil => exact ⟨rfl, rfl, rfl, h.symm⟩
  | cons s rest ih =>
    obtain ⟨name, kind, link⟩ := s
    cases link with
    | literal v =>
      obtain ⟨hvalue, hreport, hleft, hright⟩ := ih h hchildren
      simp only [processIn]
      exact ⟨by rw [hvalue], hreport, hleft, hright⟩
    | text t =>
      obtain ⟨hvalue, hreport, hleft, hright⟩ := ih h hchildren
      simp only [processIn]
      exact ⟨by rw [hvalue], hreport, hleft, hright⟩
    | node c =>
      obtain ⟨hc, hrest⟩ := List.forall_mem_cons.mp hchildren
      have hfirst := hc (childPath path name c.typeName) p q h
      have hothers := ih (hfirst.left.trans hfirst.right.symm) hrest
      simp only [processIn]
      exact ⟨by rw [hfirst.value_eq, hothers.value_eq], by rw [hfirst.report_eq, hothers.report_eq],
        hothers.left.trans hfirst.left, hothers.right.trans hfirst.left⟩

/-- Preparation reads what textures are registered, not how many handles there are to them. -/
theorem processAt_sameButCounts (config : Config) (path : String) (n : Node) :
    SameButCounts p (processAt config path n p) (processAt config path n q) := by
  induction n using Node.induction generalizing path p q with
  | step n ih =>
    rw [processAt_eq, processAt_eq]
    cases n.processed with
    | true => exact ⟨rfl, rfl, rfl, h.symm⟩
    | false =>
      rw [if_neg Bool.false_ne_true, if_neg Bool.false_ne_true]
      have hbelow := processIn_sameButCounts h config path n.sockets fun c hc path p q h =>
        ih c hc h path
      have hown := settle_sameButCounts (hbelow.left.trans hbelow.right.symm) config path
        { n with processed := true, sockets := (processIn config path n.sockets p).1 }
      dsimp only
      rw [← hbelow.value_eq]
      exact ⟨hown.value_eq, by rw [hown.report_eq, hbelow.report_eq],
        hown.left.trans hbelow.left, hown.right.trans hbelow.left⟩

end Counts

/-! ### What is prepared stays as it is -/

theorem processed_processAt (config : Config) (path : String) (n : Node) (textures : Pool Image) :
    (processAt config path n textures).1.processed = true := by
  rw [processAt_eq]
  cases hprocessed : n.processed with
  | true => exact hprocessed
  | false =>
    rw [if_neg Bool.false_ne_true]
    dsimp only
    rw [settle_fst]

theorem valid_processAt (config : Config) (path : String) (n : Node) (textures : Pool Image) :
    (processAt config path n textures).1.valid = n.valid := by
  rw [processAt_eq]
  split
  · rfl
  · dsimp only
    rw [settle_fst]

theorem process_of_processed {n : Node} (h : n.processed = true) (config : Config)
    (textures : Pool Image) : n.process config textures = (n, textures, []) := by
  rw [process, processAt_eq, if_pos h]

/-- What was validated before it was prepared is found the same when it is validated again. -/
theorem validate_prepared (config : Config) (n : Node) (textures : Pool Image) :
    (n.validate.process config textures).1.validate = (n.validate.process config textures).1 := by
  have hcommute := processAt_validate config n.validate.typeName n.validate textures
  rw [validate_validate] at hcommute
  exact (congrArg Prod.fst hcommute).symm

end Node

end ShadeTree
