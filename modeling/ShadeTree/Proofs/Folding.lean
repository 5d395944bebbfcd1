import ShadeTree.Proofs.Tree

/-!
# Folding is transparent

Preparation may fold a value node that does not vary to the value it resolves to. This module proves
that nothing seen from outside depends on it: a tree prepared with folding and the same tree
prepared without it shade alike at every node, with the same report and the same textures taken
(`process_fold_transparent`). Nothing is asked of the tree: it may be ill typed, and parts of it may
have been prepared before.

The reason is `resolve_eq_of_isFoldable`: a node is folded only when it does not read the shading
point by itself and everything plugged into it was folded, so one point is as good as another. The
rest is an induction over the tree in which the two runs are compared socket by socket (`Twins`).
-/

namespace ShadeTree

open List (Forall₂)

/-! ### What shading reads of a node -/

section Congruence

variable {R : Node → Node → Prop} {p q : ShadingPoint}

theorem Socket.Rel.resolve_eq (hR : ∀ a b, R a b → a.resolve p = b.resolve q) {s t : Socket Node}
    (h : s.Rel R t) : s.resolve p = t.resolve q := by
  obtain ⟨_, _, link⟩ := s
  obtain ⟨_, _, link'⟩ := t
  cases h.link with
  | literal => rfl
  | text => rfl
  | node hab => exact hR _ _ hab

theorem Socket.Rel.compose_eq {weight : Spectrum} {bsdf : Bsdf}
    (hR : ∀ a b, R a b → a.compose p weight bsdf = b.compose q weight bsdf) {s t : Socket Node}
    (h : s.Rel R t) : s.compose p weight bsdf = t.compose q weight bsdf := by
  obtain ⟨_, _, link⟩ := s
  obtain ⟨_, _, link'⟩ := t
  cases h.link with
  | literal => rfl
  | text => rfl
  | node hab => exact hR _ _ hab

theorem Socket.Rel.text?_eq {s t : Socket Node} (h : s.Rel R t) : s.text? = t.text? := by
  obtain ⟨_, _, link⟩ := s
  obtain ⟨_, _, link'⟩ := t
  cases h.link <;> rfl

namespace Node

theorem input_congr (hR : ∀ a b, R a b → a.resolve p = b.resolve q) {ss ts : List (Socket Node)}
    (h : Forall₂ (Socket.Rel R) ss ts) (name : String) : input ss name p = input ts name q := by
  rw [input_eq, input_eq]
  rcases optionRel_cases (Socket.rel_find? h name) with ⟨hs, ht⟩ | ⟨s, t, hs, ht, hst⟩
  · rw [hs, ht, Option.map_none, Option.map_none]
  · rw [hs, ht, Option.map_some, Option.map_some, hst.resolve_eq hR]

theorem composeInput_congr
    (hR : ∀ a b, R a b → ∀ weight bsdf, a.compose p weight bsdf = b.compose q weight bsdf)
    {ss ts : List (Socket Node)} (h : Forall₂ (Socket.Rel R) ss ts) (name : String)
    (weight : Spectrum) (bsdf : Bsdf) :
    composeInput ss name p weight bsdf = composeInput ts name q weight bsdf := by
  rw [composeInput_eq, composeInput_eq]
  rcases optionRel_cases (Socket.rel_find? h name) with ⟨hs, ht⟩ | ⟨s, t, hs, ht, hst⟩
  · rw [hs, ht, Option.map_none, Option.map_none]
  · rw [hs, ht, Option.map_some, Option.map_some,
      hst.compose_eq fun a b hab => hR a b hab weight bsdf]

/-- A node resolves by its kind, what preparation left on it and its inputs, and reads the shading
point only when its kind varies. -/
theorem resolve_congr {a b : Node} (kind_eq : a.kind = b.kind)
    (prepared_eq : a.prepared = b.prepared) (point_eq : a.kind.intrinsic.varying = true → p = q)
    (inputs : ∀ name, input a.sockets name p = input b.sockets name q) :
    a.resolve p = b.resolve q := by
  obtain ⟨kind, _, _, _, _, _, prepared, sockets⟩ := a
  obtain ⟨_, _, _, _, _, _, _, sockets'⟩ := b
  dsimp only at kind_eq prepared_eq point_eq inputs
  subst kind_eq prepared_eq
  cases hv : kind.intrinsic.varying with
  | true =>
    obtain rfl := point_eq hv
    cases prepared <;> cases kind <;> simp [resolve, inputs]
  | false =>
    cases prepared <;> cases kind <;>
      simp [resolve, inputs, NodeKind.intrinsic, Capability.none] at hv ⊢

/-- A node composes by its kind, its inputs and what is plugged in; its validity and what
preparation left on it count for an output only. By itself it does not read the shading point. -/
theorem compose_congr {a b : Node} (kind_eq : a.kind = b.kind)
    (output_eq : a.kind = .output → a.valid = b.valid ∧ a.prepared = b.prepared)
    (inputs : ∀ name, input a.sockets name p = input b.sockets name q)
    (composed : ∀ name weight bsdf,
      composeInput a.sockets name p weight bsdf = composeInput b.sockets name q weight bsdf)
    (weight : Spectrum) (bsdf : Bsdf) : a.compose p weight bsdf = b.compose q weight bsdf := by
  obtain ⟨kind, _, _, valid, _, _, prepared, sockets⟩ := a
  obtain ⟨_, _, _, _, _, _, _, sockets'⟩ := b
  dsimp only at kind_eq output_eq inputs composed
  subst kind_eq
  cases kind with
  | output =>
    obtain ⟨rfl, rfl⟩ := output_eq rfl
    simp only [compose, composed]
  | _ => simp only [compose, scatter?, colorInput, scalarInput, blendFactor, inputs, composed]

end Node

end Congruence

namespace Node

/-! ### What can be folded does not read the point -/

theorem resolve_of_folded? {n : Node} {v : Value} (h : n.folded? = some v) (p : ShadingPoint) :
    n.resolve p = v := by
  obtain ⟨kind, _, _, _, _, _, prepared, sockets⟩ := n
  cases prepared with
  | folded w =>
    simp only [folded?, Option.some.injEq] at h
    simp only [resolve, h]
  | none => simp [folded?] at h
  | texture => simp [folded?] at h
  | fallback => simp [folded?] at h

/-- **What can be folded is constant**: it resolves to one value, whichever point is shaded. -/
theorem resolve_eq_of_isFoldable {n : Node} (h : n.isFoldable = true) (p q : ShadingPoint) :
    n.resolve p = n.resolve q := by
  simp only [isFoldable, Bool.and_eq_true, Bool.not_eq_true', List.all_eq_true] at h
  obtain ⟨⟨-, hvarying⟩, hchildren⟩ := h
  have hsockets :
      Forall₂ (Socket.Rel fun a b => a.resolve p = b.resolve q) n.sockets n.sockets := by
    refine rel_sockets_self fun c hc => ?_
    obtain ⟨v, hv⟩ := Option.isSome_iff_exists.mp (hchildren c hc)
    rw [resolve_of_folded? hv, resolve_of_folded? hv]
  exact resolve_congr rfl rfl (fun hv => by simp [hvarying] at hv)
    (input_congr (fun _ _ hab => hab) hsockets)

/-! ### Two runs side by side -/

/-- Two nodes cannot be told apart by shading, and hold the same texture. -/
structure ShadesAs (a b : Node) : Prop where
  kind_eq : a.kind = b.kind
  resolve_eq : ∀ p, a.resolve p = b.resolve p
  compose_eq : ∀ p weight bsdf, a.compose p weight bsdf = b.compose p weight bsdf
  texture_eq : a.kind = .imageTexture → a.texture? = b.texture?

theorem ShadesAs.refl (a : Node) : ShadesAs a a :=
  ⟨rfl, fun _ => rfl, fun _ _ _ => rfl, fun _ => rfl⟩

/-- Two nodes that differ only below, where what is plugged into one shades as what is plugged into
the other. -/
structure Twins (a b : Node) : Prop where
  kind_eq : a.kind = b.kind
  valid_eq : a.valid = b.valid
  prepared_eq : a.prepared = b.prepared
  sockets : Forall₂ (Socket.Rel (Everywhere ShadesAs)) a.sockets b.sockets

namespace Twins

variable {a b : Node}

theorem input_eq (h : Twins a b) (p : ShadingPoint) (name : String) :
    input a.sockets name p = input b.sockets name p :=
  input_congr (fun _ _ hab => hab.root.resolve_eq p) h.sockets name

theorem composeInput_eq (h : Twins a b) (p : ShadingPoint) (name : String) (weight : Spectrum)
    (bsdf : Bsdf) :
    composeInput a.sockets name p weight bsdf = composeInput b.sockets name p weight bsdf :=
  composeInput_congr (fun _ _ hab => hab.root.compose_eq p) h.sockets name weight bsdf

theorem shadesAs (h : Twins a b) : ShadesAs a b where
  kind_eq := h.kind_eq
  resolve_eq p := resolve_congr h.kind_eq h.prepared_eq (fun _ => rfl) (h.input_eq p)
  compose_eq p := compose_congr h.kind_eq (fun _ => ⟨h.valid_eq, h.prepared_eq⟩) (h.input_eq p)
    (h.composeInput_eq p)
  texture_eq _ := by rw [texture?, texture?, h.prepared_eq]

theorem everywhere (h : Twins a b) : Everywhere ShadesAs a b := .of_sockets h.shadesAs h.sockets

theorem textureName_eq (h : Twins a b) : a.textureName = b.textureName := by
  rw [textureName, textureName, socket?, socket?]
  rcases optionRel_cases (Socket.rel_find? h.sockets "Texture") with ⟨hs, ht⟩ | ⟨s, t, hs, ht, hst⟩
  · rw [hs, ht]
  · rw [hs, ht, Option.bind_some, Option.bind_some, hst.text?_eq]

/-- Folding one of the two leaves them alike. -/
theorem everywhere_fold (h : Twins a b) (hfold : a.isFoldable = true) :
    Everywhere ShadesAs { a with prepared := .folded (a.resolve .origin) } b := by
  refine .of_sockets ⟨h.kind_eq, fun p => ?_, fun p weight bsdf => ?_, fun htexture => ?_⟩ h.sockets
  · calc ({ a with prepared := .folded (a.resolve .origin) } : Node).resolve p
        = a.resolve .origin := resolve_of_folded? rfl p
      _ = a.resolve p := resolve_eq_of_isFoldable hfold _ _
      _ = b.resolve p := h.shadesAs.resolve_eq p
  · refine compose_congr (a := { a with prepared := .folded (a.resolve .origin) }) h.kind_eq
      (fun houtput => ?_) (h.input_eq p) (h.composeInput_eq p) weight bsdf
    rw [isFoldable, show a.kind = .output from houtput] at hfold
    cases hfold
  · rw [isFoldable, show a.kind = .imageTexture from htexture] at hfold
    cases hfold

end Twins

/-- What preparation leaves on a node that is neither an output nor an image texture. -/
theorem settle_of_plain (config : Config) (path : String) {n : Node} (textures : Pool Image)
    (houtput : n.kind ≠ .output) (htexture : n.kind ≠ .imageTexture) :
    settle config path n textures =
      (if config.foldConstants && n.isFoldable then
        { n with prepared := .folded (n.resolve .origin) } else n, textures, []) := by
  rw [settle]
  split
  · exact absurd ‹_› houtput
  · exact absurd ‹_› htexture
  · split <;> rfl

/-- The sockets of a node prepared in both ways, when each node plugged in comes out alike. -/
theorem processIn_alike {folding plain : Config} (sockets : List (Socket Node))
    (hchildren : ∀ c ∈ sockets.filterMap Socket.node?, ∀ path textures,
      Everywhere ShadesAs (processAt folding path c textures).1
          (processAt plain path c textures).1 ∧
        (processAt folding path c textures).2 = (processAt plain path c textures).2)
    (path : String) (textures : Pool Image) :
    Forall₂ (Socket.Rel (Everywhere ShadesAs)) (processIn folding path sockets textures).1
        (processIn plain path sockets textures).1 ∧
      (processIn folding path sockets textures).2 = (processIn plain path sockets textures).2 := by
  induction sockets generalizing textures with
  | nil => exact ⟨.nil, rfl⟩
  | cons s rest ih =>
    obtain ⟨name, kind, link⟩ := s
    cases link with
    | literal v =>
      obtain ⟨hrest, heq⟩ := ih hchildren textures
      simp only [processIn, heq, and_true]
      exact .cons ⟨rfl, rfl, .literal v⟩ hrest
    | text t =>
      obtain ⟨hrest, heq⟩ := ih hchildren textures
      simp only [processIn, heq, and_true]
      exact .cons ⟨rfl, rfl, .text t⟩ hrest
    | node c =>
      obtain ⟨hc, hrest⟩ := List.forall_mem_cons.mp hchildren
      obtain ⟨hchild, hchild_eq⟩ := hc (childPath path name c.typeName) textures
      obtain ⟨hrest, hrest_eq⟩ := ih hrest
        (processAt plain (childPath path name c.typeName) c textures).2.1
      simp only [processIn, hchild_eq, hrest_eq, and_true]
      exact .cons ⟨rfl, rfl, .node hchild⟩ hrest

section TwoRuns

variable {folding plain : Config} (hfallback : folding.fallbackColor = plain.fallbackColor)
  (hplain : plain.foldConstants = false)

include hfallback hplain

/-- Settling twins, one of them with folding, leaves them alike and does the same to the pool. -/
theorem Twins.settle {a b : Node} (h : Twins a b) (path : String) (textures : Pool Image) :
    Everywhere ShadesAs (settle folding path a textures).1 (settle plain path b textures).1 ∧
      (Node.settle folding path a textures).2 = (Node.settle plain path b textures).2 := by
  by_cases houtput : a.kind = .output
  · have houtput' : b.kind = .output := h.kind_eq ▸ houtput
    simp only [Node.settle, houtput, houtput', hfallback, and_true]
    exact everywhere ⟨rfl, h.valid_eq, rfl, h.sockets⟩
  by_cases htexture : a.kind = .imageTexture
  · have htexture' : b.kind = .imageTexture := h.kind_eq ▸ htexture
    simp only [Node.settle, htexture, htexture', h.textureName_eq]
    cases textures.find? b.textureName with
    | none => exact ⟨everywhere ⟨rfl, h.valid_eq, rfl, h.sockets⟩, rfl⟩
    | some found => exact ⟨everywhere ⟨rfl, h.valid_eq, rfl, h.sockets⟩, rfl⟩
  · rw [settle_of_plain folding path textures houtput htexture,
      settle_of_plain plain path textures (h.kind_eq ▸ houtput) (h.kind_eq ▸ htexture), hplain]
    refine ⟨?_, rfl⟩
    cases hfold : folding.foldConstants && a.isFoldable with
    | false => exact h.everywhere
    | true =>
      rw [Bool.and_eq_true] at hfold
      exact h.everywhere_fold hfold.2

theorem processAt_alike (n : Node) (path : String) (textures : Pool Image) :
    Everywhere ShadesAs (processAt folding path n textures).1 (processAt plain path n textures).1 ∧
      (processAt folding path n textures).2 = (processAt plain path n textures).2 := by
  induction n using Node.induction generalizing path textures with
  | step n ih =>
    rw [processAt_eq, processAt_eq]
    cases n.processed with
    | true => exact ⟨.refl ShadesAs.refl n, rfl⟩
    | false =>
      obtain ⟨hsockets, hbelow⟩ := processIn_alike n.sockets ih path textures
      have htwins :
          Twins
            { n with processed := true, sockets := (processIn folding path n.sockets textures).1 }
            { n with processed := true, sockets := (processIn plain path n.sockets textures).1 } :=
        ⟨rfl, rfl, rfl, hsockets⟩
      obtain ⟨hnode, hown⟩ := htwins.settle hfallback hplain path
        (processIn plain path n.sockets textures).2.1
      simp only [Bool.false_eq_true, if_false, hbelow, hown, and_true]
      exact hnode

end TwoRuns

/-- **Folding is transparent**: prepare a validated tree with folding, and the same tree without it.
At corresponding positions the nodes resolve to the same value and compose the same lobes at every
point, and hold the same texture. The two runs report the same and leave the same pool. -/
theorem process_fold_transparent (config : Config) (n : Node) (textures : Pool Image) :
    let folded := n.validate.process { config with foldConstants := true } textures
    let plain := n.validate.process { config with foldConstants := false } textures
    Everywhere ShadesAs folded.1 plain.1 ∧ folded.2 = plain.2 :=
  have hfallback : ({ config with foldConstants := true } : Config).fallbackColor =
      ({ config with foldConstants := false } : Config).fallbackColor := rfl
  processAt_alike hfallback rfl n.validate n.validate.typeName textures

end Node

end ShadeTree
