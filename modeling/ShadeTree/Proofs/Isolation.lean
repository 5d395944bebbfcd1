import ShadeTree.Graph
import ShadeTree.Proofs.Inlining
import ShadeTree.Proofs.Visibility

/-!
# Materials apart from each other

The materials of a library share templates, and a reference in one may lead from template to
template. What a material comes to hangs on the templates so reached and on nothing else that the
library holds: not on its other templates, nor on its other materials.

The names that are reached are a closed set: it has the names the material mentions, and with each
name those that the template under it mentions (`GraphDesc.Reaches`). Assembly looks up no other
name, at whatever depth it is cut off, so two sets of templates that agree on a closed set assemble
to the same tree by the same report (`Assembly.fill_congr`).

`LibrarySource.materials_isolated` puts this together with what a material sees: for every library
that an XML or JSON document gives, and each of its materials.
-/

namespace ShadeTree

/-! ### Names that are reached -/

/-- A description mentions a name: a reference to it stands in a property, or in a node described
within. -/
inductive NodeDesc.Mentions : NodeDesc → String → Prop where
  /-- It stands in a property. -/
  | reference {d : NodeDesc} {key name : String} (h : (key, .reference name) ∈ d.properties) :
    Mentions d name
  /-- It stands in a node that a property describes. -/
  | within {d sub : NodeDesc} {key name : String} (h : (key, .node sub) ∈ d.properties)
    (hsub : Mentions sub name) : Mentions d name

/-- A name is reached from a description by way of the templates that are visible to it. -/
inductive GraphDesc.Reaches (g : GraphDesc) : String → Prop where
  /-- The description mentions it. -/
  | mention {name : String} (h : g.output.Mentions name) : Reaches g name
  /-- The template under a name that is reached mentions it. -/
  | through {via name : String} {body : NodeDesc} (hvia : Reaches g via)
    (hbody : g.templates.get? via = some body) (h : body.Mentions name) : Reaches g name

/-! ### Templates that agree -/

namespace Assembly

variable {ctx : Context} {templates templates' : Templates} {S : String → Prop}

/-- Properties have the same effects by templates that agree on the names the description mentions,
when what these lead to assembles alike. -/
theorem effects_congr_of_agree {assemble assemble' : Option (NodeDesc → String → Node → Assembly)}
    {d : NodeDesc} (hagree : ∀ name, d.Mentions name → templates'.get? name = templates.get? name)
    {path : String} {target : Node}
    (hplug : ∀ p ∈ d.properties, ∀ sub, p.2.subject? templates = some sub →
      plugEffect ctx assemble' path p.1 sub = plugEffect ctx assemble path p.1 sub) :
    effects ctx templates' assemble' d path target =
      effects ctx templates assemble d path target := by
  refine List.map_congr_left fun p hp => congrArg (p.1, ·) ?_
  have hsubject : p.2.subject? templates' = p.2.subject? templates := by
    obtain ⟨key, value⟩ := p
    cases value with
    | reference name => exact hagree name (.reference hp)
    | _ => rfl
  cases hsub : p.2.subject? templates with
  | none => exact effect_of_subject?_eq_none (hsubject.trans hsub) hsub _ _ _ _ _
  | some sub =>
    obtain ⟨key, value⟩ := p
    rw [effect_of_subject? (hsubject.trans hsub), effect_of_subject? hsub]
    cases target.socketKind? key with
    | none => rfl
    | some kind => simp only [nodeEffect, hplug _ hp sub hsub]

/-- **Assembly looks up what is reached only**: templates that agree on a closed set of names
assemble alike whatever mentions no other name, with any room left. -/
theorem fill_congr (hagree : ∀ name, S name → templates'.get? name = templates.get? name)
    (hclosed : ∀ via body, S via → templates.get? via = some body →
      ∀ name, body.Mentions name → S name)
    (room : ℕ) {d : NodeDesc} (hd : ∀ name, d.Mentions name → S name) (path : String)
    (target : Node) :
    fill ctx templates' room d path target = fill ctx templates room d path target := by
  induction room generalizing d path target with
  | zero =>
    rw [fill_eq, fill_eq, effects_congr_of_agree fun name h => hagree name (hd name h)]
    exact fun _ _ _ _ => rfl
  | succ room ih =>
    -- what a property leads to mentions names of the set only: the node stands in `d`, the template
    -- is under a name of the set
    have hsub : ∀ p ∈ d.properties, ∀ sub, p.2.subject? templates = some sub →
        ∀ name, sub.Mentions name → S name := by
      rintro ⟨key, value⟩ hp sub hsub name hname
      cases value with
      | node within =>
        obtain rfl := Option.some.inj hsub
        exact hd name (.within hp hname)
      | reference via => exact hclosed via sub (hd via (.reference hp)) hsub name hname
      | literal text => cases hsub
      | missing what => cases hsub
      | invalid reason => cases hsub
    rw [fill_eq, fill_eq, effects_congr_of_agree fun name h => hagree name (hd name h)]
    intro p hp sub hsubject
    simp only [deeper, plugEffect]
    cases ctx.registry.create? sub.nodeType with
    | none => rfl
    | some fresh => simp only [ih (hsub p hp sub hsubject)]

end Assembly

/-- A graph is built by the templates that are reached alone. -/
theorem Graph.ofDesc_congr (ctx : Context) (g : GraphDesc) {templates : Templates}
    (h : ∀ name, g.Reaches name → templates.get? name = g.templates.get? name) :
    Graph.ofDesc ctx { g with templates := templates } = Graph.ofDesc ctx g := by
  have hassemble : ctx.assemble templates g.output (.new .output) =
      ctx.assemble g.templates g.output (.new .output) :=
    Assembly.fill_congr h (fun _ _ hvia hbody _ hname => .through hvia hbody hname) _
      (fun _ => .mention) _ _
  simp only [Graph.ofDesc, hassemble]

/-! ### Materials of a library -/

/-- What a material of a library is described as, and what the graph built from it hangs on. -/
structure LibrarySource.Isolates (l : LibrarySource) (m : MaterialSource) (g : GraphDesc) :
    Prop where
  /-- Under a name the material sees the last usable definition of its own, or the last shared one
  if it has none. -/
  sees : ∀ name, g.templates.get? name =
    (Declared.last? m.declared name).or (Declared.last? l.declared name)
  /-- It tells of what is wrong with its own templates, and of nothing else. -/
  tells : g.warnings = Declared.complaints m.declared
  /-- The graph and its report are the same by any templates that agree on the names reached. -/
  hangs : ∀ (ctx : Context) (templates : Templates),
    (∀ name, g.Reaches name → templates.get? name = g.templates.get? name) →
      Graph.ofDesc ctx { g with templates := templates } = Graph.ofDesc ctx g
  /-- The graph and its report are the same in every library with this material, whatever else it
  holds, if it shares the same definitions of the names that are reached and not the material's
  own. -/
  isolated : ∀ (ctx : Context) (l' : LibrarySource) (g' : GraphDesc),
    (m, g') ∈ l'.materials.zip l'.desc.materials →
      (∀ name, g.Reaches name → Declared.last? m.declared name = none →
        Declared.last? l'.declared name = Declared.last? l.declared name) →
        Graph.ofDesc ctx g' = Graph.ofDesc ctx g

/-- **Materials are isolated**: in every library of a document, each material in order sees, tells
of and hangs on what it should, and the library tells of what is wrong with the shared templates. -/
theorem LibrarySource.materials_isolated (l : LibrarySource) :
    (∀ d : SourceText, d.parseLibrary = .ok l → d.readLibrary = .ok l.desc) ∧
      l.desc.warnings = Declared.complaints l.declared ∧
      List.Forall₂ l.Isolates l.materials l.desc.materials := by
  have hread : ∀ d : SourceText, d.parseLibrary = .ok l → d.readLibrary = .ok l.desc := by
    intro d hd
    rw [d.readLibrary_eq, hd]
    rfl
  refine ⟨hread, congrArg LibraryDesc.warnings l.desc_eq, ?_⟩
  rw [l.desc_eq, List.forall₂_map_right_iff, List.forall₂_same]
  intro m _
  constructor
  case sees => exact l.get?_templates_desc_shared m
  case tells => exact m.warnings_desc _
  case hangs => exact fun ctx templates => Graph.ofDesc_congr ctx _
  case isolated =>
    intro ctx l' g' hg' hshared
    obtain rfl : g' = m.desc l'.shared := eq_desc_of_mem_zip hg'
    rw [← m.desc_congr l.shared]
    refine Graph.ofDesc_congr ctx _ fun name hname => ?_
    rw [get?_templates_desc_shared, get?_templates_desc_shared]
    cases hown : Declared.last? m.declared name with
    | none => rw [hshared name hname hown]
    | some body => rfl

/-- A material whose own template is unusable builds from the shared one, and tells the same when
the library has another material and another template as well. -/
example :
    let ctx : Context := ⟨.builtin, .standard⟩
    let template (name type : String) : String × Json :=
      (name, .object [("node", .string type), ("properties", .object [("Gloss", .string "1")])])
    let material (target : String) (own : List (String × Json)) : GraphRecord :=
      ⟨none, own, [("Surface", .object [("ref", .string target)])]⟩
    let reports (record : LibraryRecord) : List Report :=
      (LibraryDesc.ofRecord record).materials.map fun g => (Graph.ofDesc ctx g).2
    let painted := material "paint" [("paint", .string "red")]
    let told : Report :=
      [.malformedTemplate "templates/paint" "expected a node object, got \"red\"",
        .unknownProperty "Output/Surface(Lambert)" "Gloss"]
    reports ⟨[template "paint" "Lambert"], [painted]⟩ = [told] ∧
      reports ⟨[template "rust" "Blend", template "paint" "Lambert"],
        [material "rust" [], painted]⟩ =
        [[.unknownProperty "Output/Surface(Blend)" "Gloss"], told] := by
  decide +kernel

end ShadeTree
