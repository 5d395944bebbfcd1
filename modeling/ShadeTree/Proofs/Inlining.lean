import ShadeTree.Proofs.Effect
import ShadeTree.Proofs.Tally

/-!
# References and inline copies

A reference to a template stands for the description that the template holds. This module proves
that the description may be written in its place, wherever the reference stands: in the description
that is assembled, however deep, or in the body of a template, which may be the very template that
the reference names. Assembly comes to the same tree by the same report
(`Context.assemble_inlined`).

When the body of a template is rewritten, every later reference to it finds the new body, and the
references in that body may lead to it again. So the two runs are compared for all descriptions at
once, by induction on the room that is left: one level down, what a reference leads to is the same
description or one with a reference inlined.
-/

namespace ShadeTree

open Relation (ReflGen)

/-! ### Inlining a reference -/

section Inlining

variable (templates : Templates)

mutual

/-- In a description, one reference has become the description that its template holds. -/
inductive NodeDesc.Inlines : NodeDesc → NodeDesc → Prop where
  /-- It stands in the value of a property. -/
  | property (nodeType : String) (name : Option String)
    (earlier later : List (String × PropertyValue)) (key : String) {value value' : PropertyValue}
    (h : PropertyValue.Inlines value value') :
    NodeDesc.Inlines (.mk nodeType name (earlier ++ (key, value) :: later))
      (.mk nodeType name (earlier ++ (key, value') :: later))

/-- In the value of a property, one reference has become the description that its template holds. -/
inductive PropertyValue.Inlines : PropertyValue → PropertyValue → Prop where
  /-- The value is the reference. -/
  | reference {target : String} {body : NodeDesc} (h : templates.get? target = some body) :
    PropertyValue.Inlines (.reference target) (.node body)
  /-- It stands in a node described on the spot. -/
  | node {desc desc' : NodeDesc} (h : NodeDesc.Inlines desc desc') :
    PropertyValue.Inlines (.node desc) (.node desc')

end

/-- Of a description and the templates it goes by, one reference is inlined: in the description, or
in the body of a template. -/
inductive Inlined (desc : NodeDesc) : NodeDesc → Templates → Prop where
  | description {desc' : NodeDesc} (h : NodeDesc.Inlines templates desc desc') :
    Inlined desc desc' templates
  | template (name : String) {body body' : NodeDesc} (hbody : templates.get? name = some body)
    (h : NodeDesc.Inlines templates body body') : Inlined desc desc (templates.put name body')

end Inlining

/-! ### What stays the same -/

namespace Assembly

/-- A node or a reference has the effect of the description it stands for. -/
theorem effect_of_subject? {ctx : Context} {templates : Templates}
    {assemble : Option (NodeDesc → String → Node → Assembly)} {path name : String}
    {value : PropertyValue} {desc : NodeDesc} (h : value.subject? templates = some desc)
    (kind? : Option SocketKind) :
    effect ctx templates assemble path kind? (name, value) =
      match kind? with
      | none => .skip [.unknownProperty path name]
      | some kind => nodeEffect ctx assemble path name kind desc := by
  cases value with
  | node d =>
    obtain rfl := Option.some.inj h
    cases kind? <;> rfl
  | reference target =>
    have htarget : templates.get? target = some desc := h
    cases kind? with
    | none => rfl
    | some kind => simp only [effect, htarget]
  | literal text => cases h
  | missing what => cases h
  | invalid reason => cases h

/-- A property that stands for no description has its effect by itself. -/
theorem effect_of_subject?_eq_none {ctx : Context} {templates templates' : Templates}
    {value : PropertyValue} (h : value.subject? templates = none)
    (h' : value.subject? templates' = none)
    (assemble assemble' : Option (NodeDesc → String → Node → Assembly)) (path name : String)
    (kind? : Option SocketKind) :
    effect ctx templates assemble path kind? (name, value) =
      effect ctx templates' assemble' path kind? (name, value) := by
  cases value with
  | node d => cases h
  | reference target =>
    have htarget : templates.get? target = none := h
    have htarget' : templates'.get? target = none := h'
    cases kind? with
    | none => rfl
    | some kind => simp only [effect, htarget, htarget']
  | literal text => cases kind? <;> rfl
  | missing what => cases kind? <;> rfl
  | invalid reason => cases kind? <;> rfl

end Assembly

section Comparing

variable {templates templates' : Templates}

theorem NodeDesc.Inlines.nodeType_eq {d d' : NodeDesc} (h : d.Inlines templates d') :
    d.nodeType = d'.nodeType := by
  cases h
  rfl

theorem nodeType_eq_of_reflGen {d d' : NodeDesc}
    (h : ReflGen (NodeDesc.Inlines templates) d d') : d.nodeType = d'.nodeType := by
  cases h with
  | refl => rfl
  | single h => exact h.nodeType_eq

/-- Every template is as it was, or has a reference inlined. -/
def Templates.Alike (templates templates' : Templates) : Prop :=
  ∀ name, Option.Rel (ReflGen (NodeDesc.Inlines templates)) (templates.get? name)
    (templates'.get? name)

theorem Templates.Alike.refl (templates : Templates) : templates.Alike templates := by
  intro name
  cases templates.get? name with
  | none => exact .none
  | some body => exact .some .refl

theorem Templates.Alike.put {name : String} {body body' : NodeDesc}
    (hbody : templates.get? name = some body) (h : body.Inlines templates body') :
    templates.Alike (templates.put name body') := by
  intro key
  rw [Named.get?_put]
  by_cases hkey : key = name
  · subst hkey
    rw [if_pos rfl, hbody]
    exact .some (.single h)
  · rw [if_neg hkey]
    exact Templates.Alike.refl templates key

/-- A value that is kept, or has a reference inlined, stands for a description that is kept or has
one inlined. One that stands for none is kept. -/
theorem rel_subject? (htemplates : templates.Alike templates') {value value' : PropertyValue}
    (h : ReflGen (PropertyValue.Inlines templates) value value') :
    Option.Rel (ReflGen (NodeDesc.Inlines templates)) (value.subject? templates)
        (value'.subject? templates') ∧
      (value.subject? templates = none → value' = value) := by
  cases h with
  | refl =>
    refine ⟨?_, fun _ => rfl⟩
    cases value with
    | reference target => exact htemplates target
    | node desc => exact .some .refl
    | literal text => exact .none
    | missing what => exact .none
    | invalid reason => exact .none
  | single h =>
    cases h with
    | @reference target body htarget =>
      have hsubject : (PropertyValue.reference target).subject? templates = some body := htarget
      rw [hsubject]
      exact ⟨.some .refl, fun hnone => by cases hnone⟩
    | node hdesc => exact ⟨.some (.single hdesc), fun hnone => by cases hnone⟩

/-- The properties of a description that is kept, or has a reference inlined, do so one by one. -/
theorem forall₂_properties {d d' : NodeDesc} (h : ReflGen (NodeDesc.Inlines templates) d d') :
    List.Forall₂ (fun p p' : String × PropertyValue =>
      p.1 = p'.1 ∧ ReflGen (PropertyValue.Inlines templates) p.2 p'.2) d.properties
      d'.properties := by
  have hkept : ∀ ps : List (String × PropertyValue), List.Forall₂
      (fun p p' : String × PropertyValue =>
        p.1 = p'.1 ∧ ReflGen (PropertyValue.Inlines templates) p.2 p'.2) ps ps :=
    fun ps => List.forall₂_same.mpr fun p _ => ⟨rfl, .refl⟩
  cases h with
  | refl => exact hkept d.properties
  | single h =>
    obtain ⟨_, _, earlier, later, key, hvalue⟩ := h
    exact List.rel_append (hkept earlier) (.cons ⟨rfl, .single hvalue⟩ (hkept later))

end Comparing

/-! ### Two runs -/

namespace Assembly

variable {ctx : Context} {templates templates' : Templates}

/-- Properties have one effect, when the descriptions they stand for assemble alike. -/
theorem effect_congr (htemplates : templates.Alike templates')
    {assemble assemble' : Option (NodeDesc → String → Node → Assembly)} {path : String}
    (hplug : ∀ name d d', ReflGen (NodeDesc.Inlines templates) d d' →
      plugEffect ctx assemble path name d = plugEffect ctx assemble' path name d')
    {p p' : String × PropertyValue} (hname : p.1 = p'.1)
    (hvalue : ReflGen (PropertyValue.Inlines templates) p.2 p'.2) (kind? : Option SocketKind) :
    effect ctx templates assemble path kind? p = effect ctx templates' assemble' path kind? p' := by
  obtain ⟨name, value⟩ := p
  obtain ⟨name', value'⟩ := p'
  obtain rfl : name = name' := hname
  obtain ⟨hsubject, hkept⟩ := rel_subject? htemplates hvalue
  rcases optionRel_cases hsubject with ⟨hnone, hnone'⟩ | ⟨d, d', hd, hd', hdd'⟩
  · obtain rfl : value' = value := hkept hnone
    exact effect_of_subject?_eq_none hnone hnone' assemble assemble' path name kind?
  · rw [effect_of_subject? hd, effect_of_subject? hd']
    cases kind? with
    | none => rfl
    | some kind => simp only [nodeEffect, hplug name d d' hdd']

/-- With any room left, a description with a reference inlined assembles as the description does,
by templates of which one may have a reference inlined. -/
theorem fill_eq_of_inlines (htemplates : templates.Alike templates') (room : ℕ) {d d' : NodeDesc}
    (h : ReflGen (NodeDesc.Inlines templates) d d') (path : String) (target : Node) :
    fill ctx templates room d path target = fill ctx templates' room d' path target := by
  induction room using Nat.strongRecOn generalizing d d' path target with
  | ind room ih =>
    have hplug : ∀ name e e', ReflGen (NodeDesc.Inlines templates) e e' →
        plugEffect ctx (deeper ctx templates room) path name e =
          plugEffect ctx (deeper ctx templates' room) path name e' := by
      intro name e e' he
      have htype : e.nodeType = e'.nodeType := nodeType_eq_of_reflGen he
      cases room with
      | zero => rfl
      | succ room =>
        simp only [deeper, plugEffect, htype]
        cases ctx.registry.create? e'.nodeType with
        | none => rfl
        | some fresh => simp only [ih room (Nat.lt_succ_self room) he]
    have heffects : List.Forall₂ Eq
        (effects ctx templates (deeper ctx templates room) d path target)
        (effects ctx templates' (deeper ctx templates' room) d' path target) := by
      rw [effects, effects, List.forall₂_map_left_iff, List.forall₂_map_right_iff]
      refine (forall₂_properties h).imp fun p p' hp => ?_
      obtain ⟨hname, hvalue⟩ := hp
      rw [hname, effect_congr htemplates hplug hname hvalue]
    rw [List.forall₂_eq_eq_eq] at heffects
    rw [fill_eq, fill_eq, heffects]

end Assembly

/-- **A reference is an inline copy**: when one reference to a template, in a description or in the
body of any template, is replaced by the description that the template holds, whatever is assembled
comes to the same tree, with the same nodes displaced and the same report. -/
theorem Context.assemble_inlined (ctx : Context) {templates templates' : Templates}
    {desc desc' : NodeDesc} (h : Inlined templates desc desc' templates') (target : Node) :
    ctx.assemble templates' desc' target = ctx.assemble templates desc target := by
  cases h with
  | description h =>
    exact (Assembly.fill_eq_of_inlines (.refl templates) _ (.single h) _ target).symm
  | template name hbody h =>
    exact (Assembly.fill_eq_of_inlines (.put hbody h) _ .refl _ target).symm

/-- A template that refers to itself, with its body written out once within the body, is still cut
off at the same depth. -/
theorem Context.assemble_coil :
    let ctx : Context := ⟨.builtin, { Config.standard with maxDepth := 2 }⟩
    let coil (within : PropertyValue) : NodeDesc := .mk "Blend" none [("Bxdf1", within)]
    let desc : NodeDesc := .output [("Surface", .reference "coil")]
    let templates : Templates := [("coil", coil (.reference "coil"))]
    let templates' := templates.put "coil" (coil (.node (coil (.reference "coil"))))
    Inlined templates desc desc templates' ∧
      ctx.assemble templates' desc (.new .output) = ctx.assemble templates desc (.new .output) ∧
        (ctx.assemble templates desc (.new .output)).report =
          [.depthExceeded "Output/Surface(Blend)/Bxdf1(Blend)/Bxdf1" 2] := by
  intro ctx coil desc templates templates'
  have hinlined : Inlined templates desc desc templates' :=
    .template "coil" rfl (.property "Blend" none [] [] "Bxdf1" (.reference rfl))
  exact ⟨hinlined, ctx.assemble_inlined hinlined _, rfl⟩

end ShadeTree
