import ShadeTree.Proofs.Tree
import ShadeTree.Proofs.Writing

/-!
# Nodes in documents

Wherever a node stands in a document, its description has a node, and it has a property for each one
there, in order and by its name; what cannot be read is kept as a property that says so
(`NodeSource.Describes.readAs`).

Nodes nest, so where a node stands is told by a position: the places of the properties on the way down
to it. Which properties hold a node is said here of the document alone, by the attributes of elements
and the members of objects (`NodeSource.below?`), and the readers are proved to go by it.
-/

namespace ShadeTree

open Xml (Element)

/-- A property is read by its attributes, and by the `Node` within that it may have. -/
theorem PropertyValue.ofElement_eq (e : Element) :
    ofElement e = match e.get? "name" with
      | none => ("", .missing "name")
      | some name => (name,
        if e.get? "type" = some "node" then
          if (e.get? "node").isSome then nodeOfElement e none (propertiesOfElements e.children)
          else match e.children.find? (·.isNamed "Node") with
            | some child => nodeOfElement child (child.get? "name")
              (propertiesOfElements child.children)
            | none => .missing "node"
        else if e.get? "type" = some "ref" then ofAttribute e .reference
        else ofAttribute e .literal) := by
  cases e with
  | mk tag attributes children =>
    rw [ofElement, firstNode_eq]
    cases (Element.mk tag attributes children).get? "name" with
    | none => rfl
    | some name =>
      dsimp only
      split
      · rename_i htype
        rw [if_pos htype]
        split <;> rfl
      · rename_i htype
        rw [htype]
        rfl
      · rename_i hnode href
        rw [if_neg hnode, if_neg href]

/-- An object with neither a `node` nor a `ref` is read as a literal. -/
theorem PropertyValue.ofJson_of_none {members : List (String × Json)}
    (hnode : members.lookup "node" = none) (href : members.lookup "ref" = none) :
    ofJson (.object members) = literalOfJson (.object members) := by
  have hhas : members.any (·.1 == "node") = false := (Named.has_eq members "node").trans (by
    rw [Named.get?, hnode]
    rfl)
  rw [ofJson, if_neg (ne_true_of_eq_false hhas), href]

/-! ### Nodes in documents -/

/-- A node as a document gives it: the element that is the node in XML, or the properties of the
object that is read as one in JSON. -/
inductive NodeSource where
  | xml (e : Element)
  | json (properties : List (String × Json))

namespace NodeSource

/-- The names of its properties, in order. A property without a name has the empty one. -/
def names : NodeSource → List String
  | xml e => (e.within "Property").map fun property => (property.get? "name").getD ""
  | json properties => properties.map (·.1)

/-- The element, if its attributes make it a node. -/
def ofElement? (e : Element) : Option NodeSource :=
  if (e.get? "node").isSome then some (xml e) else none

/-- The node that an element has for the value of a property: the element itself, or the first `Node`
within. -/
def inElement? (e : Element) : Option NodeSource :=
  if (e.get? "name").isSome ∧ e.get? "type" = some "node" then
    (ofElement? e).or ((e.children.find? (·.isNamed "Node")).bind ofElement?)
  else none

/-- The node that a value is: an object with a type of node, and with an object for properties if it
has any. -/
def ofJson? : Json → Option NodeSource
  | .object members =>
    match members.lookup "node", members.lookup "properties" with
    | some (.string _), none => some (json [])
    | some (.string _), some (.object properties) => some (json properties)
    | _, _ => none
  | _ => none

/-- The node that a property has for its value. -/
def below? : NodeSource → ℕ → Option NodeSource
  | xml e, i => (e.within "Property")[i]?.bind inElement?
  | json properties, i => properties[i]?.bind fun property => ofJson? property.2

/-- The node at a position. -/
def at? (n : NodeSource) : List ℕ → Option NodeSource
  | [] => some n
  | i :: rest => (n.below? i).bind (at? · rest)

end NodeSource

/-- The node that a value describes. -/
def PropertyValue.node? : PropertyValue → Option NodeDesc
  | .node desc => some desc
  | _ => none

namespace NodeDesc

/-- The node that a property describes. -/
def below? (d : NodeDesc) (i : ℕ) : Option NodeDesc :=
  d.properties[i]?.bind fun property => property.2.node?

/-- The node at a position. -/
def at? (d : NodeDesc) : List ℕ → Option NodeDesc
  | [] => some d
  | i :: rest => (d.below? i).bind (at? · rest)

end NodeDesc

namespace NodeSource

/-- The description has a node at a position if the document has, and as many properties, in the same
order and by the same names. -/
def ReadAs (n : NodeSource) (d : NodeDesc) : Prop :=
  ∀ position, Option.Rel (fun (n : NodeSource) d => d.properties.map (·.1) = n.names)
    (n.at? position) (d.at? position)

/-! ### Properties -/

/-- The properties as they are read. -/
def properties : NodeSource → List (String × PropertyValue)
  | xml e => PropertyValue.propertiesOfElements e.children
  | json properties => PropertyValue.propertiesOfJson properties

/-- A node is described with its properties. -/
def Describes (n : NodeSource) (d : NodeDesc) : Prop := d.properties = n.properties

theorem fst_ofElement (e : Element) :
    (PropertyValue.ofElement e).1 = (e.get? "name").getD "" := by
  rw [PropertyValue.ofElement_eq]
  cases e.get? "name" <;> rfl

theorem names_properties (n : NodeSource) : n.properties.map (·.1) = n.names := by
  cases n with
  | xml e =>
    rw [properties, PropertyValue.propertiesOfElements_eq, List.map_map]
    exact List.map_congr_left fun property _ => fst_ofElement property
  | json properties =>
    rw [NodeSource.properties, PropertyValue.propertiesOfJson_eq, List.map_map]
    rfl

/-- What the attributes of an element make a node is described as one. -/
theorem describes_ofElement? (e : Element) (name : Option String) :
    Option.Rel Describes (ofElement? e)
      (PropertyValue.nodeOfElement e name
        (PropertyValue.propertiesOfElements e.children)).node? := by
  rw [ofElement?, PropertyValue.nodeOfElement]
  cases e.get? "node" with
  | none => exact .none
  | some nodeType => exact .some rfl

/-- What an element has for the value of a property is described as the value. -/
theorem describes_inElement? (e : Element) :
    Option.Rel Describes (inElement? e) (PropertyValue.ofElement e).2.node? := by
  have hattribute : ∀ make : String → PropertyValue, (∀ text, (make text).node? = none) →
      (PropertyValue.ofAttribute e make).node? = none := by
    intro make hmake
    rw [PropertyValue.ofAttribute]
    cases e.get? "value" with
    | none => rfl
    | some text => exact hmake text
  rw [inElement?, PropertyValue.ofElement_eq]
  cases e.get? "name" with
  | none => exact .none
  | some name =>
    dsimp only
    by_cases htype : e.get? "type" = some "node"
    · rw [if_pos ⟨rfl, htype⟩, if_pos htype]
      cases hnode : e.get? "node" with
      | some nodeType =>
        have hinline := describes_ofElement? e none
        rw [ofElement?, hnode, if_pos Option.isSome_some] at hinline
        rw [ofElement?, hnode, if_pos Option.isSome_some, if_pos Option.isSome_some]
        exact hinline
      | none =>
        rw [ofElement?, hnode, Option.isSome_none, if_neg Bool.false_ne_true,
          if_neg Bool.false_ne_true, Option.none_or]
        cases e.children.find? (·.isNamed "Node") with
        | none => exact .none
        | some child => exact describes_ofElement? child _
    · rw [if_neg fun h => htype h.2, if_neg htype]
      split <;> rw [hattribute _ fun _ => rfl] <;> exact .none

theorem node?_literalOfJson (j : Json) : (PropertyValue.literalOfJson j).node? = none := by
  rw [PropertyValue.literalOfJson]
  cases Literal.text j <;> rfl

/-- The members of an object that are a node are described as it. -/
theorem describes_nodeOfMembers (members : List (String × Json)) :
    Option.Rel Describes (ofJson? (.object members))
      (PropertyValue.nodeOfMembers members (PropertyValue.propertiesUnder members)).node? := by
  rw [ofJson?, PropertyValue.nodeOfMembers, PropertyValue.propertiesUnder_eq]
  cases members.lookup "node" with
  | none => exact .none
  | some node =>
    cases node with
    | string nodeType =>
      cases members.lookup "properties" with
      | none => exact .some rfl
      | some properties => cases properties <;> first | exact .none | exact .some rfl
    | _ => exact .none

/-- What a value is, is described as the value of the property. -/
theorem describes_ofJson? (j : Json) :
    Option.Rel Describes (ofJson? j) (PropertyValue.ofJson j).node? := by
  cases j with
  | object members =>
    cases hnode : members.lookup "node" with
    | some node =>
      rw [PropertyValue.ofJson_of_node hnode]
      exact describes_nodeOfMembers members
    | none =>
      have hnone : ofJson? (.object members) = none := by rw [ofJson?, hnode]
      rw [hnone]
      cases href : members.lookup "ref" with
      | some target =>
        rw [PropertyValue.ofJson_of_ref hnode href]
        cases target <;> exact .none
      | none =>
        rw [PropertyValue.ofJson_of_none hnode href, node?_literalOfJson]
        exact .none
  | _ =>
    simp only [PropertyValue.ofJson, node?_literalOfJson]
    exact .none

/-- What a property of a node holds is described by the same property. -/
theorem Describes.below? {n : NodeSource} {d : NodeDesc} (h : n.Describes d) (i : ℕ) :
    Option.Rel Describes (n.below? i) (d.below? i) := by
  rw [NodeDesc.below?, h]
  cases n with
  | xml e =>
    rw [NodeSource.below?, NodeSource.properties, PropertyValue.propertiesOfElements_eq,
      List.getElem?_map, ← Xml.Element.within]
    cases (e.within "Property")[i]? with
    | none => exact .none
    | some property => exact describes_inElement? property
  | json properties =>
    rw [NodeSource.below?, NodeSource.properties, PropertyValue.propertiesOfJson_eq,
      List.getElem?_map]
    cases properties[i]? with
    | none => exact .none
    | some property => exact describes_ofJson? property.2

/-- **No property is lost**: what is described with its properties is read as it stands, at every
position. -/
theorem Describes.readAs {n : NodeSource} {d : NodeDesc} (h : n.Describes d) : n.ReadAs d := by
  intro position
  induction position generalizing n d with
  | nil => exact .some ((congrArg _ h).trans n.names_properties)
  | cons i rest ih => exact optionRel_bind (h.below? i) fun _ _ hbelow => ih hbelow

end NodeSource

end ShadeTree
