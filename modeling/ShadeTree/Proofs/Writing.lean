import ShadeTree.Proofs.Visibility
import Mathlib.Data.List.Forall2

/-!
# One description in two formats

A description may be written in XML and in JSON. The two have little in common: XML has a property
as an element of its own, which says by its type what it holds, and names a node by an attribute
unless the property describes the node itself; JSON has properties and templates by name, and tells
nodes, references and literals apart by the members of an object.

What it is to write a description is said here for each format, for every way of doing it
(`ElementWrites`, `JsonWrites`, `MaterialSource.Writes`). What can be written is a description
without properties that could not be read, with distinct names within each node, and templates that
carry their names (`GraphDesc.Plain`). `GraphDesc.restored` says that it can be written in both
formats, and that whatever is written in either is read as the same description, with nothing to
tell.
-/

namespace ShadeTree

open Xml (Element)

/-! ### Descriptions that can be written -/

instance {α : Type} (ns : Named α) : Decidable ns.Distinct :=
  inferInstanceAs (Decidable (ns.map (·.1)).Nodup)

/-- A value that can be written: a literal, a reference, or a node that has properties of distinct
names with such values. -/
inductive PropertyValue.Plain : PropertyValue → Prop where
  | literal (text : String) : Plain (.literal text)
  | reference (name : String) : Plain (.reference name)
  | node {d : NodeDesc} (hnames : Named.Distinct d.properties)
    (hvalues : ∀ p ∈ d.properties, Plain p.2) : Plain (.node d)

theorem PropertyValue.Plain.of_node {d : NodeDesc} (h : Plain (.node d)) :
    Named.Distinct d.properties ∧ ∀ p ∈ d.properties, p.2.Plain := by
  cases h with
  | node hnames hvalues => exact ⟨hnames, hvalues⟩

/-- A description that can be written. -/
structure GraphDesc.Plain (g : GraphDesc) : Prop where
  root : g.output = .output g.output.properties
  output : PropertyValue.Plain (.node g.output)
  distinct : g.templates.Distinct
  templates : ∀ t ∈ g.templates, t.2.name = some t.1 ∧ PropertyValue.Plain (.node t.2)

/-- A description was read as another one is: it says the same about the material, with nothing to
tell. -/
structure GraphDesc.Restores (read g : GraphDesc) : Prop where
  name : read.name = g.name
  output : read.output = g.output
  templates : ∀ name, read.templates.get? name = g.templates.get? name
  warnings : read.warnings = []

/-! ### Writing in XML -/

namespace Xml.Element

/-- The elements of a name directly within an element. -/
def within (e : Element) (base : String) : List Element := e.children.filter (·.isNamed base)

/-- An element in no namespace. -/
def plain (base : String) (attributes : List (String × String)) (children : List Element) :
    Element :=
  .mk ⟨none, base⟩ (attributes.map fun (name, value) => (⟨none, name⟩, value)) children

theorem get?_plain (base : String) (attributes : List (String × String))
    (children : List Element) (name : String) :
    (plain base attributes children).get? name = attributes.lookup name := by
  have hlookup : ∀ attributes : List (String × String),
      (attributes.map fun (name, value) => ((⟨none, name⟩ : ExpandedName), value)).lookup
        ⟨none, name⟩ = attributes.lookup name := by
    intro attributes
    induction attributes with
    | nil => rfl
    | cons entry attributes ih =>
      obtain ⟨key, value⟩ := entry
      rw [List.map_cons, List.lookup_cons, List.lookup_cons, ih]
      by_cases hkey : name = key
      · rw [beq_iff_eq.mpr hkey, beq_iff_eq.mpr (congrArg (ExpandedName.mk none) hkey)]
      · rw [beq_false_of_ne hkey,
          beq_false_of_ne fun h => hkey (congrArg ExpandedName.base h)]
  exact hlookup attributes

theorem within_plain (base : String) (attributes : List (String × String))
    (children : List Element) (name : String) :
    (plain base attributes children).within name = children.filter (·.isNamed name) := rfl

end Xml.Element

/-- The element that holds the node of a property, with the name it gives the node: the property
itself, whose name is not the node's, or the first `Node` within. -/
inductive HoldsNode (e : Element) : Element → Option String → Prop where
  | inline (h : (e.get? "node").isSome) : HoldsNode e e none
  | nested {child : Element} (h : e.get? "node" = none)
    (hchild : e.children.find? (·.isNamed "Node") = some child) :
    HoldsNode e child (child.get? "name")

/-- An element writes a property. -/
inductive ElementWrites : Element → String × PropertyValue → Prop where
  /-- A literal is a property of any type but the two others. -/
  | literal {e : Element} {name text : String} (hname : e.get? "name" = some name)
    (hnode : e.get? "type" ≠ some "node") (href : e.get? "type" ≠ some "ref")
    (hvalue : e.get? "value" = some text) : ElementWrites e (name, .literal text)
  /-- A reference is a property of type `ref`. -/
  | reference {e : Element} {name target : String} (hname : e.get? "name" = some name)
    (htype : e.get? "type" = some "ref") (hvalue : e.get? "value" = some target) :
    ElementWrites e (name, .reference target)
  /-- A node is a property of type `node`, in either form. -/
  | node {e holder : Element} {name : String} {d : NodeDesc} (hname : e.get? "name" = some name)
    (htype : e.get? "type" = some "node") (hholder : HoldsNode e holder d.name)
    (hnode : holder.get? "node" = some d.nodeType)
    (hlength : (holder.within "Property").length = d.properties.length)
    (hproperties : ∀ w ∈ (holder.within "Property").zip d.properties, ElementWrites w.1 w.2) :
    ElementWrites e (name, .node d)

/-- A `Node` element writes a template. -/
structure ElementWritesTemplate (e : Element) (t : String × NodeDesc) : Prop where
  name : e.get? "name" = some t.1
  node : e.get? "node" = some t.2.nodeType
  properties : List.Forall₂ ElementWrites (e.within "Property") t.2.properties

/-! ### Writing in JSON -/

/-- A JSON value writes the value of a property. No object has a name twice. -/
inductive JsonWrites : Json → PropertyValue → Prop where
  /-- A literal is a string. -/
  | literal (text : String) : JsonWrites (.string text) (.literal text)
  /-- A reference is an object with a `ref`. -/
  | reference {members : List (String × Json)} {target : String}
    (hdistinct : Named.Distinct members) (hnode : members.lookup "node" = none)
    (href : members.lookup "ref" = some (.string target)) :
    JsonWrites (.object members) (.reference target)
  /-- A node is an object with a `node`. If it has no properties, they may be left out. -/
  | node {members properties : List (String × Json)} {d : NodeDesc}
    (hdistinct : Named.Distinct members)
    (hnode : members.lookup "node" = some (.string d.nodeType))
    (hname : members.lookup "name" = d.name.map .string)
    (hproperties : members.lookup "properties" = some (.object properties) ∨
      members.lookup "properties" = none ∧ properties = [])
    (hdistinct' : Named.Distinct properties)
    (hnames : properties.map (·.1) = d.properties.map (·.1))
    (hvalues : ∀ w ∈ properties.zip d.properties, JsonWrites w.1.2 w.2.2) :
    JsonWrites (.object members) (.node d)

/-- A member writes a property. -/
structure MemberWrites (m : String × Json) (p : String × PropertyValue) : Prop where
  name : m.1 = p.1
  value : JsonWrites m.2 p.2

/-- A member writes a template: the node that it writes may have any name or none, since it is the
member's name that counts. -/
structure MemberWritesTemplate (m : String × Json) (t : String × NodeDesc) : Prop where
  name : m.1 = t.1
  value : ∃ name, JsonWrites m.2 (.node (.mk t.2.nodeType name t.2.properties))

/-! ### Writing a material -/

/-- A document writes a material. Templates are written in any order. -/
inductive MaterialSource.Writes : MaterialSource → GraphDesc → Prop where
  | xml {e : Element} {g : GraphDesc} {ts : Templates} (htag : e.isNamed "Material")
    (hname : e.get? "name" = g.name)
    (hproperties : List.Forall₂ ElementWrites (e.within "Property") g.output.properties)
    (hperm : ts.Perm g.templates)
    (htemplates : List.Forall₂ ElementWritesTemplate (e.within "Node") ts) : Writes (.xml e) g
  | json {record : GraphRecord} {g : GraphDesc} {ts : Templates} (hname : record.name = g.name)
    (hdistinct : Named.Distinct record.properties ∧ Named.Distinct record.templates)
    (hproperties : List.Forall₂ MemberWrites record.properties g.output.properties)
    (hperm : ts.Perm g.templates)
    (htemplates : List.Forall₂ MemberWritesTemplate record.templates ts) : Writes (.json record) g

/-! ### What is written is read -/

namespace PropertyValue

theorem propertiesOfElements_eq (es : List Element) :
    propertiesOfElements es = (es.filter (·.isNamed "Property")).map ofElement := by
  induction es with
  | nil => rfl
  | cons e es ih =>
    rw [propertiesOfElements, ih, List.filter_cons]
    split <;> rfl

theorem firstNode_eq (es : List Element) :
    firstNode es = match es.find? (·.isNamed "Node") with
      | some e => nodeOfElement e (e.get? "name") (propertiesOfElements e.children)
      | none => .missing "node" := by
  induction es with
  | nil => rfl
  | cons e es ih =>
    obtain ⟨tag, attributes, children⟩ := e
    rw [firstNode, List.find?_cons, ih]
    cases (Element.mk tag attributes children).isNamed "Node" <;> rfl

theorem propertiesOfJson_eq (members : List (String × Json)) :
    propertiesOfJson members = members.map fun m => (m.1, ofJson m.2) := by
  induction members with
  | nil => rfl
  | cons member members ih =>
    obtain ⟨name, value⟩ := member
    rw [propertiesOfJson, ih, List.map_cons]

/-- Members are read as properties, when their names and values are. -/
theorem propertiesOfJson_eq_of_zip {members : List (String × Json)}
    {ps : List (String × PropertyValue)} (hnames : members.map (·.1) = ps.map (·.1))
    (hvalues : ∀ w ∈ members.zip ps, ofJson w.1.2 = w.2.2) : propertiesOfJson members = ps := by
  rw [← List.forall₂_eq_eq_eq, List.forall₂_map_left_iff, List.forall₂_map_right_iff] at hnames
  obtain ⟨hlength, hnames⟩ := List.forall₂_iff_zip.mp hnames
  rw [propertiesOfJson_eq, ← List.forall₂_eq_eq_eq, List.forall₂_map_left_iff]
  exact List.forall₂_iff_zip.mpr ⟨hlength, fun hw => Prod.ext (hnames hw) (hvalues _ hw)⟩

/-- An object with a `node` describes one. -/
theorem ofJson_of_node {members : List (String × Json)} {node : Json}
    (h : members.lookup "node" = some node) :
    ofJson (.object members) = nodeOfMembers members (propertiesUnder members) := by
  have hhas : members.any (·.1 == "node") = true := (Named.has_eq members "node").trans (by
    rw [Named.get?, h]
    rfl)
  rw [ofJson, if_pos hhas]

/-- An object without a `node` but with a `ref` is a reference. -/
theorem ofJson_of_ref {members : List (String × Json)} {target : Json}
    (hnode : members.lookup "node" = none) (href : members.lookup "ref" = some target) :
    ofJson (.object members) = referenceOfJson target := by
  have hhas : members.any (·.1 == "node") = false := (Named.has_eq members "node").trans (by
    rw [Named.get?, hnode]
    rfl)
  rw [ofJson, if_neg (ne_true_of_eq_false hhas), href]

/-- An element that holds a node describes it. -/
theorem ofElement_of_holdsNode {e holder : Element} {name : String} {d : NodeDesc}
    (hname : e.get? "name" = some name) (htype : e.get? "type" = some "node")
    (hholder : HoldsNode e holder d.name) (hnode : holder.get? "node" = some d.nodeType)
    (hproperties : propertiesOfElements holder.children = d.properties) :
    ofElement e = (name, .node d) := by
  obtain ⟨nodeType, nodeName, properties⟩ := d
  cases e with
  | mk tag attributes children =>
    rw [ofElement]
    simp only [hname, htype]
    cases hholder with
    | inline h =>
      rw [if_pos h, nodeOfElement, hnode]
      exact congrArg (fun ps => (name, PropertyValue.node (.mk nodeType none ps))) hproperties
    | nested h hchild =>
      have hfind : children.find? (·.isNamed "Node") = some holder := hchild
      rw [if_neg (by simp [h]), firstNode_eq, hfind]
      simp only [nodeOfElement, hnode, hproperties]
      rfl

end PropertyValue

/-- **An element is read as the property it writes.** -/
theorem ElementWrites.ofElement_eq {e : Element} {p : String × PropertyValue}
    (h : ElementWrites e p) : PropertyValue.ofElement e = p := by
  induction h with
  | @literal e name text hname hnode href hvalue =>
    cases e with
    | mk tag attributes children =>
      rw [PropertyValue.ofElement]
      simp only [hname, PropertyValue.ofAttribute, hvalue]
  | @reference e name target hname htype hvalue =>
    cases e with
    | mk tag attributes children =>
      rw [PropertyValue.ofElement]
      simp only [hname, htype, PropertyValue.ofAttribute, hvalue]
  | node hname htype hholder hnode hlength _ ih =>
    refine PropertyValue.ofElement_of_holdsNode hname htype hholder hnode ?_
    rw [PropertyValue.propertiesOfElements_eq, ← List.forall₂_eq_eq_eq,
      List.forall₂_map_left_iff]
    exact List.forall₂_iff_zip.mpr ⟨hlength, fun hw => ih _ hw⟩

theorem propertiesOfElements_of_writes {e : Element} {ps : List (String × PropertyValue)}
    (h : List.Forall₂ ElementWrites (e.within "Property") ps) :
    PropertyValue.propertiesOfElements e.children = ps := by
  rw [PropertyValue.propertiesOfElements_eq, ← List.forall₂_eq_eq_eq, List.forall₂_map_left_iff]
  exact h.imp fun _ _ => ElementWrites.ofElement_eq

/-- **A JSON value is read as the value it writes.** -/
theorem JsonWrites.ofJson_eq {j : Json} {value : PropertyValue} (h : JsonWrites j value) :
    PropertyValue.ofJson j = value := by
  induction h with
  | literal text => rfl
  | reference _ hnode href =>
    rw [PropertyValue.ofJson_of_ref hnode href]
    rfl
  | @node members properties d _ hnode hname hproperties _ hnames _ ih =>
    obtain ⟨nodeType, name, ps⟩ := d
    have hps : PropertyValue.propertiesOfJson properties = ps :=
      PropertyValue.propertiesOfJson_eq_of_zip hnames ih
    have hnodeName : PropertyValue.nameOfMembers members = name := by
      rw [PropertyValue.nameOfMembers, hname]
      cases name <;> rfl
    rw [PropertyValue.ofJson_of_node hnode, PropertyValue.nodeOfMembers, hnode, hnodeName,
      PropertyValue.propertiesUnder_eq]
    rcases hproperties with h | ⟨h, rfl⟩
    · rw [h]
      exact congrArg (fun ps => PropertyValue.node (.mk nodeType name ps)) hps
    · rw [h]
      exact congrArg (fun ps => PropertyValue.node (.mk nodeType name ps)) hps

theorem propertiesOfJson_of_writes {members : List (String × Json)}
    {ps : List (String × PropertyValue)} (h : List.Forall₂ MemberWrites members ps) :
    PropertyValue.propertiesOfJson members = ps := by
  rw [PropertyValue.propertiesOfJson_eq, ← List.forall₂_eq_eq_eq, List.forall₂_map_left_iff]
  exact h.imp fun _ _ hm => Prod.ext hm.name hm.value.ofJson_eq

/-! ### Templates -/

/-- An element that writes a template declares it. -/
theorem ElementWritesTemplate.ofElement_eq {e : Element} {t : String × NodeDesc}
    (h : ElementWritesTemplate e t) (hnamed : t.2.name = some t.1) (path : String) :
    Declared.ofElement path e = .definition t.1 t.2 := by
  obtain ⟨key, nodeType, name, ps⟩ := t
  obtain rfl : name = some key := hnamed
  rw [Declared.ofElement, h.name, h.node]
  exact congrArg (fun ps => Declared.definition key (.mk nodeType (some key) ps))
    (propertiesOfElements_of_writes h.properties)

/-- Elements that write templates declare them, and nothing is wrong with them. -/
theorem declared_of_elementWritesTemplate {scope : String} {es : List Element} {ts : Templates}
    (h : List.Forall₂ ElementWritesTemplate es ts) (hnamed : ∀ t ∈ ts, t.2.name = some t.1)
    (index : ℕ) :
    Declared.ofElements scope index es = ts.map fun t => .definition t.1 t.2 := by
  induction h generalizing index with
  | nil => rfl
  | @cons e t es ts ht hts ih =>
    have hcons : Declared.ofElements scope index (e :: es) =
        .ofElement s!"{scope}/Node[{index}]" e :: Declared.ofElements scope (index + 1) es := rfl
    rw [hcons, ht.ofElement_eq (hnamed t List.mem_cons_self),
      ih fun t ht => hnamed t (List.mem_cons_of_mem _ ht), List.map_cons]

/-- A member that writes a template declares it. -/
theorem MemberWritesTemplate.ofMember_eq {m : String × Json} {t : String × NodeDesc}
    (h : MemberWritesTemplate m t) (hnamed : t.2.name = some t.1) :
    Declared.ofMember m.1 m.2 = .definition t.1 t.2 := by
  obtain ⟨key, value⟩ := m
  obtain ⟨name, nodeType, nodeName, ps⟩ := t
  obtain ⟨hkey, given, hvalue⟩ := h
  obtain rfl : key = name := hkey
  obtain rfl : nodeName = some key := hnamed
  cases hvalue with
  | @node members properties _ _ hnode _ hproperties _ hnames hvalues =>
    have hps : PropertyValue.propertiesOfJson properties = ps :=
      PropertyValue.propertiesOfJson_eq_of_zip hnames fun w hw => (hvalues w hw).ofJson_eq
    rcases hproperties with h | ⟨h, rfl⟩
    · simp only [Declared.ofMember, hnode, h]
      exact congrArg (fun ps => Declared.definition key (.mk nodeType (some key) ps)) hps
    · simp only [Declared.ofMember, hnode, h]
      exact congrArg (fun ps => Declared.definition key (.mk nodeType (some key) ps)) hps

/-- Members that write templates declare them, and nothing is wrong with them. -/
theorem declared_of_memberWritesTemplate {members : List (String × Json)} {ts : Templates}
    (h : List.Forall₂ MemberWritesTemplate members ts) (hnamed : ∀ t ∈ ts, t.2.name = some t.1) :
    Declared.ofMembers members = ts.map fun t => .definition t.1 t.2 := by
  induction h with
  | nil => rfl
  | @cons m t members ts hm hmembers ih =>
    have hcons : Declared.ofMembers (m :: members) =
        .ofMember m.1 m.2 :: Declared.ofMembers members := rfl
    rw [hcons, hm.ofMember_eq (hnamed t List.mem_cons_self),
      ih fun t ht => hnamed t (List.mem_cons_of_mem _ ht), List.map_cons]

theorem Named.get?_eq_of_perm {α : Type} {ns ns' : Named α} (h : ns.Perm ns') (hd : ns.Distinct)
    (name : String) : ns.get? name = ns'.get? name := by
  induction h with
  | nil => rfl
  | @cons entry ns ns' _ ih =>
    obtain ⟨key, a⟩ := entry
    rw [get?, get?, List.lookup_cons, List.lookup_cons]
    cases name == key with
    | true => rfl
    | false => exact ih (List.nodup_cons.mp hd).2
  | swap first second ns =>
    obtain ⟨key, a⟩ := first
    obtain ⟨key', a'⟩ := second
    have hne : key' ≠ key := fun h => (List.nodup_cons.mp hd).1 (h ▸ List.mem_cons_self)
    simp only [get?, List.lookup_cons]
    by_cases hkey : name = key
    · rw [beq_iff_eq.mpr hkey, beq_false_of_ne (hkey ▸ hne.symm)]
    · rw [beq_false_of_ne hkey]
  | trans h _ ih ih' => exact (ih hd).trans (ih' ((h.map _).nodup hd))

/-- Definitions of distinct names are found under them, in whatever order they stand. -/
theorem Declared.last?_of_perm {ts ts' : Templates} (hperm : ts.Perm ts') (hdistinct : ts'.Distinct)
    (name : String) :
    Declared.last? (ts.map fun t => .definition t.1 t.2) name = ts'.get? name := by
  have hdefinitions :
      Declared.definitions (ts.map fun t => .definition t.1 t.2) = ts := by
    rw [Declared.definitions, List.filterMap_map]
    exact List.filterMap_some
  have hreverse : ts'.Perm ts.reverse := hperm.symm.trans (List.reverse_perm ts).symm
  rw [Declared.last?, hdefinitions]
  exact (Named.get?_eq_of_perm hreverse hdistinct name).symm

theorem Declared.complaints_definitions (ts : Templates) :
    Declared.complaints (ts.map fun t => .definition t.1 t.2) = [] := by
  rw [Declared.complaints, List.filterMap_map]
  exact List.filterMap_eq_nil_iff.mpr fun _ _ => rfl

/-- **Whatever is written is read**, as what was written, with nothing to tell. -/
theorem MaterialSource.Writes.restores {m : MaterialSource} {g : GraphDesc} (hg : g.Plain)
    (h : m.Writes g) : (m.desc []).Restores g := by
  have hnamed : ∀ {ts : Templates}, ts.Perm g.templates → ∀ t ∈ ts, t.2.name = some t.1 :=
    fun hperm t ht => (hg.templates t (hperm.mem_iff.mp ht)).1
  -- both formats come to the same declarations
  have hdeclared : ∃ ts : Templates, ts.Perm g.templates ∧
      m.declared = ts.map fun t => .definition t.1 t.2 := by
    cases h with
    | xml _ _ _ hperm htemplates =>
      exact ⟨_, hperm, declared_of_elementWritesTemplate htemplates (hnamed hperm) 0⟩
    | json _ _ _ hperm htemplates =>
      exact ⟨_, hperm, declared_of_memberWritesTemplate htemplates (hnamed hperm)⟩
  obtain ⟨ts, hperm, hdeclared⟩ := hdeclared
  have htemplates : ∀ name, (m.desc []).templates.get? name = g.templates.get? name := by
    intro name
    rw [m.get?_templates_desc, hdeclared, Declared.last?_of_perm hperm hg.distinct]
    exact Option.or_none
  have hwarnings : (m.desc []).warnings = [] := by
    rw [m.warnings_desc, hdeclared, Declared.complaints_definitions]
  cases h with
  | xml _ hname hproperties _ _ =>
    refine ⟨hname, ?_, htemplates, hwarnings⟩
    rw [hg.root]
    exact congrArg NodeDesc.output (propertiesOfElements_of_writes hproperties)
  | json hname _ hproperties _ _ =>
    refine ⟨hname, ?_, htemplates, hwarnings⟩
    rw [hg.root]
    exact congrArg NodeDesc.output (propertiesOfJson_of_writes hproperties)

/-! ### Both formats can write -/

/-- What stands in a relation to each item of a list makes up a list. -/
theorem exists_forall₂ {α β : Type} {R : α → β → Prop} {bs : List β}
    (h : ∀ b ∈ bs, ∃ a, R a b) : ∃ as, List.Forall₂ R as bs := by
  induction bs with
  | nil => exact ⟨[], .nil⟩
  | cons b bs ih =>
    obtain ⟨a, ha⟩ := h b List.mem_cons_self
    obtain ⟨as, has⟩ := ih fun b hb => h b (List.mem_cons_of_mem _ hb)
    exact ⟨a :: as, .cons ha has⟩

/-- Elements of a name that stand among others, all of them of other names, are those of the name.
-/
theorem Xml.Element.filter_isNamed {es es' : List Element} {base base' : String}
    (hes : ∀ e ∈ es, e.isNamed base = true) (hes' : ∀ e ∈ es', e.isNamed base' = true)
    (hne : base ≠ base') :
    (es ++ es').filter (·.isNamed base) = es ∧ (es ++ es').filter (·.isNamed base') = es' := by
  have hother : ∀ (e : Element) {b b' : String}, b ≠ b' → e.isNamed b = true →
      ¬ e.isNamed b' = true := by
    intro e b b' hbb' hb hb'
    exact hbb' ((beq_iff_eq.mp hb).symm.trans (beq_iff_eq.mp hb'))
  constructor
  · rw [List.filter_append, List.filter_eq_self.mpr hes,
      List.filter_eq_nil_iff.mpr fun e he => hother e hne.symm (hes' e he), List.append_nil]
  · rw [List.filter_append, List.filter_eq_self.mpr hes',
      List.filter_eq_nil_iff.mpr fun e he => hother e hne (hes e he), List.nil_append]

/-- An element that is a property, and writes one. -/
def WritesProperty (e : Element) (p : String × PropertyValue) : Prop :=
  e.isNamed "Property" = true ∧ ElementWrites e p

/-- A description whose properties can be written can be written as a `Node`. -/
theorem exists_nodeElement (d : NodeDesc) (h : ∀ p ∈ d.properties, ∃ e, WritesProperty e p) :
    ∃ e : Element, e.isNamed "Node" = true ∧ e.get? "name" = d.name ∧
      e.get? "node" = some d.nodeType ∧
      List.Forall₂ ElementWrites (e.within "Property") d.properties := by
  obtain ⟨es, hes⟩ := exists_forall₂ h
  obtain ⟨hnamed, hes⟩ := (List.forall₂_and_left _ _).mp hes
  refine ⟨.plain "Node" (("node", d.nodeType) :: (d.name.map ("name", ·)).toList) es, rfl, ?_, ?_,
    ?_⟩
  · rw [Xml.Element.get?_plain]
    cases d.name <;> rfl
  · rw [Xml.Element.get?_plain]
    rfl
  · rwa [Xml.Element.within_plain, List.filter_eq_self.mpr hnamed]

theorem PropertyValue.Plain.exists_element {value : PropertyValue} (h : value.Plain)
    (name : String) : ∃ e, WritesProperty e (name, value) := by
  induction h generalizing name with
  | literal text =>
    have hget := Xml.Element.get?_plain "Property" [("name", name), ("value", text)] []
    refine ⟨_, rfl, .literal (hget "name") ?_ ?_ (hget "value")⟩
    · exact fun h => by cases (hget "type").symm.trans h
    · exact fun h => by cases (hget "type").symm.trans h
  | reference target =>
    have hget := Xml.Element.get?_plain "Property"
      [("name", name), ("type", "ref"), ("value", target)] []
    exact ⟨_, rfl, .reference (hget "name") (hget "type") (hget "value")⟩
  | @node d hnames hvalues ih =>
    obtain ⟨child, htag, hname, hnode, hproperties⟩ :=
      exists_nodeElement d fun p hp => ih p hp p.1
    obtain ⟨hlength, hproperties⟩ := List.forall₂_iff_zip.mp hproperties
    have hget := Xml.Element.get?_plain "Property" [("name", name), ("type", "node")] [child]
    have hholder := HoldsNode.nested (hget "node") (List.find?_cons_of_pos htag)
    exact ⟨_, rfl, .node (hget "name") (hget "type") (hname ▸ hholder) hnode hlength
      fun w hw => hproperties hw⟩

/-- A description that can be written can be written in XML. -/
theorem GraphDesc.Plain.exists_xml {g : GraphDesc} (hg : g.Plain) :
    ∃ e, (MaterialSource.xml e).Writes g := by
  have hvalues : ∀ {d : NodeDesc}, PropertyValue.Plain (.node d) →
      ∀ p ∈ d.properties, ∃ e, WritesProperty e p :=
    fun hd p hp => (hd.of_node.2 p hp).exists_element p.1
  obtain ⟨properties, hproperties⟩ := exists_forall₂ (hvalues hg.output)
  obtain ⟨hnamed, hproperties⟩ := (List.forall₂_and_left _ _).mp hproperties
  have htemplate : ∀ t ∈ g.templates, ∃ e : Element,
      e.isNamed "Node" = true ∧ ElementWritesTemplate e t := by
    intro t ht
    obtain ⟨htname, htplain⟩ := hg.templates t ht
    obtain ⟨e, htag, hname, hnode, hproperties⟩ := exists_nodeElement t.2 (hvalues htplain)
    exact ⟨e, htag, hname.trans htname, hnode, hproperties⟩
  obtain ⟨templates, htemplates⟩ := exists_forall₂ htemplate
  obtain ⟨hnamed', htemplates⟩ := (List.forall₂_and_left _ _).mp htemplates
  obtain ⟨hwithin, hwithin'⟩ :=
    Xml.Element.filter_isNamed hnamed hnamed' (by decide : "Property" ≠ "Node")
  refine ⟨.plain "Material" (g.name.map ("name", ·)).toList (properties ++ templates),
    .xml rfl ?_ ?_ (.refl _) ?_⟩
  · rw [Xml.Element.get?_plain]
    cases g.name <;> rfl
  · rwa [Xml.Element.within_plain, hwithin]
  · rwa [Xml.Element.within_plain, hwithin']

/-- Members have the names of what they write, which are distinct if these are. -/
theorem names_of_writes {α : Type} {members : List (String × Json)} {ns : Named α}
    {R : String × Json → String × α → Prop} (hR : ∀ m n, R m n → m.1 = n.1)
    (h : List.Forall₂ R members ns) (hd : ns.Distinct) :
    members.map (·.1) = ns.map (·.1) ∧ Named.Distinct members := by
  have hnames : members.map (·.1) = ns.map (·.1) := by
    rw [← List.forall₂_eq_eq_eq, List.forall₂_map_left_iff, List.forall₂_map_right_iff]
    exact h.imp hR
  exact ⟨hnames, (congrArg List.Nodup hnames).mpr hd⟩

theorem exists_memberWrites {ps : List (String × PropertyValue)}
    (h : ∀ p ∈ ps, ∃ j, JsonWrites j p.2) : ∃ members, List.Forall₂ MemberWrites members ps :=
  exists_forall₂ fun p hp => (h p hp).imp' (p.1, ·) fun _ hj => ⟨rfl, hj⟩

theorem PropertyValue.Plain.exists_json {value : PropertyValue} (h : value.Plain) :
    ∃ j, JsonWrites j value := by
  induction h with
  | literal text => exact ⟨.string text, .literal text⟩
  | reference target =>
    exact ⟨.object [("ref", .string target)], .reference (by simp [Named.Distinct]) rfl rfl⟩
  | @node d hnames hvalues ih =>
    obtain ⟨properties, hproperties⟩ := exists_memberWrites ih
    obtain ⟨hnames', hdistinct⟩ := names_of_writes (fun _ _ => MemberWrites.name) hproperties hnames
    let members : List (String × Json) := ("node", .string d.nodeType) ::
      ((d.name.map fun name => ("name", .string name)).toList ++
        [("properties", .object properties)])
    have hmembers : Named.Distinct members := by
      cases hname : d.name <;> simp [members, hname, Named.Distinct]
    have hname : members.lookup "name" = d.name.map .string := by
      dsimp only [members]
      cases d.name <;> rfl
    have hmember : members.lookup "properties" = some (.object properties) := by
      dsimp only [members]
      cases d.name <;> rfl
    exact ⟨.object members, .node hmembers rfl hname (.inl hmember) hdistinct hnames' fun w hw =>
      ((List.forall₂_iff_zip.mp hproperties).2 hw).value⟩

/-- A description that can be written can be written in JSON. -/
theorem GraphDesc.Plain.exists_json {g : GraphDesc} (hg : g.Plain) :
    ∃ record, (MaterialSource.json record).Writes g := by
  obtain ⟨hnames, hvalues⟩ := hg.output.of_node
  obtain ⟨properties, hproperties⟩ := exists_memberWrites fun p hp => (hvalues p hp).exists_json
  have htemplate : ∀ t ∈ g.templates, ∃ m, MemberWritesTemplate m t := by
    intro t ht
    obtain ⟨j, hj⟩ := (hg.templates t ht).2.exists_json
    obtain ⟨key, nodeType, name, ps⟩ := t
    exact ⟨(key, j), rfl, name, hj⟩
  obtain ⟨templates, htemplates⟩ := exists_forall₂ htemplate
  exact ⟨⟨g.name, templates, properties⟩, .json rfl
    ⟨(names_of_writes (fun _ _ => MemberWrites.name) hproperties hnames).2,
      (names_of_writes (fun _ _ => MemberWritesTemplate.name) htemplates hg.distinct).2⟩
    hproperties (.refl _) htemplates⟩

/-- **The two readers agree.** A plain description can be written as XML and as JSON, and whatever
writes it in either is read as the same description, with no warnings. -/
theorem GraphDesc.restored {g : GraphDesc} (hg : g.Plain) :
    (∃ e, (MaterialSource.xml e).Writes g) ∧ (∃ record, (MaterialSource.json record).Writes g) ∧
      ∀ m : MaterialSource, m.Writes g → (m.desc []).Restores g ∧
        ∀ d : SourceText, d.parseMaterial = .ok m → d.readMaterial = .ok (m.desc []) :=
  ⟨hg.exists_xml, hg.exists_json, fun _ hm => ⟨hm.restores hg, fun d hd => by
    rw [d.readMaterial_eq, hd]
    rfl⟩⟩

/-- A node of a name within the root, a nameless one within it, a reference and the template. -/
theorem GraphDesc.restored_painted :
    let mix : NodeDesc := .mk "Blend" (some "mix")
      [("Bxdf1", .reference "paint"), ("Bxdf2", .node (.mk "MicrofacetReflection" none [])),
        ("Factor", .literal "0.25")]
    let g : GraphDesc := ⟨some "painted", .output [("Surface", .node mix)],
      [("paint", .mk "Lambert" (some "paint") [("Color", .literal "0.8 0.1 0.1 1")])], []⟩
    g.Plain ∧ ∃ e record, (GraphDesc.ofElement [] e).Restores g ∧
      (GraphDesc.ofRecord [] record).Restores g := by
  intro mix g
  have hmix : PropertyValue.Plain (.node mix) := by
    refine .node (by decide) fun p hp => ?_
    simp only [mix, NodeDesc.properties, List.mem_cons, List.not_mem_nil, or_false] at hp
    rcases hp with rfl | rfl | rfl
    · exact .reference _
    · exact .node .nil fun _ hp => absurd hp List.not_mem_nil
    · exact .literal _
  have hg : g.Plain := by
    refine ⟨rfl, .node (by decide) fun p hp => ?_, by decide, fun t ht => ?_⟩
    · obtain rfl := List.mem_singleton.mp hp
      exact hmix
    · obtain rfl := List.mem_singleton.mp ht
      refine ⟨rfl, .node (by decide) fun p hp => ?_⟩
      obtain rfl := List.mem_singleton.mp hp
      exact .literal _
  obtain ⟨⟨e, he⟩, ⟨record, hrecord⟩, hrestores⟩ := GraphDesc.restored hg
  exact ⟨hg, e, record, (hrestores _ he).1, (hrestores _ hrecord).1⟩

end ShadeTree
