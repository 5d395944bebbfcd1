import ShadeTree.Description.Json
import ShadeTree.Description.Xml
import ShadeTree.Proofs.Tally
import Mathlib.Data.List.Forall2

/-!
# Templates in documents

A library and each of its materials declare templates: by `Node` elements in XML, by the members of
an object in JSON. A declaration is either usable, and then it defines a name, or there is one thing
to tell about it (`Declared`). This module says which of the two it is from the attributes or
members alone, and proves that the readers go by it: what they find under a name is the last
definition of the name, whatever was wrong with later declarations of it, and what they tell is what
is wrong with the unusable ones, in order (`Templates.ofElements_eq`, `Templates.ofJson_eq`).

A material sees its own definition of a name, and the shared one where it has none
(`MaterialSource.get?_templates_desc`).
-/

namespace ShadeTree

open Xml (Element)

namespace Named

variable {α : Type}

/-- With things put under names one after the other, a name has the last that was put there. -/
theorem get?_foldl_put (entries : List (String × α)) (known : Named α) (name : String) :
    (entries.foldl (fun known entry => known.put entry.1 entry.2) known).get? name =
      (entries.reverse.lookup name).or (known.get? name) := by
  induction entries using List.reverseRecOn with
  | nil => rfl
  | append_singleton entries entry ih =>
    obtain ⟨key, a⟩ := entry
    rw [List.foldl_append, List.foldl_cons, List.foldl_nil, get?_put, ih, List.reverse_concat,
      List.lookup_cons]
    by_cases hkey : name = key
    · rw [if_pos hkey, beq_iff_eq.mpr hkey]
      rfl
    · rw [if_neg hkey, beq_false_of_ne hkey]

theorem has_eq (ns : Named α) (name : String) : ns.has name = (ns.get? name).isSome := by
  induction ns with
  | nil => rfl
  | cons entry ns ih =>
    obtain ⟨key, a⟩ := entry
    have hhas : Named.has ((key, a) :: ns) name = ((key == name) || Named.has ns name) := rfl
    have hget : Named.get? ((key, a) :: ns) name =
        match name == key with
        | true => some a
        | false => Named.get? ns name := List.lookup_cons
    rw [hhas, hget, ih, BEq.comm]
    cases name == key <;> rfl

/-- Over inherited things, a name has its own thing if there is one. -/
theorem get?_overlay (own inherited : Named α) (name : String) :
    (own.overlay inherited).get? name = (own.get? name).or (inherited.get? name) := by
  have hinherited : own.get? name = none →
      (inherited.filter fun entry => !own.has entry.1).lookup name = inherited.lookup name := by
    intro hnone
    induction inherited with
    | nil => rfl
    | cons entry inherited ih =>
      obtain ⟨key, a⟩ := entry
      by_cases hkey : name = key
      · subst hkey
        have hhas : own.has name = false := by rw [has_eq, hnone]; rfl
        rw [List.filter_cons_of_pos (by simp [hhas]), List.lookup_cons_self, List.lookup_cons_self]
      · rw [List.lookup_cons, beq_false_of_ne hkey, List.filter_cons]
        split
        · rw [List.lookup_cons, beq_false_of_ne hkey, ih]
        · exact ih
  have happend : (own.overlay inherited).get? name = (own.get? name).or
      ((inherited.filter fun entry => !own.has entry.1).lookup name) := List.lookup_append
  rw [happend]
  cases hown : own.get? name with
  | none => exact hinherited hown
  | some a => rfl

end Named

/-! ### Declarations -/

/-- What the declaration of a template comes to. -/
inductive Declared where
  /-- It is usable, and defines a name. -/
  | definition (name : String) (desc : NodeDesc)
  /-- It is not, and this is what is wrong with it. -/
  | complaint (warning : Warning)

namespace Declared

/-- What a `Node` element declares: it has to have a name and a type of node. -/
def ofElement (path : String) (e : Element) : Declared :=
  match e.get? "name", e.get? "node" with
  | none, _ => .complaint (.missingAttribute path "name")
  | some _, none => .complaint (.missingAttribute path "node")
  | some name, some nodeType =>
    .definition name (.mk nodeType (some name) (PropertyValue.propertiesOfElements e.children))

/-- What a member declares: it has to be an object with a type of node, and what it has for
properties has to be an object. -/
def ofMember (name : String) : Json → Declared
  | .object members =>
    match members.lookup "node", members.lookup "properties" with
    | none, _ => .complaint (.missingAttribute s!"templates/{name}" "node")
    | some (.string nodeType), none => .definition name (.mk nodeType (some name) [])
    | some (.string nodeType), some (.object properties) =>
      .definition name (.mk nodeType (some name) (PropertyValue.propertiesOfJson properties))
    | some (.string nodeType), some other =>
      .complaint (.malformedTemplate s!"templates/{name}"
        s!"properties of '{nodeType}' must be an object, got {other.text}")
    | some other, _ =>
      .complaint (.malformedTemplate s!"templates/{name}"
        s!"node type must be a string, got {other.text}")
  | other =>
    .complaint (.malformedTemplate s!"templates/{name}"
      s!"expected a node object, got {other.text}")

/-- What is defined. -/
def definition? : Declared → Option (String × NodeDesc)
  | .definition name desc => some (name, desc)
  | .complaint _ => none

/-- What is wrong. -/
def complaint? : Declared → Option Warning
  | .definition _ _ => none
  | .complaint warning => some warning

/-- What elements declare, the first of them at an index in a scope. -/
def ofElements (scope : String) (index : ℕ) (es : List Element) : List Declared :=
  (es.zipIdx index).map fun (e, i) => ofElement s!"{scope}/Node[{i}]" e

/-- What the `Node` elements directly within an element declare. -/
def within (scope : String) (e : Element) : List Declared :=
  ofElements scope 0 (e.children.filter (·.isNamed "Node"))

/-- What the members of an object declare. -/
def ofMembers (members : List (String × Json)) : List Declared :=
  members.map fun (name, value) => ofMember name value

/-- The definitions among declarations, in order. -/
def definitions (ds : List Declared) : List (String × NodeDesc) := ds.filterMap (·.definition?)

/-- What is wrong with the unusable ones among declarations, in order. -/
def complaints (ds : List Declared) : Report := ds.filterMap (·.complaint?)

/-- The last definition of a name. -/
def last? (ds : List Declared) (name : String) : Option NodeDesc :=
  (definitions ds).reverse.lookup name

end Declared

/-! ### Readers -/

/-- Read declarations, over templates that are known: each definition takes the place of an earlier
one of its name. -/
def Templates.declare (known : Templates) (ds : List Declared) : Templates × Report :=
  ((Declared.definitions ds).foldl (fun known entry => known.put entry.1 entry.2) known,
    Declared.complaints ds)

theorem Templates.declare_definition (known : Templates) (name : String) (desc : NodeDesc)
    (ds : List Declared) :
    known.declare (.definition name desc :: ds) = Templates.declare (known.put name desc) ds := rfl

theorem Templates.declare_complaint (known : Templates) (warning : Warning) (ds : List Declared) :
    known.declare (.complaint warning :: ds) =
      ((known.declare ds).1, warning :: (known.declare ds).2) := rfl

/-- **The XML reader** reads the declarations of the elements. -/
theorem Templates.ofElements_eq (scope : String) (known : Templates) (index : ℕ)
    (es : List Element) :
    Templates.ofElements scope known index es =
      known.declare (Declared.ofElements scope index es) := by
  induction es generalizing known index with
  | nil => rfl
  | cons e es ih =>
    have hcons : Declared.ofElements scope index (e :: es) =
        .ofElement s!"{scope}/Node[{index}]" e :: Declared.ofElements scope (index + 1) es := rfl
    rw [hcons, Templates.ofElements, Declared.ofElement]
    cases hname : e.get? "name" with
    | none => simp only [Templates.declare_complaint, ih]
    | some name =>
      simp only [PropertyValue.nodeOfElement]
      cases e.get? "node" with
      | none => simp only [Templates.declare_complaint, ih]
      | some nodeType => simp only [Templates.declare_definition, ih]

theorem PropertyValue.propertiesUnder_eq (members : List (String × Json)) :
    propertiesUnder members =
      match members.lookup "properties" with
      | some (.object properties) => propertiesOfJson properties
      | _ => [] := by
  induction members with
  | nil => rfl
  | cons member members ih =>
    obtain ⟨name, value⟩ := member
    rw [List.lookup_cons]
    by_cases hname : name = "properties"
    · rw [beq_iff_eq.mpr hname.symm]
      cases value <;> simp [propertiesUnder, hname]
    · rw [beq_false_of_ne (Ne.symm hname)]
      cases value <;> simp [propertiesUnder, hname, ih]

/-- **The JSON reader** reads the declarations of the members. -/
theorem Templates.ofJson_eq (known : Templates) (members : List (String × Json)) :
    Templates.ofJson known members = known.declare (Declared.ofMembers members) := by
  induction members generalizing known with
  | nil => rfl
  | cons member members ih =>
    obtain ⟨name, value⟩ := member
    have hcons : Declared.ofMembers ((name, value) :: members) =
        .ofMember name value :: Declared.ofMembers members := rfl
    rw [hcons]
    cases value with
    | object fields =>
      simp only [Templates.ofJson, PropertyValue.nodeOfMembers, Declared.ofMember,
        PropertyValue.propertiesUnder_eq]
      cases fields.lookup "node" with
      | none => simp only [Templates.declare_complaint, ih]
      | some node =>
        cases node with
        | string nodeType =>
          cases fields.lookup "properties" with
          | none =>
            simp only [Templates.declare_definition, ih]
            rfl
          | some properties =>
            cases properties with
            | object properties =>
              simp only [Templates.declare_definition, ih]
              rfl
            | _ => simp only [Templates.declare_complaint, ih]
        | _ => simp only [Templates.declare_complaint, ih]
    | _ => simp only [Templates.ofJson, Declared.ofMember, Templates.declare_complaint, ih]

theorem Templates.get?_declare_nil (ds : List Declared) (name : String) :
    (Templates.declare [] ds).1.get? name = Declared.last? ds name :=
  (Named.get?_foldl_put _ _ _).trans Option.or_none

/-! ### Libraries and their materials -/

/-- A material as a document gives it: an element of XML, or the fields of an object of JSON. -/
inductive MaterialSource where
  | xml (e : Element)
  | json (record : GraphRecord)

namespace MaterialSource

/-- The templates that the material declares. -/
def declared : MaterialSource → List Declared
  | xml e => Declared.within "Material" e
  | json record => Declared.ofMembers record.templates

/-- The description of the material, over templates that it shares with others. -/
def desc (shared : Templates) : MaterialSource → GraphDesc
  | xml e => .ofElement shared e
  | json record => .ofRecord shared record

/-- What the shared templates are does not matter but for the templates that are visible. -/
theorem desc_congr (m : MaterialSource) (shared shared' : Templates) :
    { m.desc shared with templates := (m.desc shared').templates } = m.desc shared' := by
  cases m <;> rfl

/-- **What a material sees** under a name is its own definition, or the shared one if there is
none. -/
theorem get?_templates_desc (m : MaterialSource) (shared : Templates) (name : String) :
    (m.desc shared).templates.get? name =
      (Declared.last? m.declared name).or (shared.get? name) := by
  cases m with
  | xml e =>
    have htemplates : ((xml e).desc shared).templates =
        (Templates.ofElement "Material" e).1.overlay shared := rfl
    rw [htemplates, Named.get?_overlay, Templates.ofElement, Templates.ofElements_eq,
      Templates.get?_declare_nil]
    rfl
  | json record =>
    have htemplates : ((json record).desc shared).templates =
        (Templates.ofJson [] record.templates).1.overlay shared := rfl
    rw [htemplates, Named.get?_overlay, Templates.ofJson_eq, Templates.get?_declare_nil]
    rfl

/-- **What there is to tell of a material** before it is built is what is wrong with its own
templates. -/
theorem warnings_desc (m : MaterialSource) (shared : Templates) :
    (m.desc shared).warnings = Declared.complaints m.declared := by
  cases m with
  | xml e =>
    have hwarnings : ((xml e).desc shared).warnings = (Templates.ofElement "Material" e).2 := rfl
    rw [hwarnings, Templates.ofElement, Templates.ofElements_eq]
    rfl
  | json record =>
    have hwarnings :
        ((json record).desc shared).warnings = (Templates.ofJson [] record.templates).2 := rfl
    rw [hwarnings, Templates.ofJson_eq]
    rfl

end MaterialSource

/-- A later `Node` without a type is told about, and does not hide the earlier one of its name. -/
example :
    let node (attributes : List (String × String)) : Element :=
      .mk ⟨none, "Node"⟩ (attributes.map fun (name, value) => (⟨none, name⟩, value)) []
    let m : MaterialSource := .xml (.mk ⟨none, "Material"⟩ []
      [node [("name", "paint"), ("node", "Lambert")], node [("name", "paint")]])
    (Declared.last? m.declared "paint").map NodeDesc.nodeType = some "Lambert" ∧
      Declared.complaints m.declared = [.missingAttribute "Material/Node[1]" "node"] := by
  decide +kernel

/-- A library as a document gives it: the root element of XML, or the fields of the object of
JSON. -/
inductive LibrarySource where
  | xml (root : Element)
  | json (record : LibraryRecord)

namespace LibrarySource

/-- The materials in order. -/
def materials : LibrarySource → List MaterialSource
  | xml root => (root.children.filter (·.isNamed "Material")).map .xml
  | json record => record.materials.map .json

/-- The templates that the materials share. -/
def declared : LibrarySource → List Declared
  | xml root => Declared.within "Materials" root
  | json record => Declared.ofMembers record.templates

/-- The description of the library. -/
def desc : LibrarySource → LibraryDesc
  | xml root => .ofElement root
  | json record => .ofRecord record

/-- The templates that the materials come to share. -/
def shared (l : LibrarySource) : Templates := (Templates.declare [] l.declared).1

/-- A description is that of each material in order, over the shared templates, with what is wrong
with the shared declarations. -/
theorem desc_eq (l : LibrarySource) :
    l.desc = ⟨l.materials.map (·.desc l.shared), Declared.complaints l.declared⟩ := by
  cases l with
  | xml root =>
    simp only [desc, LibraryDesc.ofElement, materials, shared, declared, Declared.within,
      Templates.ofElement, Templates.ofElements_eq, List.map_map]
    rfl
  | json record =>
    simp only [desc, LibraryDesc.ofRecord, materials, shared, declared, Templates.ofJson_eq,
      List.map_map]
    rfl

/-- A material of a library sees its own definition of a name, or the last shared one. -/
theorem get?_templates_desc_shared (l : LibrarySource) (m : MaterialSource) (name : String) :
    (m.desc l.shared).templates.get? name =
      (Declared.last? m.declared name).or (Declared.last? l.declared name) := by
  rw [m.get?_templates_desc, shared, Templates.get?_declare_nil]

/-- A material is described over the shared templates of its library. -/
theorem eq_desc_of_mem_zip {l : LibrarySource} {m : MaterialSource} {g : GraphDesc}
    (h : (m, g) ∈ l.materials.zip l.desc.materials) : g = m.desc l.shared := by
  rw [desc_eq] at h
  have hall : List.Forall₂ (fun (m : MaterialSource) g => g = m.desc l.shared) l.materials
      (l.materials.map (·.desc l.shared)) := by
    rw [List.forall₂_map_right_iff, List.forall₂_same]
    exact fun _ _ => rfl
  exact (List.forall₂_iff_zip.mp hall).2 h

end LibrarySource

/-! ### Documents -/

/-- The text of a document, to be read as XML or as JSON. -/
inductive SourceText where
  | xml (text : String)
  | json (text : String)

namespace SourceText

/-- The library that the document gives. -/
def parseLibrary : SourceText → Except DocumentError LibrarySource
  | xml text => (rootOfXml "Materials" text).map .xml
  | json text =>
    match (Json.Written.ofText? text).bind (LibraryRecord.ofWritten? Json.greatestDepth) with
    | some record => .ok (.json record)
    | none => .error .json

/-- The material that the document gives. -/
def parseMaterial : SourceText → Except DocumentError MaterialSource
  | xml text => (rootOfXml "Material" text).map .xml
  | json text =>
    match (Json.Written.ofText? text).bind (GraphRecord.ofWritten? Json.greatestDepth) with
    | some record => .ok (.json record)
    | none => .error .json

/-- Read the document of a library. -/
def readLibrary : SourceText → Except DocumentError LibraryDesc
  | xml text => LibraryDesc.ofXmlText text
  | json text => LibraryDesc.ofJsonText text

/-- Read the document of a material. -/
def readMaterial : SourceText → Except DocumentError GraphDesc
  | xml text => GraphDesc.ofXmlText text
  | json text => GraphDesc.ofJsonText text

/-- What is read of a library is its description. -/
theorem readLibrary_eq (d : SourceText) :
    d.readLibrary = d.parseLibrary.map LibrarySource.desc := by
  cases d with
  | xml text =>
    rw [readLibrary, parseLibrary, LibraryDesc.ofXmlText]
    cases rootOfXml "Materials" text <;> rfl
  | json text =>
    rw [readLibrary, parseLibrary, LibraryDesc.ofJsonText]
    cases (Json.Written.ofText? text).bind (LibraryRecord.ofWritten? Json.greatestDepth) <;> rfl

/-- What is read of a material is its description, over no shared templates. -/
theorem readMaterial_eq (d : SourceText) :
    d.readMaterial = d.parseMaterial.map (MaterialSource.desc []) := by
  cases d with
  | xml text =>
    rw [readMaterial, parseMaterial, GraphDesc.ofXmlText]
    cases rootOfXml "Material" text <;> rfl
  | json text =>
    rw [readMaterial, parseMaterial, GraphDesc.ofJsonText]
    cases (Json.Written.ofText? text).bind (GraphRecord.ofWritten? Json.greatestDepth) <;> rfl

end SourceText

end ShadeTree
