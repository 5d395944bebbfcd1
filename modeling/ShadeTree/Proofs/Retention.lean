import ShadeTree.Proofs.Nesting

/-!
# What readers keep

Nothing of a document vanishes as it is read. Of the templates that it declares, each is stored under
its name or is what one warning is about (`TemplateEntry.ReadsTo`), so what is stored under a name is
its last usable declaration, and the warnings are about the unusable ones, in order. That goes for
the templates that a library shares and for those of each material, and beside them the properties
are kept at every position (`MaterialSource.Retained`, `LibrarySource.Retained`).

In JSON the declarations are the members of an object, whose names differ even where the document
repeats one (`Json.distinct_ofMembers`). So there no usable declaration hides another.

The main statement is `SourceText.read_retains`, for the text of a document in either format.
-/

namespace ShadeTree

open Xml (Element)

/-- Entries of the same names, that have related things, have related things under a name. -/
theorem Named.rel_get? {α β : Type} {R : String → α → β → Prop} {ns : Named α} {ms : Named β}
    (h : List.Forall₂ (fun n m => n.1 = m.1 ∧ R m.1 n.2 m.2) ns ms) (name : String) :
    Option.Rel (R name) (ns.get? name) (ms.get? name) := by
  induction h with
  | nil => exact .none
  | @cons n m ns ms hnm _ ih =>
    obtain ⟨key, a⟩ := n
    obtain ⟨key', b⟩ := m
    obtain ⟨rfl, hab⟩ := hnm
    rw [Named.get?, Named.get?, List.lookup_cons, List.lookup_cons]
    by_cases hkey : name = key
    · subst hkey
      rw [beq_self_eq_true]
      exact .some hab
    · rw [beq_false_of_ne hkey]
      exact ih

/-! ### Template entries -/

/-- A template under a name is a node of the document as it is read. -/
def NodeSource.StoredAs (name : String) (n : NodeSource) (d : NodeDesc) : Prop :=
  d.name = some name ∧ n.ReadAs d

/-- An entry for a template in a document: where a warning finds it, and the name and the node that
it defines, if it can be used. -/
structure TemplateEntry where
  path : String
  definition? : Option (String × NodeSource)

namespace TemplateEntry

/-- A `Node` element can be used if it has a name and a type of node. -/
def ofElement (path : String) (e : Element) : TemplateEntry :=
  ⟨path, (e.get? "name").bind fun name => (NodeSource.ofElement? e).map (name, ·)⟩

/-- A member can be used if its value is a node. -/
def ofMember (name : String) (value : Json) : TemplateEntry :=
  ⟨s!"templates/{name}", (NodeSource.ofJson? value).map (name, ·)⟩

/-- The `Node` elements directly within an element, each at its place among them. -/
def ofElements (scope : String) (e : Element) : List TemplateEntry :=
  (e.within "Node").zipIdx.map fun (node, i) => ofElement s!"{scope}/Node[{i}]" node

/-- The members of an object. -/
def ofMembers (members : List (String × Json)) : List TemplateEntry :=
  members.map fun (name, value) => ofMember name value

/-- What the usable entries define, in order. -/
def definitions (entries : List TemplateEntry) : List (String × NodeSource) :=
  entries.filterMap (·.definition?)

/-- The last definition of a name. -/
def last? (entries : List TemplateEntry) (name : String) : Option NodeSource :=
  (definitions entries).reverse.lookup name

/-- Where the entries are that cannot be used, in order. -/
def unusable (entries : List TemplateEntry) : List String :=
  (entries.filter (·.definition?.isNone)).map (·.path)

/-- What becomes of an entry as it is read. -/
inductive ReadsTo (entry : TemplateEntry) : Declared → Prop where
  /-- It is a definition of its name, by the node as it is read. -/
  | definition {name : String} {n : NodeSource} {d : NodeDesc} :
      entry.definition? = some (name, n) → n.StoredAs name d → ReadsTo entry (.definition name d)
  /-- There is a warning at its path. -/
  | complaint {warning : Warning} : entry.definition? = none → warning.path = entry.path →
      ReadsTo entry (.complaint warning)

theorem readsTo_ofElement (path : String) (e : Element) :
    (ofElement path e).ReadsTo (.ofElement path e) := by
  rw [ofElement, Declared.ofElement, NodeSource.ofElement?]
  cases e.get? "name" with
  | none => exact .complaint rfl rfl
  | some name =>
    cases e.get? "node" with
    | none => exact .complaint rfl rfl
    | some nodeType =>
      have hdescribes : (NodeSource.xml e).Describes (.mk nodeType (some name)
        (PropertyValue.propertiesOfElements e.children)) := rfl
      exact .definition rfl ⟨rfl, hdescribes.readAs⟩

theorem readsTo_ofMember (name : String) (value : Json) :
    (ofMember name value).ReadsTo (.ofMember name value) := by
  rw [ofMember]
  cases value with
  | object members =>
    rw [NodeSource.ofJson?, Declared.ofMember]
    cases members.lookup "node" with
    | none => exact .complaint rfl rfl
    | some node =>
      cases node with
      | string nodeType =>
        cases members.lookup "properties" with
        | none =>
          have hdescribes : (NodeSource.json []).Describes (.mk nodeType (some name) []) := rfl
          exact .definition rfl ⟨rfl, hdescribes.readAs⟩
        | some properties =>
          cases properties with
          | object properties =>
            have hdescribes : (NodeSource.json properties).Describes (.mk nodeType (some name)
              (PropertyValue.propertiesOfJson properties)) := rfl
            exact .definition rfl ⟨rfl, hdescribes.readAs⟩
          | _ => exact .complaint rfl rfl
      | _ => exact .complaint rfl rfl
  | _ => exact .complaint rfl rfl

theorem readsTo_ofElements (scope : String) (e : Element) :
    List.Forall₂ ReadsTo (ofElements scope e) (Declared.within scope e) := by
  rw [ofElements, Declared.within, Declared.ofElements, ← Xml.Element.within,
    List.forall₂_map_left_iff, List.forall₂_map_right_iff, List.forall₂_same]
  exact fun node _ => readsTo_ofElement _ node.1

theorem readsTo_ofMembers (members : List (String × Json)) :
    List.Forall₂ ReadsTo (ofMembers members) (Declared.ofMembers members) := by
  rw [ofMembers, Declared.ofMembers, List.forall₂_map_left_iff, List.forall₂_map_right_iff,
    List.forall₂_same]
  exact fun member _ => readsTo_ofMember member.1 member.2

/-- Members of distinct names define distinct names. -/
theorem distinct_definitions {members : List (String × Json)} (h : Named.Distinct members) :
    Named.Distinct (definitions (ofMembers members)) := by
  have hnames : (definitions (ofMembers members)).map (·.1) =
      (members.filter fun m => (NodeSource.ofJson? m.2).isSome).map (·.1) := by
    rw [definitions, ofMembers, List.filterMap_map]
    induction members with
    | nil => rfl
    | cons member members ih =>
      obtain ⟨name, value⟩ := member
      have hrest := ih (List.nodup_cons.mp h).2
      rw [List.filterMap_cons, List.filter_cons]
      dsimp only [Function.comp, ofMember]
      cases NodeSource.ofJson? value with
      | none => exact hrest
      | some n => exact congrArg (List.cons name) hrest
  rw [Named.Distinct, hnames]
  exact h.sublist (List.filter_sublist.map _)

section Accounting

variable {entries : List TemplateEntry} {ds : List Declared} (h : List.Forall₂ ReadsTo entries ds)

include h

/-- There is one warning for each entry that cannot be used. -/
theorem paths_complaints : (Declared.complaints ds).map Warning.path = unusable entries := by
  induction h with
  | nil => rfl
  | @cons entry declared entries ds hentry _ ih =>
    cases hentry with
    | definition hdef _ =>
      rw [unusable, List.filter_cons_of_neg (by simp [hdef])]
      exact ih
    | complaint hnone hpath =>
      rw [unusable, List.filter_cons_of_pos (by simp [hnone]), List.map_cons]
      exact congrArg₂ List.cons hpath ih

/-- The definitions are those of the usable entries. -/
theorem rel_definitions : List.Forall₂
    (fun (s : String × NodeSource) (t : String × NodeDesc) => s.1 = t.1 ∧ s.2.StoredAs t.1 t.2)
    (definitions entries) (Declared.definitions ds) := by
  induction h with
  | nil => exact .nil
  | @cons entry declared entries ds hentry _ ih =>
    cases hentry with
    | definition hdef hstored =>
      rw [definitions, List.filterMap_cons_some hdef]
      exact .cons ⟨rfl, hstored⟩ ih
    | complaint hnone _ =>
      rw [definitions, List.filterMap_cons_none hnone]
      exact ih

/-- Under a name there is the last usable entry of the name, as it is read. -/
theorem rel_last? (name : String) :
    Option.Rel (NodeSource.StoredAs name) (last? entries name) (Declared.last? ds name) :=
  Named.rel_get? (List.rel_reverse (rel_definitions h)) name

end Accounting

end TemplateEntry

/-! ### Distinct names -/

namespace Json

variable {α : Type}

theorem mem_insert_iff {name key : String} {value : α} {members : List (String × α)} :
    key ∈ (insert name value members).map (·.1) ↔ key = name ∨ key ∈ members.map (·.1) := by
  induction members with
  | nil => simp [insert]
  | cons member members ih =>
    obtain ⟨first, v⟩ := member
    rw [insert]
    split
    · rename_i hfirst
      simp [hfirst]
    · rw [List.map_cons, List.mem_cons, ih, List.map_cons, List.mem_cons]
      tauto

theorem distinct_insert {members : List (String × α)} (h : Named.Distinct members) (name : String)
    (value : α) : Named.Distinct (insert name value members) := by
  induction members with
  | nil => exact List.nodup_singleton name
  | cons member members ih =>
    obtain ⟨first, v⟩ := member
    obtain ⟨hfirst, hrest⟩ := List.nodup_cons.mp h
    rw [insert]
    split
    · exact h
    · rename_i hne
      refine List.nodup_cons.mpr ⟨?_, ih hrest⟩
      rw [mem_insert_iff]
      exact not_or.mpr ⟨hne, hfirst⟩

/-- The members of a value have distinct names, whatever the document repeats. -/
theorem distinct_ofMembers (members : List (String × α)) : Named.Distinct (ofMembers members) := by
  rw [ofMembers]
  exact List.foldlRecOn members _ Named.distinct_nil fun ms hms member _ =>
    distinct_insert hms member.1 member.2

theorem Written.distinct_members? {room : ℕ} {w : Written} {members : List (String × Json)}
    (h : w.members? room = some members) : Named.Distinct members := by
  have hvalue : w.value? room = some (.object members) := by
    rw [members?] at h
    split at h
    · obtain rfl := Option.some.inj h
      assumption
    · cases h
  cases w with
  | object parts =>
    rw [value?] at hvalue
    split at hvalue
    · cases hvalue
    · obtain ⟨ms, -, hms⟩ := Option.map_eq_some_iff.mp hvalue
      obtain rfl := Json.object.inj hms
      exact distinct_ofMembers ms
  | _ => simp [value?] at hvalue

/-- Members that may be left out have distinct names as well. -/
theorem Written.distinct_orElse {room : ℕ} {w : Option Written} {members : List (String × Json)}
    (h : orElse [] (members? room) w = some members) : Named.Distinct members := by
  cases w with
  | none =>
    obtain rfl := Option.some.inj h
    exact Named.distinct_nil
  | some w => exact distinct_members? h

end Json

/-- What is read of a list is read item by item. -/
theorem exists_of_mem_mapM {α β : Type} {f : α → Option β} {as : List α} {bs : List β}
    (h : as.mapM f = some bs) {b : β} (hb : b ∈ bs) : ∃ a ∈ as, f a = some b := by
  induction as generalizing bs with
  | nil =>
    obtain rfl : [] = bs := Option.some.inj h
    cases hb
  | cons a as ih =>
    rw [List.mapM_cons] at h
    obtain ⟨b', hb', h⟩ := Option.bind_eq_some_iff.mp h
    obtain ⟨bs', hbs', h⟩ := Option.bind_eq_some_iff.mp h
    obtain rfl := Option.some.inj h
    rcases List.mem_cons.mp hb with rfl | hb
    · exact ⟨a, List.mem_cons_self, hb'⟩
    · obtain ⟨a', ha', hf⟩ := ih hbs' hb
      exact ⟨a', List.mem_cons_of_mem a ha', hf⟩

theorem GraphRecord.distinct_templates {room : ℕ} {w : Json.Written} {record : GraphRecord}
    (h : GraphRecord.ofWritten? room w = some record) : Named.Distinct record.templates := by
  rw [GraphRecord.ofWritten?] at h
  split at h
  · cases h
  · obtain ⟨fields, -, h⟩ := Option.bind_eq_some_iff.mp h
    split at h
    · obtain ⟨name, -, h⟩ := Option.bind_eq_some_iff.mp h
      obtain ⟨templates, htemplates, h⟩ := Option.bind_eq_some_iff.mp h
      obtain ⟨properties, -, h⟩ := Option.bind_eq_some_iff.mp h
      obtain rfl := Option.some.inj h
      exact Json.Written.distinct_orElse htemplates
    · cases h

theorem LibraryRecord.distinct_templates {room : ℕ} {w : Json.Written} {record : LibraryRecord}
    (h : LibraryRecord.ofWritten? room w = some record) :
    Named.Distinct record.templates ∧ ∀ m ∈ record.materials, Named.Distinct m.templates := by
  rw [LibraryRecord.ofWritten?] at h
  split at h
  · cases h
  · obtain ⟨fields, -, h⟩ := Option.bind_eq_some_iff.mp h
    split at h
    · obtain ⟨templates, htemplates, h⟩ := Option.bind_eq_some_iff.mp h
      obtain ⟨parts, -, h⟩ := Option.bind_eq_some_iff.mp h
      obtain ⟨materials, hmaterials, h⟩ := Option.bind_eq_some_iff.mp h
      obtain rfl := Option.some.inj h
      refine ⟨Json.Written.distinct_orElse htemplates, fun m hm => ?_⟩
      obtain ⟨part, -, hpart⟩ := exists_of_mem_mapM hmaterials hm
      exact GraphRecord.distinct_templates hpart
    · cases h

/-! ### Materials and libraries -/

namespace MaterialSource

/-- The node that the material's root is. -/
def root : MaterialSource → NodeSource
  | xml e => .xml e
  | json record => .json record.properties

/-- The template entries of the material. -/
def entries : MaterialSource → List TemplateEntry
  | xml e => TemplateEntry.ofElements "Material" e
  | json record => TemplateEntry.ofMembers record.templates

/-- What is read of a material keeps all that the document says. -/
structure Retained (m : MaterialSource) (shared : List TemplateEntry) (g : GraphDesc) : Prop where
  /-- Every property, at every position. -/
  output : m.root.ReadAs g.output
  /-- Under each name the last definition of the material's own, or the last shared one. -/
  stored : ∀ name, Option.Rel (NodeSource.StoredAs name)
    ((TemplateEntry.last? m.entries name).or (TemplateEntry.last? shared name))
    (g.templates.get? name)
  /-- One warning for each entry that cannot be used, at its path and in order. -/
  told : g.warnings.map Warning.path = TemplateEntry.unusable m.entries
  /-- In JSON no definition takes the place of another. -/
  distinct : ∀ record, m = .json record → Named.Distinct (TemplateEntry.definitions m.entries)

theorem readsTo_entries (m : MaterialSource) :
    List.Forall₂ TemplateEntry.ReadsTo m.entries m.declared := by
  cases m with
  | xml e => exact TemplateEntry.readsTo_ofElements "Material" e
  | json record => exact TemplateEntry.readsTo_ofMembers record.templates

theorem retained_desc {m : MaterialSource}
    (hdistinct : ∀ record, m = .json record → Named.Distinct record.templates)
    {entries : List TemplateEntry} {shared : Templates}
    (hshared : ∀ name, Option.Rel (NodeSource.StoredAs name) (TemplateEntry.last? entries name)
      (shared.get? name)) :
    m.Retained entries (m.desc shared) where
  output := by
    have hdescribes : m.root.Describes (m.desc shared).output := by cases m <;> rfl
    exact hdescribes.readAs
  stored name := by
    rw [get?_templates_desc]
    exact optionRel_or (TemplateEntry.rel_last? m.readsTo_entries name) (hshared name)
  told := by
    rw [warnings_desc]
    exact TemplateEntry.paths_complaints m.readsTo_entries
  distinct record hm := by
    have hmembers := hdistinct record hm
    subst hm
    exact TemplateEntry.distinct_definitions hmembers

/-- A property without a name is kept, and so is the first of two templates of one name when the
second cannot be used. -/
example :
    let m : MaterialSource := .xml (.plain "Material" []
      [.plain "Node" [("name", "paint"), ("node", "Lambert")] [], .plain "Node" [("name", "paint")] [],
        .plain "Property" [("name", "Surface"), ("type", "ref"), ("value", "paint")] [],
        .plain "Property" [("value", "1")] []])
    let g := m.desc []
    g.output.properties.map (·.1) = ["Surface", ""] ∧ g.templates.map (·.1) = ["paint"] ∧
      g.warnings.map Warning.path = ["Material/Node[1]"] := by
  decide +kernel

end MaterialSource

namespace LibrarySource

/-- The template entries that the materials share. -/
def entries : LibrarySource → List TemplateEntry
  | xml root => TemplateEntry.ofElements "Materials" root
  | json record => TemplateEntry.ofMembers record.templates

/-- What is read of a library keeps all that the document says. -/
structure Retained (l : LibrarySource) (desc : LibraryDesc) : Prop where
  /-- Each material in order. -/
  materials : List.Forall₂ (fun (m : MaterialSource) g => m.Retained l.entries g) l.materials
    desc.materials
  /-- One warning for each shared entry that cannot be used, at its path and in order. -/
  told : desc.warnings.map Warning.path = TemplateEntry.unusable l.entries
  /-- In JSON no definition takes the place of another. -/
  distinct : ∀ record, l = .json record → Named.Distinct (TemplateEntry.definitions l.entries)

theorem readsTo_entries (l : LibrarySource) :
    List.Forall₂ TemplateEntry.ReadsTo l.entries l.declared := by
  cases l with
  | xml root => exact TemplateEntry.readsTo_ofElements "Materials" root
  | json record => exact TemplateEntry.readsTo_ofMembers record.templates

theorem retained_desc {l : LibrarySource}
    (hdistinct : ∀ record, l = .json record → Named.Distinct record.templates ∧
      ∀ m ∈ record.materials, Named.Distinct m.templates) : l.Retained l.desc := by
  have hshared : ∀ name, Option.Rel (NodeSource.StoredAs name)
      (TemplateEntry.last? l.entries name) (l.shared.get? name) := by
    intro name
    rw [shared, Templates.get?_declare_nil]
    exact TemplateEntry.rel_last? l.readsTo_entries name
  rw [desc_eq]
  constructor
  case materials =>
    rw [List.forall₂_map_right_iff, List.forall₂_same]
    intro m hm
    refine MaterialSource.retained_desc (fun record hrecord => ?_) hshared
    subst hrecord
    cases l with
    | xml root => simp [materials] at hm
    | json library =>
      obtain ⟨record', hmem, heq⟩ := List.mem_map.mp hm
      obtain rfl := MaterialSource.json.inj heq
      exact (hdistinct library rfl).2 _ hmem
  case told => exact TemplateEntry.paths_complaints l.readsTo_entries
  case distinct =>
    intro record hl
    have hmembers := (hdistinct record hl).1
    subst hl
    exact TemplateEntry.distinct_definitions hmembers

end LibrarySource

/-! ### Documents -/

namespace SourceText

theorem distinct_of_parseMaterial {d : SourceText} {record : GraphRecord}
    (h : d.parseMaterial = .ok (.json record)) : Named.Distinct record.templates := by
  cases d with
  | xml text =>
    rw [parseMaterial] at h
    cases hroot : rootOfXml "Material" text <;> rw [hroot] at h <;> cases h
  | json text =>
    rw [parseMaterial] at h
    split at h
    · rename_i hread
      obtain ⟨w, -, hw⟩ := Option.bind_eq_some_iff.mp hread
      obtain rfl := MaterialSource.json.inj (Except.ok.inj h)
      exact GraphRecord.distinct_templates hw
    · cases h

theorem distinct_of_parseLibrary {d : SourceText} {record : LibraryRecord}
    (h : d.parseLibrary = .ok (.json record)) : Named.Distinct record.templates ∧
      ∀ m ∈ record.materials, Named.Distinct m.templates := by
  cases d with
  | xml text =>
    rw [parseLibrary] at h
    cases hroot : rootOfXml "Materials" text <;> rw [hroot] at h <;> cases h
  | json text =>
    rw [parseLibrary] at h
    split at h
    · rename_i hread
      obtain ⟨w, -, hw⟩ := Option.bind_eq_some_iff.mp hread
      obtain rfl := LibrarySource.json.inj (Except.ok.inj h)
      exact LibraryRecord.distinct_templates hw
    · cases h

/-- **Readers lose nothing**: a document of a material or of a library that is accepted is read so
that every node in it has a node in the description, with a property for each of its properties, in
order and by name; and every template entry is stored under its name, the last usable one where XML
has several, or has one warning at its path, the warnings being in the order of the entries. -/
theorem read_retains (d : SourceText) :
    Option.Rel (fun (m : MaterialSource) g => m.Retained [] g) d.parseMaterial.toOption
        d.readMaterial.toOption ∧
      Option.Rel LibrarySource.Retained d.parseLibrary.toOption d.readLibrary.toOption := by
  rw [readMaterial_eq, readLibrary_eq]
  constructor
  · cases hd : d.parseMaterial with
    | error e => exact .none
    | ok m =>
      refine .some (MaterialSource.retained_desc (fun record hm => ?_) fun name => .none)
      exact distinct_of_parseMaterial (hm ▸ hd)
  · cases hd : d.parseLibrary with
    | error e => exact .none
    | ok l =>
      refine .some (LibrarySource.retained_desc fun record hl => ?_)
      exact distinct_of_parseLibrary (hl ▸ hd)

end SourceText

end ShadeTree
