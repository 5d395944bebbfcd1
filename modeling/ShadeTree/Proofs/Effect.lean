import ShadeTree.Proofs.Conformance
import Mathlib.Data.List.Induction

/-!
# What a property does

A property of a description does one of two things to the node under assembly: it is skipped, or it
puts something in the first socket of its name (`Effect`). Which of the two it does, and what comes
of it, depends on the node by the kind of that socket alone, and no property changes the kind of a
socket. So to assemble a description is to find the effect of each property on the node as it was
given, and to take these effects in order (`Assembly.fill_eq`).

In the end a socket holds what the last effect of its name has put there, whatever effects of other
names came between (`Node.getElem?_setLinks`).
-/

namespace ShadeTree

theorem Socket.setLiteral_eq {ν : Type} (s : Socket ν) (text : String) :
    s.setLiteral text =
      if s.kind = .text then ({ s with link := .text text }, .zero)
      else ({ s with link := .literal (Tuple.ofText text).value }, .ofText text) := by
  obtain ⟨name, kind, link⟩ := s
  cases kind <;> rfl

namespace Node

/-! ### Putting things in sockets -/

/-- The place of the first socket of a name, or the number of sockets if there is none. -/
def place (n : Node) (name : String) : ℕ := n.sockets.findIdx (·.name == name)

/-- The kind of the first socket of a name. -/
def socketKind? (n : Node) (name : String) : Option SocketKind := (n.socket? name).map (·.kind)

/-- The node with something else in the first socket of a name. -/
def setLink (n : Node) (name : String) (link : Link Node) : Node :=
  { n with sockets := n.sockets.modify (n.place name) fun s => { s with link := link } }

/-- The node with some things put in its sockets, in order. -/
def setLinks (n : Node) (links : List (String × Link Node)) : Node :=
  links.foldl (fun n entry => n.setLink entry.1 entry.2) n

theorem replaceIn_eq {s t : Socket Node} {sockets : List (Socket Node)}
    (ht : sockets.find? (·.name == s.name) = some t) :
    replaceIn s sockets = sockets.modify (sockets.findIdx (·.name == s.name)) fun _ => s := by
  induction sockets with
  | nil => rfl
  | cons u rest ih =>
    rw [replaceIn, List.findIdx_cons]
    by_cases hu : u.name = s.name
    · rw [if_pos hu, beq_iff_eq.mpr hu, cond_true, List.modify_cons, if_pos rfl]
    · rw [List.find?_cons_of_neg (by simpa using hu)] at ht
      rw [if_neg hu, beq_eq_false_iff_ne.mpr hu, cond_false, List.modify_cons,
        if_neg (Nat.succ_ne_zero _), Nat.add_sub_cancel, ih ht]

theorem getElem?_place (n : Node) (name : String) : n.sockets[n.place name]? = n.socket? name := by
  rw [place, socket?]
  induction n.sockets with
  | nil => rfl
  | cons u rest ih =>
    rw [List.findIdx_cons]
    by_cases hu : u.name = name
    · rw [beq_iff_eq.mpr hu, cond_true, List.find?_cons_of_pos (by simpa using hu)]
      rfl
    · rw [beq_eq_false_iff_ne.mpr hu, cond_false, List.find?_cons_of_neg (by simpa using hu)]
      exact ih

theorem withSocket_eq_setLink {n : Node} {name : String} {s : Socket Node}
    (h : n.socket? name = some s) (link : Link Node) :
    n.withSocket { s with link := link } = n.setLink name link := by
  obtain rfl := name_of_socket? h
  have hplace := getElem?_place n s.name
  have hreplace := replaceIn_eq (s := { s with link := link }) h
  rw [withSocket, setLink, hreplace]
  congr 1
  refine List.ext_getElem? fun i => ?_
  rw [List.getElem?_modify, List.getElem?_modify]
  by_cases hi : n.place s.name = i
  · rw [← hi, hplace, h]
    simp [place]
  · have hi' : n.sockets.findIdx (·.name == s.name) ≠ i := hi
    simp [hi, hi']

theorem setLink_of_socket?_eq_none {n : Node} {name : String} (h : n.socket? name = none)
    (link : Link Node) : n.setLink name link = n := by
  have hsockets : (n.setLink name link).sockets = n.sockets := by
    rw [setLink, List.modify_eq_set_getElem?, getElem?_place, h]
    rfl
  obtain ⟨kind, typeName, mask, valid, validated, processed, prepared, sockets⟩ := n
  exact congrArg (Node.mk kind typeName mask valid validated processed prepared) hsockets

theorem getElem?_setLink (n : Node) (name : String) (link : Link Node) (i : ℕ) :
    (n.setLink name link).sockets[i]? = n.sockets[i]?.map fun s =>
      if n.place name = i then { s with link := link } else s :=
  List.getElem?_modify _ _ _ _

theorem map_declared_setLink (n : Node) (name : String) (link : Link Node) :
    (n.setLink name link).sockets.map Socket.declared = n.sockets.map Socket.declared := by
  refine List.ext_getElem? fun i => ?_
  rw [List.getElem?_map, List.getElem?_map, getElem?_setLink, Option.map_map]
  congr 1
  funext s
  simp only [Function.comp]
  split <;> rfl

theorem map_declared_setLinks (n : Node) (links : List (String × Link Node)) :
    (n.setLinks links).sockets.map Socket.declared = n.sockets.map Socket.declared := by
  induction links generalizing n with
  | nil => rfl
  | cons entry links ih => exact (ih (n.setLink entry.1 entry.2)).trans (map_declared_setLink n _ _)

/-- Nothing of a node changes but its sockets. -/
theorem setLinks_eq (n : Node) (links : List (String × Link Node)) :
    n.setLinks links = { n with sockets := (n.setLinks links).sockets } := by
  induction links generalizing n with
  | nil => obtain ⟨kind, typeName, mask, valid, validated, processed, prepared, sockets⟩ := n; rfl
  | cons entry links ih => exact ih (n.setLink entry.1 entry.2)

/-- Which sockets there are decides on the place and the kind of a name. -/
theorem place_congr {a b : Node} (h : a.sockets.map Socket.declared = b.sockets.map Socket.declared)
    (name : String) : a.place name = b.place name := by
  have hfind := congrArg (List.findIdx (·.1 == name)) h
  simp only [List.findIdx_map] at hfind
  exact hfind

theorem socketKind?_congr {a b : Node}
    (h : a.sockets.map Socket.declared = b.sockets.map Socket.declared) (name : String) :
    a.socketKind? name = b.socketKind? name := by
  have hfind := congrArg (fun l => (l.find? (·.1 == name)).map Prod.snd) h
  simp only [List.find?_map, Option.map_map] at hfind
  exact hfind

/-- **What sockets hold in the end**: the first socket of a name holds what was last put there, and
any other socket holds what it held. -/
theorem getElem?_setLinks (n : Node) (links : List (String × Link Node)) (i : ℕ) :
    (n.setLinks links).sockets[i]? = n.sockets[i]?.map fun s =>
      if n.place s.name = i then { s with link := (links.reverse.lookup s.name).getD s.link }
      else s := by
  induction links using List.reverseRecOn with
  | nil => simp [setLinks]
  | append_singleton links entry ih =>
    obtain ⟨name, link⟩ := entry
    have hlast : n.setLinks (links ++ [(name, link)]) = (n.setLinks links).setLink name link :=
      List.foldl_append
    rw [hlast, getElem?_setLink, ih, place_congr (map_declared_setLinks n links)]
    cases hs : n.sockets[i]? with
    | none => rfl
    | some s =>
      have hname : n.place name = i ↔ n.place s.name = i ∧ s.name = name := by
        constructor
        · rintro rfl
          rw [getElem?_place] at hs
          rw [name_of_socket? hs]
          exact ⟨rfl, rfl⟩
        · rintro ⟨hplace, rfl⟩
          exact hplace
      simp only [Option.map_some, List.reverse_concat, List.lookup_cons, hname]
      by_cases hplace : n.place s.name = i
      · by_cases hlink : s.name = name
        · obtain rfl := hlink
          simp [hplace]
        · simp [hplace, hlink, beq_eq_false_iff_ne.mpr hlink]
      · simp [hplace]

/-- Settings that agree for each name, in order, leave the same node. -/
theorem setLinks_congr (n : Node) {links links' : List (String × Link Node)}
    (h : ∀ name, links.filter (·.1 == name) = links'.filter (·.1 == name)) :
    n.setLinks links = n.setLinks links' := by
  have hlookup : ∀ (entries : List (String × Link Node)) (name : String),
      (entries.filter (·.1 == name)).lookup name = entries.lookup name := by
    intro entries name
    induction entries with
    | nil => rfl
    | cons entry entries ih =>
      obtain ⟨key, link⟩ := entry
      by_cases hentry : key = name
      · rw [List.filter_cons_of_pos (by simpa using hentry), List.lookup_cons, List.lookup_cons,
          beq_iff_eq.mpr hentry.symm]
      · rw [List.filter_cons_of_neg (by simpa using hentry), ih, List.lookup_cons,
          beq_eq_false_iff_ne.mpr (Ne.symm hentry)]
  have hlast : ∀ name, links.reverse.lookup name = links'.reverse.lookup name := fun name => by
    rw [← hlookup, List.filter_reverse, h, ← List.filter_reverse, hlookup]
  rw [setLinks_eq, setLinks_eq n links']
  congr 1
  refine List.ext_getElem? fun i => ?_
  simp only [getElem?_setLinks, hlast]

end Node

/-! ### Effects -/

/-- What a property does: it is skipped, or it puts something in the socket of its name. Either way
there is a report, and what it puts there may have been assembled at the cost of other nodes. -/
inductive Effect where
  | skip (report : Report)
  | set (link : Link Node) (displaced : List Node) (report : Report)

namespace Effect

/-- What is put in the socket. -/
def link? : Effect → Option (Link Node)
  | skip _ => none
  | set link _ _ => some link

/-- What there is to tell. -/
def report : Effect → Report
  | skip ws => ws
  | set _ _ ws => ws

end Effect

/-- The description that a property stands for: its own, or the template of a name. -/
def PropertyValue.subject? (templates : Templates) : PropertyValue → Option NodeDesc
  | .node desc => some desc
  | .reference target => templates.get? target
  | _ => none

namespace Assembly

/-- What a literal does to a socket of a kind. -/
def literalEffect (path name : String) (kind : SocketKind) (text : String) : Effect :=
  match kind with
  | .bsdf => .skip [.kindMismatch path name .bsdf]
  | .text => .set (.text text) [] []
  | _ => .set (.literal (Tuple.ofText text).value) [] (literalReport path name (.ofText text))

/-- What a described node does to a socket that nodes may be plugged into. -/
def plugEffect (ctx : Context) (assemble : Option (NodeDesc → String → Node → Assembly))
    (path name : String) (desc : NodeDesc) : Effect :=
  match assemble with
  | none => .skip [.depthExceeded s!"{path}/{name}" ctx.config.maxDepth]
  | some assemble =>
    match ctx.registry.create? desc.nodeType with
    | none => .skip [.unknownNodeType s!"{path}/{name}" desc.nodeType]
    | some fresh =>
      let child := assemble desc (childPath path name desc.nodeType) fresh
      .set (.node child.node) child.displaced child.report

/-- What a described node does to a socket of a kind. -/
def nodeEffect (ctx : Context) (assemble : Option (NodeDesc → String → Node → Assembly))
    (path name : String) (kind : SocketKind) (desc : NodeDesc) : Effect :=
  if kind = .text then .skip [.kindMismatch path name .text]
  else plugEffect ctx assemble path name desc

/-- What a property does, by the kind of the socket of its name. -/
def effect (ctx : Context) (templates : Templates)
    (assemble : Option (NodeDesc → String → Node → Assembly)) (path : String)
    (kind? : Option SocketKind) (property : String × PropertyValue) : Effect :=
  let (name, value) := property
  match value, kind? with
  | .missing what, _ =>
    .skip [.missingAttribute (if name = "" then path else s!"{path}/{name}") what]
  | _, none => .skip [.unknownProperty path name]
  | .literal text, some kind => literalEffect path name kind text
  | .node desc, some kind => nodeEffect ctx assemble path name kind desc
  | .reference target, some kind =>
    match templates.get? target with
    | some desc => nodeEffect ctx assemble path name kind desc
    | none => .skip [.unknownReference s!"{path}/{name}" target]
  | .invalid reason, some _ => .skip [.malformedLiteral path name reason]

/-- Take an effect on the socket of a name. -/
def take (a : Assembly) (name : String) : Effect → Assembly
  | .skip ws => a.warn ws
  | .set link displaced ws =>
    { node := a.node.setLink name link
      displaced := a.displaced ++ (a.node.plugged? name).toList ++ displaced
      report := a.report ++ ws }

/-- Nodes assemble with room for so many levels below, when there is room for one. -/
def deeper (ctx : Context) (templates : Templates) :
    ℕ → Option (NodeDesc → String → Node → Assembly)
  | 0 => none
  | room + 1 => some (fill ctx templates room)

/-- What the properties of a description do to a node. -/
def effects (ctx : Context) (templates : Templates)
    (assemble : Option (NodeDesc → String → Node → Assembly)) (desc : NodeDesc) (path : String)
    (target : Node) : List (String × Effect) :=
  desc.properties.map fun p =>
    (p.1, effect ctx templates assemble path (target.socketKind? p.1) p)

section Taking

variable (ctx : Context) (templates : Templates)
  (assemble : Option (NodeDesc → String → Node → Assembly)) (path : String)

theorem plugEffect_of_create? {name : String} {desc : NodeDesc} {fresh : Node}
    (h : ctx.registry.create? desc.nodeType = some fresh)
    (f : NodeDesc → String → Node → Assembly) :
    plugEffect ctx (some f) path name desc =
      .set (.node (f desc (childPath path name desc.nodeType) fresh).node)
        (f desc (childPath path name desc.nodeType) fresh).displaced
        (f desc (childPath path name desc.nodeType) fresh).report := by
  simp only [plugEffect, h]

/-- What a property does, in one of three ways: it is skipped, it puts a literal or a text in the
socket, or it plugs in what is assembled one level down from a node that was just created. -/
theorem effect_cases (kind? : Option SocketKind) (property : String × PropertyValue) :
    (∃ ws, effect ctx templates assemble path kind? property = .skip ws) ∨
      (∃ link ws, (∀ c, link ≠ .node c) ∧
        effect ctx templates assemble path kind? property = .set link [] ws) ∨
      ∃ f desc path' fresh, assemble = some f ∧ ctx.registry.create? desc.nodeType = some fresh ∧
        effect ctx templates assemble path kind? property =
          .set (.node (f desc path' fresh).node) (f desc path' fresh).displaced
            (f desc path' fresh).report := by
  obtain ⟨name, value⟩ := property
  have hnode : ∀ kind desc,
      (∃ ws, nodeEffect ctx assemble path name kind desc = .skip ws) ∨
        ∃ f path' fresh, assemble = some f ∧ ctx.registry.create? desc.nodeType = some fresh ∧
          nodeEffect ctx assemble path name kind desc =
            .set (.node (f desc path' fresh).node) (f desc path' fresh).displaced
              (f desc path' fresh).report := by
    intro kind desc
    rw [nodeEffect]
    split
    · exact .inl ⟨_, rfl⟩
    · cases assemble with
      | none => exact .inl ⟨_, rfl⟩
      | some f =>
        cases hfresh : ctx.registry.create? desc.nodeType with
        | none =>
          exact .inl ⟨[.unknownNodeType s!"{path}/{name}" desc.nodeType], by
            simp only [plugEffect, hfresh]⟩
        | some fresh => exact .inr ⟨f, _, fresh, rfl, rfl, plugEffect_of_create? ctx path hfresh f⟩
  cases kind? with
  | none => cases value <;> exact .inl ⟨_, rfl⟩
  | some kind =>
    cases value with
    | literal text =>
      cases kind with
      | bsdf => exact .inl ⟨_, rfl⟩
      | text => exact .inr (.inl ⟨.text text, [], (fun _ h => nomatch h), rfl⟩)
      | color => exact .inr (.inl ⟨.literal _, _, (fun _ h => nomatch h), rfl⟩)
      | float => exact .inr (.inl ⟨.literal _, _, (fun _ h => nomatch h), rfl⟩)
    | node desc =>
      rcases hnode kind desc with hskip | ⟨f, path', fresh, hset⟩
      · exact .inl hskip
      · exact .inr (.inr ⟨f, desc, path', fresh, hset⟩)
    | reference target =>
      simp only [effect]
      cases templates.get? target with
      | none => exact .inl ⟨_, rfl⟩
      | some desc =>
        rcases hnode kind desc with hskip | ⟨f, path', fresh, hset⟩
        · exact .inl hskip
        · exact .inr (.inr ⟨f, desc, path', fresh, hset⟩)
    | missing what => exact .inl ⟨_, rfl⟩
    | invalid reason => exact .inl ⟨_, rfl⟩

theorem put_eq {a : Assembly} {s : Socket Node} (hs : a.node.socket? s.name = some s)
    (link : Link Node) :
    a.put { s with link := link } s.node? = a.take s.name (.set link [] []) := by
  have hplugged : a.node.plugged? s.name = s.node? := by
    rw [Node.plugged?, hs]
    rfl
  rw [put, take, Node.withSocket_eq_setLink hs, hplugged, List.append_nil, List.append_nil]

theorem applyLiteral_eq {a : Assembly} {s : Socket Node} (hs : a.node.socket? s.name = some s)
    (text : String) :
    applyLiteral path a s text = a.take s.name (literalEffect path s.name s.kind text) := by
  have hput := put_eq hs
  obtain ⟨name, kind, link⟩ := s
  rw [applyLiteral, Socket.setLiteral_eq]
  cases kind with
  | bsdf => rfl
  | text => simp [hput, take, literalEffect, warn, literalReport, Tuple.zero]
  | color => simp [hput, take, literalEffect, warn]
  | float => simp [hput, take, literalEffect, warn]

theorem applyNode_eq {a : Assembly} {s : Socket Node} (hs : a.node.socket? s.name = some s)
    (desc : NodeDesc) :
    applyNode ctx assemble path a s desc =
      a.take s.name (nodeEffect ctx assemble path s.name s.kind desc) := by
  unfold applyNode nodeEffect plugEffect
  split
  · rfl
  · cases assemble with
    | none => rfl
    | some assemble =>
      cases ctx.registry.create? desc.nodeType with
      | none => rfl
      | some fresh =>
        simp only [Socket.connect, put_eq hs]
        simp [take]

theorem applyProperty_eq (a : Assembly) (property : String × PropertyValue) :
    applyProperty ctx templates assemble path a property =
      a.take property.1
        (effect ctx templates assemble path (a.node.socketKind? property.1) property) := by
  obtain ⟨name, value⟩ := property
  cases hs : a.node.socket? name with
  | none => cases value <;> simp [applyProperty, effect, Node.socketKind?, hs, take]
  | some s =>
    obtain rfl := Node.name_of_socket? hs
    cases value with
    | literal text => simp [applyProperty, effect, Node.socketKind?, hs, applyLiteral_eq path hs]
    | node desc =>
      simp [applyProperty, effect, Node.socketKind?, hs, applyNode_eq ctx assemble path hs]
    | reference target =>
      cases htarget : templates.get? target with
      | none => simp [applyProperty, effect, Node.socketKind?, hs, htarget, take]
      | some desc =>
        simp [applyProperty, effect, Node.socketKind?, hs, htarget,
          applyNode_eq ctx assemble path hs]
    | missing what => simp [applyProperty, effect, take]
    | invalid reason => simp [applyProperty, effect, Node.socketKind?, hs, take]

theorem declared_take (a : Assembly) (name : String) (e : Effect) :
    (a.take name e).node.sockets.map Socket.declared = a.node.sockets.map Socket.declared := by
  cases e with
  | skip ws => rfl
  | set link displaced ws => exact Node.map_declared_setLink a.node name link

/-- The effects of properties are those they have on the node as it was given. -/
theorem foldl_applyProperty (properties : List (String × PropertyValue)) {target : Node}
    {a : Assembly}
    (h : a.node.sockets.map Socket.declared = target.sockets.map Socket.declared) :
    properties.foldl (applyProperty ctx templates assemble path) a =
      (properties.map fun p =>
        (p.1, effect ctx templates assemble path (target.socketKind? p.1) p)).foldl
          (fun a entry => a.take entry.1 entry.2) a := by
  induction properties generalizing a with
  | nil => rfl
  | cons property properties ih =>
    rw [List.foldl_cons, List.map_cons, List.foldl_cons, applyProperty_eq,
      Node.socketKind?_congr h]
    exact ih ((declared_take a _ _).trans h)

end Taking

variable (ctx : Context) (templates : Templates)

/-- **To assemble a description is to take the effects of its properties** on the node as it was
given, in order. -/
theorem fill_eq (room : ℕ) (desc : NodeDesc) (path : String) (target : Node) :
    fill ctx templates room desc path target =
      (effects ctx templates (deeper ctx templates room) desc path target).foldl
        (fun a entry => a.take entry.1 entry.2) (start target) := by
  cases room with
  | zero => exact foldl_applyProperty ctx templates none path desc.properties rfl
  | succ room => exact foldl_applyProperty ctx templates _ path desc.properties rfl

/-! ### What is left when all effects are taken -/

theorem report_foldl_take (es : List (String × Effect)) (a : Assembly) :
    (es.foldl (fun a entry => a.take entry.1 entry.2) a).report =
      a.report ++ es.flatMap fun entry => entry.2.report := by
  induction es generalizing a with
  | nil => simp
  | cons entry es ih =>
    rw [List.foldl_cons, ih, List.flatMap_cons, ← List.append_assoc]
    cases entry.2 <;> rfl

/-- What effects put in sockets. -/
def links (es : List (String × Effect)) : List (String × Link Node) :=
  es.filterMap fun entry => entry.2.link?.map (entry.1, ·)

theorem node_foldl_take (es : List (String × Effect)) (a : Assembly) :
    (es.foldl (fun a entry => a.take entry.1 entry.2) a).node = a.node.setLinks (links es) := by
  induction es generalizing a with
  | nil => rfl
  | cons entry es ih =>
    obtain ⟨name, e⟩ := entry
    rw [List.foldl_cons, ih]
    cases e <;> rfl

theorem report_fill (room : ℕ) (desc : NodeDesc) (path : String) (target : Node) :
    (fill ctx templates room desc path target).report =
      (effects ctx templates (deeper ctx templates room) desc path target).flatMap
        fun entry => entry.2.report := by
  rw [fill_eq, report_foldl_take]
  rfl

theorem node_fill (room : ℕ) (desc : NodeDesc) (path : String) (target : Node) :
    (fill ctx templates room desc path target).node =
      target.setLinks
        (links (effects ctx templates (deeper ctx templates room) desc path target)) := by
  rw [fill_eq, node_foldl_take]
  rfl

end Assembly

end ShadeTree
