import ShadeTree.Proofs.Depth

/-!
# What an assembly tells

The report of an assembly is told here property by property. A property that is skipped is objected
to with one warning, and its reason decides on the kind (`Objects`). A literal that is taken tells
of those of its tokens that are no numbers, and of those that are too many (`tupleReport`). A node
or a reference that is plugged in tells what the properties of its description tell, in order, and
nothing of its own (`Tells`).

`Context.assemble_told` says that this is all there is in the report, in the order of the
properties, and that no property that is reached is passed over in silence. So there is nothing to
tell exactly when every property that is reached, through nodes described on the spot and through
references, is taken with a clean literal.

What a property tells is a relation of its own: it does not go through the effects that properties
have in an assembly. `tells_iff` relates the two.
-/

namespace ShadeTree

open Relation (ReflTransGen)

/-- What there is to tell of the text of a literal that is read as a tuple: of each of its first
four tokens that is not entirely a number, and then of how many tokens follow these. -/
def tupleReport (path name text : String) : Report :=
  let tokens := Token.split text.toList
  ((tokens.take 4).filter fun token => !Token.isNumber token).map (fun token =>
      .malformedLiteral path name s!"token '{String.ofList token}' read as a number prefix") ++
    if 4 < tokens.length then [.extraComponents path name (tokens.length - 4)] else []

section Telling

variable (ctx : Context) (templates : Templates)

/-- The warning about a property that is skipped, in a description that is read into a node at a
path with room for so many levels below. The reasons are looked for in this order, as far as they
apply to the value: it is missing, no socket has its name, it cannot be read, it is a literal where
only nodes go, its template is unknown, it is a node where only text goes, it is too deep, its type
is not registered. -/
inductive Objects (room : ℕ) (path : String) (n : Node) :
    String × PropertyValue → Warning → Prop where
  | missing (name what : String) :
    Objects room path n (name, .missing what)
      (.missingAttribute (if name = "" then path else s!"{path}/{name}") what)
  | noSocket {name : String} {value : PropertyValue} (hvalue : ∀ what, value ≠ .missing what)
    (h : n.socket? name = none) : Objects room path n (name, value) (.unknownProperty path name)
  | invalid {name : String} (reason : String) {kind : SocketKind}
    (hsocket : n.socketKind? name = some kind) :
    Objects room path n (name, .invalid reason) (.malformedLiteral path name reason)
  | literalOnBsdf {name : String} (text : String) (h : n.socketKind? name = some .bsdf) :
    Objects room path n (name, .literal text) (.kindMismatch path name .bsdf)
  | unknownTemplate {name target : String} {kind : SocketKind}
    (hsocket : n.socketKind? name = some kind) (h : templates.get? target = none) :
    Objects room path n (name, .reference target) (.unknownReference s!"{path}/{name}" target)
  | plugOnText {name : String} {value : PropertyValue} {desc : NodeDesc}
    (hsubject : value.subject? templates = some desc) (h : n.socketKind? name = some .text) :
    Objects room path n (name, value) (.kindMismatch path name .text)
  | tooDeep {p : String × PropertyValue} {desc : NodeDesc} (hasks : Asks templates n p desc)
    (h : room = 0) :
    Objects room path n p (.depthExceeded s!"{path}/{p.1}" ctx.config.maxDepth)
  | unregisteredType {p : String × PropertyValue} {desc : NodeDesc}
    (hasks : Asks templates n p desc) (hroom : room ≠ 0)
    (h : ctx.registry.create? desc.nodeType = none) :
    Objects room path n p (.unknownNodeType s!"{path}/{p.1}" desc.nodeType)

/-- What there is to tell of a property, in a description that is read into a node at a path with
room for so many levels below. -/
inductive Tells : ℕ → String → Node → String × PropertyValue → Report → Prop where
  | skipped {room : ℕ} {path : String} {n : Node} {p : String × PropertyValue} {w : Warning}
    (h : Objects ctx templates room path n p w) : Tells room path n p [w]
  | text {room : ℕ} {path : String} {n : Node} {name : String} (text : String)
    (h : n.socketKind? name = some .text) : Tells room path n (name, .literal text) []
  | tuple {room : ℕ} {path : String} {n : Node} {name : String} (text : String)
    (h : n.socketKind? name = some .color ∨ n.socketKind? name = some .float) :
    Tells room path n (name, .literal text) (tupleReport path name text)
  /-- One level down, `tell` is what there is to tell of each property. -/
  | plugged {room : ℕ} {path : String} {n : Node} {p : String × PropertyValue} {desc : NodeDesc}
    {fresh : Node} {tell : String × PropertyValue → Report} (hasks : Asks templates n p desc)
    (hfresh : ctx.registry.create? desc.nodeType = some fresh)
    (htell : ∀ q ∈ desc.properties,
      Tells room (childPath path p.1 desc.nodeType) fresh q (tell q)) :
    Tells (room + 1) path n p (desc.properties.flatMap tell)

/-- A property of a visit is taken, and where it is a literal that is read as a tuple, the literal
is clean. -/
structure CleanlyTaken (v : Visit) (p : String × PropertyValue) : Prop where
  taken : ¬ Skipped ctx templates (ctx.config.maxDepth - v.depth) v.node p
  literal : ∀ text, p.2 = .literal text → v.node.socketKind? p.1 ≠ some .text →
    (Tuple.ofText text).isClean

end Telling

namespace Assembly

variable {ctx : Context} {templates : Templates}

/-! ### What is told is what the effects report -/

theorem literalReport_ofText (path name text : String) :
    literalReport path name (.ofText text) = tupleReport path name text := by
  rw [literalReport, tupleReport]
  congr 1
  · simp [Tuple.ofText, Function.comp_def]
  · have hextra : (Tuple.ofText text).extra = (Token.split text.toList).length - 4 := rfl
    rw [hextra]
    split <;> split <;> first | rfl | omega

theorem literalReport_eq_nil_iff (path name : String) (tuple : Tuple) :
    literalReport path name tuple = [] ↔ tuple.isClean = true := by
  simp [literalReport, Tuple.isClean]

/-- An objection is all that a property reports. -/
theorem report_effect_of_objects {room : ℕ} {path : String} {n : Node}
    {p : String × PropertyValue} {w : Warning} (h : Objects ctx templates room path n p w) :
    (effect ctx templates (deeper ctx templates room) path (n.socketKind? p.1) p).report = [w] := by
  cases h with
  | missing name what => rfl
  | @noSocket name value hvalue h =>
    have hkind : n.socketKind? name = none := by rw [Node.socketKind?, h]; rfl
    rw [hkind]
    cases value with
    | missing what => exact absurd rfl (hvalue what)
    | literal text => rfl
    | node desc => rfl
    | reference target => rfl
    | invalid reason => rfl
  | invalid reason hsocket => rw [hsocket]; rfl
  | literalOnBsdf text h => rw [h]; rfl
  | unknownTemplate hsocket h => simp only [hsocket, effect, h, Effect.report]
  | @plugOnText name value desc hsubject h =>
    rw [h]
    cases value with
    | node d => rfl
    | reference target =>
      have htarget : templates.get? target = some desc := hsubject
      simp only [effect, htarget]
      rfl
    | literal text => cases hsubject
    | missing what => cases hsubject
    | invalid reason => cases hsubject
  | tooDeep hasks h => subst h; rw [effect_of_asks hasks]; rfl
  | unregisteredType hasks hroom h =>
    obtain ⟨room, rfl⟩ := Nat.exists_eq_succ_of_ne_zero hroom
    rw [effect_of_asks hasks]
    simp only [deeper, plugEffect, h, Effect.report]

/-- A property that asks for a node of a registered type reports what is told one level down. -/
theorem report_effect_of_create? {room : ℕ} {path : String} {n : Node}
    {p : String × PropertyValue} {desc : NodeDesc} {fresh : Node} (hasks : Asks templates n p desc)
    (hfresh : ctx.registry.create? desc.nodeType = some fresh) :
    (effect ctx templates (deeper ctx templates (room + 1)) path (n.socketKind? p.1) p).report =
      (fill ctx templates room desc (childPath path p.1 desc.nodeType) fresh).report := by
  rw [effect_of_asks hasks, deeper, plugEffect_of_create? ctx _ hfresh]
  rfl

theorem report_fill_eq_flatMap (room : ℕ) (desc : NodeDesc) (path : String) (n : Node) :
    (fill ctx templates room desc path n).report = desc.properties.flatMap fun p =>
      (effect ctx templates (deeper ctx templates room) path (n.socketKind? p.1) p).report := by
  rw [report_fill, effects, List.flatMap_map]

theorem report_effect_of_tells {room : ℕ} {path : String} {n : Node}
    {p : String × PropertyValue} {ws : Report} (h : Tells ctx templates room path n p ws) :
    (effect ctx templates (deeper ctx templates room) path (n.socketKind? p.1) p).report = ws := by
  induction h with
  | skipped h => exact report_effect_of_objects h
  | text text h => rw [h]; rfl
  | tuple text h => rcases h with h | h <;> rw [h] <;> exact literalReport_ofText _ _ text
  | plugged hasks hfresh _ ih =>
    rw [report_effect_of_create? hasks hfresh, report_fill_eq_flatMap]
    exact List.flatMap_congr ih

/-! ### Objections and reasons -/

/-- A property is objected to, or it is a literal that is taken, or a node is plugged in. -/
theorem objects_or_taken (ctx : Context) (templates : Templates) (room : ℕ) (path : String)
    (n : Node) (p : String × PropertyValue) :
    (∃ w, Objects ctx templates room path n p w) ∨
      (∃ text kind, p.2 = .literal text ∧ n.socketKind? p.1 = some kind ∧ kind ≠ .bsdf) ∨
      ∃ desc fresh below, Asks templates n p desc ∧
        ctx.registry.create? desc.nodeType = some fresh ∧ room = below + 1 := by
  obtain ⟨name, value⟩ := p
  -- What becomes of a value that stands for a description, where there is a socket.
  have hplug : ∀ kind desc, n.socketKind? name = some kind → value.subject? templates = some desc →
      (∃ w, Objects ctx templates room path n (name, value) w) ∨
        ∃ desc fresh below, Asks templates n (name, value) desc ∧
          ctx.registry.create? desc.nodeType = some fresh ∧ room = below + 1 := by
    intro kind desc hkind hsubject
    by_cases htext : kind = .text
    · subst htext
      exact .inl ⟨_, .plugOnText hsubject hkind⟩
    · have hasks : Asks templates n (name, value) desc := ⟨hsubject, kind, hkind, htext⟩
      cases room with
      | zero => exact .inl ⟨_, .tooDeep hasks rfl⟩
      | succ below =>
        cases hfresh : ctx.registry.create? desc.nodeType with
        | none => exact .inl ⟨_, .unregisteredType hasks (Nat.succ_ne_zero below) hfresh⟩
        | some fresh => exact .inr ⟨desc, fresh, below, hasks, hfresh, rfl⟩
  cases hsocket : n.socket? name with
  | none =>
    cases value with
    | missing what => exact .inl ⟨_, .missing name what⟩
    | literal text => exact .inl ⟨_, .noSocket nofun hsocket⟩
    | node desc => exact .inl ⟨_, .noSocket nofun hsocket⟩
    | reference target => exact .inl ⟨_, .noSocket nofun hsocket⟩
    | invalid reason => exact .inl ⟨_, .noSocket nofun hsocket⟩
  | some s =>
    have hkind : n.socketKind? name = some s.kind := by rw [Node.socketKind?, hsocket]; rfl
    cases value with
    | missing what => exact .inl ⟨_, .missing name what⟩
    | invalid reason => exact .inl ⟨_, .invalid reason hkind⟩
    | literal text =>
      by_cases hbsdf : s.kind = .bsdf
      · exact .inl ⟨_, .literalOnBsdf text (hbsdf ▸ hkind)⟩
      · exact .inr (.inl ⟨text, s.kind, rfl, hkind, hbsdf⟩)
    | node desc => exact (hplug s.kind desc hkind rfl).imp_right .inr
    | reference target =>
      cases htarget : templates.get? target with
      | none => exact .inl ⟨_, .unknownTemplate hkind htarget⟩
      | some desc => exact (hplug s.kind desc hkind htarget).imp_right .inr

/-- A property is skipped when there is an objection to it. -/
theorem skipped_iff_exists_objects {room : ℕ} (path : String) {n : Node}
    {p : String × PropertyValue} :
    Skipped ctx templates room n p ↔ ∃ w, Objects ctx templates room path n p w := by
  constructor
  · intro hskipped
    have hput := hskipped.put?_eq_none
    rcases objects_or_taken ctx templates room path n p with h | h | h
    · exact h
    · obtain ⟨text, kind, hvalue, hkind, hbsdf⟩ := h
      rw [hvalue, hkind] at hput
      cases kind with
      | bsdf => exact absurd rfl hbsdf
      | color => cases hput
      | float => cases hput
      | text => cases hput
    · obtain ⟨desc, fresh, below, ⟨hsubject, kind, hkind, htext⟩, hfresh, rfl⟩ := h
      rw [hkind, put?_plug _ _ (isPlug_of_subject? hsubject), if_neg htext, hsubject] at hput
      simp [buildBelow, hfresh] at hput
  · rintro ⟨w, h⟩
    cases h with
    | missing name what => exact .missing name what
    | noSocket _ h => exact .noSocket _ h
    | @invalid name reason _ _ => exact .invalid name reason
    | literalOnBsdf text h => exact .literalOnBsdf text h
    | @unknownTemplate name target _ _ h => exact .unknownTemplate name h
    | plugOnText hsubject h => exact .plugOnText (isPlug_of_subject? hsubject) h
    | tooDeep hasks h => exact .tooDeep _ (isPlug_of_subject? hasks.subject) h
    | unregisteredType hasks _ h => exact .unregisteredType _ hasks.subject h

/-- A literal that is taken, but not as a text, is read as a tuple. -/
theorem kind_of_not_skipped {room : ℕ} {n : Node} {name text : String}
    (h : ¬ Skipped ctx templates room n (name, .literal text))
    (htext : n.socketKind? name ≠ some .text) :
    n.socketKind? name = some .color ∨ n.socketKind? name = some .float := by
  cases hsocket : n.socket? name with
  | none => exact absurd (.noSocket _ hsocket) h
  | some s =>
    have hkind : n.socketKind? name = some s.kind := by rw [Node.socketKind?, hsocket]; rfl
    rw [hkind] at htext ⊢
    cases hs : s.kind with
    | bsdf => exact absurd (.literalOnBsdf text (hs ▸ hkind)) h
    | text => exact absurd (congrArg some hs) htext
    | color => exact .inl rfl
    | float => exact .inr rfl

/-- Something is told of every property, if only that there is nothing to tell. -/
theorem tells_effect (room : ℕ) (path : String) (n : Node) (p : String × PropertyValue) :
    Tells ctx templates room path n p
      (effect ctx templates (deeper ctx templates room) path (n.socketKind? p.1) p).report := by
  -- What a property tells that plugs in a node is told by properties with one level less below.
  induction room using Nat.strongRecOn generalizing path n p with
  | ind room ih =>
    rcases objects_or_taken ctx templates room path n p with h | h | h
    · obtain ⟨w, h⟩ := h
      rw [report_effect_of_objects h]
      exact .skipped h
    · obtain ⟨name, value⟩ := p
      obtain ⟨text, kind, rfl, hkind, hbsdf⟩ := h
      cases kind with
      | bsdf => exact absurd rfl hbsdf
      | text => rw [hkind]; exact .text text hkind
      | color =>
        rw [report_effect_of_tells (.tuple text (.inl hkind))]
        exact .tuple text (.inl hkind)
      | float =>
        rw [report_effect_of_tells (.tuple text (.inr hkind))]
        exact .tuple text (.inr hkind)
    · obtain ⟨desc, fresh, below, hasks, hfresh, rfl⟩ := h
      rw [report_effect_of_create? hasks hfresh, report_fill_eq_flatMap]
      exact .plugged hasks hfresh fun q _ => ih below (Nat.lt_succ_self below) _ fresh q

/-- **One thing is told of every property**, and it is what the effect of the property reports. -/
theorem tells_iff {room : ℕ} {path : String} {n : Node} {p : String × PropertyValue}
    {ws : Report} : Tells ctx templates room path n p ws ↔
      ws = (effect ctx templates (deeper ctx templates room) path (n.socketKind? p.1) p).report :=
  ⟨fun h => (report_effect_of_tells h).symm, fun h => h ▸ tells_effect room path n p⟩

theorem exists_tells (ctx : Context) (templates : Templates) (room : ℕ) (path : String) (n : Node) :
    ∃ tell : String × PropertyValue → Report,
      ∀ p ws, Tells ctx templates room path n p ws ↔ ws = tell p :=
  ⟨_, fun _ _ => tells_iff⟩

end Assembly

/-! ### What is reached -/

/-- What there is to tell of a visit. -/
def Visit.report (ctx : Context) (templates : Templates) (v : Visit) : Report :=
  (Assembly.fill ctx templates (ctx.config.maxDepth - v.depth) v.desc v.path v.node).report

namespace Visit

variable {ctx : Context} {templates : Templates} {v w : Visit}

/-- All that is told of a visit is told of its properties, in order. -/
theorem report_eq_flatMap {tell : String × PropertyValue → Report}
    (htell : ∀ p ∈ v.desc.properties,
      Tells ctx templates (ctx.config.maxDepth - v.depth) v.path v.node p (tell p)) :
    v.report ctx templates = v.desc.properties.flatMap tell := by
  rw [report, Assembly.report_fill_eq_flatMap]
  exact List.flatMap_congr fun p hp => Assembly.report_effect_of_tells (htell p hp)

/-- What is told of a property stands in one piece in what is told of its visit. -/
theorem infix_report_of_tells {p : String × PropertyValue} (hp : p ∈ v.desc.properties)
    {ws : Report}
    (h : Tells ctx templates (ctx.config.maxDepth - v.depth) v.path v.node p ws) :
    ws <:+: v.report ctx templates := by
  obtain ⟨tell, htell⟩ :=
    Assembly.exists_tells ctx templates (ctx.config.maxDepth - v.depth) v.path v.node
  rw [report_eq_flatMap fun q _ => (htell q _).mpr rfl, (htell p ws).mp h]
  exact List.infix_of_mem_flatten (List.mem_map_of_mem hp)

/-- A visit that calls for a node tells, of one of its properties, what is told of the node. -/
theorem tells_of_calls (h : Calls ctx templates v w) :
    ∃ p ∈ v.desc.properties, Tells ctx templates (ctx.config.maxDepth - v.depth) v.path v.node p
      (w.report ctx templates) := by
  obtain ⟨hp, hasks, hdepth, hfresh⟩ := h
  obtain ⟨room, hroom⟩ := Nat.exists_eq_succ_of_ne_zero
    (show ctx.config.maxDepth - v.depth ≠ 0 by omega)
  have hbelow : ctx.config.maxDepth - (v.depth + 1) = room := by omega
  refine ⟨_, hp, ?_⟩
  rw [hroom, Assembly.tells_iff, Assembly.report_effect_of_create? hasks hfresh, report]
  dsimp only
  rw [hbelow]

theorem infix_report_of_reaches (h : ReflTransGen (Calls ctx templates) v w) :
    w.report ctx templates <:+: v.report ctx templates := by
  induction h using ReflTransGen.head_induction_on with
  | refl => exact List.infix_refl _
  | head hcall _ ih =>
    obtain ⟨p, hp, htells⟩ := tells_of_calls hcall
    exact ih.trans (infix_report_of_tells hp htells)

/-- Of a clean property that calls for nothing that has something to tell, there is nothing to
tell. -/
theorem eq_nil_of_clean {p : String × PropertyValue} (hp : p ∈ v.desc.properties)
    (hclean : CleanlyTaken ctx templates v p)
    (hcalls : ∀ w, Calls ctx templates v w → w.report ctx templates = []) {ws : Report}
    (h : Tells ctx templates (ctx.config.maxDepth - v.depth) v.path v.node p ws) : ws = [] := by
  obtain ⟨htaken, hliteral⟩ := hclean
  generalize hroom : ctx.config.maxDepth - v.depth = room at h htaken
  cases h with
  | skipped h => exact absurd ((Assembly.skipped_iff_exists_objects v.path).mpr ⟨_, h⟩) htaken
  | text text h => rfl
  | @tuple _ _ _ name text h =>
    rw [← Assembly.literalReport_ofText, Assembly.literalReport_eq_nil_iff]
    refine hliteral text rfl fun htext => ?_
    rcases h with h | h <;> cases h.symm.trans htext
  | @plugged room _ _ _ desc fresh tell hasks hfresh htell =>
    have hcall := Calls.intro hp hasks (show v.depth < ctx.config.maxDepth by omega) hfresh
    have hbelow : ctx.config.maxDepth - (v.depth + 1) = room := by omega
    rw [← hcalls _ hcall, report_eq_flatMap fun q hq => ?_]
    dsimp only
    rw [hbelow]
    exact htell q hq

/-- There is nothing to tell of a visit when its properties are clean, and there is nothing to tell
of what it calls for. -/
theorem report_eq_nil_iff : v.report ctx templates = [] ↔
    (∀ p ∈ v.desc.properties, CleanlyTaken ctx templates v p) ∧
      ∀ w, Calls ctx templates v w → w.report ctx templates = [] := by
  constructor
  · intro h
    have hnil : ∀ {p ws}, p ∈ v.desc.properties →
        Tells ctx templates (ctx.config.maxDepth - v.depth) v.path v.node p ws → ws = [] := by
      intro p ws hp htells
      have hinfix := infix_report_of_tells hp htells
      rw [h] at hinfix
      exact List.eq_nil_of_infix_nil hinfix
    refine ⟨fun p hp => ?_, fun w hw => ?_⟩
    · have htaken : ¬ Skipped ctx templates (ctx.config.maxDepth - v.depth) v.node p := by
        intro hskipped
        obtain ⟨_, hobjects⟩ := (Assembly.skipped_iff_exists_objects v.path).mp hskipped
        exact List.cons_ne_nil _ _ (hnil hp (.skipped hobjects))
      refine ⟨htaken, fun text hvalue htext => ?_⟩
      obtain ⟨name, value⟩ := p
      obtain rfl : value = .literal text := hvalue
      have htuple := hnil hp (.tuple text (Assembly.kind_of_not_skipped htaken htext))
      rwa [← Assembly.literalReport_ofText, Assembly.literalReport_eq_nil_iff] at htuple
    · obtain ⟨p, hp, htells⟩ := tells_of_calls hw
      exact hnil hp htells
  · rintro ⟨hclean, hcalls⟩
    obtain ⟨tell, htell⟩ :=
      Assembly.exists_tells ctx templates (ctx.config.maxDepth - v.depth) v.path v.node
    rw [report_eq_flatMap fun q _ => (htell q _).mpr rfl, List.flatMap_eq_nil_iff]
    exact fun p hp => eq_nil_of_clean hp (hclean p hp) hcalls ((htell p _).mpr rfl)

/-- **There is nothing to tell of a visit when every property that is reached from it is clean.** -/
theorem report_eq_nil_iff_clean : v.report ctx templates = [] ↔
    ∀ w, ReflTransGen (Calls ctx templates) v w → ∀ p ∈ w.desc.properties,
      CleanlyTaken ctx templates w p := by
  constructor
  · intro h w hw
    have hinfix := infix_report_of_reaches hw
    rw [h] at hinfix
    exact (report_eq_nil_iff.mp (List.eq_nil_of_infix_nil hinfix)).1
  · -- A call goes one level down, so that less room is left for what it reaches.
    intro h
    generalize hroom : ctx.config.maxDepth - v.depth = room
    induction room generalizing v with
    | zero =>
      refine report_eq_nil_iff.mpr ⟨h v .refl, fun w hw => ?_⟩
      obtain ⟨-, -, hdepth, -⟩ := hw
      omega
    | succ room ih =>
      refine report_eq_nil_iff.mpr ⟨h v .refl, fun w hw => ih (fun u hu => h u (.head hw hu)) ?_⟩
      obtain ⟨-, -, -, -⟩ := hw
      dsimp only
      omega

end Visit

/-! ### The account -/

/-- The report of an assembly accounts for the description: for every property that is reached, in
the description itself, in nodes described on the spot and in templates that are referred to. -/
structure Told (ctx : Context) (templates : Templates) (desc : NodeDesc) (target : Node) :
    Prop where
  /-- There is one thing to tell of each property, and in the order of the properties these make up
  the report. -/
  told : ∃ tell : String × PropertyValue → Report,
    (∀ p ∈ desc.properties, ∀ ws,
      Tells ctx templates ctx.config.maxDepth target.typeName target p ws ↔ ws = tell p) ∧
    (ctx.assemble templates desc target).report = desc.properties.flatMap tell
  /-- What there is to tell of a property that is reached stands in the report in one piece. -/
  heard : ∀ v, ReflTransGen (Calls ctx templates) ⟨0, target.typeName, desc, target⟩ v →
    ∀ p ∈ v.desc.properties, ∃ ws,
      Tells ctx templates (ctx.config.maxDepth - v.depth) v.path v.node p ws ∧
      ws <:+: (ctx.assemble templates desc target).report
  /-- A property that is skipped, and no other, is objected to, and the objection is all that there
  is to tell of it. -/
  objected : ∀ room path n p, Skipped ctx templates room n p ↔
    ∃ w, Objects ctx templates room path n p w ∧
      ∀ ws, Tells ctx templates room path n p ws ↔ ws = [w]
  /-- There is nothing to tell when every property that is reached is taken, with a clean literal if
  it is one. -/
  silent_iff : (ctx.assemble templates desc target).report = [] ↔
    ∀ v, ReflTransGen (Calls ctx templates) ⟨0, target.typeName, desc, target⟩ v →
      ∀ p ∈ v.desc.properties, CleanlyTaken ctx templates v p

/-- **The report is a complete account.** What there is to tell of the properties of a description,
one after the other, is all that is in the report: one warning of its own kind for a property that
is skipped, nothing for a text, the tokens of a literal that are no numbers or too many, and for a
node or a reference that is plugged in, what there is to tell of its properties. -/
theorem Context.assemble_told (ctx : Context) (templates : Templates) (desc : NodeDesc)
    (target : Node) : Told ctx templates desc target := by
  let root : Visit := ⟨0, target.typeName, desc, target⟩
  have hreport : (ctx.assemble templates desc target).report = root.report ctx templates := rfl
  obtain ⟨tell, htell⟩ :=
    Assembly.exists_tells ctx templates ctx.config.maxDepth target.typeName target
  constructor
  case told =>
    refine ⟨tell, fun p _ => htell p, ?_⟩
    rw [hreport]
    exact Visit.report_eq_flatMap fun p _ => (htell p _).mpr rfl
  case heard =>
    intro v hv p hp
    obtain ⟨tell, htell⟩ :=
      Assembly.exists_tells ctx templates (ctx.config.maxDepth - v.depth) v.path v.node
    have htells := (htell p _).mpr rfl
    refine ⟨tell p, htells, ?_⟩
    rw [hreport]
    exact (Visit.infix_report_of_tells hp htells).trans (Visit.infix_report_of_reaches hv)
  case objected =>
    intro room path n p
    rw [Assembly.skipped_iff_exists_objects path]
    refine exists_congr fun w => (and_iff_left_of_imp fun hobjects ws => ?_).symm
    rw [Assembly.tells_iff, Assembly.report_effect_of_objects hobjects]
  case silent_iff =>
    rw [hreport]
    exact Visit.report_eq_nil_iff_clean

/-- Three properties are at fault, in the description and in the template it refers to. -/
example :
    let ctx : Context := ⟨.builtin, .standard⟩
    let paint : NodeDesc :=
      .mk "Lambert" none [("Color", .literal "1 2x 3 4 5"), ("Gloss", .literal "1")]
    let desc : NodeDesc := .output [("", .missing "name"), ("Surface", .reference "paint")]
    (ctx.assemble [("paint", paint)] desc (.new .output)).report =
      [.missingAttribute "Output" "name",
        .malformedLiteral "Output/Surface(Lambert)" "Color" "token '2x' read as a number prefix",
        .extraComponents "Output/Surface(Lambert)" "Color" 1,
        .unknownProperty "Output/Surface(Lambert)" "Gloss"] := by
  decide +kernel

end ShadeTree
