import ShadeTree.Proofs.Preparing

/-!
# What preparation passes

Preparation does not pass a node twice, and it does not look below a node that it has passed before.
So what is plugged in below such a node afterwards is not reached: it lies sheltered (`Sheltered`).
This module says which nodes preparation passes, which are all that are not sheltered, and what
becomes of the image textures among them (`Fares`); the main statement is `passes_processAt`. All
nodes are passed in the end just when nothing was sheltered from it (`Covered`).
-/

namespace ShadeTree.Node

open List (Forall₂)

/-! ### Shelter -/

/-- A position lies below a node that preparation has passed. -/
def Sheltered (n : Node) (position : List ℕ) : Prop :=
  ∃ above, above <+: position ∧ above ≠ position ∧ ∃ m, n.below? above = some m ∧ m.processed = true

theorem not_sheltered_nil (n : Node) : ¬ n.Sheltered [] := by
  rintro ⟨above, hprefix, hne, -⟩
  exact hne (List.prefix_nil.mp hprefix)

theorem sheltered_of_processed {n : Node} (h : n.processed = true) (i : ℕ) (rest : List ℕ) :
    n.Sheltered (i :: rest) :=
  ⟨[], List.nil_prefix, (List.cons_ne_nil i rest).symm, n, rfl, h⟩

theorem sheltered_cons_iff {n c : Node} (h : n.processed = false) {i : ℕ}
    (hc : n.sockets[i]?.bind Socket.node? = some c) (rest : List ℕ) :
    n.Sheltered (i :: rest) ↔ c.Sheltered rest := by
  constructor
  · rintro ⟨above, hprefix, hne, m, hm, hprocessed⟩
    cases above with
    | nil =>
      obtain rfl : n = m := Option.some.inj hm
      rw [h] at hprocessed
      cases hprocessed
    | cons j above =>
      obtain ⟨rfl, habove⟩ := List.cons_prefix_cons.mp hprefix
      rw [below?, hc] at hm
      exact ⟨above, habove, fun heq => hne (heq ▸ rfl), m, hm, hprocessed⟩
  · rintro ⟨above, hprefix, hne, m, hm, hprocessed⟩
    refine ⟨i :: above, List.cons_prefix_cons.mpr ⟨rfl, hprefix⟩, ?_, m, ?_, hprocessed⟩
    · exact fun heq => hne (List.cons.inj heq).2
    · rw [below?, hc]
      exact hm

/-! ### What becomes of a node -/

/-- How a node fares, sheltered or not, when a tree that it is in is prepared. -/
structure Fares (textures : Pool Image) (report : Report) (sheltered : Prop)
    (before after : Node) : Prop where
  processed_iff : after.processed = true ↔ before.processed = true ∨ ¬ sheltered
  /-- What was left on a node that is not passed now stays. -/
  kept : before.processed = true ∨ sheltered → after.prepared = before.prepared
  /-- An image texture that is passed is bound to the texture of its name, if there is one. -/
  bound : before.processed = false → after.processed = true → before.kind = .imageTexture →
    after.prepared = .texture ((textures.find? before.textureName).map Prod.fst)
  /-- If there is none this is reported. -/
  reported : before.processed = false → after.processed = true → before.kind = .imageTexture →
    textures.find? before.textureName = none →
      ∃ path, .missingTexture path before.textureName ∈ report

/-- What preparing a tree does at each of its positions. -/
def Passes (textures : Pool Image) (report : Report) (n after : Node) : Prop :=
  ∀ position, Option.Rel (Fares textures report (n.Sheltered position)) (n.below? position)
    (after.below? position)

section Passes

variable {t u : Pool Image} {report report' : Report} {n after : Node}

theorem Fares.mono {sheltered : Prop} {a b : Node} (h : Fares t report sheltered a b)
    (hpool : t.bare = u.bare) (hreport : report ⊆ report') : Fares u report' sheltered a b := by
  refine ⟨h.processed_iff, h.kept, fun ha hb hkind => ?_, fun ha hb hkind hnone => ?_⟩
  · rw [h.bound ha hb hkind]
    rcases Pool.find?_cases hpool a.textureName with ⟨ht, hu⟩ | ⟨k, t', u', ht, hu, -⟩
    · rw [ht, hu]
    · rw [ht, hu]
      rfl
  · rcases Pool.find?_cases hpool a.textureName with ⟨ht, -⟩ | ⟨k, t', u', -, hu, -⟩
    · obtain ⟨path, hpath⟩ := h.reported ha hb hkind ht
      exact ⟨path, hreport hpath⟩
    · rw [hu] at hnone
      cases hnone

theorem Passes.mono (h : Passes t report n after) (hpool : t.bare = u.bare)
    (hreport : report ⊆ report') : Passes u report' n after := by
  intro position
  rcases optionRel_cases (h position) with ⟨hn, ha⟩ | ⟨a, b, hn, ha, hab⟩
  · rw [hn, ha]
    exact .none
  · rw [hn, ha]
    exact .some (hab.mono hpool hreport)

/-- A tree whose root was passed stays as it is. -/
theorem passes_of_processed (h : n.processed = true) : Passes t report n n := by
  intro position
  cases hm : n.below? position with
  | none => exact .none
  | some m =>
    have hsheltered : m.processed = true ∨ n.Sheltered position := by
      cases position with
      | nil =>
        obtain rfl : n = m := Option.some.inj hm
        exact .inl h
      | cons i rest => exact .inr (sheltered_of_processed h i rest)
    refine .some ⟨⟨.inl, ?_⟩, fun _ => rfl, fun ha hb => ?_, fun ha hb => ?_⟩
    · rintro (hprocessed | hopen)
      · exact hprocessed
      · exact hsheltered.resolve_right hopen
    · rw [ha] at hb
      cases hb
    · rw [ha] at hb
      cases hb

/-- A tree whose root is passed fares as its root does and what is plugged into it. -/
theorem Passes.of_sockets (hprocessed : n.processed = false)
    (hroot : Fares t report False n after)
    (hsockets : Forall₂ (Socket.Rel (Passes t report)) n.sockets after.sockets) :
    Passes t report n after := by
  intro position
  cases position with
  | nil =>
    have hopen : n.Sheltered [] ↔ False := iff_false_intro (not_sheltered_nil n)
    rw [hopen]
    exact .some hroot
  | cons i rest =>
    have hchild := optionRel_bind (Socket.rel_getElem? hsockets i) fun _ _ hst => hst.node?
    rw [below?, below?]
    rcases optionRel_cases hchild with ⟨hs, ht⟩ | ⟨c, d, hs, ht, hcd⟩
    · rw [hs, ht]
      exact .none
    · rw [hs, ht, sheltered_cons_iff hprocessed hs]
      exact hcd rest

/-- The nodes plugged into sockets fare one after the other: the textures that are registered stay
the same, and what is told of each is told of all. -/
theorem passes_processIn (config : Config) (path : String) (sockets : List (Socket Node))
    (hchildren : ∀ c ∈ sockets.filterMap Socket.node?, ∀ path (t : Pool Image),
      Passes t (processAt config path c t).2.2 c (processAt config path c t).1) (t : Pool Image) :
    Forall₂ (Socket.Rel (Passes t (processIn config path sockets t).2.2)) sockets
      (processIn config path sockets t).1 := by
  induction sockets generalizing t with
  | nil => exact .nil
  | cons s rest ih =>
    obtain ⟨name, kind, link⟩ := s
    cases link with
    | literal v => exact .cons ⟨rfl, rfl, .literal v⟩ (ih hchildren t)
    | text s => exact .cons ⟨rfl, rfl, .text s⟩ (ih hchildren t)
    | node c =>
      obtain ⟨hc, hrest⟩ := List.forall_mem_cons.mp hchildren
      have hbare := (processAt_sameButCounts (rfl : t.bare = t.bare) config
        (childPath path name c.typeName) c).left
      simp only [processIn]
      refine .cons ⟨rfl, rfl, .node ?_⟩ ?_
      · exact (hc _ t).mono rfl (List.subset_append_left _ _)
      · exact (ih hrest _).imp fun s t hst => hst.imp fun _ _ _ h =>
          h.mono hbare (List.subset_append_right _ _)

/-- The root of a tree that is passed is settled. -/
theorem fares_settle (config : Config) (path : String) {sockets : List (Socket Node)}
    (hprocessed : n.processed = false)
    (hname : ({ n with processed := true, sockets := sockets } : Node).textureName = n.textureName)
    (t : Pool Image) :
    Fares t (settle config path { n with processed := true, sockets := sockets } t).2.2 False n
      (settle config path { n with processed := true, sockets := sockets } t).1 := by
  let passed : Node := { n with processed := true, sockets := sockets }
  change Fares t (settle config path passed t).2.2 False n (settle config path passed t).1
  have himage : n.kind = .imageTexture → _ := fun hkind =>
    settle_of_imageTexture config path (n := passed) t hkind
  rw [hname] at himage
  refine ⟨?_, fun h => ?_, fun _ _ hkind => ?_, fun _ _ hkind hnone => ⟨path, ?_⟩⟩
  · rw [settle_fst]
    exact iff_of_true rfl (.inr not_false)
  · rw [hprocessed] at h
    exact absurd h (by simp)
  · rw [himage hkind]
    cases t.find? n.textureName with
    | none => rfl
    | some found => rfl
  · rw [himage hkind, hnone]
    exact List.mem_singleton_self _

/-- **Preparing a tree** passes every node that is not sheltered and leaves the others as they are;
the image textures that it passes are bound or reported missing. -/
theorem passes_processAt (config : Config) (path : String) (n : Node) (t : Pool Image) :
    Passes t (processAt config path n t).2.2 n (processAt config path n t).1 := by
  induction n using Node.induction generalizing path t with
  | step n ih =>
    rw [processAt_eq]
    cases hprocessed : n.processed with
    | true => exact passes_of_processed hprocessed
    | false =>
      rw [if_neg Bool.false_ne_true]
      let below := processIn config path n.sockets t
      have hbare : below.2.1.bare = t.bare :=
        (processIn_sameButCounts (rfl : t.bare = t.bare) config path n.sockets fun c _ path p q h =>
          processAt_sameButCounts h config path c).left
      have hreset : ({ n with processed := true, sockets := below.1 } : Node).reset = n.reset :=
        reset_eq_reset_iff.mpr ⟨rfl, rfl, map_reset_processIn config path n.sockets
          (fun c _ path t => reset_processAt config path c t) t⟩
      have hroot :=
        fares_settle config path hprocessed (textureName_eq_of_reset_eq hreset) below.2.1
      have hsockets : Forall₂ (Socket.Rel (Passes t below.2.2)) n.sockets below.1 :=
        passes_processIn config path n.sockets ih t
      refine .of_sockets hprocessed (hroot.mono hbare (List.subset_append_right _ _)) ?_
      rw [settle_fst]
      exact hsockets.imp fun s u hsu => hsu.imp fun _ _ _ h =>
        h.mono rfl (List.subset_append_left _ _)

/-- Below a node that was passed everything was. -/
def Covered (n : Node) : Prop :=
  ∀ m ∈ n.nodes, m.processed = true → ∀ k ∈ m.nodes, k.processed = true

theorem covered_iff : n.Covered ↔
    (n.processed = true → ∀ k ∈ n.nodes, k.processed = true) ∧ ∀ c ∈ n.children, c.Covered :=
  forall_nodes_iff

theorem covered_validate_iff (n : Node) : n.validate.Covered ↔ n.Covered := by
  simp only [Covered, nodes_map sockets_validate, List.forall_mem_map, processed_validate]

/-- Preparation leaves no node unpassed just when no such node lay below one that was passed. -/
theorem forall_processed_processAt_iff (config : Config) (path : String) (n : Node)
    (t : Pool Image) :
    (∀ m ∈ (processAt config path n t).1.nodes, m.processed = true) ↔ n.Covered := by
  induction n using Node.induction generalizing path t with
  | step n ih =>
    rw [processAt_eq]
    cases hprocessed : n.processed with
    | true =>
      rw [if_pos rfl]
      constructor
      · exact fun hall m hm _ k hk => hall k (mem_nodes_trans hk hm)
      · exact fun hcovered => hcovered n (mem_nodes_iff.mpr (.inl rfl)) hprocessed
    | false =>
      have hsockets := rel_processIn
        (R := fun c d => (∀ m ∈ d.nodes, m.processed = true) ↔ c.Covered) config path n.sockets ih t
      have hbelow : (∀ c ∈ n.children, c.Covered) ↔ _ :=
        Socket.forall_plugged_iff hsockets fun c d h => h.symm
      rw [if_neg Bool.false_ne_true, covered_iff, forall_nodes_iff, hbelow, settle_fst]
      exact and_congr_left fun _ => iff_of_true rfl fun h => by rw [hprocessed] at h; cases h

end Passes

end ShadeTree.Node
