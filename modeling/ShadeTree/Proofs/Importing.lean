import ShadeTree.Library
import ShadeTree.Proofs.Preparing

/-!
# Imports

An import walks a list of descriptions while the library grows under it. What becomes of a
description is decided by its name and by the names that are taken when its turn comes: those
registered before the import, and those of the descriptions before it (`fates`). The walk does what
the fates say (`progress_importFrom`): it registers the materials that are imported, each assembled
and prepared as if it were the first, and appends to the report what there is to tell of each
description in turn.

The main statement is `accounted_importAll`, on any library whose counts are right: an import is
accounted for, description by description (`Accounted`).
-/

namespace ShadeTree

/-- A described material under a name, prepared. -/
def Material.ofDesc (ctx : Context) (name : String) (desc : GraphDesc) (textures : Pool Image) :
    Material × Pool Image × Report :=
  prepared ctx.config name (Graph.ofDesc ctx desc).1 textures

theorem Material.prepared_sameButCounts {p q : Pool Image} (h : p.bare = q.bare) (config : Config)
    (name : String) (graph : Graph) :
    Node.SameButCounts p (prepared config name graph p) (prepared config name graph q) := by
  obtain ⟨hroot, hreport, hleft, hright⟩ :=
    Node.processAt_sameButCounts h config graph.root.validate.typeName graph.root.validate
  refine ⟨?_, hreport, hleft, hright⟩
  simp only [prepared, Graph.prepare, Node.process, hroot]

namespace Library

/-! ### Fates -/

/-- What becomes of a description in an import. -/
inductive Fate where
  /-- It has no name. -/
  | unnamed
  /-- Its name is taken. -/
  | duplicate (name : String)
  /-- It is registered under its name. -/
  | imported (name : String) (desc : GraphDesc)

namespace Fate

/-- The fate of a description when some names are taken. -/
def of (taken : List String) (desc : GraphDesc) : Fate :=
  match desc.name with
  | none => .unnamed
  | some name => if name ∈ taken then .duplicate name else .imported name desc

/-- The name of a duplicate. -/
def duplicate? : Fate → Option String
  | .duplicate name => some name
  | _ => none

/-- The name and the description of what is imported. -/
def import? : Fate → Option (String × GraphDesc)
  | .imported name desc => some (name, desc)
  | _ => none

/-- What there is to tell about a description at an index. -/
def report (ctx : Context) (textures : Pool Image) (index : ℕ) : Fate → Report
  | .unnamed => [.missingAttribute (importPath index) "name"]
  | .duplicate name => [.duplicateMaterial (importPath index) name]
  | .imported name desc =>
    (Graph.ofDesc ctx desc).2 ++ (Material.ofDesc ctx name desc textures).2.2

theorem of_congr {taken taken' : List String} (h : ∀ name, name ∈ taken ↔ name ∈ taken') :
    of taken = of taken' := by
  funext desc
  simp only [of, h]

end Fate

/-- The fates of descriptions in order. Each of them takes its name. -/
def fates (taken : List String) : List GraphDesc → List Fate
  | [] => []
  | desc :: rest => .of taken desc :: fates (taken ++ desc.name.toList) rest

/-- A description meets its fate by the names taken before and those of the descriptions before it.
-/
theorem getElem?_fates (taken : List String) (descs : List GraphDesc) (i : ℕ) :
    (fates taken descs)[i]? =
      descs[i]?.map (.of (taken ++ (descs.take i).filterMap (·.name))) := by
  induction descs generalizing taken i with
  | nil => rfl
  | cons desc rest ih =>
    cases i with
    | zero => simp [fates]
    | succ i =>
      rw [fates, List.getElem?_cons_succ, List.getElem?_cons_succ, ih, List.take_succ_cons,
        List.append_assoc]
      cases hname : desc.name <;> simp [hname]

theorem fates_congr {taken taken' : List String} (h : ∀ name, name ∈ taken ↔ name ∈ taken')
    (descs : List GraphDesc) : fates taken descs = fates taken' descs := by
  induction descs generalizing taken taken' with
  | nil => rfl
  | cons desc rest ih =>
    rw [fates, fates, Fate.of_congr h]
    refine congrArg _ (ih fun name => ?_)
    rw [List.mem_append, List.mem_append, h]

/-- What is imported by fates, in order. -/
def newcomers (fs : List Fate) : List (String × GraphDesc) := fs.filterMap Fate.import?

/-- The slots of newcomers. -/
def slotsOf (ctx : Context) (textures : Pool Image) (fs : List Fate) : List (Slot Material) :=
  (newcomers fs).map fun (name, desc) => ⟨name, (Material.ofDesc ctx name desc textures).1, 0⟩

/-- The names of newcomers, each with its slot, when the first of these has a number. -/
def entriesOf (first : ℕ) (fs : List Fate) : List (String × ℕ) :=
  ((newcomers fs).zipIdx first).map fun (newcomer, i) => (newcomer.1, i)

/-- What there is to tell by fates, the first of them at an index. -/
def reportOf (ctx : Context) (textures : Pool Image) (index : ℕ) (fs : List Fate) : Report :=
  (fs.zipIdx index).flatMap fun (fate, i) => fate.report ctx textures i

/-! ### Progress -/

theorem newcomers_append (fs gs : List Fate) :
    newcomers (fs ++ gs) = newcomers fs ++ newcomers gs :=
  List.filterMap_append

theorem newcomers_singleton (f : Fate) : newcomers [f] = f.import?.toList := by
  cases f <;> rfl

theorem map_fst_entriesOf (first : ℕ) (fs : List Fate) :
    (entriesOf first fs).map (·.1) = (newcomers fs).map (·.1) := by
  have hfst := congrArg (List.map (·.1)) (List.zipIdx_map_fst first (newcomers fs))
  rw [List.map_map] at hfst
  rw [entriesOf, List.map_map]
  exact hfst

theorem reportOf_singleton (ctx : Context) (textures : Pool Image) (index : ℕ) (f : Fate) :
    reportOf ctx textures index [f] = f.report ctx textures index := by
  simp [reportOf]

/-- What an import has done to a library and to what it reports, once so many fates are met. The
textures are those that were registered as it began. -/
structure Progress (ctx : Context) (textures : Pool Image) (index : ℕ) (fs : List Fate)
    (l : Library) (r : ImportReport) (result : Library × Pool Image × ImportReport) : Prop where
  fallback_eq : result.1.fallback = l.fallback
  kind_eq : result.1.materials.kind = l.materials.kind
  isOpen_eq : result.1.materials.isOpen = l.materials.isOpen
  slots_eq : result.1.materials.slots = l.materials.slots ++ slotsOf ctx textures fs
  directory_perm : result.1.materials.directory.Perm
    (l.materials.directory ++ entriesOf l.materials.slots.length fs)
  bare_eq : result.2.1.bare = textures.bare
  imported_eq : result.2.2.imported = r.imported ++ (newcomers fs).map (·.1)
  duplicates_eq : result.2.2.duplicates = r.duplicates ++ fs.filterMap Fate.duplicate?
  warnings_eq : result.2.2.warnings = r.warnings ++ reportOf ctx textures index fs

section Progress

variable {ctx : Context} {textures t : Pool Image} {index : ℕ} {fs gs : List Fate} {l : Library}
  {r : ImportReport} {x y : Library × Pool Image × ImportReport}

theorem Progress.refl (ht : t.bare = textures.bare) :
    Progress ctx textures index [] l r (l, t, r) := by
  refine ⟨rfl, rfl, rfl, ?_, ?_, ht, ?_, ?_, ?_⟩
  · simp [slotsOf, newcomers]
  · simp [entriesOf, newcomers]
  · simp [newcomers]
  · simp
  · simp [reportOf]

theorem Progress.trans (h : Progress ctx textures index fs l r x)
    (h' : Progress ctx textures (index + fs.length) gs x.1 x.2.2 y) :
    Progress ctx textures index (fs ++ gs) l r y := by
  refine ⟨h'.fallback_eq.trans h.fallback_eq, h'.kind_eq.trans h.kind_eq,
    h'.isOpen_eq.trans h.isOpen_eq, ?_, ?_, h'.bare_eq, ?_, ?_, ?_⟩
  · rw [h'.slots_eq, h.slots_eq, List.append_assoc, slotsOf, slotsOf, slotsOf, newcomers_append,
      List.map_append]
  · have hlength : x.1.materials.slots.length =
        l.materials.slots.length + (newcomers fs).length := by
      rw [h.slots_eq, List.length_append, slotsOf, List.length_map]
    have hentries : entriesOf l.materials.slots.length (fs ++ gs) =
        entriesOf l.materials.slots.length fs ++ entriesOf x.1.materials.slots.length gs := by
      rw [entriesOf, entriesOf, entriesOf, hlength, newcomers_append, List.zipIdx_append,
        List.map_append]
    rw [hentries, ← List.append_assoc]
    exact h'.directory_perm.trans (h.directory_perm.append_right _)
  · rw [h'.imported_eq, h.imported_eq, List.append_assoc, newcomers_append, List.map_append]
  · rw [h'.duplicates_eq, h.duplicates_eq, List.append_assoc, List.filterMap_append]
  · rw [h'.warnings_eq, h.warnings_eq, List.append_assoc, reportOf, reportOf, reportOf,
      List.zipIdx_append, List.flatMap_append]

variable (ctx index)

/-- A fate that imports nothing leaves the library. -/
theorem progress_skip (l : Library) (r : ImportReport) {f : Fate} (hf : f.import? = none)
    (ht : t.bare = textures.bare) :
    Progress ctx textures index [f] l r (l, t, { r with
      duplicates := r.duplicates ++ f.duplicate?.toList
      warnings := r.warnings ++ f.report ctx textures index }) := by
  have hnone : newcomers [f] = [] := by rw [newcomers_singleton, hf, Option.toList_none]
  refine ⟨rfl, rfl, rfl, ?_, ?_, ht, ?_, ?_, ?_⟩
  · rw [slotsOf, hnone, List.map_nil, List.append_nil]
  · rw [entriesOf, hnone, List.zipIdx_nil, List.map_nil, List.append_nil]
  · rw [hnone, List.map_nil, List.append_nil]
  · cases f <;> rfl
  · rw [reportOf_singleton]

/-- To import a description under a name that is not taken registers its material. -/
theorem progress_imported (name : String) (desc : GraphDesc) (ht : t.bare = textures.bare) :
    Progress ctx textures index [.imported name desc] l r
      ({ l with
          materials := { l.materials with
            slots := l.materials.slots ++ [⟨name, (Material.ofDesc ctx name desc t).1, 0⟩]
            directory :=
              Pool.insertName name l.materials.slots.length l.materials.directory } },
        (Material.ofDesc ctx name desc t).2.1,
        { r with
          imported := r.imported ++ [name]
          warnings := r.warnings ++ (Graph.ofDesc ctx desc).2 ++
            (Material.ofDesc ctx name desc t).2.2 }) := by
  obtain ⟨hmade, htold, hbare, -⟩ :=
    Material.prepared_sameButCounts ht ctx.config name (Graph.ofDesc ctx desc).1
  refine ⟨rfl, rfl, rfl, ?_, ?_, hbare.trans ht, rfl, (List.append_nil _).symm, ?_⟩
  · rw [Material.ofDesc, hmade]
    rfl
  · exact (Pool.perm_insertName _ _ _).trans (List.perm_append_singleton _ _).symm
  · rw [reportOf_singleton, Fate.report, ← List.append_assoc, Material.ofDesc, htold]
    rfl

/-- One description meets its fate. -/
theorem progress_importOne (desc : GraphDesc) (l : Library) (r : ImportReport)
    (ht : t.bare = textures.bare) :
    Progress ctx textures index [.of l.materials.names desc] l r
      (importOne ctx index desc l t r) := by
  rw [importOne, Fate.of]
  cases desc.name with
  | none =>
    have hskip := progress_skip ctx index l r (f := .unnamed) rfl ht
    have hnone : Fate.unnamed.duplicate? = none := rfl
    rwa [hnone, Option.toList_none, List.append_nil] at hskip
  | some name =>
    dsimp only
    by_cases hname : name ∈ l.materials.names
    · rw [if_pos hname, if_pos (Pool.contains_iff.mpr hname)]
      exact progress_skip ctx index l r (f := .duplicate name) rfl ht
    · rw [if_neg hname, if_neg (Pool.contains_iff.not.mpr hname), Pool.create_of_not_mem hname]
      exact progress_imported ctx index name desc ht

/-- The names taken after a description met its fate. -/
theorem mem_names_importOne (desc : GraphDesc) (l : Library) (r : ImportReport)
    (ht : t.bare = textures.bare) (name : String) :
    name ∈ (importOne ctx index desc l t r).1.materials.names ↔
      name ∈ l.materials.names ++ desc.name.toList := by
  have hprogress := progress_importOne ctx index desc l r ht
  have hnames := (hprogress.directory_perm.map (·.1)).mem_iff (a := name)
  rw [Pool.names, hnames, List.map_append, map_fst_entriesOf, newcomers_singleton, List.mem_append,
    List.mem_append, Fate.of]
  cases desc.name with
  | none => exact Iff.rfl
  | some key =>
    dsimp only
    split
    · rename_i hkey
      constructor
      · exact fun h => .inl (h.resolve_right List.not_mem_nil)
      · rintro (h | h)
        · exact .inl h
        · obtain rfl := List.mem_singleton.mp h
          exact .inl hkey
    · exact Iff.rfl

theorem progress_importFrom (descs : List GraphDesc) (l : Library) (r : ImportReport)
    (ht : t.bare = textures.bare) :
    Progress ctx textures index (fates l.materials.names descs) l r
      (importFrom ctx index descs l t r) := by
  induction descs generalizing index l t r with
  | nil => exact .refl ht
  | cons desc rest ih =>
    have hfirst := progress_importOne ctx index desc l r ht
    have hrest := ih (index + 1) (importOne ctx index desc l t r).1
      (importOne ctx index desc l t r).2.2 hfirst.bare_eq
    rw [fates_congr (mem_names_importOne ctx index desc l r ht)] at hrest
    exact hfirst.trans hrest

end Progress

/-! ### Accounts of an import -/

section Accounts

variable {live : Multiset (Handle Material)} {l : Library}

theorem tallies_importOne (h : l.materials.Tallies live) (ctx : Context) (index : ℕ)
    (desc : GraphDesc) (t : Pool Image) (r : ImportReport) :
    (importOne ctx index desc l t r).1.materials.Tallies live := by
  rw [importOne]
  split
  · exact h
  · split
    · exact h
    · dsimp only
      split
      · exact h.create ‹_›
      · exact h

/-- The counts of a library stay right as it grows. -/
theorem tallies_importFrom (h : l.materials.Tallies live) (ctx : Context) (index : ℕ)
    (descs : List GraphDesc) (t : Pool Image) (r : ImportReport) :
    (importFrom ctx index descs l t r).1.materials.Tallies live := by
  induction descs generalizing index l t r with
  | nil => exact h
  | cons desc rest ih => exact ih (tallies_importOne h ctx index desc t r) _ _ _

/-- An import is accounted for, description by description. -/
structure Accounted (ctx : Context) (desc : LibraryDesc) (l : Library) (textures : Pool Image)
    (result : Library × Pool Image × ImportReport) (fs : List Fate) : Prop where
  /-- Each description meets one fate, by the names registered before and those of the descriptions
  before it. -/
  fate_eq : ∀ i : ℕ, fs[i]? = desc.materials[i]?.map
    (Fate.of (l.materials.names ++ (desc.materials.take i).filterMap (·.name)))
  imported_eq : result.2.2.imported = (newcomers fs).map (·.1)
  duplicates_eq : result.2.2.duplicates = fs.filterMap Fate.duplicate?
  /-- What there is to tell of the shared templates comes first, then what each fate tells. -/
  warnings_eq : result.2.2.warnings = desc.warnings ++ reportOf ctx textures 0 fs
  nodup_imported : result.2.2.imported.Nodup
  names_perm : result.1.materials.names.Perm (l.materials.names ++ result.2.2.imported)
  disjoint : l.materials.names.Disjoint result.2.2.imported
  ascending : result.1.materials.names.Pairwise (· < ·)
  /-- The first description of a name that was not registered gives the material of the name, and
  nothing refers to it yet. -/
  first : ∀ (i : ℕ) (d : GraphDesc) (name : String), desc.materials[i]? = some d →
    d.name = some name → name ∉ l.materials.names →
    name ∉ (desc.materials.take i).filterMap (·.name) →
      result.1.materials.slot? name = some ⟨name, (Material.ofDesc ctx name d textures).1, 0⟩
  /-- What was registered keeps its material and its count. -/
  slot?_eq : ∀ name ∈ l.materials.names,
    result.1.materials.slot? name = l.materials.slot? name
  /-- So does what is not registered any longer and has handles still. -/
  count_eq : ∀ k : Handle Material, k.slot < l.materials.slots.length →
    result.1.materials.count k = l.materials.count k
  /-- The textures stay registered as they were. -/
  bare_eq : result.2.1.bare = textures.bare

/-- The material of a newcomer. -/
theorem slot?_of_mem_newcomers {ctx : Context} {textures : Pool Image} {index : ℕ} {fs : List Fate}
    {r : ImportReport} {x : Library × Pool Image × ImportReport}
    (h : Progress ctx textures index fs l r x) (hx : x.1.materials.Tallies live) {name : String}
    {desc : GraphDesc} (hmem : (name, desc) ∈ newcomers fs) :
    x.1.materials.slot? name = some ⟨name, (Material.ofDesc ctx name desc textures).1, 0⟩ := by
  obtain ⟨k, hk⟩ := List.mem_iff_getElem?.mp hmem
  have hentry : (name, l.materials.slots.length + k) ∈ x.1.materials.directory := by
    refine h.directory_perm.mem_iff.mpr (List.mem_append.mpr (.inr ?_))
    refine List.mem_iff_getElem?.mpr ⟨k, ?_⟩
    rw [entriesOf, List.getElem?_map, List.getElem?_zipIdx, hk]
    rfl
  obtain ⟨s, hs, hslot, -⟩ := hx.slot?_of_mem hentry
  rw [h.slots_eq, List.getElem?_append_right (Nat.le_add_right _ _), Nat.add_sub_cancel_left,
    slotsOf, List.getElem?_map, hk] at hslot
  rw [hs]
  exact hslot.symm

/-- An import leaves the slots that were there. -/
theorem getElem?_slots_of_lt {ctx : Context} {textures : Pool Image} {index : ℕ} {fs : List Fate}
    {r : ImportReport} {x : Library × Pool Image × ImportReport}
    (h : Progress ctx textures index fs l r x) {i : ℕ} (hi : i < l.materials.slots.length) :
    x.1.materials.slots[i]? = l.materials.slots[i]? := by
  rw [h.slots_eq, List.getElem?_append_left hi]

theorem accounted_importAll (h : l.materials.Tallies live) (ctx : Context) (desc : LibraryDesc)
    (textures : Pool Image) :
    Accounted ctx desc l textures (l.importAll ctx desc textures)
      (fates l.materials.names desc.materials) := by
  let x := l.importAll ctx desc textures
  have hprogress : Progress ctx textures 0 (fates l.materials.names desc.materials) l
      (.start desc.warnings) x := progress_importFrom ctx 0 desc.materials l _ rfl
  have hx : x.1.materials.Tallies live := tallies_importFrom h ctx 0 desc.materials textures _
  have himported : x.2.2.imported =
      (newcomers (fates l.materials.names desc.materials)).map (·.1) := hprogress.imported_eq
  have hascending : x.1.materials.names.Pairwise (· < ·) := List.pairwise_map.mpr hx.ascending
  have hperm : x.1.materials.names.Perm (l.materials.names ++ x.2.2.imported) := by
    have hnames := hprogress.directory_perm.map (·.1)
    rwa [List.map_append, map_fst_entriesOf, ← himported] at hnames
  have hnodup : (l.materials.names ++ x.2.2.imported).Nodup :=
    hperm.nodup_iff.mp (hascending.imp fun hlt => hlt.ne)
  obtain ⟨-, hnew, hdisjoint⟩ := List.nodup_append'.mp hnodup
  refine ⟨getElem?_fates _ _, himported, hprogress.duplicates_eq, hprogress.warnings_eq, hnew,
    hperm, hdisjoint, hascending, fun i d name hd hname hnot hfirst => ?_, fun name hname => ?_,
    fun k hk => ?_, hprogress.bare_eq⟩
  · refine slot?_of_mem_newcomers hprogress hx (List.mem_filterMap.mpr ⟨.imported name d, ?_, rfl⟩)
    refine List.mem_iff_getElem?.mpr ⟨i, ?_⟩
    rw [getElem?_fates, hd, Option.map_some, Fate.of, hname]
    dsimp only
    rw [if_neg (List.mem_append.not.mpr (not_or.mpr ⟨hnot, hfirst⟩))]
  · obtain ⟨i, hi⟩ := Pool.mem_names_iff.mp hname
    have hi' : (name, i) ∈ x.1.materials.directory :=
      hprogress.directory_perm.mem_iff.mpr (List.mem_append.mpr (.inl hi))
    obtain ⟨s, hs, hslot, -⟩ := h.slot?_of_mem hi
    obtain ⟨s', hs', hslot', -⟩ := hx.slot?_of_mem hi'
    rw [getElem?_slots_of_lt hprogress (List.getElem?_eq_some_iff.mp hslot).1, hslot] at hslot'
    rw [hs, hs', hslot']
  · rw [Pool.count, getElem?_slots_of_lt hprogress hk, Pool.count]

end Accounts

end Library

end ShadeTree
