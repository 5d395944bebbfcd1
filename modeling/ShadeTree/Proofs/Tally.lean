import ShadeTree.Pool.Holdings
import Mathlib.Data.Multiset.Bind
import Mathlib.Data.Multiset.Count
import Mathlib.Data.String.Basic

/-!
# Pools and their handles

A pool counts its handles without knowing them. What makes the counts right is told here against the
handles that are live, as a multiset: a pool tallies with them when every slot counts the handles to
it, and every handle shows what its slot keeps (`Tallies`). While the pool is open each of them is
also to the slot that is registered under its name (`Accounts`); then the count of a name is the
number of the live handles that bear it (`Accounts.refs?_eq`).

Each operation of the pool moves the live handles in the way its name says, and keeps the pool
accounting for them. A handle that someone else has in hand is one more in the multiset, so these
statements compose whatever else is held.
-/

namespace ShadeTree

/-! ### Things by name -/

namespace Named

variable {α : Type}

/-- No name stands twice. -/
def Distinct (ns : Named α) : Prop := (ns.map (·.1)).Nodup

/-- The things, whatever their names. -/
def things (ns : Named α) : Multiset α := ↑(ns.map (·.2))

theorem distinct_nil : Distinct ([] : Named α) := List.nodup_nil

theorem erase_of_get?_eq_none {ns : Named α} {name : String} (h : ns.get? name = none) :
    ns.erase name = ns := by
  refine List.filter_eq_self.mpr fun entry hentry => ?_
  have hne : name ≠ entry.1 := bne_iff_ne.mp (List.lookup_eq_none_iff.mp h entry hentry)
  exact bne_iff_ne.mpr hne.symm

theorem get?_erase (ns : Named α) (name : String) : (ns.erase name).get? name = none := by
  refine List.lookup_eq_none_iff.mpr fun entry hentry => ?_
  have hne : entry.1 ≠ name := bne_iff_ne.mp (List.mem_filter.mp hentry).2
  exact bne_iff_ne.mpr hne.symm

theorem not_mem_erase (ns : Named α) (name : String) : name ∉ (ns.erase name).map (·.1) := by
  simp [erase]

theorem get?_erase_of_ne (ns : Named α) {name key : String} (h : key ≠ name) :
    (ns.erase name).get? key = ns.get? key := by
  induction ns with
  | nil => rfl
  | cons entry rest ih =>
    obtain ⟨first, a⟩ := entry
    change List.lookup key (rest.filter (·.1 != name)) = List.lookup key rest at ih
    change List.lookup key (((first, a) :: rest).filter (·.1 != name)) =
      List.lookup key ((first, a) :: rest)
    by_cases hfirst : first = name
    · rw [List.filter_cons_of_neg (by simpa using hfirst), ih, List.lookup_cons,
        beq_false_of_ne (hfirst ▸ h)]
    · rw [List.filter_cons_of_pos (by simpa using hfirst), List.lookup_cons, List.lookup_cons, ih]

theorem get?_put (ns : Named α) (name key : String) (a : α) :
    (ns.put name a).get? key = if key = name then some a else ns.get? key := by
  rw [put, get?, List.lookup_cons]
  by_cases h : key = name
  · rw [beq_iff_eq.mpr h, if_pos h]
  · rw [beq_false_of_ne h, if_neg h]
    exact get?_erase_of_ne ns h

theorem of_get?_erase {ns : Named α} {name key : String} {a : α}
    (h : (ns.erase name).get? key = some a) : ns.get? key = some a ∧ key ≠ name := by
  have hne : key ≠ name := by
    rintro rfl
    rw [get?_erase] at h
    cases h
  exact ⟨get?_erase_of_ne ns hne ▸ h, hne⟩

theorem eq_nil_of_get?_eq_none {ns : Named α} (h : ∀ name, ns.get? name = none) : ns = [] := by
  cases ns with
  | nil => rfl
  | cons entry rest =>
    have hfirst := h entry.1
    rw [get?, List.lookup_cons_self] at hfirst
    cases hfirst

theorem Distinct.erase {ns : Named α} (h : ns.Distinct) (name : String) :
    (ns.erase name).Distinct :=
  (List.filter_sublist.map _).nodup h

theorem Distinct.put {ns : Named α} (h : ns.Distinct) (name : String) (a : α) :
    (ns.put name a).Distinct :=
  List.nodup_cons.mpr ⟨not_mem_erase ns name, h.erase name⟩

/-- The things are that of a name, if there is one, and those without it. -/
theorem Distinct.things_eq {ns : Named α} (h : ns.Distinct) (name : String) :
    ns.things = ((ns.get? name).toList : Multiset α) + (ns.erase name).things := by
  induction ns with
  | nil => rfl
  | cons entry rest ih =>
    obtain ⟨key, a⟩ := entry
    obtain ⟨hkey, hrest⟩ := List.nodup_cons.mp h
    by_cases hname : name = key
    · subst hname
      have habsent : get? rest name = none := by
        refine List.lookup_eq_none_iff.mpr fun entry hentry => ?_
        have hne : name ≠ entry.1 := fun heq => hkey (List.mem_map.mpr ⟨entry, hentry, heq.symm⟩)
        simpa using hne
      have herase : Named.erase ((name, a) :: rest) name = rest := by
        rw [← erase_of_get?_eq_none habsent]
        simp [Named.erase]
      rw [herase, get?, List.lookup_cons_self]
      rfl
    · have hget : Named.get? ((key, a) :: rest) name = get? rest name := by
        rw [get?, List.lookup_cons, beq_false_of_ne hname]
        rfl
      have herase : Named.erase ((key, a) :: rest) name = (key, a) :: Named.erase rest name := by
        simp [Named.erase, Ne.symm hname]
      have hthings : ∀ ns : Named α, things ((key, a) :: ns) = a ::ₘ things ns := fun _ => rfl
      rw [hget, herase, hthings, hthings, ih hrest, Multiset.add_cons]

theorem things_put (ns : Named α) (name : String) (a : α) :
    (ns.put name a).things = a ::ₘ (ns.erase name).things := rfl

theorem mem_things_of_get? {ns : Named α} {name : String} {a : α} (ha : ns.get? name = some a) :
    a ∈ ns.things := by
  obtain ⟨before, after, rfl, -⟩ := List.lookup_eq_some_iff.mp ha
  simp [things]

end Named

namespace Pool

variable {α : Type} {p : Pool α} {live : Multiset (Handle α)}

/-! ### The directory -/

theorem mem_names_iff {name : String} : name ∈ p.names ↔ ∃ i, (name, i) ∈ p.directory := by
  simp [names]

theorem contains_iff {name : String} : p.contains name = true ↔ name ∈ p.names := by
  simp [contains, names]

theorem perm_insertName (name : String) (i : ℕ) (directory : List (String × ℕ)) :
    (insertName name i directory).Perm ((name, i) :: directory) := by
  induction directory with
  | nil => exact .refl _
  | cons first rest ih =>
    rw [insertName]
    split
    · exact .refl _
    · exact (ih.cons first).trans (.swap _ _ _)

theorem mem_insertName {name : String} {i : ℕ} {directory : List (String × ℕ)}
    {entry : String × ℕ} :
    entry ∈ insertName name i directory ↔ entry = (name, i) ∨ entry ∈ directory :=
  (perm_insertName name i directory).mem_iff.trans List.mem_cons

/-- A new name goes to its place in the order. -/
theorem pairwise_insertName {name : String} {i : ℕ} {directory : List (String × ℕ)}
    (h : directory.Pairwise (·.1 < ·.1)) (hnew : name ∉ directory.map (·.1)) :
    (insertName name i directory).Pairwise (·.1 < ·.1) := by
  induction directory with
  | nil => exact List.pairwise_singleton _ _
  | cons first rest ih =>
    obtain ⟨hfirst, hrest⟩ := List.pairwise_cons.mp h
    obtain ⟨hne, hnew⟩ := not_or.mp (List.mem_cons.not.mp hnew)
    rw [insertName]
    split
    · rename_i hlt
      refine List.pairwise_cons.mpr ⟨fun entry hentry => ?_, h⟩
      rcases List.mem_cons.mp hentry with rfl | hentry
      · exact hlt
      · exact hlt.trans (hfirst entry hentry)
    · rename_i hlt
      refine List.pairwise_cons.mpr ⟨fun entry hentry => ?_, ih hrest hnew⟩
      rcases mem_insertName.mp hentry with rfl | hentry
      · exact lt_of_le_of_ne (not_lt.mp hlt) (Ne.symm hne)
      · exact hfirst entry hentry

/-! ### Accounting for handles -/

/-- The counts of a pool are right for the handles that are live. -/
structure Tallies (p : Pool α) (live : Multiset (Handle α)) : Prop where
  /-- The names are registered in ascending order, each once. -/
  ascending : p.directory.Pairwise (·.1 < ·.1)
  /-- A registered name is the name of its slot. -/
  named : ∀ name i, (name, i) ∈ p.directory → ∃ s, p.slots[i]? = some s ∧ s.name = name
  /-- A live handle shows the name and the value of its slot. -/
  shown : ∀ h ∈ live, ∃ s, p.slots[h.slot]? = some s ∧ s.name = h.name ∧ s.value = h.value
  /-- A slot counts the live handles to it. -/
  counted : ∀ i s, p.slots[i]? = some s → s.refs = live.countP (·.slot = i)

/-- Besides, every live handle is to the slot that is registered under its name. -/
structure Accounts (p : Pool α) (live : Multiset (Handle α)) : Prop extends Tallies p live where
  registered : ∀ h ∈ live, (h.name, h.slot) ∈ p.directory

/-- The slot a name is registered with is found under it. -/
theorem Tallies.lookup_eq_some_iff (h : p.Tallies live) {name : String} {i : ℕ} :
    p.directory.lookup name = some i ↔ (name, i) ∈ p.directory := by
  have hascending := h.ascending
  generalize p.directory = directory at hascending ⊢
  induction directory with
  | nil => simp
  | cons first rest ih =>
    obtain ⟨key, j⟩ := first
    obtain ⟨hfirst, hrest⟩ := List.pairwise_cons.mp hascending
    rw [List.lookup_cons, List.mem_cons]
    by_cases hname : name = key
    · subst hname
      have hnot : (name, i) ∉ rest := fun hmem => lt_irrefl name (hfirst (name, i) hmem)
      simp [hnot, eq_comm]
    · simp [beq_false_of_ne hname, hname, ih hrest]

/-- The slot of a registered name. -/
theorem Tallies.slot?_of_mem (h : p.Tallies live) {name : String} {i : ℕ}
    (hmem : (name, i) ∈ p.directory) :
    ∃ s, p.slot? name = some s ∧ p.slots[i]? = some s ∧ s.name = name := by
  obtain ⟨s, hs, hname⟩ := h.named name i hmem
  refine ⟨s, ?_, hs, hname⟩
  rw [slot?, h.lookup_eq_some_iff.mpr hmem]
  exact hs

theorem Tallies.isSome_slot?_iff (h : p.Tallies live) {name : String} :
    (p.slot? name).isSome ↔ name ∈ p.names := by
  rw [mem_names_iff]
  constructor
  · intro hsome
    obtain ⟨s, hs⟩ := Option.isSome_iff_exists.mp hsome
    obtain ⟨i, hi, -⟩ := Option.bind_eq_some_iff.mp hs
    exact ⟨i, h.lookup_eq_some_iff.mp hi⟩
  · rintro ⟨i, hi⟩
    obtain ⟨s, hs, -⟩ := h.slot?_of_mem hi
    rw [hs]
    rfl

/-- A registered name counts the handles that bear it. -/
theorem Accounts.refs?_eq (h : p.Accounts live) {name : String} (hname : name ∈ p.names) :
    p.refs? name = some (live.countP (·.name = name)) := by
  obtain ⟨i, hi⟩ := mem_names_iff.mp hname
  obtain ⟨s, hslot, hs, hsname⟩ := h.slot?_of_mem hi
  rw [refs?, hslot, Option.map_some, h.counted i s hs]
  refine congrArg some (Multiset.countP_congr rfl fun k hk => propext ?_)
  constructor
  · rintro rfl
    obtain ⟨t, ht, htname, -⟩ := h.shown k hk
    obtain rfl : s = t := Option.some.inj (hs.symm.trans ht)
    exact htname.symm.trans hsname
  · rintro rfl
    have hk' := h.lookup_eq_some_iff.mpr (h.registered k hk)
    exact Option.some.inj (hk'.symm.trans (h.lookup_eq_some_iff.mpr hi))

/-! ### Handles taken and given back -/

theorem slots_adjust (p : Pool α) (i : ℕ) (f : ℕ → ℕ) (j : ℕ) :
    (p.adjust i f).slots[j]? =
      p.slots[j]?.map fun s => if i = j then { s with refs := f s.refs } else s := by
  rw [adjust, List.getElem?_modify]
  rfl

/-- When a slot counts anew, the pool tallies with other handles, if these are as many more or
fewer to the slot and as many as before to any other. -/
theorem Tallies.adjust (h : p.Tallies live) {ks : Multiset (Handle α)} {i : ℕ} {f : ℕ → ℕ}
    (hshown : ∀ k ∈ ks, ∃ s, p.slots[k.slot]? = some s ∧ s.name = k.name ∧ s.value = k.value)
    (hcount : ∀ j, ks.countP (·.slot = j) =
      if i = j then f (live.countP (·.slot = j)) else live.countP (·.slot = j)) :
    (p.adjust i f).Tallies ks where
  ascending := h.ascending
  named name j hj := by
    obtain ⟨s, hs, hname⟩ := h.named name j hj
    refine ⟨_, by rw [slots_adjust, hs]; rfl, ?_⟩
    split <;> exact hname
  shown k hk := by
    obtain ⟨s, hs, hname, hvalue⟩ := hshown k hk
    refine ⟨_, by rw [slots_adjust, hs]; rfl, ?_, ?_⟩
    · split <;> exact hname
    · split <;> exact hvalue
  counted j t ht := by
    rw [slots_adjust] at ht
    obtain ⟨s, hs, rfl⟩ := Option.map_eq_some_iff.mp ht
    rw [hcount, ← h.counted j s hs]
    split <;> rfl

theorem Tallies.clone (h : p.Tallies live) {k : Handle α}
    (hk : ∃ s, p.slots[k.slot]? = some s ∧ s.name = k.name ∧ s.value = k.value) :
    (p.clone k).Tallies (k ::ₘ live) := by
  refine h.adjust (fun l hl => ?_) fun j => ?_
  · rcases Multiset.mem_cons.mp hl with rfl | hl
    · exact hk
    · exact h.shown l hl
  · rw [Multiset.countP_cons]
    split <;> rfl

theorem Tallies.release {k : Handle α} (h : p.Tallies (k ::ₘ live)) :
    (p.release k).1.Tallies live := by
  have hshown := fun l hl => h.shown l (Multiset.mem_cons_of_mem hl)
  refine Tallies.adjust (i := k.slot) (f := (· - 1)) h hshown fun j => ?_
  rw [Multiset.countP_cons]
  split <;> rfl

theorem Accounts.release {k : Handle α} (h : p.Accounts (k ::ₘ live)) :
    (p.release k).1.Accounts live where
  toTallies := h.toTallies.release
  registered l hl := h.registered l (Multiset.mem_cons_of_mem hl)

theorem Accounts.releaseAll {ks : List (Handle α)}
    (h : p.Accounts ((ks : Multiset (Handle α)) + live)) : (p.releaseAll ks).Accounts live := by
  induction ks generalizing p with
  | nil => rwa [Multiset.coe_nil, zero_add] at h
  | cons k ks ih =>
    refine ih (Accounts.release (k := k) ?_)
    rwa [← Multiset.cons_coe, Multiset.cons_add] at h

theorem directory_releaseAll (p : Pool α) (ks : List (Handle α)) :
    (p.releaseAll ks).directory = p.directory := by
  induction ks generalizing p with
  | nil => rfl
  | cons k ks ih => exact ih (p.release k).1

theorem names_releaseAll (p : Pool α) (ks : List (Handle α)) : (p.releaseAll ks).names = p.names :=
  congrArg (List.map _) (directory_releaseAll p ks)

theorem Accounts.clone (h : p.Accounts live) {k : Handle α} (hk : k ∈ live) :
    (p.clone k).Accounts (k ::ₘ live) where
  toTallies := h.toTallies.clone (h.shown k hk)
  registered l hl := by
    rcases Multiset.mem_cons.mp hl with rfl | hl
    · exact h.registered l hk
    · exact h.registered l hl

/-- A handle that is found is to the slot registered under its name. -/
theorem Tallies.find?_eq_some (h : p.Tallies live) {name : String} {k : Handle α} {q : Pool α}
    (hfind : p.find? name = some (k, q)) :
    k.name = name ∧ (k.name, k.slot) ∈ p.directory ∧ q = p.clone k ∧
      ∃ s, p.slots[k.slot]? = some s ∧ s.name = k.name ∧ s.value = k.value := by
  rw [find?] at hfind
  cases hi : p.directory.lookup name with
  | none => simp [hi] at hfind
  | some i =>
    simp only [hi] at hfind
    obtain ⟨s, hs, heq⟩ := Option.map_eq_some_iff.mp hfind
    obtain ⟨rfl, rfl⟩ := Prod.mk.inj heq
    have hmem := h.lookup_eq_some_iff.mp hi
    obtain ⟨t, ht, htname⟩ := h.named name i hmem
    obtain rfl : s = t := Option.some.inj (hs.symm.trans ht)
    subst htname
    exact ⟨rfl, hmem, rfl, s, hs, rfl, rfl⟩

theorem Accounts.find? (h : p.Accounts live) {name : String} {k : Handle α} {q : Pool α}
    (hfind : p.find? name = some (k, q)) : q.Accounts (k ::ₘ live) := by
  obtain ⟨-, hmem, rfl, hshown⟩ := h.find?_eq_some hfind
  refine ⟨h.toTallies.clone hshown, fun l hl => ?_⟩
  rcases Multiset.mem_cons.mp hl with rfl | hl
  · exact hmem
  · exact h.registered l hl

/-- A name is found when it is registered. -/
theorem Tallies.find?_eq_none_iff (h : p.Tallies live) {name : String} :
    p.find? name = none ↔ name ∉ p.names := by
  rw [← h.isSome_slot?_iff, Pool.find?, slot?]
  cases p.directory.lookup name <;> simp

/-- From one pool to another every registered name counts so many handles more. -/
structure Rises (p q : Pool α) (gain : String → ℕ) : Prop where
  names_eq : q.names = p.names
  refs?_eq : ∀ name ∈ p.names, ∃ count,
    p.refs? name = some count ∧ q.refs? name = some (count + gain name)

/-- What is given back is no longer counted. -/
theorem Accounts.rises_of_releaseAll {ks : List (Handle α)}
    (h : p.Accounts ((ks : Multiset (Handle α)) + live)) :
    (p.releaseAll ks).Rises p fun name => ks.countP (·.name = name) where
  names_eq := (names_releaseAll p ks).symm
  refs?_eq name hname := by
    have hname' : name ∈ p.names := by rwa [names_releaseAll] at hname
    refine ⟨_, h.releaseAll.refs?_eq hname, ?_⟩
    rw [h.refs?_eq hname', Multiset.countP_add, Multiset.coe_countP, add_comm]

/-! ### Names registered and given up -/

theorem accounts_empty (kind : String) : (empty kind : Pool α).Accounts 0 where
  ascending := .nil
  named _ _ h := by cases h
  shown _ h := absurd h (Multiset.notMem_zero _)
  counted _ _ h := by cases h
  registered _ h := absurd h (Multiset.notMem_zero _)

theorem create_eq_ok {name : String} {value : α} {q : Pool α} (h : p.create name value = .ok q) :
    name ∉ p.names ∧ q = { p with
      slots := p.slots ++ [⟨name, value, 0⟩]
      directory := insertName name p.slots.length p.directory } := by
  rw [create] at h
  split at h
  · cases h
  · rename_i hnew
    exact ⟨fun hmem => hnew (contains_iff.mpr hmem), (Except.ok.inj h).symm⟩

theorem create_of_not_mem {name : String} {value : α} (h : name ∉ p.names) :
    p.create name value = .ok { p with
      slots := p.slots ++ [⟨name, value, 0⟩]
      directory := insertName name p.slots.length p.directory } := by
  rw [create, if_neg (contains_iff.not.mpr h)]

theorem Tallies.create (h : p.Tallies live) {name : String} {value : α} {q : Pool α}
    (hcreate : p.create name value = .ok q) : q.Tallies live := by
  obtain ⟨hnew, rfl⟩ := create_eq_ok hcreate
  -- A slot that was there keeps its number.
  have hold : ∀ (i : ℕ) (s : Slot α), p.slots[i]? = some s →
      (p.slots ++ [⟨name, value, 0⟩])[i]? = some s := by
    intro i s hs
    rw [List.getElem?_append_left (List.getElem?_eq_some_iff.mp hs).1, hs]
  refine ⟨pairwise_insertName h.ascending hnew, fun key i hi => ?_, fun k hk => ?_,
    fun i s hs => ?_⟩
  · rcases mem_insertName.mp hi with heq | hi
    · obtain ⟨rfl, rfl⟩ := Prod.mk.inj heq
      exact ⟨_, List.getElem?_concat_length, rfl⟩
    · obtain ⟨s, hs, hname⟩ := h.named key i hi
      exact ⟨s, hold i s hs, hname⟩
  · obtain ⟨s, hs, hname, hvalue⟩ := h.shown k hk
    exact ⟨s, hold k.slot s hs, hname, hvalue⟩
  · rcases lt_trichotomy i p.slots.length with hlt | rfl | hgt
    · refine h.counted i s ?_
      rwa [List.getElem?_append_left hlt] at hs
    · rw [List.getElem?_concat_length] at hs
      obtain rfl := Option.some.inj hs
      refine (Multiset.countP_eq_zero.mpr fun k hk hslot => ?_).symm
      obtain ⟨t, ht, -⟩ := h.shown k hk
      rw [hslot, List.getElem?_eq_none le_rfl] at ht
      cases ht
    · rw [List.getElem?_eq_none (by simp; omega)] at hs
      cases hs

theorem Accounts.create (h : p.Accounts live) {name : String} {value : α} {q : Pool α}
    (hcreate : p.create name value = .ok q) : q.Accounts live := by
  refine ⟨h.toTallies.create hcreate, fun k hk => ?_⟩
  obtain ⟨-, rfl⟩ := create_eq_ok hcreate
  exact mem_insertName.mpr (.inr (h.registered k hk))

theorem unregister_eq_ok {name : String} {value : α} {q : Pool α}
    (h : p.unregister name = .ok (value, q)) :
    ∃ s, p.slot? name = some s ∧ s.refs = 0 ∧ value = s.value ∧
      q = { p with directory := p.directory.filter (·.1 != name) } := by
  rw [unregister] at h
  cases hs : p.slot? name with
  | none => simp [hs] at h
  | some s =>
    simp only [hs] at h
    split at h
    · cases h
    · obtain ⟨rfl, rfl⟩ := Prod.mk.inj (Except.ok.inj h)
      exact ⟨s, rfl, by omega, rfl, rfl⟩

theorem Accounts.unregister (h : p.Accounts live) {name : String} {value : α} {q : Pool α}
    (hunregister : p.unregister name = .ok (value, q)) : q.Accounts live := by
  obtain ⟨s, hslot, hrefs, -, rfl⟩ := unregister_eq_ok hunregister
  have hname : name ∈ p.names := h.isSome_slot?_iff.mp (by rw [hslot]; rfl)
  -- No handle bears the name, so all of them stay registered.
  have hnone : live.countP (·.name = name) = 0 := by
    have hcount := h.refs?_eq hname
    rw [refs?, hslot, Option.map_some, hrefs] at hcount
    exact (Option.some.inj hcount).symm
  refine ⟨⟨h.ascending.filter _, fun key i hi => ?_, h.shown, h.counted⟩, fun k hk => ?_⟩
  · exact h.named key i (List.mem_filter.mp hi).1
  · refine List.mem_filter.mpr ⟨h.registered k hk, ?_⟩
    simpa using Multiset.countP_eq_zero.mp hnone k hk

/-! ### Teardown -/

theorem Tallies.close (h : p.Tallies live) : p.close.1.Tallies live :=
  ⟨.nil, fun _ _ hmem => absurd hmem List.not_mem_nil, h.shown, h.counted⟩

theorem Tallies.reopen (h : p.Tallies live) (kind : String) : (p.reopen kind).Tallies live :=
  ⟨.nil, fun _ _ hmem => absurd hmem List.not_mem_nil, h.shown, h.counted⟩

theorem shutdown_snd (p : Pool α) : p.shutdown.2 = p.close := by
  rw [shutdown]
  cases p.check <;> rfl

end Pool

end ShadeTree
