import ShadeTree.Proofs.Ledger

/-!
# What a pool refuses

A call on a pool is refused for a reason that can be told from what is registered and which handles
are live: a name is created unless it is registered, and given up unless it is not registered or
handles bear it. A call that is refused leaves everything as it was, and one that is not leaves
every name that it is not about (`Call.names`).

To give up a name takes several steps: the slot is looked at, taken out of the directory, and opened
for its value, which can be done only by the last who refers to it. `unregisterBySteps` goes these
steps one by one, and puts the slot back if it cannot be opened. It never has to, because the count
that is looked at first is the number of the live handles. So no state between the steps is ever
left behind, and `unregister` may do them at once (`Sound.unregisterBySteps_eq`).

The main statement is `exact_run`, for every state that calls can bring a pool to.
-/

namespace ShadeTree

namespace Pool

variable {α : Type} {p q : Pool α} {live : Multiset (Handle α)}

/-! ### What is refused -/

theorem create_eq_error_iff {name : String} {value : α} {e : PoolError} :
    p.create name value = .error e ↔ e = .duplicate p.kind name ∧ name ∈ p.names := by
  rw [create, ← contains_iff]
  split <;> simp [*, eq_comm]

theorem Tallies.slot?_eq_none_iff (h : p.Tallies live) {name : String} :
    p.slot? name = none ↔ name ∉ p.names := by
  rw [← h.isSome_slot?_iff, Option.not_isSome_iff_eq_none]

/-- A registered name has a slot, which counts the live handles that bear the name. -/
theorem Accounts.exists_slot? (h : p.Accounts live) {name : String} (hname : name ∈ p.names) :
    ∃ s, p.slot? name = some s ∧ s.refs = live.countP (·.name = name) :=
  Option.map_eq_some_iff.mp (h.refs?_eq hname)

/-- Live handles bear registered names. -/
theorem Accounts.mem_names (h : p.Accounts live) {k : Handle α} (hk : k ∈ live) :
    k.name ∈ p.names :=
  mem_names_iff.mpr ⟨k.slot, h.registered k hk⟩

theorem unregister_of_slot?_eq_none {name : String} (h : p.slot? name = none) :
    p.unregister name = .error (.notFound p.kind name) := by
  rw [unregister, h]

theorem unregister_of_slot? {name : String} {s : Slot α} (h : p.slot? name = some s) :
    p.unregister name =
      if 0 < s.refs then .error (.inUse p.kind name s.refs)
      else .ok (s.value, { p with directory := p.directory.filter (·.1 != name) }) := by
  rw [unregister, h]

theorem Tallies.unregister_notFound_iff (h : p.Tallies live) {name : String} :
    p.unregister name = .error (.notFound p.kind name) ↔ name ∉ p.names := by
  rw [← h.slot?_eq_none_iff]
  cases hs : p.slot? name with
  | none => simp [unregister_of_slot?_eq_none hs]
  | some s =>
    rw [unregister_of_slot? hs]
    split <;> simp

/-- A name is in use when a live handle bears it, and by as many as bear it. -/
theorem Accounts.unregister_inUse_iff (h : p.Accounts live) {name : String} {count : ℕ} :
    p.unregister name = .error (.inUse p.kind name count) ↔
      (∃ k ∈ live, k.name = name) ∧ count = live.countP (·.name = name) := by
  rw [← Multiset.countP_pos]
  cases hs : p.slot? name with
  | none =>
    have hnone : live.countP (·.name = name) = 0 := by
      refine Multiset.countP_eq_zero.mpr fun k hk hkname => ?_
      exact h.slot?_eq_none_iff.mp hs (hkname ▸ h.mem_names hk)
    simp [unregister_of_slot?_eq_none hs, hnone]
  | some s =>
    have hname : name ∈ p.names := h.isSome_slot?_iff.mp (by rw [hs]; rfl)
    obtain ⟨t, ht, hrefs⟩ := h.exists_slot? hname
    obtain rfl : s = t := Option.some.inj (hs.symm.trans ht)
    rw [unregister_of_slot? hs, ← hrefs]
    split <;> simp_all [eq_comm]

/-- A registered name that no live handle bears is given up. -/
theorem Accounts.unregister_of_countP_eq_zero (h : p.Accounts live) {name : String}
    (hname : name ∈ p.names) (hnone : live.countP (·.name = name) = 0) :
    ∃ s, p.slot? name = some s ∧
      p.unregister name =
        .ok (s.value, { p with directory := p.directory.filter (·.1 != name) }) := by
  obtain ⟨s, hs, hrefs⟩ := h.exists_slot? hname
  refine ⟨s, hs, ?_⟩
  rw [unregister_of_slot? hs, hrefs, hnone, if_neg (lt_irrefl 0)]

/-! ### Other names -/

theorem lookup_insertName_of_ne {name other : String} (h : other ≠ name) (i : ℕ)
    (directory : List (String × ℕ)) :
    (insertName name i directory).lookup other = directory.lookup other := by
  induction directory with
  | nil => rw [insertName, List.lookup_cons, beq_false_of_ne h]
  | cons first rest ih =>
    rw [insertName]
    split
    · rw [List.lookup_cons, beq_false_of_ne h]
    · rw [List.lookup_cons, List.lookup_cons, ih]

/-- A count that changes leaves the slots of all names but one. -/
theorem Tallies.slot?_adjust_of_ne (h : p.Tallies live) {i : ℕ} {s : Slot α} {other : String}
    (hs : p.slots[i]? = some s) (hne : other ≠ s.name) (f : ℕ → ℕ) :
    (p.adjust i f).slot? other = p.slot? other := by
  rw [slot?, slot?]
  change (p.directory.lookup other).bind _ = _
  cases hj : p.directory.lookup other with
  | none => rfl
  | some j =>
    obtain ⟨t, ht, htname⟩ := h.named other j (h.lookup_eq_some_iff.mp hj)
    have hij : i ≠ j := by
      rintro rfl
      obtain rfl : s = t := Option.some.inj (hs.symm.trans ht)
      exact hne htname.symm
    rw [Option.bind_some, Option.bind_some, slots_adjust, ht, Option.map_some, if_neg hij]

/-- To take or give back a handle leaves the slots of other names. -/
theorem Tallies.slot?_adjust_of_mem (h : p.Tallies live) {k : Handle α} (hk : k ∈ live)
    {other : String} (hne : other ≠ k.name) (f : ℕ → ℕ) :
    (p.adjust k.slot f).slot? other = p.slot? other := by
  obtain ⟨s, hs, hname, -⟩ := h.shown k hk
  exact h.slot?_adjust_of_ne hs (hname ▸ hne) f

theorem Tallies.slot?_find?_of_ne (h : p.Tallies live) {name other : String} {k : Handle α}
    (hfind : p.find? name = some (k, q)) (hne : other ≠ name) :
    q.slot? other = p.slot? other := by
  obtain ⟨hk, -, rfl, s, hs, hname, -⟩ := h.find?_eq_some hfind
  exact h.slot?_adjust_of_ne hs (by rw [hname, hk]; exact hne) _

theorem Tallies.slot?_create_of_ne (h : p.Tallies live) {name other : String} {value : α}
    (hcreate : p.create name value = .ok q) (hne : other ≠ name) :
    q.slot? other = p.slot? other := by
  obtain ⟨-, rfl⟩ := create_eq_ok hcreate
  rw [slot?, slot?, lookup_insertName_of_ne hne]
  cases hj : p.directory.lookup other with
  | none => rfl
  | some j =>
    obtain ⟨t, ht, -⟩ := h.named other j (h.lookup_eq_some_iff.mp hj)
    rw [Option.bind_some, Option.bind_some,
      List.getElem?_append_left (List.getElem?_eq_some_iff.mp ht).1]

theorem slot?_unregister_of_ne {name other : String} {value : α}
    (hunregister : p.unregister name = .ok (value, q)) (hne : other ≠ name) :
    q.slot? other = p.slot? other := by
  obtain ⟨s, -, -, -, rfl⟩ := unregister_eq_ok hunregister
  exact congrArg (·.bind (p.slots[·]?)) (Named.get?_erase_of_ne p.directory hne)

end Pool

namespace Holdings

variable {α : Type} {s t : Holdings α} {others : Multiset (Handle α)}

/-! ### Step by step -/

/-- Give up a name step by step: look at the count, take the slot out of the directory, and take the
value out of the slot. The last step needs that no handle refers to the slot; if one does the slot
is put back under its name. -/
def unregisterBySteps (s : Holdings α) (name : String) : Except PoolError α × Holdings α :=
  match s.pool.directory.lookup name, s.pool.slot? name with
  | some i, some slot =>
    if 0 < slot.refs then (.error (.inUse s.pool.kind name slot.refs), s)
    else
      let rest := s.pool.directory.filter (·.1 != name)
      let referring := s.live.countP (·.slot = i)
      if referring = 0 then (.ok slot.value, s.withPool { s.pool with directory := rest })
      else
        (.error (.inUse s.pool.kind name referring),
          s.withPool { s.pool with directory := Pool.insertName name i rest })
  | _, _ => (.error (.notFound s.pool.kind name), s)

/-- The steps come to what is done at once: a slot that counts no handle can be opened. -/
theorem Sound.unregisterBySteps_eq (h : s.Sound 0) (name : String) :
    s.unregisterBySteps name =
      match s.pool.unregister name with
      | .ok (value, pool) => (.ok value, s.withPool pool)
      | .error e => (.error e, s) := by
  rw [unregisterBySteps]
  cases hi : s.pool.directory.lookup name with
  | none =>
    have hslot : s.pool.slot? name = none := by rw [Pool.slot?, hi, Option.bind_none]
    simp only [Pool.unregister_of_slot?_eq_none hslot]
  | some i =>
    cases hslot : s.pool.slot? name with
    | none => simp only [Pool.unregister_of_slot?_eq_none hslot]
    | some slot =>
      rw [Pool.unregister_of_slot? hslot]
      dsimp only
      split
      · rfl
      · rename_i hrefs
        have hcounted : slot.refs = s.live.countP (·.slot = i) := by
          rw [Pool.slot?, hi, Option.bind_some] at hslot
          have hcount := h.accounts.counted i slot hslot
          rwa [add_zero, Named.things, Multiset.coe_countP] at hcount
        rw [if_pos (by omega)]

/-! ### What a call is about -/

/-- The name of the handle held under a key, if there is one. -/
def bears (s : Holdings α) (key : String) : List String :=
  ((s.held.get? key).map (·.name)).toList

/-- The names a call is about: the one it is given, and those of the handles that it clones or gives
back. -/
def Call.names (s : Holdings α) : Call α → List String
  | .create name _ => [name]
  | .find name key => name :: s.bears key
  | .clone key newKey => s.bears key ++ s.bears newKey
  | .release key => s.bears key
  | .unregister name => [name]

theorem ne_of_not_mem_bears {key other : String} {k : Handle α} (hk : s.held.get? key = some k)
    (hother : other ∉ s.bears key) : other ≠ k.name := by
  simpa [bears, hk] using hother

theorem Sound.slot?_release (h : s.Sound others) {key other : String}
    (hother : other ∉ s.bears key) : (s.release key).pool.slot? other = s.pool.slot? other := by
  rw [Holdings.release]
  cases hk : s.held.get? key with
  | none => rfl
  | some k =>
    have hmem : k ∈ s.held.things + others :=
      Multiset.mem_add.mpr (.inl (Named.mem_things_of_get? hk))
    exact h.accounts.slot?_adjust_of_mem hmem (ne_of_not_mem_bears hk hother) _

/-- A call that succeeds leaves every name that it is not about: its slot, with value and count. -/
theorem Sound.slot?_call? (h : s.Sound others) {c : Call α} (hc : s.call? c = some t)
    {other : String} (hother : other ∉ c.names s) : t.pool.slot? other = s.pool.slot? other := by
  cases c with
  | create name value =>
    obtain ⟨q, hq, rfl⟩ := call?_create_eq_some hc
    exact h.accounts.slot?_create_of_ne hq (by simpa [Call.names] using hother)
  | find name key =>
    obtain ⟨⟨k, q, u⟩, hu, rfl⟩ := Option.map_eq_some_iff.mp hc
    obtain ⟨hk, rfl⟩ := find_eq_some hu
    obtain ⟨hname, hkey⟩ := not_or.mp (List.mem_cons.not.mp hother)
    have htaken : Sound { s with pool := q } (k ::ₘ others) := by
      refine ⟨h.distinct, ?_⟩
      rw [Multiset.add_cons]
      exact h.accounts.find? hk
    exact (htaken.slot?_release hkey).trans (h.accounts.slot?_find?_of_ne hk hname)
  | clone key newKey =>
    obtain ⟨k, hk, rfl⟩ := Option.map_eq_some_iff.mp hc
    obtain ⟨hkey, hnew⟩ := not_or.mp (List.mem_append.not.mp hother)
    have hmem : k ∈ s.held.things + others :=
      Multiset.mem_add.mpr (.inl (Named.mem_things_of_get? hk))
    have htaken : Sound { s with pool := s.pool.clone k } (k ::ₘ others) := by
      refine ⟨h.distinct, ?_⟩
      rw [Multiset.add_cons]
      exact h.accounts.clone hmem
    exact (htaken.slot?_release hnew).trans
      (h.accounts.slot?_adjust_of_mem hmem (ne_of_not_mem_bears hk hkey) _)
  | release key =>
    obtain ⟨k, -, rfl⟩ := Option.map_eq_some_iff.mp hc
    exact h.slot?_release hother
  | unregister name =>
    obtain ⟨value, q, hq, rfl⟩ := call?_unregister_eq_some hc
    exact Pool.slot?_unregister_of_ne hq (by simpa [Call.names] using hother)

/-! ### Every state -/

/-- A pool refuses exactly what it has to, without a trace, and by a ledger hands back what was
created. -/
structure Exact (s : Holdings α) (ledger : List (Call α)) : Prop where
  /-- A name is created unless it is registered. -/
  create_eq_error_iff : ∀ name value e,
    s.pool.create name value = .error e ↔ e = .duplicate s.pool.kind name ∧ name ∈ s.pool.names
  /-- A handle is found unless the name is not registered. -/
  find_eq_none_iff : ∀ name key, s.find name key = none ↔ name ∉ s.pool.names
  notFound_iff : ∀ name,
    s.pool.unregister name = .error (.notFound s.pool.kind name) ↔ name ∉ s.pool.names
  /-- A name is in use when live handles bear it, and the count is their number. -/
  inUse_iff : ∀ name count,
    s.pool.unregister name = .error (.inUse s.pool.kind name count) ↔
      (∃ h ∈ s.live, h.name = name) ∧ count = s.live.countP (·.name = name)
  /-- Any other name is given up, with the value that it was created with. -/
  given_up : ∀ name ∈ s.pool.names, (∀ h ∈ s.live, h.name ≠ name) →
    ∃ value pool, s.pool.unregister name = .ok (value, pool) ∧ Standing ledger name value ∧
      pool.names = s.pool.names.filter (· ≠ name)
  /-- No step towards giving up a name leaves a trace when a later one is refused. -/
  bySteps : ∀ name, s.unregisterBySteps name =
    match s.pool.unregister name with
    | .ok (value, pool) => (.ok value, s.withPool pool)
    | .error e => (.error e, s)
  /-- A refused call leaves the pool and the handles. -/
  refused : ∀ c, s.call? c = none → s.call c = s
  /-- Every call leaves the value and the count of each name that it is not about. -/
  others : ∀ c : Call α, ∀ name ∉ c.names s, (s.call c).pool.slot? name = s.pool.slot? name

/-- **A pool refuses exactly what it has to, without a trace**, after any run of calls. -/
theorem exact_run (kind : String) (calls : List (Call α)) :
    ((empty kind).run calls).Exact ((empty kind).ledger calls) := by
  have hsound : ((empty kind).run calls).Sound 0 := (sound_empty kind).run calls
  have hstanding := standing_iff_registers kind calls
  generalize (empty kind).ledger calls = ledger at hstanding ⊢
  generalize (empty kind).run calls = s at hsound hstanding ⊢
  have haccounts : s.pool.Accounts (s.live : Multiset (Handle α)) := by
    have h := hsound.accounts
    rwa [add_zero] at h
  constructor
  case create_eq_error_iff => exact fun _ _ _ => Pool.create_eq_error_iff
  case find_eq_none_iff =>
    intro name key
    rw [find, Option.map_eq_none_iff]
    exact haccounts.find?_eq_none_iff
  case notFound_iff => exact fun name => haccounts.unregister_notFound_iff
  case inUse_iff =>
    intro name count
    rw [haccounts.unregister_inUse_iff, Multiset.coe_countP]
    rfl
  case given_up =>
    intro name hname hnone
    have hcount : (s.live : Multiset (Handle α)).countP (·.name = name) = 0 :=
      Multiset.countP_eq_zero.mpr hnone
    obtain ⟨slot, hslot, heq⟩ := haccounts.unregister_of_countP_eq_zero hname hcount
    obtain ⟨i, hi, hget⟩ := Option.bind_eq_some_iff.mp hslot
    have hregisters : s.pool.Registers name i slot.value :=
      ⟨haccounts.lookup_eq_some_iff.mp hi, slot, hget, rfl⟩
    refine ⟨slot.value, _, heq, (hstanding name slot.value).mpr ⟨i, hregisters⟩, ?_⟩
    rw [Pool.names, Pool.names, List.filter_map]
    refine congrArg _ (List.filter_congr fun entry _ => ?_)
    rw [Function.comp, Bool.eq_iff_iff, bne_iff_ne, decide_eq_true_iff]
  case bySteps => exact hsound.unregisterBySteps_eq
  case refused =>
    intro c hc
    rw [call, hc, Option.getD_none]
  case others =>
    intro c name hname
    rcases call_eq s c with ⟨-, hsame⟩ | hc
    · rw [hsame]
    · exact hsound.slot?_call? hc hname

end Holdings

end ShadeTree
