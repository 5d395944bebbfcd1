import ShadeTree.Proofs.Tally

/-!
# The ledger of a pool

A run of calls on a pool, and on the handles taken from it, some of which may fail. The ledger lists
the calls that succeeded. It alone tells what is registered: the names that were created and not
unregistered since, each with the value it was created with (`Standing`).

The main statement is `books_run`: after any run the pool and the live handles are as the ledger
says (`Books`), and what is registered stays as it is for as long as it is not unregistered. A name
may be given up and created again, so that handles of one name are always to one slot is not a
matter of names alone: a slot with live handles cannot be given up.
-/

namespace ShadeTree

/-! ### What is registered -/

namespace Pool

variable {α : Type} {p : Pool α} {live : Multiset (Handle α)}

/-- A name is registered with a slot that keeps a value. -/
def Registers (p : Pool α) (name : String) (i : ℕ) (value : α) : Prop :=
  (name, i) ∈ p.directory ∧ ∃ s, p.slots[i]? = some s ∧ s.value = value

/-- A name is registered with one slot, and the slot keeps one value. -/
theorem Tallies.registers_unique (h : p.Tallies live) {name : String} {i j : ℕ} {v w : α}
    (hi : p.Registers name i v) (hj : p.Registers name j w) : i = j ∧ v = w := by
  obtain ⟨hmem, s, hs, rfl⟩ := hi
  obtain ⟨hmem', t, ht, rfl⟩ := hj
  have hlookup := h.lookup_eq_some_iff.mpr hmem
  rw [h.lookup_eq_some_iff.mpr hmem'] at hlookup
  obtain rfl := Option.some.inj hlookup
  obtain rfl : s = t := Option.some.inj (hs.symm.trans ht)
  exact ⟨rfl, rfl⟩

theorem Tallies.mem_names_iff_registers (h : p.Tallies live) {name : String} :
    name ∈ p.names ↔ ∃ value i, p.Registers name i value := by
  rw [mem_names_iff]
  constructor
  · rintro ⟨i, hi⟩
    obtain ⟨s, hs, -⟩ := h.named name i hi
    exact ⟨s.value, i, hi, s, hs, rfl⟩
  · rintro ⟨_, i, hi, -⟩
    exact ⟨i, hi⟩

theorem Accounts.registers_of_mem (h : p.Accounts live) {k : Handle α} (hk : k ∈ live) :
    p.Registers k.name k.slot k.value := by
  obtain ⟨s, hs, -, hvalue⟩ := h.shown k hk
  exact ⟨h.registered k hk, s, hs, hvalue⟩

/-- A count that changes leaves what is registered. -/
theorem registers_adjust {i : ℕ} {f : ℕ → ℕ} {name : String} {j : ℕ} {value : α} :
    (p.adjust i f).Registers name j value ↔ p.Registers name j value := by
  refine and_congr_right fun _ => ?_
  rw [slots_adjust]
  cases p.slots[j]? with
  | none => simp
  | some s =>
    have hvalue : (if i = j then { s with refs := f s.refs } else s : Slot α).value = s.value := by
      split <;> rfl
    simp [hvalue]

theorem registers_create {name key : String} {value v : α} {i : ℕ} {q : Pool α}
    (hp : p.Tallies live) (h : p.create name value = .ok q) :
    q.Registers key i v ↔
      (key = name ∧ i = p.slots.length ∧ v = value) ∨ p.Registers key i v := by
  obtain ⟨hnew, rfl⟩ := create_eq_ok h
  have hlt : ∀ {key i}, (key, i) ∈ p.directory → i < p.slots.length := fun hmem => by
    obtain ⟨s, hs, -⟩ := hp.named _ _ hmem
    exact (List.getElem?_eq_some_iff.mp hs).1
  constructor
  · rintro ⟨hmem, s, hs, rfl⟩
    rcases mem_insertName.mp hmem with heq | hmem
    · obtain ⟨rfl, rfl⟩ := Prod.mk.inj heq
      rw [List.getElem?_concat_length] at hs
      obtain rfl := Option.some.inj hs
      exact .inl ⟨rfl, rfl, rfl⟩
    · rw [List.getElem?_append_left (hlt hmem)] at hs
      exact .inr ⟨hmem, s, hs, rfl⟩
  · rintro (⟨rfl, rfl, rfl⟩ | ⟨hmem, s, hs, rfl⟩)
    · exact ⟨mem_insertName.mpr (.inl rfl), _, List.getElem?_concat_length, rfl⟩
    · refine ⟨mem_insertName.mpr (.inr hmem), s, ?_, rfl⟩
      rw [List.getElem?_append_left (hlt hmem), hs]

theorem registers_unregister {name key : String} {value v : α} {i : ℕ} {q : Pool α}
    (h : p.unregister name = .ok (value, q)) :
    q.Registers key i v ↔ key ≠ name ∧ p.Registers key i v := by
  obtain ⟨s, -, -, -, rfl⟩ := unregister_eq_ok h
  simp only [Registers, List.mem_filter, bne_iff_ne]
  tauto

end Pool

namespace Holdings

variable {α : Type}

/-! ### Calls -/

/-- A call on a pool, or on a handle that is held under a key. -/
inductive Call (α : Type) where
  | create (name : String) (value : α)
  /-- Take a handle to a registered value. -/
  | find (name key : String)
  | clone (key newKey : String)
  | release (key : String)
  | unregister (name : String)

/-- What a call leaves, if it succeeds. -/
def call? (s : Holdings α) : Call α → Option (Holdings α)
  | .create name value =>
    match s.pool.create name value with
    | .ok pool => some (s.withPool pool)
    | .error _ => none
  | .find name key => (s.find name key).map (·.2.2)
  | .clone key newKey => s.clone key newKey
  | .release key => (s.held.get? key).map fun _ => s.release key
  | .unregister name =>
    match s.pool.unregister name with
    | .ok (_, pool) => some (s.withPool pool)
    | .error _ => none

/-- What a call leaves. One that fails leaves everything as it was. -/
def call (s : Holdings α) (c : Call α) : Holdings α := (s.call? c).getD s

/-- What calls leave, one after the other. -/
def run (s : Holdings α) (calls : List (Call α)) : Holdings α := calls.foldl call s

/-- The calls of a run that succeed. -/
def ledger (s : Holdings α) : List (Call α) → List (Call α)
  | [] => []
  | c :: rest => if (s.call? c).isSome then c :: (s.call c).ledger rest else (s.call c).ledger rest

theorem run_append (s : Holdings α) (calls more : List (Call α)) :
    s.run (calls ++ more) = (s.run calls).run more := List.foldl_append

theorem ledger_append (s : Holdings α) (calls more : List (Call α)) :
    s.ledger (calls ++ more) = s.ledger calls ++ (s.run calls).ledger more := by
  induction calls generalizing s with
  | nil => rfl
  | cons c rest ih =>
    rw [List.cons_append, ledger, ledger, ih]
    split <;> rfl

/-- The handles that are live. -/
def live (s : Holdings α) : List (Handle α) := s.held.map (·.2)

/-! ### Accounting for what is held -/

/-- The pool accounts for the handles that are held here and for `others`, held elsewhere. -/
structure Sound (s : Holdings α) (others : Multiset (Handle α)) : Prop where
  distinct : s.held.Distinct
  accounts : s.pool.Accounts (s.held.things + others)

theorem sound_empty (kind : String) : (empty kind : Holdings α).Sound 0 :=
  ⟨Named.distinct_nil, Pool.accounts_empty kind⟩

section Keeping

variable {s t : Holdings α} {others : Multiset (Handle α)}

theorem held_release (s : Holdings α) (key : String) : (s.release key).held = s.held.erase key := by
  rw [release]
  split
  · rfl
  · exact (Named.erase_of_get?_eq_none ‹_›).symm

theorem directory_pool_release (s : Holdings α) (key : String) :
    (s.release key).pool.directory = s.pool.directory := by
  rw [release]
  split <;> rfl

/-- To release a handle that is not there leaves everything as it was. -/
theorem call_release (s : Holdings α) (key : String) : s.call (.release key) = s.release key := by
  rw [call, call?, release]
  cases s.held.get? key <;> rfl

theorem Sound.release (h : s.Sound others) (key : String) : (s.release key).Sound others := by
  refine ⟨by rw [held_release]; exact h.distinct.erase key, ?_⟩
  rw [held_release]
  have haccounts := h.accounts
  rw [h.distinct.things_eq key] at haccounts
  rw [Holdings.release]
  cases hkey : s.held.get? key with
  | none => simpa [hkey] using haccounts
  | some k =>
    rw [hkey, Option.toList_some, Multiset.coe_singleton, Multiset.singleton_add,
      Multiset.cons_add] at haccounts
    exact haccounts.release

/-- A handle in hand comes to be held. -/
theorem Sound.hold {k : Handle α} (h : s.Sound (k ::ₘ others)) (key : String) :
    (s.hold key k).Sound others := by
  have hrelease := h.release key
  refine ⟨hrelease.distinct.put key k, ?_⟩
  have haccounts := hrelease.accounts
  rw [held_release, Multiset.add_cons] at haccounts
  rw [Holdings.hold, Named.things_put, held_release,
    Named.erase_of_get?_eq_none (Named.get?_erase s.held key), Multiset.cons_add]
  exact haccounts

theorem find_eq_some {name key : String} {k : Handle α} {q : Pool α}
    (h : s.find name key = some (k, q, t)) :
    s.pool.find? name = some (k, q) ∧ t = { s with pool := q }.hold key k := by
  obtain ⟨⟨l, r⟩, hl, heq⟩ := Option.map_eq_some_iff.mp h
  simp only [Prod.mk.injEq] at heq
  obtain ⟨rfl, rfl, rfl⟩ := heq
  exact ⟨hl, rfl⟩

theorem Sound.find {name key : String} {k : Handle α} {q : Pool α} (h : s.Sound others)
    (hfind : s.find name key = some (k, q, t)) : t.Sound others := by
  obtain ⟨hk, rfl⟩ := find_eq_some hfind
  have htaken : Sound { s with pool := q } (k ::ₘ others) := by
    refine ⟨h.distinct, ?_⟩
    rw [Multiset.add_cons]
    exact h.accounts.find? hk
  exact htaken.hold key

theorem Sound.clone {key newKey : String} (h : s.Sound others)
    (hclone : s.clone key newKey = some t) : t.Sound others := by
  obtain ⟨k, hk, rfl⟩ := Option.map_eq_some_iff.mp hclone
  have hmem : k ∈ s.held.things + others :=
    Multiset.mem_add.mpr (.inl (Named.mem_things_of_get? hk))
  have htaken : Sound { s with pool := s.pool.clone k } (k ::ₘ others) := by
    refine ⟨h.distinct, ?_⟩
    rw [Multiset.add_cons]
    exact h.accounts.clone hmem
  exact htaken.hold newKey

theorem call?_create_eq_some {name : String} {value : α}
    (h : s.call? (.create name value) = some t) :
    ∃ q, s.pool.create name value = .ok q ∧ t = s.withPool q := by
  rw [call?] at h
  cases hq : s.pool.create name value with
  | error e => simp [hq] at h
  | ok q =>
    simp only [hq] at h
    exact ⟨q, rfl, (Option.some.inj h).symm⟩

theorem call?_unregister_eq_some {name : String} (h : s.call? (.unregister name) = some t) :
    ∃ value q, s.pool.unregister name = .ok (value, q) ∧ t = s.withPool q := by
  rw [call?] at h
  cases hq : s.pool.unregister name with
  | error e => simp [hq] at h
  | ok r =>
    simp only [hq] at h
    exact ⟨r.1, r.2, rfl, (Option.some.inj h).symm⟩

/-- A call that succeeds keeps the pool accounting for the handles. -/
theorem Sound.call? (h : s.Sound others) {c : Call α} (hc : s.call? c = some t) :
    t.Sound others := by
  cases c with
  | create name value =>
    obtain ⟨q, hq, rfl⟩ := call?_create_eq_some hc
    exact ⟨h.distinct, h.accounts.create hq⟩
  | find name key =>
    obtain ⟨⟨k, q, u⟩, hu, rfl⟩ := Option.map_eq_some_iff.mp hc
    exact h.find hu
  | clone key newKey => exact h.clone hc
  | release key =>
    obtain ⟨k, -, rfl⟩ := Option.map_eq_some_iff.mp hc
    exact h.release key
  | unregister name =>
    obtain ⟨value, q, hq, rfl⟩ := call?_unregister_eq_some hc
    exact ⟨h.distinct, h.accounts.unregister hq⟩

theorem call_eq (s : Holdings α) (c : Call α) :
    (s.call? c = none ∧ s.call c = s) ∨ s.call? c = some (s.call c) := by
  rw [call]
  cases s.call? c with
  | none => exact .inl ⟨rfl, rfl⟩
  | some t => exact .inr rfl

theorem Sound.call (h : s.Sound others) (c : Call α) : (s.call c).Sound others := by
  rcases call_eq s c with ⟨-, hsame⟩ | hc
  · rwa [hsame]
  · exact h.call? hc

theorem Sound.run (h : s.Sound others) (calls : List (Call α)) : (s.run calls).Sound others := by
  induction calls generalizing s with
  | nil => exact h
  | cons c rest ih => exact ih (h.call c)

/-! ### What calls do to what is registered -/

theorem registers_hold {key name : String} {k : Handle α} {i : ℕ} {value : α} :
    (s.hold key k).pool.Registers name i value ↔ s.pool.Registers name i value := by
  rw [hold, Holdings.release]
  split
  · exact Pool.registers_adjust
  · exact Iff.rfl

/-- What is registered after a call that succeeds. -/
theorem Sound.registers_call? (h : s.Sound others) {c : Call α} (hc : s.call? c = some t)
    {name : String} {i : ℕ} {value : α} :
    t.pool.Registers name i value ↔
      (c = .create name value ∧ i = s.pool.slots.length) ∨
        (c ≠ .unregister name ∧ s.pool.Registers name i value) := by
  cases c with
  | create key v =>
    obtain ⟨q, hq, rfl⟩ := call?_create_eq_some hc
    rw [withPool, Pool.registers_create h.accounts.toTallies hq]
    simp only [Call.create.injEq, ne_eq, reduceCtorEq, not_false_iff, true_and]
    tauto
  | find key newKey =>
    obtain ⟨⟨k, q, u⟩, hu, rfl⟩ := Option.map_eq_some_iff.mp hc
    obtain ⟨hk, rfl⟩ := find_eq_some hu
    obtain ⟨-, -, rfl, -⟩ := h.accounts.find?_eq_some hk
    simp [registers_hold, Pool.clone, Pool.registers_adjust]
  | clone key newKey =>
    obtain ⟨k, hk, rfl⟩ := Option.map_eq_some_iff.mp hc
    simp [registers_hold, Pool.clone, Pool.registers_adjust]
  | release key =>
    obtain ⟨k, hk, rfl⟩ := Option.map_eq_some_iff.mp hc
    simp [Holdings.release, hk, Pool.release, Pool.registers_adjust]
  | unregister key =>
    obtain ⟨v, q, hq, rfl⟩ := call?_unregister_eq_some hc
    rw [withPool, Pool.registers_unregister hq]
    simp [eq_comm]

/-- What is registered stays so, with its slot and its value, until it is unregistered. -/
theorem Sound.registers_run (h : s.Sound others) {name : String} {i : ℕ} {value : α}
    (hregisters : s.pool.Registers name i value) {calls : List (Call α)}
    (hkept : .unregister name ∉ s.ledger calls) : (s.run calls).pool.Registers name i value := by
  induction calls generalizing s with
  | nil => exact hregisters
  | cons c rest ih =>
    rw [ledger] at hkept
    rcases call_eq s c with ⟨hnone, hsame⟩ | hc
    · rw [hnone, hsame] at hkept
      have hrest := ih h hregisters hkept
      rwa [Holdings.run, List.foldl_cons, hsame]
    · rw [hc, Option.isSome_some, if_pos rfl] at hkept
      obtain ⟨hne, hkept⟩ := not_or.mp (List.mem_cons.not.mp hkept)
      exact ih (h.call c) ((h.registers_call? hc).mpr (.inr ⟨Ne.symm hne, hregisters⟩)) hkept

end Keeping

/-! ### The ledger -/

/-- By a ledger a name is registered with a value: it was created with it, and not unregistered
since. -/
def Standing (ledger : List (Call α)) (name : String) (value : α) : Prop :=
  ∃ before after, ledger = before ++ .create name value :: after ∧ .unregister name ∉ after

theorem standing_nil {name : String} {value : α} : ¬ Standing [] name value := by
  rintro ⟨before, after, heq, -⟩
  simp at heq

theorem standing_concat {ledger : List (Call α)} {c : Call α} {name : String} {value : α} :
    Standing (ledger ++ [c]) name value ↔
      c = .create name value ∨ (c ≠ .unregister name ∧ Standing ledger name value) := by
  constructor
  · rintro ⟨before, after, heq, hafter⟩
    rcases List.eq_nil_or_concat after with rfl | ⟨rest, d, rfl⟩
    · exact .inl (List.singleton_inj.mp (List.append_inj' heq rfl).2)
    · rw [List.concat_eq_append] at heq hafter
      rw [← List.cons_append, ← List.append_assoc] at heq
      obtain ⟨rfl, hlast⟩ := List.append_inj' heq rfl
      obtain rfl := List.singleton_inj.mp hlast
      obtain ⟨hrest, hne⟩ := not_or.mp (List.mem_append.not.mp hafter)
      exact .inr ⟨fun heq => hne (by simp [heq]), before, rest, rfl, hrest⟩
  · rintro (rfl | ⟨hne, before, after, rfl, hafter⟩)
    · exact ⟨ledger, [], rfl, List.not_mem_nil⟩
    · refine ⟨before, after ++ [c], by simp, ?_⟩
      simpa [hafter] using Ne.symm hne

/-- What is registered after a run is what stands by its ledger. -/
theorem standing_iff_registers (kind : String) (calls : List (Call α)) (name : String)
    (value : α) : Standing ((empty kind).ledger calls) name value ↔
      ∃ i, ((empty kind).run calls).pool.Registers name i value := by
  induction calls using List.reverseRecOn with
  | nil => exact iff_of_false standing_nil fun ⟨_, hmem, _⟩ => List.not_mem_nil hmem
  | append_singleton calls c ih =>
    have hsound := (sound_empty kind).run calls
    rw [ledger_append, run_append]
    rcases call_eq ((empty kind).run calls) c with ⟨hnone, hsame⟩ | hc
    · have hledger : ((empty kind).run calls).ledger [c] = [] := by simp [ledger, hnone]
      have hcall : ((empty kind).run calls).run [c] = (empty kind).run calls := hsame
      rw [hledger, hcall, List.append_nil, ih]
    · have hledger : ((empty kind).run calls).ledger [c] = [c] := by simp [ledger, hc]
      have hcall : ((empty kind).run calls).run [c] = ((empty kind).run calls).call c := rfl
      rw [hledger, hcall, standing_concat, ih]
      simp only [hsound.registers_call? hc]
      constructor
      · rintro (rfl | ⟨hne, i, hi⟩)
        · exact ⟨_, .inl ⟨rfl, rfl⟩⟩
        · exact ⟨i, .inr ⟨hne, hi⟩⟩
      · rintro ⟨i, ⟨rfl, -⟩ | ⟨hne, hi⟩⟩
        · exact .inl rfl
        · exact .inr ⟨hne, i, hi⟩

/-- A pool and the handles to it are as a ledger says. -/
structure Books (s : Holdings α) (ledger : List (Call α)) : Prop where
  /-- A registered name counts the live handles that bear it. -/
  refs?_eq : ∀ name ∈ s.pool.names, s.pool.refs? name = some (s.live.countP (·.name = name))
  /-- A live handle is to the slot that is now registered under its name, and reads what the name
  was created with. -/
  current : ∀ h ∈ s.live,
    s.pool.Registers h.name h.slot h.value ∧ Standing ledger h.name h.value
  /-- Live handles of one name are to one slot, with one count and one value. -/
  agree : ∀ h ∈ s.live, ∀ k ∈ s.live, h.name = k.name →
    h.same k = true ∧ s.pool.count h = s.pool.count k ∧ h.value = k.value
  /-- The names are those that stand, each with the value it stands with. -/
  standing : ∀ name value, Standing ledger name value ↔ ∃ i, s.pool.Registers name i value
  mem_names : ∀ name, name ∈ s.pool.names ↔ ∃ value, Standing ledger name value
  ascending : s.pool.names.Pairwise (· < ·)
  size_eq : s.pool.size = s.pool.names.length

/-- **The books are right after every run**, whichever of its calls fail: names count their live
handles, live handles are to what is registered now, and what is registered is what was created and
not unregistered since. However the run goes on, a registered name keeps its slot and its value
until it is unregistered. -/
theorem books_run (kind : String) (calls : List (Call α)) :
    let s := (empty kind : Holdings α).run calls
    s.Books ((empty kind).ledger calls) ∧
      ∀ more name i value, s.pool.Registers name i value → .unregister name ∉ s.ledger more →
        (s.run more).pool.Registers name i value := by
  intro s
  have hsound : s.Sound 0 := (sound_empty kind).run calls
  have haccounts : s.pool.Accounts (s.live : Multiset (Handle α)) := by
    have h := hsound.accounts
    rwa [add_zero] at h
  have hstanding : ∀ name value, Standing ((empty kind).ledger calls) name value ↔
      ∃ i, s.pool.Registers name i value := standing_iff_registers kind calls
  have hcurrent : ∀ h ∈ s.live, s.pool.Registers h.name h.slot h.value :=
    fun h hh => haccounts.registers_of_mem hh
  refine ⟨?_, fun more name i value hregisters hkept => hsound.registers_run hregisters hkept⟩
  exact {
    refs?_eq := fun name hname => by
      rw [haccounts.refs?_eq hname, Multiset.coe_countP]
    current := fun h hh => ⟨hcurrent h hh, (hstanding h.name h.value).mpr ⟨h.slot, hcurrent h hh⟩⟩
    agree := fun h hh k hk hname => by
      obtain ⟨hslot, hvalue⟩ :=
        haccounts.registers_unique (hcurrent h hh) (hname ▸ hcurrent k hk)
      exact ⟨beq_iff_eq.mpr hslot, by rw [Pool.count, Pool.count, hslot], hvalue⟩
    standing := hstanding
    mem_names := fun name => by
      simp only [haccounts.mem_names_iff_registers, hstanding]
    ascending := List.pairwise_map.mpr haccounts.ascending
    size_eq := (List.length_map _).symm }

/-- A name created, refused while a handle to it is live, given up, and created again. -/
def renewal : List (Call ℕ) :=
  [.create "a" 1, .find "a" "h", .unregister "a", .release "h", .unregister "a", .create "a" 2,
    .find "a" "k"]

theorem books_renewal :
    let s := (empty "texture").run renewal
    s.Books ((empty "texture").ledger renewal) ∧ s.live.map (·.slot) = [1] ∧
      (s.run [.create "a" 3, .clone "k" "l"]).pool.Registers "a" 1 2 := by
  have hregisters : ((empty "texture").run renewal).pool.Registers "a" 1 2 :=
    ⟨List.mem_singleton_self _, _, rfl, rfl⟩
  have hkept : Call.unregister "a" ∉
      ((empty "texture").run renewal).ledger [.create "a" 3, .clone "k" "l"] := by
    have hledger : ((empty "texture").run renewal).ledger [.create "a" 3, .clone "k" "l"] =
        [.clone "k" "l"] := rfl
    simp [hledger]
  exact ⟨(books_run "texture" renewal).1, rfl,
    (books_run "texture" renewal).2 _ "a" 1 2 hregisters hkept⟩

end Holdings

end ShadeTree
