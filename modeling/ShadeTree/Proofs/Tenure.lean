import ShadeTree.Proofs.Tally
import Mathlib.Algebra.BigOperators.Group.Finset.Basic

/-!
# What a pool holds

A value is held by its registration or by a handle to it. What is held is summed up slot by slot
(`Pool.total`), with any weight: the handles that the values hold in turn, or their number. This
module tells how such a sum changes: a handle more to what is held leaves held what was held
(`isHeld_clone`), the last hold on a slot takes its weight away (`total_release`), a registration
adds the weight of its new slot (`total_create`), and a pool that is torn down keeps the slots that
have handles (`Tallies.total_close`).
-/

namespace ShadeTree

/-! ### What a pool holds -/

namespace Pool

variable {α M : Type} [AddCommMonoid M] {p q : Pool α} {live : Multiset (Handle α)}

/-- A name is registered with the slot. -/
def isListed (p : Pool α) (i : ℕ) : Bool := p.directory.any (·.2 == i)

/-- The slot has handles. -/
def isReferred (p : Pool α) (i : ℕ) : Bool := p.slots[i]?.any fun s => 0 < s.refs

theorem isHeld_eq (p : Pool α) (i : ℕ) : p.isHeld i = (p.isListed i || p.isReferred i) := rfl

/-- The value that a slot keeps. -/
def value? (p : Pool α) (i : ℕ) : Option α := p.slots[i]?.map (·.value)

/-- The sum of a weight over the slots that are held. -/
def total (p : Pool α) (w : ℕ → M) : M :=
  ∑ i ∈ Finset.range p.slots.length, if p.isHeld i then w i else 0

theorem total_congr (hlength : q.slots.length = p.slots.length)
    (hheld : ∀ i, q.isHeld i = p.isHeld i) (w : ℕ → M) : q.total w = p.total w := by
  simp only [total, hlength, hheld]

theorem total_congr_weight {w w' : ℕ → M} (h : ∀ i < p.slots.length, w i = w' i) :
    p.total w = p.total w' :=
  Finset.sum_congr rfl fun i hi => by rw [h i (Finset.mem_range.mp hi)]

theorem map_total {N : Type} [AddCommMonoid N] (f : M →+ N) (p : Pool α) (w : ℕ → M) :
    f (p.total w) = p.total fun i => f (w i) := by
  simp only [total, map_sum, apply_ite f, map_zero]

theorem isReferred_iff (h : p.Tallies live) {i : ℕ} :
    p.isReferred i = true ↔ ∃ k ∈ live, k.slot = i := by
  rw [isReferred]
  cases hs : p.slots[i]? with
  | none =>
    refine iff_of_false (by simp) ?_
    rintro ⟨k, hk, rfl⟩
    obtain ⟨s, hs', -⟩ := h.shown k hk
    rw [hs] at hs'
    cases hs'
  | some s =>
    rw [Option.any_some, decide_eq_true_iff, h.counted i s hs, Multiset.countP_pos]

theorem isListed_iff {i : ℕ} : p.isListed i = true ↔ ∃ name, (name, i) ∈ p.directory := by
  simp [isListed]

/-! #### Counts that change -/

@[simp] theorem length_adjust (p : Pool α) (i : ℕ) (f : ℕ → ℕ) :
    (p.adjust i f).slots.length = p.slots.length :=
  List.length_modify _ _ _

@[simp] theorem value?_adjust (p : Pool α) (i : ℕ) (f : ℕ → ℕ) (j : ℕ) :
    (p.adjust i f).value? j = p.value? j := by
  rw [value?, slots_adjust, Option.map_map, value?]
  refine Option.map_congr fun s _ => ?_
  simp only [Function.comp]
  split <;> rfl

theorem isReferred_adjust (p : Pool α) (i : ℕ) (f : ℕ → ℕ) (j : ℕ) :
    (p.adjust i f).isReferred j =
      p.slots[j]?.any fun s => decide (0 < if i = j then f s.refs else s.refs) := by
  rw [isReferred, slots_adjust, Option.any_map]
  refine congrArg (Option.any · _) (funext fun s => ?_)
  split <;> rfl

theorem isHeld_adjust_of_ne {i j : ℕ} (h : i ≠ j) (f : ℕ → ℕ) :
    (p.adjust i f).isHeld j = p.isHeld j := by
  rw [isHeld_eq, isReferred_adjust]
  simp only [if_neg h]
  rfl

/-- One more handle to a slot that is held changes nothing about what is held. -/
theorem isHeld_clone {k : Handle α} (hk : p.isHeld k.slot = true) (i : ℕ) :
    (p.clone k).isHeld i = p.isHeld i := by
  by_cases hi : k.slot = i
  · subst hi
    rw [hk, clone, isHeld_eq, isReferred_adjust]
    rw [isHeld_eq, Bool.or_eq_true] at hk
    refine Bool.or_eq_true_iff.mpr (hk.imp id fun hreferred => ?_)
    rw [isReferred, Option.any_eq_true] at hreferred
    obtain ⟨s, hs, -⟩ := hreferred
    rw [hs]
    simp
  · exact isHeld_adjust_of_ne hi _

/-- With the last hold on a slot its weight is gone. -/
theorem total_release {k : Handle α} (hk : p.isHeld k.slot = true)
    (hlt : k.slot < p.slots.length) (w : ℕ → M) :
    p.total w =
      (p.release k).1.total w + if (p.release k).1.isHeld k.slot then 0 else w k.slot := by
  have hmem : k.slot ∈ Finset.range p.slots.length := Finset.mem_range.mpr hlt
  have hothers : ∑ i ∈ (Finset.range p.slots.length).erase k.slot,
      (if (p.release k).1.isHeld i then w i else 0) =
        ∑ i ∈ (Finset.range p.slots.length).erase k.slot, if p.isHeld i then w i else 0 := by
    refine Finset.sum_congr rfl fun i hi => ?_
    rw [release, isHeld_adjust_of_ne (Finset.ne_of_mem_erase hi).symm]
  have hlength : (p.release k).1.slots.length = p.slots.length := length_adjust p _ _
  rw [total, total, hlength, ← Finset.add_sum_erase _ _ hmem, ← Finset.add_sum_erase _ _ hmem,
    hothers, if_pos hk]
  split
  · rw [add_zero]
  · rw [zero_add, add_comm]

/-! #### Registrations that change -/

theorem value?_create {name : String} {value : α} (hcreate : p.create name value = .ok q) :
    (∀ i < p.slots.length, q.value? i = p.value? i) ∧ q.value? p.slots.length = some value := by
  obtain ⟨-, rfl⟩ := create_eq_ok hcreate
  refine ⟨fun i hi => ?_, ?_⟩
  · rw [value?, List.getElem?_append_left hi, value?]
  · rw [value?, List.getElem?_concat_length, Option.map_some]

/-- What is registered is held. -/
theorem total_create {name : String} {value : α} (hcreate : p.create name value = .ok q)
    (w : ℕ → M) : q.total w = p.total w + w p.slots.length := by
  obtain ⟨-, rfl⟩ := create_eq_ok hcreate
  have hlisted : ∀ i, isListed { p with
      slots := p.slots ++ [⟨name, value, 0⟩]
      directory := insertName name p.slots.length p.directory } i =
        (p.slots.length == i || p.isListed i) := fun i =>
    ((perm_insertName name p.slots.length p.directory).any_eq).trans List.any_cons
  rw [total, List.length_append, List.length_singleton, Finset.sum_range_succ, total]
  congr 1
  · refine Finset.sum_congr rfl fun i hi => ?_
    have hlt : i < p.slots.length := Finset.mem_range.mp hi
    rw [isHeld_eq, hlisted, beq_false_of_ne hlt.ne', Bool.false_or, isReferred,
      List.getElem?_append_left hlt]
    rfl
  · rw [isHeld_eq, hlisted, beq_self_eq_true, Bool.true_or, Bool.true_or, if_pos rfl]

/-- A sum over what is registered is a sum over the slots it is registered with. -/
theorem Tallies.sum_directory (h : p.Tallies live) (w : ℕ → M) :
    (p.directory.map fun entry => w entry.2).sum =
      ∑ i ∈ Finset.range p.slots.length, if p.isListed i then w i else 0 := by
  have hnodup : (p.directory.map (·.2)).Nodup := by
    refine List.pairwise_map.mpr (h.ascending.imp_of_mem fun {a b} ha hb hlt heq => ?_)
    obtain ⟨s, hs, hsa⟩ := h.named a.1 a.2 ha
    obtain ⟨t, ht, htb⟩ := h.named b.1 b.2 hb
    rw [heq, ht] at hs
    obtain rfl := Option.some.inj hs
    exact hlt.ne (hsa.symm.trans htb)
  have hslots : (p.directory.map (·.2)).toFinset =
      (Finset.range p.slots.length).filter fun i => p.isListed i = true := by
    ext i
    rw [List.mem_toFinset, Finset.mem_filter, Finset.mem_range, isListed_iff]
    constructor
    · intro hi
      obtain ⟨⟨name, j⟩, hmem, rfl⟩ := List.mem_map.mp hi
      obtain ⟨s, hs, -⟩ := h.named name j hmem
      exact ⟨(List.getElem?_eq_some_iff.mp hs).1, name, hmem⟩
    · rintro ⟨-, name, hmem⟩
      exact List.mem_map.mpr ⟨(name, i), hmem, rfl⟩
  rw [← Finset.sum_filter, ← hslots, List.sum_toFinset _ hnodup, List.map_map]
  rfl

/-- What is held is what is registered, and what is not and has handles still. -/
theorem Tallies.total_eq (h : p.Tallies live) (w : ℕ → M) :
    p.total w = (p.directory.map fun entry => w entry.2).sum +
      ∑ i ∈ Finset.range p.slots.length,
        if !p.isListed i && p.isReferred i then w i else 0 := by
  rw [h.sum_directory, total, ← Finset.sum_add_distrib]
  refine Finset.sum_congr rfl fun i _ => ?_
  rw [isHeld_eq]
  cases p.isListed i <;> cases p.isReferred i <;> simp

/-- As a pool is torn down, what is registered and has no handles goes. -/
theorem Tallies.total_close (h : p.Tallies live) (w : ℕ → M) :
    p.total w = p.close.1.total w +
      (p.directory.map fun entry => if p.isReferred entry.2 then 0 else w entry.2).sum := by
  have hheld : ∀ i, p.close.1.isHeld i = p.isReferred i := fun _ => rfl
  have hlength : p.close.1.slots.length = p.slots.length := rfl
  rw [h.sum_directory fun i => if p.isReferred i then 0 else w i, total, total, hlength,
    ← Finset.sum_add_distrib]
  refine Finset.sum_congr rfl fun i _ => ?_
  rw [hheld, isHeld_eq]
  cases p.isListed i <;> cases p.isReferred i <;> simp

/-- The values that go. -/
theorem coe_flatMap_close {β : Type} (p : Pool α) (f : α → List β) :
    (p.close.2.flatMap f : Multiset β) = (p.directory.map fun entry =>
      if p.isReferred entry.2 then 0
      else (((p.value? entry.2).elim [] f : List β) : Multiset β)).sum := by
  let gone (entry : String × ℕ) : Option α :=
    p.slots[entry.2]?.bind fun s => if s.refs = 0 then some s.value else none
  have hgone : ∀ entry, (((gone entry).elim [] f : List β) : Multiset β) =
      if p.isReferred entry.2 then 0
      else (((p.value? entry.2).elim [] f : List β) : Multiset β) := by
    intro entry
    rcases Option.eq_none_or_eq_some p.slots[entry.2]? with hs | ⟨s, hs⟩
    · simp [gone, isReferred, value?, hs]
    · by_cases hrefs : s.refs = 0 <;>
        simp [gone, isReferred, value?, hs, hrefs, Nat.pos_of_ne_zero]
  have hclose : p.close.2 = p.directory.filterMap gone := rfl
  rw [hclose]
  induction p.directory with
  | nil => rfl
  | cons entry rest ih =>
    rw [List.map_cons, List.sum_cons, ← ih, ← hgone, List.filterMap_cons]
    cases gone entry with
    | none => rw [Option.elim_none, Multiset.coe_nil, zero_add]
    | some a => rw [Option.elim_some, List.flatMap_cons, Multiset.coe_add]

/-- A pool is shut down in good order when nothing that is registered has handles. -/
theorem panic_shutdown_eq_none_iff (p : Pool α) :
    p.shutdown.1.panic = none ↔ ∀ entry ∈ p.directory, p.isReferred entry.2 = false := by
  have hclean : p.leaks = [] ↔ ∀ entry ∈ p.directory, p.isReferred entry.2 = false := by
    rw [leaks, census, List.filterMap_filterMap, List.filterMap_eq_nil_iff]
    refine forall₂_congr fun entry _ => ?_
    rw [isReferred]
    cases hs : p.slots[entry.2]? <;> simp [hs]
  rw [← hclean, shutdown, check]
  cases p.leaks <;> simp

end Pool

end ShadeTree
