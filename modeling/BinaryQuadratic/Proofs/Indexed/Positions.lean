import Mathlib.Data.List.FinRange
import Mathlib.Data.List.Sort
import BinaryQuadratic.Proofs.Reduction

set_option autoImplicit false

/-! Lists that are read and written at any positions, where a position past the end is a fault. At the
position of a variable there is none, so a loop over variables comes to its end. -/

namespace BinaryQuadratic

variable {β σ τ ι κ : Type} {n : Nat}

namespace Indexed

def readAt (items : List β) (i : Nat) : Except Fault β :=
  if inside : i < items.length then .ok items[i] else .error .outOfBounds

def writeAt (items : List β) (i : Nat) (value : β) : Except Fault (List β) :=
  if i < items.length then .ok (items.set i value) else .error .outOfBounds

/-- The items from a position on; there are none from the end on, and past that is a fault. -/
def readFrom (items : List β) (start : Nat) : Except Fault (List β) :=
  if start ≤ items.length then .ok (items.drop start) else .error .outOfBounds

/-- A copy over the items of a list, which must be as many as there are in the copy. -/
def overwrite (items source : List β) : Except Fault (List β) :=
  if items.length = source.length then .ok source else .error .outOfBounds

/-- The positions of the bits that are one, in ascending order. -/
def ones (bits : List Bool) : List Nat :=
  (List.range bits.length).filter fun i => bits.getD i false

@[simp] theorem readAt_toList (items : Vector β n) (i : Fin n) :
    readAt items.toList i = .ok (items.get i) := by
  have inside : i.val < items.toList.length := by
    rw [Vector.length_toList]
    exact i.isLt
  unfold readAt
  rw [dif_pos inside]
  rfl

@[simp] theorem writeAt_toList (items : Vector β n) (i : Fin n) (value : β) :
    writeAt items.toList i value = .ok (items.set i.val value i.isLt).toList := by
  have inside : i.val < items.toList.length := by
    rw [Vector.length_toList]
    exact i.isLt
  unfold writeAt
  rw [if_pos inside, Vector.toList_set]

@[simp] theorem overwrite_toList (items source : Vector β n) :
    overwrite items.toList source.toList = .ok source.toList := by
  have same : items.toList.length = source.toList.length := by
    rw [Vector.length_toList, Vector.length_toList]
  exact if_pos same

@[simp] theorem ok_bind (value : β) (next : β → Except Fault τ) :
    (Except.ok value >>= next) = next value :=
  rfl

theorem foldlM_map_of_steps {m : Type → Type} [Monad m] [LawfulMonad m] (shown : σ → τ)
    (position : ι → κ) {step : τ → κ → m τ} {step' : σ → ι → m σ} (items : List ι)
    (steps : ∀ s, ∀ i ∈ items, step (shown s) (position i) = shown <$> step' s i) (s : σ) :
    (items.map position).foldlM step (shown s) = shown <$> items.foldlM step' s := by
  induction items generalizing s with
  | nil => exact (map_pure shown s).symm
  | cons i rest ih =>
      rw [List.map_cons, List.foldlM_cons, List.foldlM_cons, steps s i List.mem_cons_self,
        bind_map_left, map_bind]
      exact bind_congr (ih fun s j member => steps s j (List.mem_cons_of_mem i member))

theorem foldlM_eq_ok (shown : σ → τ) (position : ι → κ) {step : τ → κ → Except Fault τ}
    {f : σ → ι → σ} (items : List ι)
    (steps : ∀ s, ∀ i ∈ items, step (shown s) (position i) = .ok (shown (f s i))) (s : σ) :
    (items.map position).foldlM step (shown s) = .ok (shown (items.foldl f s)) := by
  have pure_steps : ∀ s, ∀ i ∈ items,
      step (shown s) (position i) = shown <$> (pure (f s i) : Except Fault σ) := steps
  exact (foldlM_map_of_steps shown position items pure_steps s).trans
    (congrArg (shown <$> ·) List.foldlM_pure)

theorem mapM_eq_ok (position : ι → κ) {read : κ → Except Fault τ} {f : ι → τ} (items : List ι)
    (reads : ∀ i ∈ items, read (position i) = .ok (f i)) :
    (items.map position).mapM read = .ok (items.map f) := by
  induction items with
  | nil => rfl
  | cons i rest ih =>
      rw [List.map_cons, List.mapM_cons, reads i List.mem_cons_self,
        ih fun j member => reads j (List.mem_cons_of_mem i member)]
      rfl

theorem range_eq_map_val (n : Nat) : List.range n = (List.finRange n).map Fin.val :=
  List.map_coe_finRange_eq_range.symm

/-- Positions that are all inside are those of variables. -/
theorem exists_map_val {positions : List Nat} (inside : ∀ i ∈ positions, i < n) :
    ∃ places : List (Fin n), places.map Fin.val = positions :=
  ⟨positions.pmap Fin.mk inside, map_val_pmap_mk inside⟩

theorem get_set (items : Vector β n) (v i : Fin n) (value : β) :
    (items.set v.val value v.isLt).get i = if i = v then value else items.get i := by
  change (items.set v.val value v.isLt)[i.val] = _
  rw [Vector.getElem_set]
  by_cases same : i = v
  · rw [if_pos (congrArg Fin.val same).symm, if_pos same]
  · rw [if_neg fun equal => same (Fin.ext equal.symm), if_neg same]
    rfl

/-- Items at distinct places that are changed in turn are changed from what they were at first. -/
theorem get_foldl_set (change : Fin n → β → β) {places : List (Fin n)} (distinct : places.Nodup)
    (items : Vector β n) (i : Fin n) :
    (places.foldl (fun items k => items.set k.val (change k (items.get k)) k.isLt) items).get i =
      if i ∈ places then change i (items.get i) else items.get i := by
  induction places generalizing items with
  | nil => rfl
  | cons k rest ih =>
      obtain ⟨not_again, rest_distinct⟩ := List.nodup_cons.mp distinct
      rw [List.foldl_cons, ih rest_distinct, get_set]
      by_cases same : i = k
      · subst same
        rw [if_neg not_again, if_pos rfl, if_pos List.mem_cons_self]
      · have member_iff : i ∈ k :: rest ↔ i ∈ rest := by
          rw [List.mem_cons, or_iff_right same]
        rw [if_neg same]
        exact if_congr member_iff.symm rfl rfl

theorem ones_toList (x : Assignment n) : ones x.toList = x.support.map Fin.val := by
  unfold ones Assignment.support
  rw [Vector.length_toList, range_eq_map_val, List.filter_map]
  congr 2
  funext i
  have inside : i.val < x.toList.length := by
    rw [Vector.length_toList]
    exact i.isLt
  exact List.getD_eq_getElem _ _ inside

theorem filter_le_range {i : Nat} (inside : i ≤ n) :
    (List.range n).filter (i ≤ ·) = (List.range (n - i)).map (i + ·) := by
  obtain ⟨count, rfl⟩ := Nat.exists_eq_add_of_le inside
  rw [List.range_add, List.filter_append, Nat.add_sub_cancel_left]
  have none_before : (List.range i).filter (i ≤ ·) = [] := by
    simp
  have all_after : ((List.range count).map (i + ·)).filter (i ≤ ·) = (List.range count).map (i + ·) := by
    simp
  rw [none_before, all_after, List.nil_append]

/-- The ones from a place on, counted from there. -/
theorem ones_drop (x : Assignment n) (i : Fin n) :
    (ones (x.toList.drop i)).map (i.val + ·) = (x.support.filter (i ≤ ·)).map Fin.val := by
  have from_place : (x.support.filter (i ≤ ·)).map Fin.val =
      (x.support.map Fin.val).filter (i.val ≤ ·) := by
    rw [List.filter_map]
    rfl
  rw [from_place, ← ones_toList]
  unfold ones
  rw [Vector.length_toList, List.filter_comm, filter_le_range i.isLt.le, List.filter_map,
    List.length_drop, Vector.length_toList]
  congr 2
  funext k
  simp only [Function.comp_apply, List.getD_eq_getElem?_getD, List.getElem?_drop]

end Indexed

end BinaryQuadratic
