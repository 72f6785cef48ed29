import Mathlib.Order.Lattice
import Mathlib.Tactic.Common

/-!
# Ordered maps

A map with linearly ordered keys as the list of its entries in increasing order of keys, as an
ordered map iterates over them. The first entry has the least key.
-/

namespace OrderedMap

variable {κ α : Type*} [LinearOrder κ]

/-- Inserts `v` under `k` unless the key is there already. -/
def insertNew (k : κ) (v : α) : List (κ × α) → List (κ × α)
  | [] => [(k, v)]
  | x :: rest =>
    if k < x.1 then (k, v) :: x :: rest
    else if k = x.1 then x :: rest
    else x :: insertNew k v rest

/-- The keys are in increasing order. -/
def Sorted (m : List (κ × α)) : Prop := m.Pairwise fun x y => x.1 < y.1

variable {k : κ} {v : α} {m : List (κ × α)}

theorem mem_insertNew {x : κ × α} (h : x ∈ insertNew k v m) : x = (k, v) ∨ x ∈ m := by
  induction m with
  | nil => exact .inl (List.mem_singleton.mp h)
  | cons y rest ih =>
    unfold insertNew at h
    split_ifs at h
    · exact List.mem_cons.mp h
    · exact .inr h
    · rcases List.mem_cons.mp h with rfl | h
      · exact .inr List.mem_cons_self
      · exact (ih h).imp_right (List.mem_cons_of_mem y)

theorem mem_insertNew_of_mem {x : κ × α} (h : x ∈ m) : x ∈ insertNew k v m := by
  induction m with
  | nil => cases h
  | cons y rest ih =>
    unfold insertNew
    split_ifs
    · exact List.mem_cons_of_mem _ h
    · exact h
    · rcases List.mem_cons.mp h with rfl | h
      · exact List.mem_cons_self
      · exact List.mem_cons_of_mem y (ih h)

theorem length_insertNew_le (k : κ) (v : α) (m : List (κ × α)) :
    (insertNew k v m).length ≤ m.length + 1 := by
  induction m with
  | nil => exact Nat.le_refl _
  | cons y rest ih =>
    unfold insertNew
    split_ifs
    · exact Nat.le_refl _
    · exact Nat.le_succ _
    · exact Nat.succ_le_succ ih

theorem Sorted.insertNew (h : Sorted m) : Sorted (insertNew k v m) := by
  induction m with
  | nil => exact List.pairwise_singleton _ _
  | cons y rest ih =>
    obtain ⟨hy, hrest⟩ := List.pairwise_cons.mp h
    unfold OrderedMap.insertNew
    split_ifs with hlt heq
    · refine List.pairwise_cons.mpr ⟨fun x hx => ?_, h⟩
      rcases List.mem_cons.mp hx with rfl | hx
      · exact hlt
      · exact hlt.trans (hy x hx)
    · exact h
    · refine List.pairwise_cons.mpr ⟨fun x hx => ?_, ih hrest⟩
      rcases mem_insertNew hx with rfl | hx
      · exact lt_of_le_of_ne (not_lt.mp hlt) (Ne.symm heq)
      · exact hy x hx

end OrderedMap
