import Mathlib.Data.List.Nodup

/-! Objects on a heap: a list that owns them, and pointers that may outlive them. -/

namespace EvioTool.Lib

/-- Where the `n`-th object that is made is put, given the places of those that live. -/
structure Allocator where
  place : Nat → List Nat → Nat
  fresh : ∀ n live, place n live ∉ live

def Allocator.above : Allocator where
  place _ live := live.foldr max 0 + 1
  fresh _ live := by
    have hle : ∀ a ∈ live, a ≤ live.foldr max 0 := by
      induction live with
      | nil => exact fun a ha => absurd ha List.not_mem_nil
      | cons b live ih =>
        intro a ha
        rw [List.foldr_cons]
        rcases List.mem_cons.mp ha with rfl | ha
        · exact Nat.le_max_left _ _
        · exact Nat.le_trans (ih a ha) (Nat.le_max_right _ _)
    exact fun h => Nat.not_succ_le_self _ (hle _ h)

/-- An object with its address and those of the parts that it owns. -/
structure Placed (α : Type) where
  address : Nat
  parts : List Nat := []
  value : α
  deriving DecidableEq

namespace Placed

variable {α : Type} {x : Placed α} {xs ys : List (Placed α)} {a o : Nat}
  {f : Placed α → Placed α}

def live (xs : List (Placed α)) : List Nat := xs.flatMap fun x => x.address :: x.parts

def remove (xs : List (Placed α)) (o : Nat) : List (Placed α) := xs.eraseP fun x => x.address == o

def update (xs : List (Placed α)) (o : Nat) (f : Placed α → Placed α) : List (Placed α) :=
  xs.map fun x => if x.address = o then f x else x

def Distinct (xs : List (Placed α)) : Prop := (xs.map address).Nodup

theorem address_mem_live (h : x ∈ xs) : x.address ∈ live xs :=
  List.mem_flatMap.mpr ⟨x, h, List.mem_cons_self⟩

theorem distinct_append_cons : Distinct (xs ++ x :: ys) ↔
    Distinct (xs ++ ys) ∧ ∀ y ∈ xs ++ ys, y.address ≠ x.address := by
  rw [Distinct, Distinct, List.map_append, List.map_cons, List.nodup_middle, List.nodup_cons,
    and_comm, ← List.map_append]
  refine and_congr_right fun _ => ?_
  simp only [List.mem_map, not_exists, not_and]

theorem Distinct.left (h : Distinct (xs ++ ys)) : Distinct xs := by
  rw [Distinct, List.map_append] at h
  exact h.of_append_left

theorem Distinct.concat (h : Distinct xs) (hx : x.address ∉ live xs) : Distinct (xs ++ [x]) := by
  refine distinct_append_cons.mpr ⟨by rwa [List.append_nil], fun y hy => ?_⟩
  rw [List.append_nil] at hy
  exact fun heq => hx (heq ▸ address_mem_live hy)

theorem remove_append_cons (h : Distinct (xs ++ x :: ys)) :
    remove (xs ++ x :: ys) x.address = xs ++ ys := by
  have hne := (distinct_append_cons.mp h).2
  rw [remove, List.eraseP_append_right _ fun y hy => by simpa using hne y (by simp [hy]),
    List.eraseP_cons_of_pos (by simp)]

theorem foldl_remove (h : Distinct (xs ++ ys)) : (ys.map address).foldl remove (xs ++ ys) = xs := by
  induction ys with
  | nil => exact List.append_nil xs
  | cons y ys ih =>
    rw [List.map_cons, List.foldl_cons, remove_append_cons h]
    exact ih (distinct_append_cons.mp h).1

theorem update_concat (h : Distinct (xs ++ [x])) :
    update (xs ++ [x]) x.address f = xs ++ [f x] := by
  have hne := (distinct_append_cons.mp h).2
  have hxs : update xs x.address f = xs := by
    refine (List.map_congr_left fun y hy => ?_).trans (List.map_id xs)
    rw [if_neg (hne y (by simp [hy]))]
    rfl
  rw [update, List.map_append, ← update, hxs]
  simp

end Placed

end EvioTool.Lib
