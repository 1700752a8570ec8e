import Mathlib.Algebra.BigOperators.Group.List.Basic

/-! Labelled trees with any number of subtrees. -/

namespace EvioTool.Lib

inductive Rose (α : Type) : Type
  | node (label : α) (subs : List (Rose α))

namespace Rose

variable {α β γ : Type}

def label : Rose α → α
  | .node a _ => a

def subs : Rose α → List (Rose α)
  | .node _ ts => ts

@[simp] theorem label_node (a : α) (ts : List (Rose α)) : (node a ts).label = a := rfl

@[simp] theorem subs_node (a : α) (ts : List (Rose α)) : (node a ts).subs = ts := rfl

def setLabel : Rose α → α → Rose α
  | .node _ ts, a => .node a ts

def setSub : Rose α → Nat → Rose α → Rose α
  | .node a ts, i, t => .node a (ts.set i t)

@[simp] theorem label_setSub (i : Nat) (t u : Rose α) : (u.setSub i t).label = u.label := by
  cases u
  rfl

@[simp] theorem subs_setSub (i : Nat) (t u : Rose α) :
    (u.setSub i t).subs = u.subs.set i t := by
  cases u
  rfl

@[elab_as_elim]
theorem ind {P : Rose α → Prop} (node : ∀ a ts, (∀ t ∈ ts, P t) → P (.node a ts)) :
    ∀ t, P t := by
  intro t
  induction t using Rose.rec (motive_2 := fun ts => ∀ t ∈ ts, P t) with
  | node a ts ih => exact node a ts ih
  | nil => rename_i h; cases h
  | cons t ts iht ihts =>
    rename_i u hu
    rcases List.mem_cons.mp hu with rfl | h
    · exact iht
    · exact ihts _ h

inductive All (P : α → Prop) : Rose α → Prop
  | node : P a → (∀ t ∈ ts, All P t) → All P (.node a ts)

theorem All.label {P : α → Prop} {t : Rose α} (h : All P t) : P t.label := by
  cases h with | node ha _ => exact ha

theorem All.sub {P : α → Prop} {t u : Rose α} (h : All P t) (hu : u ∈ t.subs) : All P u := by
  cases h with | node _ hs => exact hs u hu

theorem All.setSub {P : α → Prop} {t u : Rose α} {i : Nat} (ht : All P t) (hu : All P u) :
    All P (t.setSub i u) := by
  cases ht with
  | node ha hs =>
    refine .node ha fun v hv => ?_
    rcases List.mem_or_eq_of_mem_set hv with h | rfl
    · exact hs v h
    · exact hu

mutual
def map (f : α → β) : Rose α → Rose β
  | .node a ts => .node (f a) (mapAll f ts)

def mapAll (f : α → β) : List (Rose α) → List (Rose β)
  | [] => []
  | t :: ts => map f t :: mapAll f ts
end

theorem mapAll_eq (f : α → β) (ts : List (Rose α)) : mapAll f ts = ts.map (map f) := by
  induction ts with
  | nil => rfl
  | cons t ts ih => simp [mapAll, ih]

@[simp] theorem map_node (f : α → β) (a : α) (ts : List (Rose α)) :
    map f (node a ts) = node (f a) (ts.map (map f)) := by
  rw [map, mapAll_eq]

@[simp] theorem label_map (f : α → β) (t : Rose α) : (map f t).label = f t.label := by
  cases t
  simp

@[simp] theorem subs_map (f : α → β) (t : Rose α) : (map f t).subs = t.subs.map (map f) := by
  cases t
  simp

theorem map_setSub (f : α → β) (i : Nat) (t u : Rose α) :
    map f (u.setSub i t) = (map f u).setSub i (map f t) := by
  cases u
  simp [setSub, List.map_set]

section Sum

variable {M : Type} [AddCommMonoid M] {f : α → M} {m : M}

mutual
def sum (f : α → M) : Rose α → M
  | .node a ts => f a + sumAll f ts

def sumAll (f : α → M) : List (Rose α) → M
  | [] => 0
  | t :: ts => sum f t + sumAll f ts
end

theorem sumAll_eq (ts : List (Rose α)) : sumAll f ts = (ts.map (sum f)).sum := by
  induction ts with
  | nil => rfl
  | cons t ts ih => simp [sumAll, ih]

theorem sum_node (a : α) (ts : List (Rose α)) :
    (node a ts).sum f = f a + (ts.map (sum f)).sum := by
  rw [sum, sumAll_eq]

theorem sum_setLabel {t : Rose α} {a : α} (h : f a = f t.label + m) :
    (t.setLabel a).sum f = t.sum f + m := by
  cases t with
  | node b ts =>
    rw [setLabel, sum_node, sum_node, h, label_node]
    exact add_right_comm _ _ _

theorem sum_map_set {g : β → M} {xs : List β} {i : Nat} {x y : β} (hx : xs[i]? = some x)
    (h : g y = g x + m) : ((xs.set i y).map g).sum = (xs.map g).sum + m := by
  induction xs generalizing i with
  | nil => cases hx
  | cons z zs ih =>
    cases i with
    | zero =>
      obtain rfl := Option.some.inj hx
      simp only [List.set_cons_zero, List.map_cons, List.sum_cons, h]
      exact add_right_comm _ _ _
    | succ i =>
      simp only [List.set_cons_succ, List.map_cons, List.sum_cons, ih hx, add_assoc]

theorem sum_setSub {t u v : Rose α} {i : Nat} (hu : t.subs[i]? = some u)
    (h : v.sum f = u.sum f + m) : (t.setSub i v).sum f = t.sum f + m := by
  cases t with
  | node a ts =>
    have hu : ts[i]? = some u := hu
    rw [setSub, sum_node, sum_node, sum_map_set hu h, add_assoc]

end Sum

end Rose

end EvioTool.Lib
