import Mathlib.Data.List.Basic

/-! Writes into a buffer of fixed length, and into a file that they may extend. -/

namespace EvioTool.Lib

variable {α : Type}

def splice (l : List α) (i : Nat) (xs : List α) : List α := l.take i ++ xs ++ l.drop (i + xs.length)

def poke (l : List α) (i : Nat) (xs : List α) : Option (List α) :=
  if i + xs.length ≤ l.length then some (splice l i xs) else none

section

variable {l p m s xs : List α} {i n : Nat}

theorem poke_eq (h : i + xs.length ≤ l.length) : poke l i xs = some (splice l i xs) := if_pos h

theorem length_splice_of_le (h : i + xs.length ≤ l.length) : (splice l i xs).length = l.length := by
  simp only [splice, List.length_append, List.length_take, List.length_drop]
  omega

theorem splice_append (hp : i = p.length) (hm : m.length = xs.length) :
    splice (p ++ (m ++ s)) i xs = p ++ (xs ++ s) := by
  subst hp
  rw [splice, List.take_left, ← hm, ← List.drop_drop, List.drop_left, List.drop_left,
    List.append_assoc]

theorem poke_append (hp : i = p.length) (hm : m.length = xs.length) :
    poke (p ++ (m ++ s)) i xs = some (p ++ (xs ++ s)) := by
  rw [poke_eq (by simp [hp, hm]), splice_append hp hm]

theorem splice_of_length_le (hp : i = p.length) (hs : s.length ≤ xs.length) :
    splice (p ++ s) i xs = p ++ xs := by
  subst hp
  rw [splice, List.take_left, List.drop_eq_nil_of_le (by simp; omega), List.append_nil]

theorem take_splice_end (h : i ≤ l.length) (hn : n = i + xs.length) :
    (splice l i xs).take n = l.take i ++ xs := by
  have hlen : n = (l.take i ++ xs).length := by
    rw [List.length_append, List.length_take_of_le h, hn]
  rw [splice, hlen, List.take_left]

theorem take_splice_before (hn : n ≤ i) (h : i ≤ l.length) : (splice l i xs).take n = l.take n := by
  have hlen : n ≤ (l.take i).length := by
    rw [List.length_take_of_le h]
    exact hn
  rw [splice, List.append_assoc, List.take_append_of_le_length hlen, List.take_take,
    Nat.min_eq_left hn]

theorem drop_splice (h : i + xs.length ≤ n) (hi : i ≤ l.length) :
    (splice l i xs).drop n = l.drop n := by
  obtain ⟨k, rfl⟩ := Nat.exists_eq_add_of_le h
  have hlen : (l.take i ++ xs).length = i + xs.length := by
    rw [List.length_append, List.length_take_of_le hi]
  rw [splice, ← List.drop_drop, ← hlen, List.drop_left, hlen, List.drop_drop]

theorem splice_at (hi : i ≤ l.length) : ((splice l i xs).drop i).take xs.length = xs := by
  have hlen : (l.take i).length = i := List.length_take_of_le hi
  have hdrop : (splice l i xs).drop i = xs ++ l.drop (i + xs.length) := by
    rw [splice, List.append_assoc]
    exact List.drop_left' hlen
  rw [hdrop, List.take_left]

theorem splice_append_right {xs ys : List α} :
    splice l i (xs ++ ys) = (l.take i ++ xs) ++ (ys ++ l.drop (i + (xs ++ ys).length)) := by
  simp only [splice, List.append_assoc]

theorem drop_splice_append (xs ys : List α) (h : i ≤ l.length) :
    (splice l i (xs ++ ys)).drop (i + xs.length) = ys ++ l.drop (i + (xs ++ ys).length) := by
  have hlen : (l.take i ++ xs).length = i + xs.length := by
    rw [List.length_append, List.length_take_of_le h]
  rw [splice_append_right, ← hlen, List.drop_left]

theorem take_splice_append {ys : List α} (h : i ≤ l.length) :
    (splice l i (xs ++ ys)).take (i + xs.length) = l.take i ++ xs := by
  have hlen : (l.take i ++ xs).length = i + xs.length := by
    rw [List.length_append, List.length_take_of_le h]
  rw [splice_append_right, ← hlen, List.take_left]

theorem splice_self (h : (l.drop i).take xs.length = xs) : splice l i xs = l := by
  have hrest : xs ++ (l.drop i).drop xs.length = l.drop i := by
    conv => lhs; arg 1; rw [← h]
    exact List.take_append_drop ..
  rw [splice, ← List.drop_drop, List.append_assoc, hrest, List.take_append_drop]

theorem splice_splice {ys : List α} (h : i + xs.length ≤ l.length) :
    splice (splice l i xs) (i + xs.length) ys = splice l i (xs ++ ys) := by
  have hi : i ≤ l.length := by omega
  have hdrop : (splice l i xs).drop (i + xs.length + ys.length) = l.drop (i + xs.length + ys.length) :=
    drop_splice (by omega) hi
  rw [splice, take_splice_end hi rfl, hdrop, splice, List.length_append, Nat.add_assoc i,
    List.append_assoc, List.append_assoc, List.append_assoc, List.append_assoc]

end

end EvioTool.Lib
