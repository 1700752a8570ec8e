import Mathlib.Data.List.Basic
import Mathlib.Tactic.Ring

/-! Word-addressed memory read as little-endian bytes and packed elements. -/

namespace EvioTool.Lib

def toBytes : Nat → Nat → List UInt8
  | 0, _ => []
  | w + 1, n => UInt8.ofNat n :: toBytes w (n / 256)

def leNat : List UInt8 → Nat
  | [] => 0
  | b :: bs => b.toNat + 256 * leNat bs

@[simp] theorem length_toBytes (w n : Nat) : (toBytes w n).length = w := by
  induction w generalizing n with
  | zero => rfl
  | succ w ih => simp [toBytes, ih]

theorem leNat_toBytes (w n : Nat) : leNat (toBytes w n) = n % 256 ^ w := by
  induction w generalizing n with
  | zero => simp [toBytes, leNat, Nat.mod_one]
  | succ w ih =>
    have hb : (UInt8.ofNat n).toNat = n % 256 := by simp
    rw [toBytes, leNat, ih, hb, pow_succ', Nat.mod_mul]

theorem getElem_toBytes (w n i : Nat) (h : i < (toBytes w n).length) :
    (toBytes w n)[i] = UInt8.ofNat (n / 256 ^ i) := by
  induction w generalizing n i with
  | zero => simp [toBytes] at h
  | succ w ih =>
    cases i with
    | zero => simp [toBytes]
    | succ i =>
      simp only [toBytes, List.getElem_cons_succ]
      rw [ih, Nat.div_div_eq_div_mul, pow_succ']

theorem leNat_lt (bs : List UInt8) : leNat bs < 256 ^ bs.length := by
  induction bs with
  | nil => simp [leNat]
  | cons b bs ih =>
    have hb := b.toNat_lt
    rw [leNat, List.length_cons, pow_succ']
    omega

theorem ofNat_leNat_div (bs : List UInt8) (i : Nat) (h : i < bs.length) :
    UInt8.ofNat (leNat bs / 256 ^ i) = bs[i] := by
  induction bs generalizing i with
  | nil => simp at h
  | cons b bs ih =>
    cases i with
    | zero =>
      apply UInt8.toNat_inj.mp
      have hb := b.toNat_lt
      simp [leNat]
    | succ i =>
      have hb : b.toNat / 256 = 0 := Nat.div_eq_of_lt b.toNat_lt
      rw [leNat, pow_succ', ← Nat.div_div_eq_div_mul, Nat.add_mul_div_left _ _ (by decide), hb,
        Nat.zero_add, ih, List.getElem_cons_succ]

def element (w : Nat) (bs : List UInt8) (k : Nat) : BitVec (8 * w) :=
  BitVec.ofNat (8 * w) (leNat ((bs.drop (k * w)).take w))

def elements (w : Nat) (bs : List UInt8) (n : Nat) : List (BitVec (8 * w)) :=
  (List.range n).map (element w bs)

@[simp] theorem length_elements (w : Nat) (bs : List UInt8) (n : Nat) :
    (elements w bs n).length = n := by simp [elements]

def pack (w : Nat) (xs : List (BitVec (8 * w))) : List UInt8 :=
  xs.flatMap fun x => toBytes w x.toNat

@[simp] theorem length_pack (w : Nat) (xs : List (BitVec (8 * w))) :
    (pack w xs).length = xs.length * w := by
  simp [pack, List.length_flatMap]

theorem element_zero_append (w n : Nat) (bs : List UInt8) :
    element w (toBytes w n ++ bs) 0 = BitVec.ofNat (8 * w) n := by
  have hp : 256 ^ w = 2 ^ (8 * w) := by rw [pow_mul]; rfl
  have ht : (toBytes w n ++ bs).take w = toBytes w n := by
    rw [List.take_append_of_le_length (by simp), List.take_of_length_le (by simp)]
  simp only [element, Nat.zero_mul, List.drop_zero, ht, leNat_toBytes]
  apply BitVec.eq_of_toNat_eq
  simp [hp]

theorem element_succ_append (w n k : Nat) (bs : List UInt8) :
    element w (toBytes w n ++ bs) (k + 1) = element w bs k := by
  have hd : (toBytes w n ++ bs).drop ((k + 1) * w) = bs.drop (k * w) := by
    rw [Nat.add_mul, Nat.one_mul, List.drop_append, List.drop_of_length_le (by simp),
      List.nil_append, length_toBytes, Nat.add_sub_cancel]
  simp only [element, hd]

theorem elements_pack (w : Nat) (xs : List (BitVec (8 * w))) (rest : List UInt8) :
    elements w (pack w xs ++ rest) xs.length = xs := by
  induction xs with
  | nil => rfl
  | cons x xs ih =>
    have hx : pack w (x :: xs) ++ rest = toBytes w x.toNat ++ (pack w xs ++ rest) := by
      simp [pack]
    rw [hx, elements, List.length_cons, List.range_succ_eq_map, List.map_cons, List.map_map]
    congr 1
    · rw [element_zero_append]
      simp
    · conv => rhs; rw [← ih]
      simp only [elements]
      apply List.map_congr_left
      intro k _
      exact element_succ_append w x.toNat k _

abbrev Mem := Int → Option UInt32

namespace Mem

def ofList (ws : List UInt32) : Mem := fun a => if 0 ≤ a then ws[a.toNat]? else none

/-- The words `ws` lie in `mem` from `a` on. -/
def Holds (mem : Mem) (a : Int) (ws : List UInt32) : Prop :=
  ∀ (i : Nat) (h : i < ws.length), mem (a + i) = some ws[i]

theorem holds_ofList (ws : List UInt32) : (ofList ws).Holds 0 ws := by
  intro i h
  simp [ofList, h]

theorem Holds.append {mem : Mem} {a : Int} {xs ys : List UInt32} (h : mem.Holds a (xs ++ ys)) :
    mem.Holds a xs ∧ mem.Holds (a + xs.length) ys := by
  constructor
  · intro i hi
    have := h i (by simp; omega)
    rwa [List.getElem_append_left hi] at this
  · intro i hi
    have := h (xs.length + i) (by simp; omega)
    rw [List.getElem_append_right (by omega)] at this
    simpa [add_assoc] using this

theorem Holds.head {mem : Mem} {a : Int} {w : UInt32} {ws : List UInt32}
    (h : mem.Holds a (w :: ws)) : mem a = some w := by
  have := h 0 (by simp)
  rwa [List.getElem_cons_zero, Int.natCast_zero, add_zero] at this

theorem Holds.tail {mem : Mem} {a : Int} {w : UInt32} {ws : List UInt32}
    (h : mem.Holds a (w :: ws)) : mem.Holds (a + 1) ws :=
  (Holds.append (show mem.Holds a ([w] ++ ws) from h)).2

def byte (mem : Mem) (b : Int) : Option UInt8 :=
  (mem (b / 4)).map fun w => UInt8.ofNat (w.toNat / 256 ^ (b % 4).toNat)

def bytes (mem : Mem) (b : Int) (n : Nat) : Option (List UInt8) :=
  (List.range n).mapM fun (k : Nat) => mem.byte (b + k)

def elems (mem : Mem) (b : Int) (w n : Nat) : Option (List (BitVec (8 * w))) :=
  (List.range n).mapM fun (k : Nat) =>
    (mem.bytes (b + (k * w : Nat)) w).map fun bs => BitVec.ofNat (8 * w) (leNat bs)

def wordBytes (ws : List UInt32) : List UInt8 := ws.flatMap fun w => toBytes 4 w.toNat

@[simp] theorem length_wordBytes (ws : List UInt32) : (wordBytes ws).length = 4 * ws.length := by
  simp [wordBytes, List.length_flatMap, Nat.mul_comm]

theorem wordBytes_eq_pack (ws : List UInt32) :
    wordBytes ws = pack 4 (ws.map UInt32.toBitVec) := by
  simp [wordBytes, pack, List.flatMap_map]

theorem getElem_wordBytes (ws : List UInt32) (i : Nat) (h : i < (wordBytes ws).length) :
    (wordBytes ws)[i] = UInt8.ofNat (((ws[i / 4]?).getD 0).toNat / 256 ^ (i % 4)) := by
  induction ws generalizing i with
  | nil => simp [wordBytes] at h
  | cons w ws ih =>
    have hw : wordBytes (w :: ws) = toBytes 4 w.toNat ++ wordBytes ws := by simp [wordBytes]
    simp only [hw]
    by_cases hi : i < 4
    · rw [List.getElem_append_left (by simpa using hi), getElem_toBytes]
      simp [Nat.div_eq_of_lt hi, Nat.mod_eq_of_lt hi]
    · rw [List.getElem_append_right (by simpa using hi)]
      simp only [length_toBytes]
      rw [ih]
      obtain ⟨j, rfl⟩ := Nat.exists_eq_add_of_le' (Nat.le_of_not_lt hi)
      simp

theorem Holds.byte {mem : Mem} {a : Int} {ws : List UInt32} (h : mem.Holds a ws) (i : Nat)
    (hi : i < (wordBytes ws).length) : mem.byte (4 * a + i) = some (wordBytes ws)[i] := by
  have hd : (4 * a + (i : Int)) / 4 = a + (i / 4 : Nat) := by omega
  have hm : ((4 * a + (i : Int)) % 4).toNat = i % 4 := by omega
  have hl : i / 4 < ws.length := by simp at hi; omega
  simp only [Mem.byte, hd, hm, h _ hl, Option.map_some]
  rw [getElem_wordBytes, List.getElem?_eq_getElem hl, Option.getD_some]

theorem mapM_of_forall {α β : Type} {f : α → Option β} {g : α → β} {xs : List α}
    (h : ∀ x ∈ xs, f x = some (g x)) : xs.mapM f = some (xs.map g) := by
  induction xs with
  | nil => rfl
  | cons x xs ih =>
    simp only [List.mapM_cons, h x (by simp), ih fun y hy => h y (by simp [hy])]
    rfl

theorem length_of_mapM {α β : Type} {f : α → Option β} {xs : List α} {ys : List β}
    (h : xs.mapM f = some ys) : ys.length = xs.length := by
  induction xs generalizing ys with
  | nil =>
    cases h
    rfl
  | cons x xs ih =>
    simp only [List.mapM_cons, Option.bind_eq_bind, Option.bind_eq_some_iff] at h
    obtain ⟨y, -, zs, hz, he⟩ := h
    cases he
    simp [ih hz]

theorem length_of_elems {mem : Mem} {b : Int} {w n : Nat} {xs : List (BitVec (8 * w))}
    (h : mem.elems b w n = some xs) : xs.length = n := by
  simpa using length_of_mapM h

def HoldsBytes (mem : Mem) (b : Int) (bs : List UInt8) : Prop :=
  ∀ (i : Nat) (h : i < bs.length), mem.byte (b + i) = some bs[i]

theorem Holds.bytes {mem : Mem} {a : Int} {ws : List UInt32} (h : mem.Holds a ws) :
    mem.HoldsBytes (4 * a) (wordBytes ws) := h.byte

namespace HoldsBytes

variable {mem : Mem} {b : Int} {x : UInt8} {xs ys bs : List UInt8} {w n : Nat}

theorem append (h : mem.HoldsBytes b (xs ++ ys)) :
    mem.HoldsBytes b xs ∧ mem.HoldsBytes (b + xs.length) ys := by
  constructor
  · intro i hi
    have := h i (by simp; omega)
    rwa [List.getElem_append_left hi] at this
  · intro i hi
    have := h (xs.length + i) (by simp; omega)
    rw [List.getElem_append_right (by omega)] at this
    simpa [add_assoc] using this

theorem join (hx : mem.HoldsBytes b xs) (hy : mem.HoldsBytes (b + xs.length) ys) :
    mem.HoldsBytes b (xs ++ ys) := by
  intro i hi
  rcases Nat.lt_or_ge i xs.length with h | h
  · rw [List.getElem_append_left h, hx i h]
  · obtain ⟨j, rfl⟩ := Nat.exists_eq_add_of_le h
    have hj : j < ys.length := by simpa using hi
    rw [List.getElem_append_right (by omega)]
    simpa [add_assoc] using hy j hj

theorem cons (h : mem.HoldsBytes b (x :: xs)) :
    mem.HoldsBytes b [x] ∧ mem.HoldsBytes (b + 1) xs :=
  append (show mem.HoldsBytes b ([x] ++ xs) from h)

theorem bytes (h : mem.HoldsBytes b bs) : mem.bytes b bs.length = some bs := by
  have hbs : bs = (List.range bs.length).map fun j => (bs[j]?).getD 0 := by
    apply List.ext_getElem
    · simp
    · intro i h₁ h₂
      simp [List.getElem?_eq_getElem h₁]
  conv => rhs; rw [hbs]
  apply mapM_of_forall
  intro j hj
  have hj : j < bs.length := List.mem_range.mp hj
  rw [h j hj, List.getElem?_eq_getElem hj, Option.getD_some]

theorem elems (h : mem.HoldsBytes b bs) (hn : n * w ≤ bs.length) :
    mem.elems b w n = some (elements w bs n) := by
  apply mapM_of_forall
  intro k hk
  have hk : k < n := List.mem_range.mp hk
  have hkw : k * w + w ≤ n * w := by
    have := Nat.mul_le_mul_right w (Nat.succ_le_of_lt hk)
    rwa [Nat.succ_mul] at this
  have hsplit : bs = bs.take (k * w) ++ ((bs.drop (k * w)).take w ++ (bs.drop (k * w)).drop w) := by
    rw [List.take_append_drop, List.take_append_drop]
  have hmid := h
  rw [hsplit] at hmid
  have hmid := hmid.append.2.append.1.bytes
  rw [List.length_take_of_le (by omega), List.length_take_of_le (by simp; omega)] at hmid
  rw [hmid]
  rfl

end HoldsBytes

theorem Holds.elems {mem : Mem} {a : Int} {ws : List UInt32} (h : mem.Holds a ws) {w n : Nat}
    (hn : n * w ≤ 4 * ws.length) :
    mem.elems (4 * a) w n = some (elements w (wordBytes ws) n) :=
  h.bytes.elems (by simpa using hn)

theorem Holds.elems_words {mem : Mem} {a : Int} {ws : List UInt32} (h : mem.Holds a ws) :
    mem.elems (4 * a) 4 ws.length = some (ws.map UInt32.toBitVec) := by
  rw [h.elems (by omega), wordBytes_eq_pack]
  have := elements_pack 4 (ws.map UInt32.toBitVec) []
  simpa using this

def ofBytes (b : Int) (bs : List UInt8) : Mem := fun a =>
  some (UInt32.ofNat (leNat ((List.range 4).map fun (k : Nat) => bs.getD (4 * a + k - b).toNat 0)))

theorem byte_ofBytes (b a : Int) (bs : List UInt8) :
    (ofBytes b bs).byte a = some (bs.getD (a - b).toNat 0) := by
  generalize hw : (List.range 4).map (fun (k : Nat) =>
    bs.getD (4 * (a / 4) + k - b).toNat 0) = word
  have hlen : word.length = 4 := by simp [← hw]
  have hword : (UInt32.ofNat (leNat word)).toNat = leNat word := by
    have hlt := leNat_lt word
    rw [hlen] at hlt
    exact Nat.mod_eq_of_lt hlt
  have ha : 4 * (a / 4) + ((a % 4).toNat : Int) - b = a - b := by omega
  have hget : word[(a % 4).toNat]? = some (bs.getD (a - b).toNat 0) := by
    rw [← hw, List.getElem?_map, List.getElem?_range (by omega), Option.map_some, ha]
  obtain ⟨hi, hget⟩ := List.getElem?_eq_some_iff.mp hget
  rw [Mem.byte, ofBytes, Option.map_some, hw, hword, ofNat_leNat_div _ _ hi, hget]

theorem holdsBytes_ofBytes (b : Int) (bs : List UInt8) : (ofBytes b bs).HoldsBytes b bs := by
  intro i hi
  rw [byte_ofBytes, add_sub_cancel_left, Int.toNat_natCast, List.getD_eq_getElem?_getD,
    List.getElem?_eq_getElem hi, Option.getD_some]

def Below (mem : Mem) (N : Nat) : Prop := ∀ a w, mem a = some w → 0 ≤ a ∧ a < N

theorem below_ofList (ws : List UInt32) : (ofList ws).Below ws.length := by
  intro a w h
  unfold ofList at h
  split at h
  · have := (List.getElem?_eq_some_iff.mp h).1
    omega
  · cases h

theorem Below.bytes {mem : Mem} {N n : Nat} {b : Int} {bs : List UInt8} (hm : mem.Below N)
    (hn : 0 < n) (h : mem.bytes b n = some bs) : 0 ≤ b ∧ b < 4 * N := by
  obtain ⟨n, rfl⟩ := Nat.exists_eq_add_of_le' hn
  simp only [Mem.bytes, List.range_succ_eq_map, List.mapM_cons, Option.bind_eq_bind,
    Option.bind_eq_some_iff, byte, Option.map_eq_some_iff, Nat.cast_zero, add_zero] at h
  obtain ⟨_, ⟨w, hw, -⟩, -⟩ := h
  have := hm _ w hw
  omega

end Mem

end EvioTool.Lib
