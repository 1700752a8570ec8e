import Mathlib.Data.List.Nodup
import Mathlib.Data.Prod.Lex
import EvioTool.Lib.NextIn
import EvioTool.Defs.Neighbours

namespace EvioTool

open Lib

namespace BlockIterator

variable {it it' fin : BlockIterator} {n m : Nat} {ps : List Ecal_point_t} {p q : Ecal_point_t}

theorem incr_mono (h : incr n it = some it') (hm : n ≤ m) : incr m it = some it' := by
  induction n generalizing it it' m with
  | zero => cases h
  | succ n ih =>
    obtain ⟨m, rfl⟩ := Nat.exists_eq_add_of_le' (Nat.le_of_add_left_le hm)
    simp only [incr, Option.bind_eq_some_iff] at h ⊢
    obtain ⟨u, hu, hrest⟩ := h
    refine ⟨u, ?_, ?_⟩
    · split at hu <;> rename_i hc
      · rw [if_pos hc]
        exact ih hu (by omega)
      · rw [if_neg hc]
        exact hu
    · split at hrest <;> rename_i hc
      · rw [if_pos hc]
        exact ih hrest (by omega)
      · rw [if_neg hc]
        exact hrest

theorem begin_mono {dist : Int} (h : it.begin n dist = some it') (hm : n ≤ m) :
    it.begin m dist = some it' := by
  simp only [begin] at h ⊢
  split at h <;> rename_i hc
  · rw [if_pos hc]
    exact incr_mono h hm
  · rw [if_neg hc]
    exact h

theorem end_mono {dist : Int} (h : it.end_ n dist = some it') (hm : n ≤ m) :
    it.end_ m dist = some it' := incr_mono h hm

theorem points_mono (h : points fin n it = some ps) (hm : n ≤ m) : points fin m it = some ps := by
  induction n generalizing it ps m with
  | zero => cases h
  | succ n ih =>
    obtain ⟨m, rfl⟩ := Nat.exists_eq_add_of_le' (Nat.le_of_add_left_le hm)
    rw [points] at h ⊢
    split at h <;> rename_i hc
    · rw [if_pos hc]
      exact h
    · rw [if_neg hc]
      simp only [Option.bind_eq_bind, Option.bind_eq_some_iff] at h ⊢
      obtain ⟨u, hu, qs, hqs, hps⟩ := h
      exact ⟨u, incr_mono hu (by omega), qs, ih hqs (by omega), hps⟩

def key (q : Ecal_point_t) : Int ×ₗ Int := toLex (q.2, q.1)

theorem key_injective : Function.Injective key := by
  intro q r h
  have h := toLex.injective h
  exact Prod.ext (congrArg Prod.snd h) (congrArg Prod.fst h)

theorem key_lt : key p < key q ↔ p.2 < q.2 ∨ p.2 = q.2 ∧ p.1 < q.1 := Prod.Lex.toLex_lt_toLex

theorem key_le : key p ≤ key q ↔ p.2 < q.2 ∨ p.2 = q.2 ∧ p.1 ≤ q.1 := Prod.Lex.toLex_le_toLex

def left (p : Ecal_point_t) : Int := if p.1 = -23 then -23 else if p.1 = 1 then -1 else p.1 - 1

def right (p : Ecal_point_t) : Int := if p.1 = 23 then 23 else if p.1 = -1 then 1 else p.1 + 1

structure InColumns (p q : Ecal_point_t) : Prop where
  left_le : left p ≤ q.1
  le_right : q.1 ≤ right p
  ne_zero : q.1 ≠ 0

def Kept (p : Ecal_point_t) : Set Ecal_point_t := {q | InColumns p q ∧ q ≠ p ∧ ¬InHole q}

structure InBlock (p : Ecal_point_t) (it : BlockIterator) : Prop extends InColumns p it.ixy where
  center : it.ixy0 = p
  span : it.span = 1

def HasColumn (p : Ecal_point_t) : Prop := -23 ≤ p.1 ∧ p.1 ≤ 23 ∧ p.1 ≠ 0

theorem inColumns_left (hp : HasColumn p) (y : Int) : InColumns p (left p, y) := by
  obtain ⟨hp₁, hp₂, hp₀⟩ := hp
  constructor <;> grind [left, right]

theorem inColumns_right (hp : HasColumn p) (y : Int) : InColumns p (right p, y) := by
  obtain ⟨hp₁, hp₂, hp₀⟩ := hp
  constructor <;> grind [left, right]

@[simp] theorem move_ixy0 (it : BlockIterator) : it.move.ixy0 = it.ixy0 := by
  unfold move
  dsimp only
  split_ifs <;> rfl

@[simp] theorem move_span (it : BlockIterator) : it.move.span = it.span := by
  unfold move
  dsimp only
  split_ifs <;> rfl

theorem InBlock.move_ixy (hp : HasColumn p) (h : InBlock p it) : it.move.ixy =
    if it.ixy.1 = right p then (left p, it.ixy.2 + 1)
    else (if it.ixy.1 = -1 then 1 else it.ixy.1 + 1, it.ixy.2) := by
  obtain ⟨⟨x, y⟩, ⟨x₀, y₀⟩, span⟩ := it
  obtain ⟨⟨hl, hr, h0⟩, rfl, rfl⟩ := h
  obtain ⟨hp₁, hp₂, hp₀⟩ := hp
  simp only [left, right, BlockIterator.move, lastX, ecal_max_x, ecal_min_x] at *
  grind

theorem InBlock.move (hp : HasColumn p) (h : InBlock p it) : InBlock p it.move := by
  refine ⟨?_, (move_ixy0 it).trans h.center, (move_span it).trans h.span⟩
  have hright := (inColumns_right hp 0).ne_zero
  rw [h.move_ixy hp]
  obtain ⟨hl, hr, h0⟩ := h.toInColumns
  split
  · exact inColumns_left hp _
  · constructor <;> dsimp only at hright ⊢ <;> split <;> omega

theorem InBlock.nextIn_move (hp : HasColumn p) (h : InBlock p it) :
    NextIn (key '' {q | InColumns p q}) (key it.ixy) (key it.move.ixy) := by
  have hmove := (h.move hp).toInColumns
  have hixy := h.move_ixy hp
  obtain ⟨hl, hr, h0⟩ := h.toInColumns
  refine ⟨⟨Set.mem_image_of_mem key hmove, ?_⟩, ?_⟩
  · rw [Set.mem_Ioi, key_lt, hixy]
    split
    · exact .inl (by omega)
    · refine .inr ⟨rfl, ?_⟩
      dsimp only
      split <;> omega
  · rintro _ ⟨⟨q, ⟨hql, hqr, hq0⟩, rfl⟩, hlt⟩
    rw [Set.mem_Ioi, key_lt] at hlt
    rw [key_le, hixy]
    split
    · dsimp only
      omega
    · dsimp only
      split <;> omega

theorem kept_subset : key '' Kept p ⊆ key '' {q | InColumns p q} :=
  Set.image_mono fun _ hq => hq.1

theorem key_mem_kept : key q ∈ key '' Kept p ↔ q ∈ Kept p := key_injective.mem_set_image

def rank (p q : Ecal_point_t) : Int := 3 * q.2 + if q.1 < p.1 then 0 else if q.1 = p.1 then 1 else 2

theorem rank_bounds (p q : Ecal_point_t) : 3 * q.2 ≤ rank p q ∧ rank p q ≤ 3 * q.2 + 2 := by
  unfold rank
  split_ifs <;> omega

theorem rank_lt {r : Ecal_point_t} (hq : InColumns p q) (hr : InColumns p r) (h : key q < key r) :
    rank p q < rank p r := by
  obtain ⟨hql, hqr, hq0⟩ := hq
  obtain ⟨hrl, hrr, hr0⟩ := hr
  rw [key_lt] at h
  simp only [rank, left, right] at *
  grind

theorem not_inHole_of_incr (h : incr n it = some it') : ¬InHole it'.ixy := by
  induction n generalizing it it' with
  | zero => cases h
  | succ n ih =>
    obtain ⟨u, -, hu⟩ := Option.bind_eq_some_iff.mp h
    split at hu <;> rename_i hc
    · exact ih hu
    · obtain rfl := Option.some.inj hu
      exact hc

theorem incr_succ (n : Nat) (it : BlockIterator) : incr (n + 1) it =
    if it.move.ixy = it.ixy0 ∨ InHole it.move.ixy then incr n it.move else some it.move := by
  rw [incr]
  simp only [move_ixy0]
  by_cases hc : it.move.ixy = it.ixy0
  · rw [if_pos hc, if_pos (.inl hc)]
    cases hi : incr n it.move with
    | none => rfl
    | some u => exact if_neg (not_inHole_of_incr hi)
  · rw [if_neg hc, Option.bind_some]
    simp only [hc, false_or]

theorem InBlock.incr {e : Ecal_point_t} (hp : HasColumn p) (h : InBlock p it) (he : e ∈ Kept p)
    (hlt : key it.ixy < key e) (hn : rank p e - rank p it.ixy < n) :
    ∃ r, BlockIterator.incr n it = some r ∧ InBlock p r ∧
      NextIn (key '' Kept p) (key it.ixy) (key r.ixy) := by
  induction n generalizing it with
  | zero =>
    have := rank_lt h.toInColumns he.1 hlt
    omega
  | succ n ih =>
    have hmove := h.move hp
    have hnext := h.nextIn_move hp
    have hrank := rank_lt h.toInColumns hmove.toInColumns hnext.lt
    rw [incr_succ, h.center]
    split <;> rename_i hc
    · have hnot : it.move.ixy ∉ Kept p := fun hk => hc.elim hk.2.1 hk.2.2
      have hle := hnext.le (Set.mem_image_of_mem key he.1) hlt
      have hne : key it.move.ixy ≠ key e := fun heq => hnot (key_injective heq ▸ he)
      obtain ⟨r, hr, hblock, hr'⟩ := ih hmove (hle.lt_of_ne hne) (by omega)
      exact ⟨r, hr, hblock, hnext.skip kept_subset (mt key_mem_kept.mp hnot) hr'⟩
    · rw [not_or] at hc
      exact ⟨_, rfl, hmove, hnext.of_mem kept_subset
        (key_mem_kept.mpr ⟨hmove.toInColumns, hc.1, hc.2⟩)⟩

theorem InBlock.points (hp : HasColumn p) (h : InBlock p it) (hfin : fin.ixy ∈ Kept p)
    (hle : key it.ixy ≤ key fin.ixy) (hn : rank p fin.ixy - rank p it.ixy + 1 < n) :
    ∃ ps, BlockIterator.points fin n it = some ps ∧
      Walk (key '' Kept p) (key fin.ixy) (key it.ixy) (ps.map key) := by
  induction n generalizing it with
  | zero =>
    obtain heq | hlt := hle.eq_or_lt
    · rw [key_injective heq] at hn
      omega
    · have := rank_lt h.toInColumns hfin.1 hlt
      omega
  | succ n ih =>
    rw [BlockIterator.points]
    split <;> rename_i hc
    · refine ⟨[], rfl, ?_⟩
      rw [hc]
      exact .done
    · have hne : key it.ixy ≠ key fin.ixy := fun heq => hc (key_injective heq)
      have hlt := hle.lt_of_ne hne
      obtain ⟨r, hr, hblock, hnext⟩ := h.incr hp hfin hlt (n := n) (by omega)
      have hrank := rank_lt h.toInColumns hblock.toInColumns hnext.lt
      obtain ⟨ps, hps, hwalk⟩ := ih hblock (hnext.le (key_mem_kept.mpr hfin) hlt) (by omega)
      refine ⟨it.ixy :: ps, ?_, .step hne hnext hwalk⟩
      rw [hr, Option.bind_eq_bind, Option.bind_some, hps]
      rfl

def firstRow (p : Ecal_point_t) : Int := if p.2 = 1 then 1 else if p.2 = -5 then -5 else p.2 - 1

def lastRow (p : Ecal_point_t) : Int := if p.2 = -1 then -1 else if p.2 = 5 then 5 else p.2 + 1

def firstPoint (p : Ecal_point_t) : Ecal_point_t :=
  (if p.2 = -5 ∧ left p = -23 then -22 else left p, firstRow p)

def lastPoint (p : Ecal_point_t) : Ecal_point_t := (right p, lastRow p)

theorem corner_eq (hp : IsCrystal p) :
    (new p).corner 1 = { ixy := firstPoint p, ixy0 := p } := by
  obtain ⟨⟨hx, hx', hx₀⟩, ⟨hy, hy', hy₀⟩, -⟩ := hp
  obtain ⟨x, y⟩ := p
  simp only [corner, new, firstPoint, firstRow, left, ecal_min_x, ecal_min_y] at *
  grind

theorem inBlock_first (hp : IsCrystal p) : InBlock p { ixy := firstPoint p, ixy0 := p } := by
  have hleft := inColumns_left hp.1 (firstRow p)
  refine ⟨?_, rfl, rfl⟩
  by_cases hc : p.2 = -5 ∧ left p = -23
  · obtain ⟨⟨hx, hx', hx₀⟩, -⟩ := hp
    constructor <;> grind [firstPoint, left, right]
  · simp only [firstPoint, if_neg hc]
    exact hleft

theorem end_eq (hp : IsCrystal p) (n : Nat) :
    (new p).end_ n 1 = incr n { ixy := lastPoint p, ixy0 := p } := by
  obtain ⟨⟨hx, hx', hx₀⟩, ⟨hy, hy', hy₀⟩, -⟩ := hp
  obtain ⟨x, y⟩ := p
  simp only [end_, new, lastPoint, lastRow, right, ecal_max_x, ecal_max_y] at *
  congr 3 <;> grind

theorem inBlock_last (hp : IsCrystal p) : InBlock p { ixy := lastPoint p, ixy0 := p } :=
  ⟨inColumns_right hp.1 _, rfl, rfl⟩

theorem first_le_last (hp : IsCrystal p) : key (firstPoint p) ≤ key (lastPoint p) := by
  obtain ⟨⟨hx, hx', hx₀⟩, ⟨hy, hy', hy₀⟩, -⟩ := hp
  rw [key_le]
  simp only [firstPoint, lastPoint, firstRow, lastRow]
  grind

theorem exists_kept_behind (hp : IsCrystal p) :
    ∃ e ∈ Kept p, key (lastPoint p) < key e ∧ rank p e ≤ 3 * lastRow p + 8 := by
  have hrow : p.2 ≤ lastRow p := by
    obtain ⟨-, ⟨hy, hy', hy₀⟩, -⟩ := hp
    unfold lastRow
    split_ifs <;> omega
  have hkept (k : Int) (hk : 0 < k) (hhole : ¬InHole (left p, lastRow p + k)) :
      (left p, lastRow p + k) ∈ Kept p := by
    refine ⟨inColumns_left hp.1 _, fun heq => ?_, hhole⟩
    have := congrArg Prod.snd heq
    dsimp only at this
    omega
  have hbehind (k : Int) (hk : 0 < k) : key (lastPoint p) < key (left p, lastRow p + k) :=
    key_lt.mpr (.inl (by simp only [lastPoint]; omega))
  have hrank (k : Int) := rank_bounds p (left p, lastRow p + k)
  by_cases hhole : InHole (left p, lastRow p + 1)
  · refine ⟨(left p, lastRow p + 2), hkept 2 (by omega) fun h2 => ?_, hbehind 2 (by omega), ?_⟩
    · obtain ⟨h1, -⟩ := hhole
      obtain ⟨h2, -⟩ := h2
      obtain ⟨-, ⟨hy, hy', hy₀⟩, -⟩ := hp
      simp only [lastRow] at h1 h2
      grind
    · have := hrank 2
      dsimp only at this
      omega
  · refine ⟨(left p, lastRow p + 1), hkept 1 (by omega) hhole, hbehind 1 (by omega), ?_⟩
    have := hrank 1
    dsimp only at this
    omega

theorem exists_end (hp : IsCrystal p) (hn : 9 ≤ n) : ∃ fin, (new p).end_ n 1 = some fin ∧
    InBlock p fin ∧ NextIn (key '' Kept p) (key (lastPoint p)) (key fin.ixy) ∧
      rank p fin.ixy ≤ 3 * lastRow p + 8 := by
  obtain ⟨e, he, hlt, hrank⟩ := exists_kept_behind hp
  have hlast := (rank_bounds p (lastPoint p)).1
  have hfar : rank p e - rank p (lastPoint p) < n := by
    simp only [lastPoint] at hlast hrank ⊢
    omega
  obtain ⟨fin, hfin, hblock, hnext⟩ := (inBlock_last hp).incr hp.1 he hlt hfar
  refine ⟨fin, (end_eq hp n).trans hfin, hblock, hnext, le_trans ?_ hrank⟩
  obtain heq | hlt := (hnext.le (key_mem_kept.mpr he) hlt).eq_or_lt
  · rw [key_injective heq]
  · exact (rank_lt hblock.toInColumns he.1 hlt).le

end BlockIterator

open BlockIterator

variable {p q : Ecal_point_t} {n m : Nat} {dist : Int} {ps : List Ecal_point_t}

theorem visited_mono (h : visited n p dist = some ps) (hm : n ≤ m) : visited m p dist = some ps := by
  simp only [visited, Option.bind_eq_bind, Option.bind_eq_some_iff] at h ⊢
  obtain ⟨first, hfirst, fin, hfin, hps⟩ := h
  exact ⟨first, begin_mono hfirst hm, fin, end_mono hfin hm, points_mono hps hm⟩

theorem lastRow_le (p : Ecal_point_t) : lastRow p ≤ firstRow p + 2 := by
  unfold lastRow firstRow
  split_ifs <;> omega

def Starts (p : Ecal_point_t) (first : BlockIterator) : Prop :=
  first.ixy = firstPoint p ∧ ¬InHole (firstPoint p) ∨
    InHole (firstPoint p) ∧ NextIn (key '' Kept p) (key (firstPoint p)) (key first.ixy)

theorem exists_begin {e : Ecal_point_t} (hp : IsCrystal p) (he : e ∈ Kept p)
    (hlt : key (firstPoint p) < key e) (hn : rank p e - rank p (firstPoint p) < n) :
    ∃ first, (new p).begin n 1 = some first ∧ InBlock p first ∧ Starts p first := by
  simp only [begin, corner_eq hp]
  split <;> rename_i hole
  · obtain ⟨first, hfirst, hblock, hnext⟩ := (inBlock_first hp).incr hp.1 he hlt hn
    exact ⟨first, hfirst, hblock, .inr ⟨hole, hnext⟩⟩
  · exact ⟨_, rfl, inBlock_first hp, .inl ⟨rfl, hole⟩⟩

theorem Starts.le {first : BlockIterator} (h : Starts p first) (hq : q ∈ Kept p)
    (hlt : key (firstPoint p) < key q) : key first.ixy ≤ key q := by
  obtain ⟨heq, -⟩ | ⟨-, hnext⟩ := h
  · rw [heq]
    exact hlt.le
  · exact hnext.le (key_mem_kept.mpr hq) hlt

theorem Starts.rank_le {first : BlockIterator} (h : Starts p first) (hp : IsCrystal p)
    (hfirst : InBlock p first) : rank p (firstPoint p) ≤ rank p first.ixy := by
  obtain ⟨heq, -⟩ | ⟨-, hnext⟩ := h
  · rw [heq]
  · exact (rank_lt (inBlock_first hp).toInColumns hfirst.toInColumns hnext.lt).le

theorem Starts.mem_iff {first : BlockIterator} (h : Starts p first) :
    q = first.ixy ∨ q ∈ Kept p ∧ key first.ixy < key q ↔
      q = firstPoint p ∧ ¬InHole q ∨ q ∈ Kept p ∧ key (firstPoint p) < key q := by
  obtain ⟨heq, hout⟩ | ⟨hole, hnext⟩ := h
  · rw [heq]
    refine or_congr_left (iff_self_and.mpr ?_)
    rintro rfl
    exact hout
  · constructor
    · rintro (rfl | ⟨hq, hlt⟩)
      · exact .inr ⟨key_mem_kept.mp hnext.mem, hnext.lt⟩
      · exact .inr ⟨hq, hnext.lt.trans hlt⟩
    · rintro (⟨rfl, hout⟩ | ⟨hq, hlt⟩)
      · exact absurd hole hout
      · obtain heq | hlt := (hnext.le (key_mem_kept.mpr hq) hlt).eq_or_lt
        · exact .inl (key_injective heq.symm)
        · exact .inr ⟨hq, hlt⟩

theorem visited_crystal (hp : IsCrystal p) (hn : 20 ≤ n) :
    ∃ ps, visited n p 1 = some ps ∧ ps.Nodup ∧ ∀ q, q ∈ ps ↔
      (q = firstPoint p ∧ ¬InHole q ∨ q ∈ Kept p ∧ key (firstPoint p) < key q) ∧
        key q ≤ key (lastPoint p) := by
  obtain ⟨fin, hend, hfin, hlast, hrank⟩ := exists_end hp (n := n) (by omega)
  have hkept : fin.ixy ∈ Kept p := key_mem_kept.mp hlast.mem
  have hlt : key (firstPoint p) < key fin.ixy := (first_le_last hp).trans_lt hlast.lt
  have hfew : rank p fin.ixy - rank p (firstPoint p) + 1 < n := by
    have hbounds := (rank_bounds p (firstPoint p)).1
    have hrows := lastRow_le p
    simp only [firstPoint] at hbounds ⊢
    omega
  obtain ⟨first, hbegin, hfirst, hstart⟩ := exists_begin hp hkept hlt (n := n) (by omega)
  have hle := hstart.le hkept hlt
  have hfrom := hstart.rank_le hp hfirst
  obtain ⟨ps, hps, hwalk⟩ := hfirst.points hp.1 hkept hle (n := n) (by omega)
  refine ⟨ps, ?_, ?_, fun q => ?_⟩
  · simp only [visited, hbegin, hend, Option.bind_eq_bind, Option.bind_some, hps]
  · exact List.Nodup.of_map key (hwalk.pairwise hlast.mem hle).nodup
  · rw [← List.mem_map_of_injective key_injective, hwalk.mem_iff hlast.mem hle, key_mem_kept,
      key_injective.eq_iff, hstart.mem_iff]
    refine and_congr_right fun hq => ?_
    obtain ⟨rfl, -⟩ | ⟨hq, -⟩ := hq
    · exact iff_of_true hlt (first_le_last hp)
    · rw [← not_le, ← hlast.lt_iff (key_mem_kept.mpr hq), not_lt]

theorem around_crystal {p : Ecal_point_t} (hp : IsCrystal p) :
    ∃ ps, around 20 p = some ps ∧ ps.Nodup := by
  obtain ⟨ps, hps, hnodup, -⟩ := visited_crystal hp le_rfl
  exact ⟨ps, hps, hnodup⟩

end EvioTool
