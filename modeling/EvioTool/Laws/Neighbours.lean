import Mathlib.Algebra.Order.Group.Abs
import Mathlib.Algebra.Order.Group.Int
import EvioTool.Laws.BlockIterator

namespace EvioTool

open BlockIterator

variable {p q : Ecal_point_t} {n : Nat} {dist row : Int} {ps : List Ecal_point_t}
  {it it' fin : BlockIterator}

theorem firstPoint_eq_iff (hp : IsCrystal p) :
    firstPoint p = p ↔ p = (-23, 1) ∨ p = (-22, -5) := by
  obtain ⟨⟨hx, hx', hx₀⟩, ⟨hy, hy', hy₀⟩, -⟩ := hp
  obtain ⟨x, y⟩ := p
  simp only [firstPoint, firstRow, left, Prod.mk.injEq] at *
  grind

theorem mem_block_iff (hp : IsCrystal p) (hfirst : firstPoint p ≠ p) :
    (q = firstPoint p ∧ ¬InHole q ∨ q ∈ Kept p ∧ key (firstPoint p) < key q) ∧
        key q ≤ key (lastPoint p) ↔
      q ∈ Kept p ∧ key (firstPoint p) ≤ key q ∧ key q ≤ key (lastPoint p) := by
  have hcolumns := (inBlock_first hp).toInColumns
  constructor
  · rintro ⟨⟨rfl, hout⟩ | ⟨hq, hlt⟩, hle⟩
    · exact ⟨⟨hcolumns, hfirst, hout⟩, le_rfl, hle⟩
    · exact ⟨hq, hlt.le, hle⟩
  · rintro ⟨hq, hge, hle⟩
    refine ⟨?_, hle⟩
    obtain heq | hlt := hge.eq_or_lt
    · obtain rfl := key_injective heq
      exact .inl ⟨rfl, hq.2.2⟩
    · exact .inr ⟨hq, hlt⟩

theorem inColumns_iff (hp : HasColumn p) :
    InColumns p q ↔ HasColumn q ∧ |column q.1 - column p.1| ≤ 1 := by
  obtain ⟨hx, hx', hx₀⟩ := hp
  constructor
  · rintro ⟨hl, hr, h0⟩
    simp only [left, right] at hl hr
    refine ⟨⟨by grind, by grind, h0⟩, abs_le.mpr ⟨?_, ?_⟩⟩ <;> grind [column]
  · rintro ⟨⟨hl, hr, h0⟩, hcol⟩
    obtain ⟨h1, h2⟩ := abs_le.mp hcol
    simp only [column] at h1 h2
    constructor <;> grind [left, right]

theorem rows_iff (hp : IsCrystal p) : firstRow p ≤ q.2 ∧ q.2 ≤ lastRow p ↔
    (-5 ≤ q.2 ∧ q.2 ≤ 5 ∧ q.2 ≠ 0) ∧ (0 < q.2 ↔ 0 < p.2) ∧ |q.2 - p.2| ≤ 1 := by
  obtain ⟨-, ⟨hy, hy', hy₀⟩, -⟩ := hp
  rw [abs_le]
  simp only [firstRow, lastRow]
  split_ifs <;> omega

theorem between_iff (hp : IsCrystal p) (hfirst : firstPoint p ≠ p) (hq : InColumns p q)
    (hne : q ≠ p) : key (firstPoint p) ≤ key q ∧ key q ≤ key (lastPoint p) ↔
      firstRow p ≤ q.2 ∧ q.2 ≤ lastRow p := by
  rw [Ne, firstPoint_eq_iff hp] at hfirst
  obtain ⟨⟨hx, hx', hx₀⟩, ⟨hy, hy', hy₀⟩, -⟩ := hp
  obtain ⟨hl, hr, h0⟩ := hq
  obtain ⟨x, y⟩ := p
  obtain ⟨u, v⟩ := q
  simp only [key_le, firstPoint, lastPoint, firstRow, left, Ne, Prod.mk.injEq] at *
  grind

theorem mem_block_iff_neighbour (hp : IsCrystal p) (hfirst : firstPoint p ≠ p) :
    q ∈ Kept p ∧ key (firstPoint p) ≤ key q ∧ key q ≤ key (lastPoint p) ↔ Neighbour p 1 q := by
  constructor
  · rintro ⟨⟨hcols, hne, hout⟩, hbetween⟩
    obtain ⟨hx, hcolumns⟩ := (inColumns_iff hp.1).mp hcols
    obtain ⟨hy, hhalf, hrows⟩ := (rows_iff hp).mp ((between_iff hp hfirst hcols hne).mp hbetween)
    exact ⟨⟨hx, hy, hout⟩, hne, hhalf, hcolumns, hrows⟩
  · rintro ⟨⟨hx, hy, hout⟩, hne, hhalf, hcolumns, hrows⟩
    have hcols := (inColumns_iff hp.1).mpr ⟨hx, hcolumns⟩
    exact ⟨⟨hcols, hne, hout⟩,
      (between_iff hp hfirst hcols hne).mpr ((rows_iff hp).mpr ⟨hy, hhalf, hrows⟩)⟩

theorem visitsNeighbours_one (hp : IsCrystal p) (hfirst : firstPoint p ≠ p) :
    VisitsNeighbours p 1 := by
  obtain ⟨ps, hps, hnodup, hmem⟩ := visited_crystal hp le_rfl
  refine ⟨ps, ⟨20, fun fuel hfuel => visited_mono hps hfuel⟩, hnodup, fun q => ?_⟩
  rw [hmem, mem_block_iff hp hfirst, mem_block_iff_neighbour hp hfirst]

theorem not_visitsNeighbours_of_firstPoint (hp : IsCrystal p) (hfirst : firstPoint p = p) :
    ¬VisitsNeighbours p 1 := by
  rintro ⟨ps, ⟨F, hps⟩, -, hmem⟩
  obtain ⟨ps', hps', -, hmem'⟩ := visited_crystal hp (n := max F 20) (le_max_right _ _)
  obtain rfl : ps = ps' := Option.some.inj ((hps _ (le_max_left _ _)).symm.trans hps')
  have hcenter : p ∈ ps := by
    refine (hmem' p).mpr ⟨.inl ⟨hfirst.symm, hp.2.2⟩, ?_⟩
    have := first_le_last hp
    rwa [hfirst] at this
  exact ((hmem p).mp hcenter).ne rfl

structure Narrow (p : Ecal_point_t) (row : Int) (it : BlockIterator) : Prop where
  center : it.ixy0 = p
  span : it.span = 1
  near : it.ixy.2 = row ∨ left p ≤ it.ixy.1 ∧ it.ixy.1 ≤ right p

theorem Narrow.move (hp : HasColumn p) (h : Narrow p row it) : Narrow p row it.move := by
  refine ⟨(move_ixy0 it).trans h.center, (move_span it).trans h.span, ?_⟩
  obtain ⟨⟨x, y⟩, ⟨x₀, y₀⟩, span⟩ := it
  obtain ⟨rfl, rfl, hnear⟩ := h
  obtain ⟨hp₁, hp₂, hp₀⟩ := hp
  simp only [left, right, BlockIterator.move, lastX, ecal_max_x, ecal_min_x] at *
  grind

theorem Narrow.incr (hp : HasColumn p) (h : Narrow p row it) (hi : incr n it = some it') :
    Narrow p row it' := by
  induction n generalizing it it' with
  | zero => cases hi
  | succ n ih =>
    rw [incr_succ] at hi
    split at hi
    · exact ih (h.move hp) hi
    · obtain rfl := Option.some.inj hi
      exact h.move hp

theorem Narrow.points (hp : HasColumn p) (h : Narrow p row it) (hps : points fin n it = some ps)
    (hq : q ∈ ps) : q.2 = row ∨ left p ≤ q.1 ∧ q.1 ≤ right p := by
  induction n generalizing it ps with
  | zero => cases hps
  | succ n ih =>
    rw [BlockIterator.points] at hps
    split at hps
    · obtain rfl := Option.some.inj hps
      cases hq
    · simp only [Option.bind_eq_bind, Option.bind_eq_some_iff] at hps
      obtain ⟨next, hnext, qs, hqs, heq⟩ := hps
      obtain rfl := Option.some.inj heq
      cases hq with
      | head => exact h.near
      | tail _ hq => exact ih (h.incr hp hnext) hqs hq

theorem visited_narrow (hp : HasColumn p) (hps : visited n p dist = some ps) (hq : q ∈ ps) :
    q.2 = ((new p).corner dist).ixy.2 ∨ left p ≤ q.1 ∧ q.1 ≤ right p := by
  simp only [visited, Option.bind_eq_bind, Option.bind_eq_some_iff] at hps
  obtain ⟨first, hfirst, fin, -, hps⟩ := hps
  have hcorner : Narrow p ((new p).corner dist).ixy.2 ((new p).corner dist) := ⟨rfl, rfl, .inl rfl⟩
  refine Narrow.points hp ?_ hps hq
  simp only [begin] at hfirst
  split at hfirst
  · exact hcorner.incr hp hfirst
  · obtain rfl := Option.some.inj hfirst
    exact hcorner

def beside (x : Int) : Int :=
  if 22 ≤ x then x - 2 else if x = -2 ∨ x = -1 then x + 3 else x + 2

def behind (y : Int) : Int :=
  if y = 1 then 2 else if y = -5 then -4 else if y = -1 then -2 else y

theorem exists_far_neighbour (hp : IsCrystal p) (hdist : 2 ≤ dist) :
    ∃ q, Neighbour p dist q ∧ q.2 ≠ ((new p).corner dist).ixy.2 ∧
      ¬(left p ≤ q.1 ∧ q.1 ≤ right p) := by
  obtain ⟨⟨hx, hx', hx₀⟩, ⟨hy, hy', hy₀⟩, -⟩ := hp
  obtain ⟨x, y⟩ := p
  refine ⟨(beside x, behind y), ⟨⟨?_, ?_, ?_⟩, ?_, ?_, ?_, ?_⟩, ?_, ?_⟩
  · grind [beside]
  · grind [behind]
  · rintro ⟨h, -⟩
    grind [behind]
  · grind [beside]
  · grind [behind]
  · exact abs_le.mpr (by grind [beside, column])
  · exact abs_le.mpr (by grind [behind])
  · simp only [corner, new, ecal_min_x, ecal_min_y]
    grind [behind]
  · grind [beside, left, right]

theorem not_visitsNeighbours_of_far (hp : IsCrystal p) (hdist : 2 ≤ dist) :
    ¬VisitsNeighbours p dist := by
  rintro ⟨ps, ⟨F, hps⟩, -, hmem⟩
  obtain ⟨q, hq, hrow, hcolumns⟩ := exists_far_neighbour hp hdist
  exact (visited_narrow hp.1 (hps F le_rfl) ((hmem q).mpr hq)).elim hrow hcolumns

/-- The loop visits each neighbour once and nothing else with `dist` 1, around all crystals but
two. -/
theorem visitsNeighbours_iff (hp : IsCrystal p) (hdist : 1 ≤ dist) :
    VisitsNeighbours p dist ↔ dist = 1 ∧ p ≠ (-23, 1) ∧ p ≠ (-22, -5) := by
  rw [← not_or, ← firstPoint_eq_iff hp]
  constructor
  · intro h
    obtain rfl | hfar := hdist.eq_or_lt
    · exact ⟨rfl, fun hfirst => not_visitsNeighbours_of_firstPoint hp hfirst h⟩
    · exact absurd h (not_visitsNeighbours_of_far hp hfar)
  · rintro ⟨rfl, hfirst⟩
    exact visitsNeighbours_one hp hfirst

theorem visitsNeighbours_five_three : VisitsNeighbours (5, 3) 1 :=
  (visitsNeighbours_iff (by decide) le_rfl).mpr ⟨rfl, by decide, by decide⟩

theorem not_visitsNeighbours_corner : IsCrystal (-23, 1) ∧ ¬VisitsNeighbours (-23, 1) 1 :=
  ⟨by decide, not_visitsNeighbours_of_firstPoint (by decide) (by decide)⟩

end EvioTool
