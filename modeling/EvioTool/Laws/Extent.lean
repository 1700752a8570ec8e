import EvioTool.Laws.EventTree

/-! Events whose lengths are consistent are read inside their own words. -/

namespace EvioTool

open Lib Exec

mutual
/-- The bank at `buf` ends at `hi` or before: its header does, its announced length does,
its elements are no wider than a word, and its children lie inside it in turn. -/
inductive Contained (mem : Mem) : (bankType : Nat) → (buf hi : Int) → Prop
  | bank {k : Kind} {bankType : Nat} {buf hi : Int} {h : Header} :
    bankType ∈ k.bankTypes → headerAt mem buf bankType = some h →
    buf + k.dataOffset ≤ hi → buf + h.length ≤ hi → h.contentType ∉ [0x8, 0x9, 0xA] →
    (isContainer h.contentType = true →
      Tiled mem h.contentType (buf + h.dataOffset) (h.length - h.dataOffset) 0) →
    Contained mem bankType buf hi

inductive Tiled (mem : Mem) : (contentType : Nat) → (data bankLen p : Int) → Prop
  | done {contentType : Nat} {data bankLen p : Int} :
    bankLen ≤ p → Tiled mem contentType data bankLen p
  | child {contentType : Nat} {data bankLen p next : Int} {w : UInt32} :
    mem (data + p) = some w → next = p + (w &&& childMask contentType).toNat + 1 →
    next ≤ bankLen → Contained mem contentType (data + p) (data + next) →
    Tiled mem contentType data bankLen next → Tiled mem contentType data bankLen p
end

variable {set : Settings} {mem : Mem} {fill n : Nat} {buf hi depth : Int} {bankType : Nat} {b : Bank}

theorem leafCase_narrow {contentType : Nat} {padding k d : Int} {t : Prim}
    (h8 : contentType ∉ [0x8, 0x9, 0xA])
    (hl : leafCase contentType padding = some (.prim t, k, d)) :
    t.width ≤ 4 ∧ k = 1 ∧ d = 0 := by
  unfold leafCase at hl
  split at hl <;> simp_all <;> obtain ⟨rfl, rfl, rfl⟩ := hl <;> decide

theorem headerAt_bounds {k : Kind} {h : Header} (hk : bankType ∈ k.bankTypes)
    (hh : headerAt mem buf bankType = some h) : h.dataOffset = k.dataOffset ∧ h.length < 2 ^ 31 := by
  have hseg (w : UInt32) : ((w &&& 0xFFFF).toNat : Int) + 1 < 2 ^ 31 := by
    rw [UInt32.toNat_and_of (n := 16) rfl]
    omega
  cases k <;> rcases List.mem_pair.mp hk with rfl | rfl <;>
    simp only [headerAt, Option.bind_eq_some_iff, Option.map_eq_some_iff] at hh
  case bank.inl | bank.inr =>
    obtain ⟨w0, -, w1, -, rfl⟩ := hh
    simp only [bankHeader]
    exact ⟨rfl, toInt32_lt _⟩
  all_goals
    obtain ⟨w0, -, rfl⟩ := hh
    exact ⟨rfl, hseg w0⟩

theorem logs_contained (n : Nat) :
    (∀ bankType buf hi depth (b : Bank), Contained mem bankType buf hi →
      Logs (Obs.Within buf hi) (parseBank set mem fill n buf bankType depth) b) ∧
    (∀ live data bankLen contentType depth p (b : Bank), 0 ≤ p → bankLen < 2 ^ 31 →
      Tiled mem contentType data bankLen p →
      Logs (Obs.Within data (data + bankLen))
        (children set mem fill n live data bankLen contentType depth p) b) := by
  induction n with
  | zero => exact ⟨fun _ _ _ _ _ _ => logs_halt, fun _ _ _ _ _ _ _ _ _ _ => logs_halt⟩
  | succ n ih =>
    obtain ⟨ihp, ihc⟩ := ih
    constructor
    · intro bankType buf hi depth b hc
      cases hc with
      | @bank k _ _ _ h hk hh hoff hlen h8 hkids =>
        obtain ⟨hd, hl⟩ := headerAt_bounds hk hh
        refine logs_parseBank (logs_readHeader hk le_rfl hoff) (fun _ => trivial) ?_ ?_ <;>
          rw [hh]
        · intro h' T k d hh' hcase
          obtain rfl := Option.some.inj hh'
          refine logs_fillSwitch (Obs.within_ofFillers _ _) ?_
          rintro t rfl hn
          obtain ⟨hw, rfl, rfl⟩ := leafCase_narrow h8 hcase
          simp only [leafCount, mul_one, sub_zero, Obs.Within] at hn ⊢
          have hbytes : ((h.length - h.dataOffset).toNat * t.width : Nat) ≤
              4 * (h.length - h.dataOffset).toNat := by
            rw [Nat.mul_comm]
            exact Nat.mul_le_mul_right _ hw
          omega
        · intro h' hh' _ hcont live c w hw
          obtain rfl := Option.some.inj hh'
          refine (ihc live _ _ _ _ _ c le_rfl (by omega) (hkids hcont) w hw).mono ?_ ?_ <;> omega
    · intro live data bankLen contentType depth p b hp hb ht
      rw [children]
      split
      · cases ht with
        | done hle => omega
        | @child _ _ _ _ next w hw hnext hle hc hrest =>
          have hchild (c : Bank) : Logs (Obs.Within data (data + bankLen))
              (parseBank set mem fill n (data + p) contentType depth) c := fun w hw =>
            (ihp contentType _ _ depth c hc w hw).mono (by omega) (by omega)
          have hstep : nextPos p (w &&& childMask contentType) = next := by
            rw [nextPos, toInt32_eq] <;> omega
          refine (hchild b).when.bind fun _ c _ =>
            ((logs_readWord (by omega) (by omega)).bind fun _ _ _ => logs_pure).bind
              fun v d hv => (logs_tell.mpr trivial).bind fun _ e _ => ?_
          obtain ⟨_, hv', rfl, rfl⟩ := returns_readLength.mp hv
          rw [hw] at hv'
          cases hv'
          rw [hstep]
          exact ihc live data bankLen contentType depth next e (by omega) hb hrest
      · exact logs_pure

theorem Contained.bankWords {k : Kind} (h : Contained mem bankType buf hi)
    (hk : bankType ∈ k.bankTypes) : buf + k.dataOffset ≤ hi := by
  cases h with
  | bank hk' hh hoff =>
    obtain ⟨hd, -⟩ := headerAt_bounds hk hh
    obtain ⟨hd', -⟩ := headerAt_bounds hk' hh
    omega

/-- In an event whose nested lengths are consistent no word outside its `N` words is
looked at, and none outside a bank while that bank is read. -/
theorem parseEvioBuff_stays_inside {N : Int} {fuel : Nat} (h : Contained mem 0x10 0 N) :
    Logs (Obs.Within 0 N) (parseEvioBuff set mem fill fuel) b ∧
    ∀ bankType buf hi depth n (c : Bank), Contained mem bankType buf hi →
      Logs (Obs.Within buf hi) (parseBank set mem fill n buf bankType depth) c := by
  have hcall (bankType : Nat) (buf hi depth : Int) (n : Nat) (c : Bank)
      (hc : Contained mem bankType buf hi) :
      Logs (Obs.Within buf hi) (parseBank set mem fill n buf bankType depth) c :=
    (logs_contained n).1 bankType buf hi depth c hc
  refine ⟨?_, hcall⟩
  have hN : (0 : Int) + 2 ≤ N := h.bankWords (k := .bank) (by decide)
  refine (logs_readWord (by omega) (by omega)).bind fun w t _ => logs_modify.bind fun _ c _ =>
    logs_gets.bind fun _ d _ => ?_
  split
  · exact logs_pure
  · split
    · exact logs_pure
    · exact (hcall 0x10 0 N 0 fuel d h).bind fun _ _ _ => logs_pure

def nestedWords : List UInt32 := [4, 0x00001001, 2, 0x00010100, 77]

theorem contained_nested : Contained (Mem.ofList nestedWords) 0x10 0 5 := by
  refine .bank (k := .bank) (by decide) rfl (by decide) (by decide) (by decide) fun _ => ?_
  refine .child (w := 2) rfl rfl (by decide) ?_ (.done (by decide))
  exact .bank (k := .bank) (by decide) rfl (by decide) (by decide) (by decide)
    fun h => absurd h (by decide)

theorem nested_stays_inside :
    Logs (Obs.Within 0 5) (parseEvioBuff {} (Mem.ofList nestedWords) 0 4) emptyTop :=
  (parseEvioBuff_stays_inside contained_nested).1

def overrunWords : List UInt32 := [3, 0x00001001, 5, 0x00010100]

theorem overrun_not_inside : overrunWords.length = 4 ∧ overrunWords.head? = some 3 ∧
    ¬Logs (Obs.Within 0 4) (parseEvioBuff { fAutoAdd := true } (Mem.ofList overrunWords) 0 4)
      emptyTop := by
  refine ⟨rfl, rfl, fun h => ?_⟩
  have hread := h (.read .leaf 16 16) (by decide)
  exact absurd hread.2 (by decide)

end EvioTool
