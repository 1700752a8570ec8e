import EvioTool.Defs.EventTree

/-! Headers: encoding and decoding. -/

namespace EvioTool

open Lib Exec

variable {mem : Mem} {tag contentType num padding len : Nat}

@[simp] theorem Kind.length_header (k : Kind) :
    (k.header tag contentType num padding len).length = k.dataOffset := by
  cases k <;> rfl

theorem Kind.dataOffset_pos (k : Kind) : 0 < k.dataOffset ∧ k.dataOffset ≤ 2 := by
  cases k <;> decide

theorem payloadLength_eq {k : Kind} (h : len + k.dataOffset < 2 ^ 31) :
    toInt32 (len + k.dataOffset) - k.dataOffset = len := by
  rw [toInt32_eq] <;> omega

theorem Kind.length_decoded {k : Kind} (h : len + k.dataOffset < 2 ^ 31) :
    (k.decoded tag contentType num padding len).length -
      (k.decoded tag contentType num padding len).dataOffset = len := by
  simp only [Kind.decoded, payloadLength_eq h]

theorem toUInt16_eq {w : UInt32} {n : Nat} (h : w.toNat = n) : w.toUInt16 = UInt16.ofNat n := by
  subst h
  simp

theorem toUInt8_eq {w : UInt32} {n : Nat} (h : w.toNat = n) : w.toUInt8 = UInt8.ofNat n := by
  subst h
  simp

theorem bankHeader_encode (h : Kind.Fits tag contentType num padding len .bank) :
    bankHeader (UInt32.ofNat (len + 1))
      (UInt32.ofNat (tag * 2 ^ 16 + padding * 2 ^ 14 + contentType * 2 ^ 8 + num)) =
    Kind.bank.decoded tag contentType num padding len := by
  obtain ⟨ht, hc, hn, hp, hl⟩ := h
  have h0 : (UInt32.ofNat (len + 1)).toNat = len + 1 := UInt32.toNat_ofNat_of_lt' hl
  have h1 : (UInt32.ofNat (tag * 2 ^ 16 + padding * 2 ^ 14 + contentType * 2 ^ 8 + num)).toNat =
      tag * 2 ^ 16 + padding * 2 ^ 14 + contentType * 2 ^ 8 + num :=
    UInt32.toNat_ofNat_of_lt' (by norm_num [UInt32.size] at *; omega)
  simp only [bankHeader, Kind.decoded, Header.mk.injEq]
  refine ⟨?_, toUInt16_eq ?_, ?_, toUInt8_eq ?_, ?_, rfl⟩
  · rw [h0]
    rfl
  · rw [UInt32.toNat_shiftRight_of (k := 16) rfl (by decide), h1]
    omega
  · rw [UInt32.toNat_field_of (k := 8) (n := 6) rfl (by decide) rfl, h1]
    omega
  · rw [UInt32.toNat_and_of (n := 8) rfl, h1]
    omega
  · rw [UInt32.toNat_field_of (k := 14) (n := 2) rfl (by decide) rfl, h1]
    omega

theorem segmentHeader_encode (h : Kind.Fits tag contentType num padding len .segment) :
    segmentHeader
      (UInt32.ofNat (tag * 2 ^ 24 + padding * 2 ^ 22 + contentType * 2 ^ 16 + len)) =
    Kind.segment.decoded tag contentType num padding len := by
  obtain ⟨ht, hc, rfl, hp, hl⟩ := h
  have h0 : (UInt32.ofNat (tag * 2 ^ 24 + padding * 2 ^ 22 + contentType * 2 ^ 16 + len)).toNat =
      tag * 2 ^ 24 + padding * 2 ^ 22 + contentType * 2 ^ 16 + len :=
    UInt32.toNat_ofNat_of_lt' (by norm_num [UInt32.size] at *; omega)
  simp only [segmentHeader, Kind.decoded, Header.mk.injEq]
  refine ⟨?_, toUInt16_eq ?_, ?_, rfl, ?_, rfl⟩
  · rw [UInt32.toNat_and_of (n := 16) rfl, h0, toInt32_eq] <;> simp [Kind.dataOffset] <;> omega
  · rw [UInt32.toNat_shiftRight_of (k := 24) rfl (by decide), h0]
    omega
  · rw [UInt32.toNat_field_of (k := 16) (n := 6) rfl (by decide) rfl, h0]
    omega
  · rw [UInt32.toNat_field_of (k := 22) (n := 2) rfl (by decide) rfl, h0]
    omega

theorem tagsegmentHeader_encode (h : Kind.Fits tag contentType num padding len .tagsegment) :
    tagsegmentHeader (UInt32.ofNat (tag * 2 ^ 20 + contentType * 2 ^ 16 + len)) =
    Kind.tagsegment.decoded tag contentType num padding len := by
  obtain ⟨ht, hc, rfl, rfl, hl⟩ := h
  have h0 : (UInt32.ofNat (tag * 2 ^ 20 + contentType * 2 ^ 16 + len)).toNat =
      tag * 2 ^ 20 + contentType * 2 ^ 16 + len :=
    UInt32.toNat_ofNat_of_lt' (by norm_num [UInt32.size] at *; omega)
  simp only [tagsegmentHeader, Kind.decoded, Header.mk.injEq]
  refine ⟨?_, toUInt16_eq ?_, ?_, rfl, rfl, rfl⟩
  · rw [UInt32.toNat_and_of (n := 16) rfl, h0, toInt32_eq] <;> simp [Kind.dataOffset] <;> omega
  · rw [UInt32.toNat_shiftRight_of (k := 20) rfl (by decide), h0]
    omega
  · rw [UInt32.toNat_field_of (k := 16) (n := 4) rfl (by decide) rfl, h0]
    omega

def headerAt (mem : Mem) (buf : Int) (bankType : Nat) : Option Header :=
  match bankType with
  | 0xE | 0x10 => (mem buf).bind fun w0 => (mem (buf + 1)).map fun w1 => bankHeader w0 w1
  | 0xD | 0x20 => (mem buf).map segmentHeader
  | 0xC | 0x40 => (mem buf).map tagsegmentHeader
  | _ => none

theorem headerAt_of_holds {k : Kind} {bankType : Nat} {buf : Int} (hk : bankType ∈ k.bankTypes)
    (hfit : k.Fits tag contentType num padding len)
    (hm : mem.Holds buf (k.header tag contentType num padding len)) :
    headerAt mem buf bankType = some (k.decoded tag contentType num padding len) := by
  cases k with
  | bank =>
    have hw := hm.head
    have hw' : mem (buf + 1) = _ := hm 1 (by simp [Kind.dataOffset])
    rcases List.mem_pair.mp hk with rfl | rfl <;>
      simp [headerAt, hw, hw', Kind.header, ← bankHeader_encode hfit]
  | segment =>
    have hw := hm.head
    rcases List.mem_pair.mp hk with rfl | rfl <;>
      simp [headerAt, hw, ← segmentHeader_encode hfit]
  | tagsegment =>
    have hw := hm.head
    rcases List.mem_pair.mp hk with rfl | rfl <;>
      simp [headerAt, hw, ← tagsegmentHeader_encode hfit]

@[simp] theorem returns_readWord {who : Reader} {a : Int} {s t : σ} {w : UInt32} :
    Returns (readWord mem who a) s w t ↔ mem a = some w ∧ t = s := by
  simp [readWord]

theorem returns_readHeader {bankType : Nat} {buf : Int} {h : Header} {x : Option Header}
    {s t : σ} (hh : headerAt mem buf bankType = some h) :
    Returns (readHeader mem buf bankType) s x t ↔ x = some h ∧ t = s := by
  have hr : Returns (readHeader mem buf bankType) s (some h) s := by
    revert hh
    unfold headerAt readHeader
    split <;> simp [Option.bind_eq_some_iff, eq_comm (a := h)]
  constructor
  · exact hr.det
  · rintro ⟨rfl, rfl⟩
    exact hr

theorem returns_readHeader_inv {bankType : Nat} {buf : Int} {x : Option Header} {s t : σ}
    (h : Returns (readHeader mem buf bankType) s x t) : x = headerAt mem buf bankType ∧ t = s := by
  revert h
  unfold headerAt readHeader
  split <;> simp +contextual

/-- What the parser and the fillers of fixed-width leaves read lies in the words from
`lo` up to `hi`. -/
def Obs.Within (lo hi : Int) : Obs → Prop
  | .read .parser b n | .read .leaf b n => 4 * lo ≤ b ∧ b + n ≤ 4 * hi
  | _ => True

theorem Obs.Within.mono {lo hi lo' hi' : Int} {o : Obs} (h : o.Within lo hi) (hlo : lo' ≤ lo)
    (hhi : hi ≤ hi') : o.Within lo' hi' := by
  cases o with
  | read who b n => cases who <;> simp_all only [Obs.Within] <;> omega
  | _ => trivial

theorem logs_readWord {lo hi a : Int} {who : Reader} {s : σ} (hlo : lo ≤ a) (hhi : a < hi) :
    Logs (Obs.Within lo hi) (readWord mem who a) s := by
  refine Logs.bind (logs_tell.mpr ?_) fun _ _ _ => logs_demand
  cases who <;> simp [Obs.Within] <;> omega

theorem logs_readHeader {k : Kind} {bankType : Nat} {buf lo hi : Int} {s : σ}
    (hk : bankType ∈ k.bankTypes) (hlo : lo ≤ buf) (hhi : buf + k.dataOffset ≤ hi) :
    Logs (Obs.Within lo hi) (readHeader mem buf bankType) s := by
  cases k with
  | bank =>
    have hhi : buf + 2 ≤ hi := hhi
    rcases List.mem_pair.mp hk with rfl | rfl <;>
      exact (logs_readWord hlo (by omega)).bind fun _ _ _ =>
        (logs_readWord (by omega) (by omega)).bind fun _ _ _ => logs_pure
  | segment | tagsegment =>
    have hhi : buf + 1 ≤ hi := hhi
    rcases List.mem_pair.mp hk with rfl | rfl <;>
      exact (logs_readWord hlo (by omega)).bind fun _ _ _ => logs_pure

end EvioTool
