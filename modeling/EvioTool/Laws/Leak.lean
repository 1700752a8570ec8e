import EvioTool.Laws.Clear
import EvioTool.Laws.Reader

/-! What an event leaves behind for the next one. -/

namespace EvioTool

open Lib Exec

variable {s t : World} {fill fuel : Nat}

structure Tool.Kept (t u : Tool) : Prop where
  bank : u.bank = t.bank
  set : u.set = t.set
  fullErase : u.fFullErase = t.fFullErase

theorem Tool.Kept.refl (t : Tool) : t.Kept t := ⟨rfl, rfl, rfl⟩

theorem Tool.Kept.trans {t u v : Tool} (h : t.Kept u) (h' : u.Kept v) : t.Kept v :=
  ⟨h'.bank.trans h.bank, h'.set.trans h.set, h'.fullErase.trans h.fullErase⟩

def World.Kept (s t : World) : Prop := s.tool.Kept t.tool

theorem kept_endEvent (put : Int) :
    Ends (endEvent put) (fun _ => World.Kept s) (World.Kept s) s := by
  apply ends_endEvent
  · exact fun _ => .refl _
  · exact fun _ => ⟨rfl, rfl, rfl⟩
  · intro _ _ _ es _
    split
    · exact ⟨rfl, rfl, rfl⟩
    · exact .refl _

theorem kept_getEvent (a : GetAnswer) :
    Ends (getEvent a) (fun _ => World.Kept s) (World.Kept s) s := by
  apply ends_getEvent
  · exact fun _ _ => .refl _
  · exact fun _ _ => ⟨.refl _, fun _ _ _ => ⟨rfl, rfl, rfl⟩⟩
  · exact fun _ => ⟨.refl _, fun _ _ _ => ⟨rfl, rfl, rfl⟩⟩

theorem kept_checkEvent : Ends checkEvent (fun _ => World.Kept s) (World.Kept s) s := by
  apply ends_checkEvent
  · exact fun _ => .refl _
  · exact fun _ => ⟨fun _ => .refl _, fun _ => .refl _⟩
  · exact fun _ _ _ _ => ⟨rfl, rfl, rfl⟩

theorem kept_nextNoParse (a : Answers) :
    Ends (nextNoParse a) (fun _ => World.Kept s) (World.Kept s) s := by
  cases het : s.tool.fReadFromEt with
  | false =>
    simp only [nextNoParse, ends_bind, ends_gets, het]
    cases a.read with
    | ok words => exact ⟨rfl, rfl, rfl⟩
    | eof | error => exact .refl _
  | true =>
    rw [ends_nextNoParse_et het]
    have hfirst : Ends (when s.tool.fEventValid (endEvent a.putFirst)) (fun _ => World.Kept s)
        (World.Kept s) s := .when (fun _ => kept_endEvent _) fun _ => .refl _
    refine hfirst.mono (fun _ t ht => ?_) fun _ h => h
    refine (kept_getEvent a.get).mono (fun stat u hu => ?_) fun _ hu => ht.trans hu
    split
    · exact ht.trans hu
    · exact kept_checkEvent.mono (fun _ _ hv => (ht.trans hu).trans hv)
        fun _ hv => (ht.trans hu).trans hv

theorem kept_reOpenEt (a : OpenAnswer) :
    Ends (reOpenEt a) (fun _ => World.Kept s) (World.Kept s) s := by
  rcases a with ⟨locality, et_open, et_station_create, et_station_attach, calloc⟩
  cases et_open <;> cases et_station_create <;> cases et_station_attach <;> cases calloc <;>
    exact ⟨rfl, rfl, rfl⟩

theorem kept_close : Ends close (fun _ => World.Kept s) (World.Kept s) s := by
  simp only [close, ends_bind, ends_gets]
  cases s.tool.fReadFromEt <;> exact ⟨rfl, rfl, rfl⟩

def Tool.clear (t : Tool) : Bank → Bank := if t.fFullErase then Bank.clearFull else Bank.clear

def readEvent (t : Tool) (fill fuel : Nat) (buf : EvioBuf) : Exec Halt Obs Bank Int := do
  modify t.clear
  parseEvioBuff t.set buf.mem fill fuel

def World.after (s : World) (fill fuel : Nat) (buf : EvioBuf) : Bank :=
  (readEvent s.tool fill fuel buf s.tool.bank).state

theorem World.after_eq {buf : EvioBuf} : s.after fill fuel buf =
    (parseEvioBuff s.tool.set buf.mem fill fuel (s.tool.clear s.tool.bank)).state := by
  rw [after, readEvent, modify_bind_apply]

theorem ends_onBank_iff {m : Exec Halt Obs Bank α} {Q : α → World → Prop} {E : World → Prop} :
    Ends (onBank m) Q E s ↔
      Ends m (fun a b => Q a (s.withBank b)) (fun b => E (s.withBank b)) s.tool.bank := Iff.rfl

theorem returns_onBank {α : Type} {m : Exec Halt Obs Bank α} {a : α} :
    Returns (onBank m) s a t ↔ ∃ c, Returns m s.tool.bank a c ∧ t = s.withBank c := by
  constructor
  · intro h
    obtain ⟨b, c, hb, hc, rfl⟩ := returns_zoom.mp h
    cases hb
    exact ⟨c, hc, rfl⟩
  · rintro ⟨c, hc, rfl⟩
    exact returns_zoom.mpr ⟨_, c, rfl, hc, rfl⟩

theorem ends_next_event {a : Answers} {Q : Int → World → Prop} {E : World → Prop}
    (h : Ends (nextNoParse a) (fun r t => if r ≠ S_SUCCESS then Q r t else
      (t.tool.fEvioBuf = none → E (t.withBank (t.tool.clear t.tool.bank))) ∧
      ∀ buf, t.tool.fEvioBuf = some buf → E (t.withBank (t.after fill fuel buf)) ∧
        ∀ r, Ends (endEvent a.putLast) (fun _ => Q r) E (t.withBank (t.after fill fuel buf))) E s) :
    Ends (next fill fuel a) Q E s := by
  rw [next, ends_bind]
  refine h.mono (fun r t ht => ?_) fun _ => id
  by_cases hr : r = S_SUCCESS
  · simp only [hr, ne_eq, not_true, if_false] at ht ⊢
    obtain ⟨hnone, hsome⟩ := ht
    have hclear : (if t.tool.fFullErase then Bank.clearFull else Bank.clear) = t.tool.clear := rfl
    simp only [ends_bind, ends_gets, ends_onBank_iff, ends_modify, ends_demand, ends_pure, hclear]
    refine ⟨fun buf hbuf => ?_, hnone⟩
    obtain ⟨hE, hend⟩ := hsome buf hbuf
    rw [World.after_eq] at hE hend
    exact ends_self.mono (fun r b hb => hb ▸ hend r) fun b hb => hb ▸ hE
  · simp only [hr, ne_eq, not_false_eq_true, if_true] at ht ⊢
    exact ht

/-- `Next` comes to the event in `buf`. -/
def Reads (a : Answers) (s : World) (buf : EvioBuf) : Prop :=
  ∃ t, Returns (nextNoParse a) s S_SUCCESS t ∧ t.tool.fEvioBuf = some buf

theorem Reads.returns {u : World} {a : Answers} {buf : EvioBuf} {r : Int} (h : Reads a s buf)
    (hr : Returns (next fill fuel a) s r u) :
    Returns (readEvent s.tool fill fuel buf) s.tool.bank r u.tool.bank ∧
      u.tool.set = s.tool.set ∧ u.tool.fFullErase = s.tool.fFullErase := by
  obtain ⟨v, hv, hbuf⟩ := h
  have hkept : s.Kept v := (kept_nextNoParse a).of_returns hv
  obtain ⟨stat, w, hw, hr⟩ := returns_bind.mp hr
  obtain ⟨rfl, hwv⟩ := hw.det hv
  rw [← hwv, if_neg (by simp)] at hr
  simp only [returns_bind, returns_gets, returns_onBank, returns_modify, returns_demand,
    returns_pure] at hr
  obtain ⟨_, _, ⟨rfl, rfl⟩, _, _, ⟨c, rfl, rfl⟩, buf', _, ⟨hbuf', rfl⟩, stat, _, ⟨d, hd, rfl⟩, _, x,
    hx, rfl, rfl⟩ := hr
  obtain rfl : buf = buf' := Option.some.inj (hbuf.symm.trans hbuf')
  have hend : World.Kept _ u := (kept_endEvent a.putLast).of_returns hx
  refine ⟨?_, hend.set.trans hkept.set, hend.fullErase.trans hkept.fullErase⟩
  rw [hend.bank, readEvent, returns_bind]
  refine ⟨(), _, returns_modify.mpr rfl, ?_⟩
  rw [Tool.clear, ← hkept.set, ← hkept.bank, ← hkept.fullErase]
  exact hd

theorem World.Kept.after (h : s.Kept t) (buf : EvioBuf) :
    t.after fill fuel buf = s.after fill fuel buf := by
  obtain ⟨hb, hs, hf⟩ := h
  simp only [World.after_eq, Tool.clear, hb, hs, hf]

theorem Reads.bank {a : Answers} {buf : EvioBuf} (h : Reads a s buf) :
    (next fill fuel a s).state.tool.bank = s.after fill fuel buf := by
  obtain ⟨t, ht, hbuf⟩ := h
  have hkept : s.Kept t := (kept_nextNoParse a).of_returns ht
  have hend : Ends (next fill fuel a) (fun _ u => u.tool.bank = s.after fill fuel buf)
      (fun u => u.tool.bank = s.after fill fuel buf) s := by
    apply ends_next_event
    refine ht.ends ?_
    rw [if_neg (by simp)]
    refine ⟨fun hnone => ?_, fun buf' hbuf' => ?_⟩
    · rw [hbuf] at hnone
      cases hnone
    · obtain rfl : buf = buf' := by simpa using hbuf.symm.trans hbuf'
      rw [hkept.after]
      exact ⟨rfl, fun _ => (kept_endEvent _).mono (fun _ u hu => hu.bank) fun u hu => hu.bank⟩
  exact hend.state fun _ _ h => h

/-- The dictionary is set up once, and holds no data yet. -/
structure SetUp (s : World) : Prop where
  noAdd : s.tool.set.fAutoAdd = false
  empty : s.tool.bank.All BankInfo.Empty
  top : s.tool.bank.label.cls = .bank

structure Descends (s₀ s : World) : Prop where
  set : s.tool.set = s₀.tool.set
  fullErase : s.tool.fFullErase = s₀.tool.fFullErase
  shape : (s.tool.clear s.tool.bank).shape = (s₀.tool.clear s₀.tool.bank).shape

namespace Tool

variable {t u : Tool} {b c : Bank}

theorem shape_clear (hf : u.fFullErase = t.fFullErase) (h : b.shape = c.shape) :
    (u.clear b).shape = (t.clear c).shape := by
  unfold clear
  rw [hf]
  split
  · rw [Bank.shape_clearFull, Bank.shape_clearFull, h]
  · rw [Bank.shape_clear, Bank.shape_clear, h]

theorem shape_clear_clear : (t.clear (t.clear b)).shape = (t.clear b).shape := by
  unfold clear
  split
  · rfl
  · rw [Bank.shape_clear]

theorem cls_shape_clear : (t.clear b).shape.label.cls = b.label.cls.mapSVT SVTBank.clear := by
  unfold clear
  split
  · rw [Bank.shape_clearFull]
    simp [Bank.clearFull, Bank.shape, BankInfo.shape, BankInfo.untagged, BankInfo.blank]
  · rw [Bank.shape_clear]
    simp [Bank.shape, BankInfo.shape, BankInfo.untagged, BankInfo.blank]

/-- `Clear` gets to all the data. -/
def Clears (t : Tool) : Prop := t.fFullErase = true ∨ t.bank.Clearable

theorem clears_iff (htop : t.bank.label.cls = .bank) :
    t.Clears ↔ (t.clear t.bank).untagged = (t.clear t.bank).shape := by
  unfold Clears clear
  split <;> rename_i hf
  · simp only [hf, true_or, true_iff]
    rw [Bank.untagged_eq_shape_iff]
    exact .node ⟨nofun, by simp [htop, BankClass.mapSVT]⟩ nofun
  · rw [Bank.shape_clear, Bank.untagged_clear_iff]
    simp [hf]

end Tool

theorem shape_after (ha : s.tool.set.fAutoAdd = false) (buf : EvioBuf) :
    (s.after fill fuel buf).shape = (s.tool.clear s.tool.bank).shape := by
  rw [World.after_eq]
  exact ((Bank.keeps_parseEvioBuff ha fuel).states ⟨rfl, rfl⟩).shape

namespace Descends

variable {s₀ : World}

theorem refl (s : World) : Descends s s := ⟨rfl, rfl, rfl⟩

theorem kept (h : Descends s₀ s) (hk : s.Kept t) : Descends s₀ t where
  set := hk.set.trans h.set
  fullErase := hk.fullErase.trans h.fullErase
  shape := by
    rw [hk.bank, ← h.shape]
    exact Tool.shape_clear hk.fullErase rfl

theorem after (h : Descends s₀ s) (ha : s₀.tool.set.fAutoAdd = false) (buf : EvioBuf) :
    Descends s₀ (s.withBank (s.after fill fuel buf)) where
  set := h.set
  fullErase := h.fullErase
  shape := by
    rw [← h.shape, ← Tool.shape_clear_clear (t := s.tool)]
    exact Tool.shape_clear rfl (shape_after (h.set ▸ ha) buf)

theorem exec (ha : s₀.tool.set.fAutoAdd = false) (h : Descends s₀ s) (o : Op) :
    Ends (o.exec fill fuel) (fun _ => Descends s₀) (fun _ => True) s := by
  have hkept {α : Type} {m : Exec Halt Obs World α}
      (hm : Ends m (fun _ => World.Kept s) (World.Kept s) s) :
      Ends m (fun _ => Descends s₀) (fun _ => True) s :=
    hm.mono (fun _ _ => h.kept) fun _ _ => trivial
  cases o <;> simp only [Op.exec, ends_bind, ends_pure]
  case next a =>
    apply ends_next_event
    refine (kept_nextNoParse a).mono (fun stat t ht => ?_) fun _ _ => trivial
    split
    · exact h.kept ht
    · refine ⟨fun _ => trivial, fun buf _ => ⟨trivial, fun _ => ?_⟩⟩
      have hafter : Descends s₀ (t.withBank (t.after fill fuel buf)) := (h.kept ht).after ha buf
      exact (kept_endEvent _).mono (fun _ _ => hafter.kept) fun _ _ => trivial
  case nextNoParse a => exact hkept (kept_nextNoParse a)
  case endEvent put => exact hkept (kept_endEvent put)
  case openEt params a =>
    simp only [openEt, modifyTool, ends_bind, ends_modify]
    refine (kept_reOpenEt a).mono (fun _ t ht => h.kept ?_) fun _ _ => trivial
    exact ⟨ht.bank, ht.set, ht.fullErase⟩
  case reOpenEt a => exact hkept (kept_reOpenEt a)
  case close => exact hkept kept_close

theorem run {ops : List Op} (hs : s₀.tool.set.fAutoAdd = false)
    (hrun : Returns (run (Op.exec fill fuel) ops) s₀ () s) : Descends s₀ s :=
  (run_invariant (C := fun _ _ => True) (J := fun _ => True) (fun o _ ht _ => ht.exec hs o)
    (refl s₀) (.of_forall fun _ _ _ => trivial)).of_returns hrun

end Descends

/-- From `s` every event is read as by a reader that has just been built. -/
def NoLeak (fill fuel : Nat) (s₀ s : World) : Prop :=
  ∀ a buf s₁ a₁, Reads a s buf → s₀.Kept s₁ → Reads a₁ s₁ buf →
    (next fill fuel a s).state.tool.bank.untagged = (next fill fuel a₁ s₁).state.tool.bank.untagged

theorem SetUp.clears (hs : SetUp s) : s.tool.Clears := .inr (.of_empty hs.empty)

theorem Descends.top {s₀ : World} (hs : SetUp s₀) (h : Descends s₀ s) :
    s.tool.bank.label.cls = .bank := by
  have hcls := congrArg (fun b => b.label.cls) h.shape
  simp only [Tool.cls_shape_clear, hs.top, BankClass.mapSVT] at hcls
  cases hc : s.tool.bank.label.cls <;> simp [hc] at hcls ⊢

def illegalEvent : EvioBuf := ⟨[1, 0x00003F00], 0⟩

theorem untagged_illegalEvent :
    (s.after fill fuel illegalEvent).untagged = (s.tool.clear s.tool.bank).untagged := by
  have htag (b : Bank) : Bank.untagged (b.setLabel (b.label.setTag 0 0)) = b.untagged := by
    cases b
    simp [Bank.untagged, Rose.setLabel, BankInfo.untagged, BankInfo.blank, BankInfo.setTag]
  rw [World.after_eq]
  generalize s.tool.clear s.tool.bank = b
  have hend : Ends (parseEvioBuff s.tool.set illegalEvent.mem fill fuel)
      (fun _ c => c = b.setLabel (b.label.setTag 0 0))
      (fun c => c = b.setLabel (b.label.setTag 0 0)) b := by
    have hread : Returns (readWord illegalEvent.mem .parser 1) b 0x00003F00 b := ⟨rfl, rfl⟩
    rw [parseEvioBuff, ends_bind]
    refine hread.ends ?_
    simp only [ends_bind, ends_modify, ends_gets]
    split
    · rfl
    · split
      · rfl
      · cases fuel with
        | zero => rfl
        | succ n =>
          have hparse (c : Bank) :
              Returns (parseBank s.tool.set illegalEvent.mem fill (n + 1) 0 0x10 0) c (-5) c :=
            ⟨rfl, rfl⟩
          rw [ends_bind]
          exact (hparse _).ends rfl
  rw [hend.state fun _ _ h => h, htag]

/-- From a state that can be reached, the next event is read as if it were the first
exactly when `Clear` gets to all the data. -/
theorem no_leak_iff {s₀ : World} {ops : List Op} (hs : SetUp s₀)
    (hrun : Returns (run (Op.exec fill fuel) ops) s₀ () s) :
    (s.tool.Clears → NoLeak fill fuel s₀ s) ∧
      (s.tool.fReadFromEt = false → NoLeak fill fuel s₀ s → s.tool.Clears) := by
  have h := Descends.run hs.noAdd hrun
  have hclears₀ := (Tool.clears_iff hs.top).mp hs.clears
  have hiff := Tool.clears_iff (h.top hs)
  constructor
  · intro hclears a buf s₁ a₁ ha hkept ha₁
    rw [ha.bank, ha₁.bank, hkept.after, World.after_eq, World.after_eq, h.set]
    have htwins : Bank.Twins (s₀.tool.clear s₀.tool.bank).shape (s₀.tool.clear s₀.tool.bank)
        (s.tool.clear s.tool.bank) := ⟨by rw [hiff.mp hclears, hclears₀, h.shape], rfl⟩
    exact ((Bank.keeps_parseEvioBuff hs.noAdd fuel).states htwins).same
  · intro hfile hleak
    have hread (w : World) (hw : w.tool.fReadFromEt = false) :
        Reads { read := .ok illegalEvent.words } w illegalEvent := by
      refine ⟨{ w with tool := { w.tool with fEvioBuf := some illegalEvent, fEventValid := true } },
        ?_, rfl⟩
      simp [nextNoParse, hw, modifyTool, illegalEvent]
    have hsame := hleak _ _ { tool := { s₀.tool with fReadFromEt := false } } _ (hread s hfile)
      ⟨rfl, rfl, rfl⟩ (hread _ rfl)
    rw [(hread s hfile).bank, (hread _ rfl).bank, untagged_illegalEvent,
      untagged_illegalEvent] at hsame
    rw [hiff, hsame, h.shape]
    exact hclears₀

def leafReader (cls : BankClass) : World where
  tool :=
    { bank := .node { name := "EvioTool", title := "", tags := [0] }
        [.node { name := "SVT", title := "", tags := [51], cls, leafs :=
          [⟨.prim .uint32, { name := "SVTLeaf", title := "", tag := 57648, num := 0 }⟩,
            ⟨.prim .int32, { name := "Leaf", title := "", tag := 7, num := 0 }⟩] } []] }

theorem setUp_leafReader {cls : BankClass} (h : cls.mapSVT SVTBank.clear = cls) :
    SetUp (leafReader cls) where
  noAdd := rfl
  empty := by
    refine .node ⟨nofun, rfl⟩ fun c hc => ?_
    rw [List.mem_singleton.mp hc]
    exact .node ⟨by simp, h⟩ nofun
  top := rfl

def oneInt : Op := .next { read := .ok [6, 0x00000E00, 4, 0x00330E00, 2, 0x00070B00, 42] }

def noInt : Op := .next { read := .ok [1, 0x00000E00] }

theorem no_leak_bank : NoLeak 0 12 (leafReader .bank)
    (run (Op.exec 0 12) [oneInt] (leafReader .bank)).state := by
  have hrun : Returns (run (Op.exec 0 12) [oneInt]) (leafReader .bank) () _ := ⟨rfl, rfl⟩
  refine (no_leak_iff (setUp_leafReader rfl) hrun).1 (.inr ?_)
  refine .bank rfl fun c hc => ?_
  rw [List.mem_singleton.mp hc]
  exact .bank rfl nofun

theorem svtBank_leaks : SetUp (leafReader (.svtBank {})) ∧
    (run (Op.exec 0 12) [oneInt, noInt] (leafReader (.svtBank {}))).state.tool.bank.untagged ≠
      (run (Op.exec 0 12) [noInt] (leafReader (.svtBank {}))).state.tool.bank.untagged := by
  refine ⟨setUp_leafReader rfl, fun h => ?_⟩
  have hdata := congrArg (fun b => b.subs.map fun c => c.label.leafs.map fun l => l.2.data.length) h
  revert hdata
  decide

end EvioTool
