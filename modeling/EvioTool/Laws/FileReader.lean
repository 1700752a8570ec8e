import EvioTool.Defs.FileReader
import EvioTool.Laws.EventTree
import EvioTool.Laws.EvioRead
import EvioTool.Laws.TriggerFilter

namespace EvioTool

open Lib Exec

section Parse

variable {set : Settings} {mem : Mem} {fill fuel : Nat} {b c : Bank} {w : World} {r : Int}
  {ws : List UInt32}

theorem LeafPtr.plain_clear {l : LeafPtr} (h : ∃ m : Leaf (.prim .uint32), l = ⟨_, m⟩ ∧ m.cls = .leaf) :
    ∃ m : Leaf (.prim .uint32), l.clear = ⟨_, m⟩ ∧ m.cls = .leaf := by
  obtain ⟨m, rfl, hm⟩ := h
  exact ⟨m.clear, rfl, by simp [Leaf.clear, hm]⟩

theorem Bank.plain_clear (h : b.All BankInfo.Plain) : (clear b).All BankInfo.Plain := by
  induction b using Rose.ind with
  | node i bs ih =>
    cases h with
    | node hi hs =>
      rw [clear_bank hi.1]
      refine .node ⟨hi.1, fun l hl => ?_⟩ fun c hc => ?_
      · obtain ⟨l, hmem, rfl⟩ := List.mem_map.mp hl
        exact LeafPtr.plain_clear (hi.2 l hmem)
      · obtain ⟨c, hmem, rfl⟩ := List.mem_map.mp hc
        exact ih c hmem (hs c hmem)

theorem Bank.plain_clearFull (h : b.All BankInfo.Plain) : (clearFull b).All BankInfo.Plain :=
  .node ⟨h.label.1, by simp⟩ (by simp)

theorem ItemEvent.returns_parse (e : ItemEvent) (hm : mem.Holds 0 e.words) (hu : e.words.length < 2 ^ 31)
    (hb : b.All BankInfo.Plain) :
    (e.enter set b).All BankInfo.Plain ∧ ∃ F, ∀ fuel, F ≤ fuel →
      Returns (parseEvioBuff set mem fill fuel) b 0 (e.enter set b) := by
  have hmark := Bank.plain_setLabel hb (hb.label.setTag e.tag e.num)
  obtain ⟨hfold, F, hF⟩ : (foldEvent set e.tag e.num e.container e.items b).All BankInfo.Plain ∧
      ∃ F, ∀ fuel, F ≤ fuel → ∃ stat, Returns (parseBank set mem fill fuel 0 0x10 0) _ stat _ :=
    readsAs (.container e.tag e.num e.container e.items) .bank 0x10 0 0 _ (by decide) e.wf hm hu hmark
  have hh : headerAt mem 0 0x10 = _ := headerAt_of_holds (k := .bank) (by decide) e.wf.1 hm.append.1
  simp only [headerAt, Option.bind_eq_some_iff, Option.map_eq_some_iff, zero_add] at hh
  obtain ⟨w0, -, w1, h1, hheader⟩ := hh
  have htag : (w1 >>> 16).toUInt16 = e.tag := by
    have := congrArg Header.tag hheader
    simpa [bankHeader, Kind.decoded] using this
  have hnum : (w1 &&& 0xFF).toUInt8 = e.num := by
    have := congrArg Header.num hheader
    simpa [bankHeader, Kind.decoded] using this
  have htype : ((w1 >>> 8) &&& 0x3F).toNat = e.container.contentType := congrArg Header.contentType hheader
  have hbanks : ¬(set.fChopLevel > 0 ∧ e.container.contentType ≠ 0x10 ∧ e.container.contentType ≠ 0xE) := by
    have := e.banks
    cases hc : e.container <;> simp_all [Container.kind, Container.contentType]
  unfold ItemEvent.enter
  refine ⟨?_, F, fun fuel hfuel => ?_⟩
  · split
    · exact hmark
    · exact hfold
  · refine (returns_readWord.mpr ⟨h1, rfl⟩).bind ((returns_modify (r := ())).mpr rfl |>.bind
      ((returns_gets.mpr ⟨rfl, rfl⟩).bind ?_))
    have hcheck : (b.setLabel (b.label.setTag e.tag e.num)).label.checkTag e.tag =
        b.label.checkTag e.tag := by
      cases b
      rfl
    rw [htag, hnum, htype, if_neg hbanks, hcheck]
    by_cases hskip : set.fChopLevel > 0 ∧ (!b.label.checkTag e.tag) = true
    · rw [if_pos hskip]
      rw [if_pos hskip]
      exact returns_pure.mpr ⟨rfl, rfl⟩
    · rw [if_neg hskip]
      rw [if_neg hskip]
      obtain ⟨stat, hstat⟩ := hF fuel hfuel
      exact hstat.bind (returns_pure.mpr ⟨rfl, rfl⟩)

theorem returns_endEvent_ok {put n : Int} (het : w.tool.fReadFromEt = false)
    (hchunk : w.tool.fCurrentChunk = n + 1) (hn : FitsInt n) :
    Returns (endEvent put) w ET_OK
      { w with tool := { w.tool with fEventValid := false, fCurrentChunk := n } } := by
  have hskip : (w.tool.fEventValid && w.tool.fReadFromEt && w.tool.fCurrentChunk == 0) = false := by
    rw [het, Bool.and_false, Bool.false_and]
  have hsub : w.tool.fCurrentChunk - 1 = n := by omega
  rw [endEvent, returns_congr (gets_bind_apply _ _ _)]
  simp only [hskip, Bool.false_eq_true, if_false, pure_bind, ne_eq, not_true_eq_false, hsub]
  exact (returns_int32.mpr ⟨hn, rfl, rfl⟩).bind
    ((returns_modify (r := ())).mpr rfl |>.bind (returns_pure.mpr ⟨rfl, rfl⟩))

theorem returns_next_ok {n : Int} (het : w.tool.fReadFromEt = false)
    (hchunk : w.tool.fCurrentChunk = n + 1) (hn : FitsInt n)
    (hr : Returns (parseEvioBuff w.tool.set (EvioBuf.mem ⟨ws, 0⟩) fill fuel) (w.tool.clear w.tool.bank) r c) :
    Returns (next fill fuel { read := .ok ws }) w r { w with tool := { w.tool with
      bank := c, fEvioBuf := some ⟨ws, 0⟩, fEventValid := false, fCurrentChunk := n } } := by
  refine (returns_nextNoParse_file het).bind ?_
  rw [if_neg (by simp)]
  refine Returns.bind (returns_gets.mpr ⟨rfl, rfl⟩) ?_
  refine Returns.bind (returns_onBank.mpr ⟨_, (returns_modify (r := ())).mpr rfl, rfl⟩) ?_
  refine Returns.bind (returns_demand.mpr ⟨rfl, rfl⟩) ?_
  refine (returns_onBank.mpr ⟨c, hr, rfl⟩).bind ?_
  exact Returns.bind (returns_endEvent_ok (by exact het) (by exact hchunk) hn) (returns_pure.mpr ⟨rfl, rfl⟩)

end Parse

namespace FileReader

variable {env : ReadEnv} {fill fuel : Nat} {s t : FileReader} {sw : Bool}
  {d : DiskEvent env.swap sw} {ds : List (DiskEvent env.swap sw)}

theorem returns_onTool {α : Type} {m : Exec Halt Obs World α} {x : α} :
    Returns (onTool m) s x t ↔ ∃ w, Returns m s.world x w ∧ t = { s with world := w } := by
  constructor
  · intro h
    obtain ⟨w, u, hw, hu, rfl⟩ := returns_zoom.mp h
    cases hw
    exact ⟨u, hu, rfl⟩
  · rintro ⟨u, hu, rfl⟩
    exact returns_zoom.mpr ⟨_, u, rfl, hu, rfl⟩

theorem stops_onTool {α : Type} {E : Halt → Prop} {Q : Obs → Prop} {m : Exec Halt Obs World α}
    (h : Stops E Q m s.world) : Stops E Q (onTool m) s := h

theorem returns_of_eq {α : Type} {m m' : Exec Halt Obs FileReader α} {u : FileReader} {x : α}
    (h : m s = m' u) : Returns m s x t ↔ Returns m' u x t := by
  rw [Returns, h, Returns]

theorem stops_of_eq {α : Type} {E : Halt → Prop} {Q : Obs → Prop} {m m' : Exec Halt Obs FileReader α}
    {u : FileReader} (h : m s = m' u) (hm : Stops E Q m' u) : Stops E Q m s := by
  rw [Stops, h]
  exact hm

def Facing (env : ReadEnv) (sw : Bool) (ds : List (DiskEvent env.swap sw)) (s : FileReader) : Prop :=
  ∃ r, s.input = some r ∧ EvReader.AheadInBlocks env sw ds r

theorem Facing.onTool {w : World} (h : Facing env sw ds s) : Facing env sw ds { s with world := w } := h

theorem nextEvent_eq {r r' : EvReader} {status : Int} {event : List UInt32} (hr : s.input = some r)
    (hread : r.evReadNoCopy env = some (status, event, r')) :
    nextEvent env fill fuel s = onTool (next fill fuel
      { read := if status = 0 then .ok event else if status = EV_EOF then .eof else .error })
      { s with input := some r' } := by
  rw [nextEvent, gets_bind_apply, hr]
  dsimp only
  rw [hread, demand_some, pure_bind]
  rfl

theorem Facing.nextEvent_cons (h : Facing env sw (d :: ds) s) (fill fuel : Nat) :
    ∃ u, u.world = s.world ∧ Facing env sw ds u ∧
      nextEvent env fill fuel s = FileReader.onTool (next fill fuel { read := .ok d.words }) u := by
  obtain ⟨r, hr, hahead⟩ := h
  obtain ⟨r', hread, hahead'⟩ := hahead.evReadNoCopy
  exact ⟨{ s with input := some r' }, rfl, ⟨r', rfl, hahead'⟩, nextEvent_eq hr hread⟩

theorem Facing.nextEvent_nil (h : Facing env sw [] s) (fill fuel : Nat) : ∃ u, u.world = s.world ∧
    nextEvent env fill fuel s = FileReader.onTool (next fill fuel { read := .eof }) u := by
  obtain ⟨r, hr, hahead⟩ := h
  obtain ⟨_, r', hread⟩ := hahead.evReadNoCopy_nil
  exact ⟨{ s with input := some r' }, rfl, nextEvent_eq hr hread⟩

theorem openFile_eq (s : FileReader) (fuel : Nat) (bs : List (DiskBlock env.swap sw)) (last : Nat) :
    ∃ u, u.world = s.world ∧ Facing env sw (bs.flatMap fun b => b.events) u ∧
      openFile env fuel (diskFile bs last) s = FileReader.onTool (open_ true) u := by
  obtain ⟨r, hopen, hahead⟩ := EvReader.evOpen_diskFile bs last fuel
  refine ⟨{ s with input := some r }, rfl, ⟨r, rfl, hahead⟩, ?_⟩
  rw [openFile, hopen, demand_some, pure_bind]
  rfl

/-- Before the next `k` calls of `Next`, with `b` in the dictionary. -/
structure Between (set : Settings) (full : Bool) (b : Bank) (k : Nat) (s : FileReader) : Prop where
  file : s.world.tool.fReadFromEt = false
  set : s.world.tool.set = set
  full : s.world.tool.fFullErase = full
  bank : s.world.tool.bank = b
  low : -2 ^ 31 + (k : Int) ≤ s.world.tool.fCurrentChunk
  high : s.world.tool.fCurrentChunk < 2 ^ 31

variable {set : Settings} {full : Bool} {b c : Bank} {k : Nat} {u : FileReader}

theorem Between.of_world (h : Between set full b k s) (hu : u.world = s.world) :
    Between set full b k u := by
  obtain ⟨hfile, hset, hfull, hbank, hlow, hhigh⟩ := h
  rw [← hu] at hfile hset hfull hbank hlow hhigh
  exact ⟨hfile, hset, hfull, hbank, hlow, hhigh⟩

theorem returns_nextEvent_nil (hs : Between set full b k s) (h : Facing env sw [] s) (fill fuel : Nat) :
    ∃ u, Returns (nextEvent env fill fuel) s EvioTool_Status_EOF u := by
  obtain ⟨u, hworld, heq⟩ := h.nextEvent_nil fill fuel
  refine ⟨u, (returns_of_eq heq).mpr (returns_onTool.mpr ⟨u.world, returns_next_eof ?_, rfl⟩)⟩
  exact (hs.of_world hworld).file

/-- One call of `Next`. -/
theorem returns_nextEvent_cons (hs : Between set full b (k + 1) s) (h : Facing env sw (d :: ds) s)
    (hparse : Returns (parseEvioBuff set (EvioBuf.mem ⟨d.words, 0⟩) fill fuel)
      ((if full then Bank.clearFull else Bank.clear) b) 0 c) :
    ∃ v, Returns (nextEvent env fill fuel) s 0 v ∧ Between set full c k v ∧ Facing env sw ds v := by
  obtain ⟨u, hworld, hface, heq⟩ := h.nextEvent_cons fill fuel
  have hu := hs.of_world hworld
  have hlow := hu.low
  have hhigh := hu.high
  push_cast at hlow
  have hcount : FitsInt (u.world.tool.fCurrentChunk - 1) := ⟨by omega, by omega⟩
  have hread : Returns (parseEvioBuff u.world.tool.set (EvioBuf.mem ⟨d.words, 0⟩) fill fuel)
      (u.world.tool.clear u.world.tool.bank) 0 c := by
    rw [Tool.clear, hu.set, hu.full, hu.bank]
    exact hparse
  refine ⟨_, (returns_of_eq heq).mpr (returns_onTool.mpr
    ⟨_, returns_next_ok hu.file (Int.sub_add_cancel ..).symm hcount hread, rfl⟩), ?_, hface⟩
  refine ⟨hu.file, hu.set, hu.full, rfl, ?_, ?_⟩
  · show _ ≤ u.world.tool.fCurrentChunk - 1
    omega
  · show u.world.tool.fCurrentChunk - 1 < _
    omega

theorem readEvents_items (env : ReadEnv) (set : Settings) (full : Bool) (fill : Nat) (es : List ItemEvent)
    (hlen : ∀ e ∈ es, e.words.length < 2 ^ 31) : ∀ b : Bank, b.All BankInfo.Plain → ∃ F, ∀ fuel, F ≤ fuel →
      ∀ {sw} {ds : List (DiskEvent env.swap sw)} {s : FileReader} {n : Nat}, es.length < n →
        ds.map (fun d => d.words) = es.map ItemEvent.words → Facing env sw ds s →
        Between set full b es.length s → ∃ t, Returns (readEvents env fill fuel n) s
          (ItemEvent.replaceAll set full es b, EvioTool_Status_EOF) t := by
  induction es with
  | nil =>
    refine fun b hb => ⟨0, fun fuel _ sw ds s n hn hds h hs => ?_⟩
    obtain rfl : ds = [] := by simpa using hds
    obtain ⟨n, rfl⟩ := Nat.exists_eq_add_of_le' (show 1 ≤ n by omega)
    obtain ⟨u, hnext⟩ := returns_nextEvent_nil hs h fill fuel
    refine ⟨u, hnext.bind ?_⟩
    rw [if_neg (by decide)]
    exact returns_pure.mpr ⟨rfl, rfl⟩
  | cons e es ih =>
    intro b hb
    have hclear : ((if full then Bank.clearFull else Bank.clear) b).All BankInfo.Plain := by
      split
      · exact Bank.plain_clearFull hb
      · exact Bank.plain_clear hb
    have hm : (EvioBuf.mem ⟨e.words, 0⟩).Holds 0 e.words := Mem.holds_ofList _
    obtain ⟨hplain, F, hF⟩ : (e.replace set full b).All BankInfo.Plain ∧ ∃ F, ∀ fuel, F ≤ fuel →
        Returns (parseEvioBuff set (EvioBuf.mem ⟨e.words, 0⟩) fill fuel) _ 0 (e.replace set full b) :=
      e.returns_parse hm (hlen e (.head _)) hclear
    obtain ⟨G, hG⟩ := ih (fun e' he' => hlen e' (.tail _ he')) (e.replace set full b) hplain
    refine ⟨max F G, fun fuel hfuel sw ds s n hn hds h hs => ?_⟩
    obtain ⟨d, ds, rfl, hd, hds⟩ := List.map_eq_cons_iff.mp hds
    rw [List.length_cons] at hn
    obtain ⟨n, rfl⟩ := Nat.exists_eq_add_of_le' (show 1 ≤ n by omega)
    have hparse := hF fuel (le_trans (le_max_left F G) hfuel)
    rw [← hd] at hparse
    obtain ⟨v, hnext, hv, hface⟩ := returns_nextEvent_cons hs h hparse
    obtain ⟨t, ht⟩ := hG fuel (le_trans (le_max_right F G) hfuel) (show es.length < n by omega) hds hface hv
    refine ⟨t, hnext.bind ?_⟩
    rw [if_pos (show (0 : Int) = S_SUCCESS from rfl)]
    refine Returns.bind (returns_gets.mpr ⟨rfl, rfl⟩) (ht.bind ?_)
    exact returns_pure.mpr ⟨by rw [hv.bank]; rfl, rfl⟩

theorem exists_closeFile (s : FileReader) : ∃ t, Returns closeFile s () t := by
  have hclose : ∃ w, Returns close s.world () w := by
    cases het : s.world.tool.fReadFromEt <;> simp [close, het, modifyTool, call]
  obtain ⟨w, hw⟩ := hclose
  exact ⟨{ world := w }, (returns_onTool.mpr ⟨w, hw, rfl⟩).bind ((returns_modify (r := ())).mpr rfl)⟩

/-- Over a file of either byte order `Next` finds one event after the other, until the file is at its
end: after each of them the dictionary has what is in that event, and nothing of the ones before it. -/
theorem readFile_items (bs : List (DiskBlock env.swap sw)) (last : Nat) (es : List ItemEvent)
    (hes : (bs.flatMap fun b => b.events).map (fun d => d.words) = es.map ItemEvent.words)
    (het : s.world.tool.fReadFromEt = false) (hplain : s.world.tool.bank.All BankInfo.Plain)
    (hlow : -2 ^ 31 + (es.length : Int) ≤ s.world.tool.fCurrentChunk)
    (hhigh : s.world.tool.fCurrentChunk < 2 ^ 31) (fill : Nat) :
    ∃ F, ∀ fuel, F ≤ fuel → ∃ t, Returns (readFile env fill fuel (diskFile bs last)) s
      (ItemEvent.replaceAll s.world.tool.set s.world.tool.fFullErase es s.world.tool.bank,
        EvioTool_Status_EOF) t := by
  have hlen : ∀ e ∈ es, e.words.length < 2 ^ 31 := by
    intro e he
    have hmem : e.words ∈ (bs.flatMap fun b => b.events).map (fun d => d.words) := by
      rw [hes]
      exact List.mem_map_of_mem he
    obtain ⟨d, -, hd⟩ := List.mem_map.mp hmem
    have := d.fits
    rw [← hd]
    omega
  obtain ⟨F, hF⟩ := readEvents_items env s.world.tool.set s.world.tool.fFullErase fill es hlen _ hplain
  refine ⟨max F (es.length + 1), fun fuel hfuel => ?_⟩
  obtain ⟨u, hworld, hface, heq⟩ := openFile_eq s fuel bs last
  let v : FileReader := { u with world := { u.world with tool := { u.world.tool with fIsOpen := true } } }
  have hopen : Returns (openFile env fuel (diskFile bs last)) s 0 v := by
    refine (returns_of_eq heq).mpr (returns_onTool.mpr ⟨v.world, ?_, rfl⟩)
    exact ((returns_modify (r := ())).mpr rfl).bind (returns_pure.mpr ⟨rfl, rfl⟩)
  have hstart : Between s.world.tool.set s.world.tool.fFullErase s.world.tool.bank es.length s :=
    ⟨het, rfl, rfl, rfl, hlow, hhigh⟩
  obtain ⟨hfile, hset, hfull, hbank, hlow, hhigh⟩ := hstart.of_world hworld
  have hface' : Facing env sw (bs.flatMap fun b => b.events) v := hface
  obtain ⟨t, ht⟩ := hF fuel (le_trans (le_max_left F _) hfuel) (show es.length < fuel by omega) hes hface'
    ⟨hfile, hset, hfull, hbank, hlow, hhigh⟩
  obtain ⟨c, hclose⟩ := exists_closeFile t
  exact ⟨c, hopen.bind (ht.bind (hclose.bind (returns_pure.mpr ⟨rfl, rfl⟩)))⟩

theorem kind_bank10 : Container.bank10.kind = .bank := rfl

theorem wf_smallItems : (Item.container 0 1 .bank10 smallItems).WF .bank := by
  simp only [smallItems, Item.WF, Item.WFAll]
  decide

def smallEvent : ItemEvent where
  tag := 0
  num := 1
  container := .bank10
  items := smallItems
  banks := kind_bank10
  wf := wf_smallItems

def smallBlock : DiskBlock numbersRead.swap false where
  num := 1
  events :=
    let e : EvioEvent := { words := smallEvent.words, size := by decide, fits := by decide }
    [e.local numbersRead.swap, e.local numbersRead.swap]
  some := List.cons_ne_nil _ _
  fits := by decide

def smallReader : FileReader := { world := { tool := { bank := emptyTop, set := { fAutoAdd := true } } } }

theorem readFile_smallEvents :
    ∃ F, ∀ fuel, F ≤ fuel → ∃ t, Returns (readFile numbersRead 0 fuel (diskFile [smallBlock] 2)) smallReader
      (ItemEvent.replaceAll { fAutoAdd := true } false [smallEvent, smallEvent] emptyTop,
        EvioTool_Status_EOF) t :=
  readFile_items [smallBlock] 2 [smallEvent, smallEvent] (by decide) rfl emptyTop_plain (by decide)
    (by decide) 0

end FileReader

end EvioTool
