import Mathlib.Algebra.Order.BigOperators.Group.List
import EvioTool.Laws.ConfigStops
import EvioTool.Laws.FilterReads
import EvioTool.Laws.Finish

namespace EvioTool

open Lib Exec

section Finish

variable {set : Settings} {mem : Mem} {fill N : Nat} {k : Kind} {enclosing mark : UInt16}
  {buf depth : Int} {trees : List Tree}

/-- Nothing but the event is to blame when the visit stops. -/
def Settles (set : Settings) (mem : Mem) (fill : Nat) (t : Tree) : Prop :=
  ∀ (k : Kind) (enclosing mark : UInt16) (buf depth : Int) (b : Bank), 0 ≤ buf →
    Stops Halt.Final (fun _ => False) (visit set mem fill k enclosing mark buf depth t) b

theorem settles_all (ih : ∀ t ∈ trees, Settles set mem fill t) (hb : 0 ≤ buf) (b : Bank) :
    Stops Halt.Final (fun _ => False) (visitAll set mem fill k enclosing mark buf depth trees) b := by
  induction trees generalizing mark buf b with
  | nil => exact stops_pure
  | cons t ts iht =>
    refine (ih t (by simp) _ _ _ _ _ _ hb).bind fun _ c _ => ?_
    exact iht (fun u hu => ih u (by simp [hu])) (by omega) c

theorem settles (hm : mem.Below N) (hN : N ≤ 2 ^ 32) (hf : 4 * N + 1 < fill) (t : Tree) :
    Settles set mem fill t := by
  induction t using Tree.ind with
  | leaf tag num contentType padding payload =>
    intro k enclosing mark buf depth b hb
    have hpos : 0 < k.dataOffset := by cases k <;> decide
    have hbuf : 0 < buf + k.dataOffset := by omega
    rw [visit]
    cases leafCase contentType padding with
    | none => exact stops_pure
    | some r =>
      obtain ⟨T, n, d⟩ := r
      refine (Stops.mapLog (stops_int32.bind fun _ _ _ => stops_int32)).bind fun count c _ => ?_
      refine Stops.bind (Stops.zoom Halt.final_undefined fun i => ?_) fun _ _ _ => stops_pure
      refine stops_gets.bind fun f j hf' => stops_tell.bind fun _ _ _ => Stops.mapLog ?_
      obtain ⟨rfl, -⟩ := returns_gets.mp hf'
      exact stops_fillSwitch hm hN hf hbuf
  | container tag num c trees ih =>
    intro k enclosing mark buf depth b hb
    have hall (b : Bank) : Stops Halt.Final (fun _ => False)
        (visitAll set mem fill c.kind tag tag (buf + k.dataOffset) (depth + 1) trees) b :=
      settles_all ih (by omega) b
    rw [visit]
    refine (Stops.mapLog stops_containerNodeHandler).bind fun x d _ => ?_
    rcases x with _ | _ | i
    · exact stops_pure
    · exact hall d
    · exact Stops.zoom Halt.final_undefined hall

theorem stops_visitEvent {tag : UInt16} {num : UInt8} {c : Container} (hm : mem.Below N)
    (hN : N ≤ 2 ^ 32) (hf : 4 * N + 1 < fill) (b : Bank) :
    Stops Halt.Final (fun _ => False) (visitEvent set mem fill tag num c trees) b := by
  refine stops_modify.bind fun _ d _ => stops_gets.bind fun pass e _ => ?_
  dsimp only
  split
  · exact stops_pure
  · split
    · exact stops_pure
    · split
      · exact settles hm hN hf _ _ _ _ _ _ _ le_rfl
      · exact (Stops.mapLog stops_int32).bind fun _ _ _ =>
          settles hm hN hf _ _ _ _ _ _ _ le_rfl

end Finish

namespace FileEvent

variable {a : FilterArgs} {uninit : UInt32} {e : FileEvent} {ws behind : List UInt32}

def toEvent (e : FileEvent) (behind : List UInt32) : Event where
  tag := e.tag
  num := e.num
  container := e.container
  trees := e.trees
  buf := ⟨e.words ++ behind, 0⟩
  wf := e.wf
  holds := (Mem.holds_ofList (e.words ++ behind)).append.1

theorem event_words (e : FileEvent) (behind : List UInt32) :
    EvioBuf.event ⟨e.words ++ behind, 0⟩ = some e.words := by
  obtain ⟨-, -, -, -, hfit⟩ : Kind.bank.Fits _ _ _ _ _ := e.wf.1
  have hlen : (UInt32.ofNat ((Tree.encodeAll e.container.kind e.trees).length + 1)).toNat =
      (Tree.encodeAll e.container.kind e.trees).length + 1 := UInt32.toNat_ofNat_of_lt' hfit
  have hwords : e.words.length = (Tree.encodeAll e.container.kind e.trees).length + 1 + 1 := by
    simp only [words, Tree.encode, List.length_append, Kind.length_header, Kind.dataOffset]
    omega
  have hhead : (e.words ++ behind).head? =
      some (UInt32.ofNat ((Tree.encodeAll e.container.kind e.trees).length + 1)) := rfl
  rw [EvioBuf.event, List.drop_zero, hhead, Option.bind_eq_bind, Option.bind_some]
  dsimp only
  rw [hlen, ← hwords, if_pos (by rw [List.length_append]; omega), List.take_left]

def trigPath : List (Nat × (TagNum → Bool)) := [(0, fun k => k.1 = 46)]

def isTrigger (k : TagNum) : Bool := k.1 = 57610

def seen (e : FileEvent) : List UInt32 :=
  (payloads isTrigger trigPath ((e.toEvent []).contents {} filterTop.label)).flatten

theorem payloads_trigWords (trees : List Tree) :
    (payloads isTrigger [] trees).flatten = trigWords trees := by
  induction trees with
  | nil => rfl
  | cons t ts ih =>
    rw [← List.singleton_append, payloads_append, List.flatten_append, ih]
    cases t with
    | leaf tag num contentType padding payload =>
      simp only [payloads, isTrigger, trigWords, List.filterMap_cons, List.filterMap_nil,
        List.flatMap_append, List.flatMap_singleton]
      split <;> simp_all
    | container tag num c trees => simp [payloads, trigWords]

theorem payloads_pruned {leaf : TagNum → Bool} {depth : Int} (h : ¬Settings.Prunes {} depth)
    (trees : List Tree) : payloads leaf [] (Tree.pruneAll {} depth trees) = payloads leaf [] trees := by
  induction trees with
  | nil => rfl
  | cons t ts ih =>
    rw [Tree.pruneAll, payloads_append, ih, ← List.singleton_append, payloads_append]
    cases t with
    | leaf tag num contentType padding payload => rfl
    | container tag num c trees =>
      rw [Tree.prune, if_neg h]
      rfl

theorem payloads_trigBanks (trees : List Tree) :
    (payloads isTrigger trigPath (Tree.pruneAll {} 1 trees)).flatten =
      (trees.filterMap trigBank?).flatMap trigWords := by
  induction trees with
  | nil => rfl
  | cons t ts ih =>
    rw [Tree.pruneAll, payloads_append, List.flatten_append, ih]
    cases t with
    | leaf tag num contentType padding payload => rfl
    | container tag num c trees =>
      have hprune (depth : Int) (h : depth ∈ [1, 2]) : ¬Settings.Prunes {} depth := by
        simp only [List.mem_cons, List.not_mem_nil, or_false] at h
        obtain rfl | rfl := h <;> decide
      rw [Tree.prune, if_neg (hprune 1 (by decide)), trigPath, payloads_container]
      by_cases htag : tag = 46
      · have hbank : trigBank? (.container tag num c trees) = some trees := if_pos htag
        rw [if_pos (by simpa using htag), payloads_pruned (hprune (1 + 1) (by decide)),
          payloads_trigWords, List.filterMap_cons_some hbank, List.flatMap_cons]
      · have hbank : trigBank? (.container tag num c trees) = none := if_neg htag
        rw [if_neg (by simpa using htag), List.filterMap_cons_none hbank]
        rfl

def IsRead (e : FileEvent) : Prop :=
  e.passes = true ∧ (Tree.encodeAll e.container.kind e.trees).length + 2 < 2 ^ 31

instance : DecidablePred IsRead := fun _ => inferInstanceAs (Decidable (_ ∧ _))

theorem seen_eq (e : FileEvent) :
    e.seen = if e.IsRead then e.trigBanks.flatMap trigWords else [] := by
  have hpass : filterTop.label.checkTag e.tag = e.passes := rfl
  unfold seen Event.contents IsRead
  simp only [toEvent, hpass, e.banks]
  cases e.passes with
  | false => simp [payloads_nil]
  | true =>
    by_cases hlen : (Tree.encodeAll .bank e.trees).length + 2 < 2 ^ 31
    · have hprune : Settings.Prunes {} 0 := by decide
      simp only [hlen]
      simp only [ne_eq, not_true_eq_false, Bool.not_true, Bool.false_eq_true, or_self, and_false,
        if_false, if_true, and_self, Tree.prune, if_pos hprune]
      exact payloads_trigBanks e.trees
    · have hprune : Settings.Prunes {} 0 := by decide
      simp only [hlen]
      simp [Tree.prune, if_pos hprune, Tree.pruneAll, payloads_nil]

end FileEvent

section Reader

variable {set : Settings} {mem : Mem} {fill fuel : Nat} {b c : Bank} {w u : World}
  {ws : List UInt32} {r : Int}

theorem stat_parseEvioBuff {h : Header} (hh : headerAt mem 0 0x10 = some h)
    (hc : h.contentType = 0x10 ∨ h.contentType = 0xE)
    (hr : Returns (parseEvioBuff set mem fill fuel) b r c) : r = 0 := by
  simp only [headerAt, Option.bind_eq_some_iff, Option.map_eq_some_iff, zero_add] at hh
  obtain ⟨w0, h0, w1, h1, rfl⟩ := hh
  unfold parseEvioBuff at hr
  obtain ⟨w, d, hw, hr⟩ := returns_bind.mp hr
  obtain rfl : w = w1 := Option.some.inj ((returns_readWord.mp hw).1.symm.trans h1)
  obtain ⟨_, e, -, hr⟩ := returns_bind.mp hr
  obtain ⟨pass, f, -, hr⟩ := returns_bind.mp hr
  simp only [bankHeader] at hc
  rw [if_neg (by tauto)] at hr
  split at hr
  · exact (returns_pure.mp hr).1
  · obtain ⟨_, g, -, hr⟩ := returns_bind.mp hr
    exact (returns_pure.mp hr).1

theorem FileEvent.stat {e : FileEvent} {t : Tool}
    (hr : Returns (readEvent t fill fuel (e.toEvent ws).buf) b r c) : r = 0 := by
  obtain ⟨_, d, -, hr⟩ := returns_bind.mp hr
  have hh : headerAt (e.toEvent ws).buf.mem 0 0x10 = _ :=
    headerAt_of_holds (k := .bank) (by decide) e.wf.1 (e.toEvent ws).holds.append.1
  refine stat_parseEvioBuff hh ?_ hr
  have hbanks := e.banks
  cases hc : e.container <;> simp_all [Kind.decoded, Container.contentType, Container.kind]

theorem returns_nextNoParse_file (het : w.tool.fReadFromEt = false) :
    Returns (nextNoParse { read := .ok ws }) w S_SUCCESS
      { w with tool := { w.tool with fEvioBuf := some ⟨ws, 0⟩, fEventValid := true } } := by
  simp [nextNoParse, het, modifyTool]

theorem reads_file (het : w.tool.fReadFromEt = false) : Reads { read := .ok ws } w ⟨ws, 0⟩ :=
  ⟨_, returns_nextNoParse_file het, rfl⟩

theorem tracks_endEvent_file {put : Int} {n : Nat} (het : w.tool.fReadFromEt = false)
    (hn : w.tool.fCurrentChunk = -1 - n) :
    Tracks (endEvent put) (if n + 1 < 2 ^ 31 then some () else none) (fun _ _ u =>
      u = { w with tool := { w.tool with fEventValid := false, fCurrentChunk := -1 - (n + 1 : Nat) } }) w := by
  have hskip : (w.tool.fEventValid && w.tool.fReadFromEt && w.tool.fCurrentChunk == 0) = false := by
    rw [het, Bool.and_false, Bool.false_and]
  have hfits : FitsInt (w.tool.fCurrentChunk - 1) ↔ n + 1 < 2 ^ 31 := by
    rw [hn, FitsInt]
    omega
  have hint : Tracks (int32 (w.tool.fCurrentChunk - 1)) (if n + 1 < 2 ^ 31 then some _ else none) _ w :=
    if_congr hfits rfl rfl ▸ tracks_int32 (w.tool.fCurrentChunk - 1)
  have hrest : (if n + 1 < 2 ^ 31 then some () else none) =
      (if n + 1 < 2 ^ 31 then some (w.tool.fCurrentChunk - 1) else none).map fun _ => () := by
    split <;> rfl
  unfold endEvent
  refine Tracks.gets_bind ?_
  rw [hskip, if_neg Bool.false_ne_true, pure_bind, hrest, Option.map_eq_bind]
  dsimp only
  rw [if_neg (not_not.mpr rfl)]
  refine hint.bind fun x y u hx hy => ?_
  have hchunk : y = -1 - (n + 1 : Nat) := by
    split at hx
    · rw [hy.1, ← Option.some.inj hx, hn]
      omega
    · cases hx
  rw [hy.2, hchunk]
  exact Tracks.modify_bind (tracks_pure rfl)

theorem returns_next_eof (het : w.tool.fReadFromEt = false) :
    Returns (next fill fuel { read := .eof }) w EvioTool_Status_EOF w := by
  have hparse : Returns (nextNoParse { read := .eof }) w EvioTool_Status_EOF w := by
    simp [nextNoParse, het]
  refine hparse.bind ?_
  rw [if_pos (by decide)]
  exact returns_pure.mpr ⟨rfl, rfl⟩

end Reader

def TriggerAt (ws : List UInt32) (l : Leaf (.prim .uint32)) : Prop :=
  l.data.map UInt32.ofBitVec = ws ∧ l.cls = .leaf

theorem takes_trigger : Takes TriggerAt fun ws payload ws' => ws' = ws ++ payload := by
  rintro _ l payload m ⟨rfl, hc⟩ hcall
  have hcls : (l.pushDataArray (payload.map UInt32.toBitVec)).cls = .leaf := hc
  rw [Leaf.callBack, hcls] at hcall
  cases hcall
  exact ⟨_, rfl, LeafPtr.words_push l payload, rfl⟩

theorem steps_trigger {ws ws' : List UInt32} {wss : List (List UInt32)}
    (h : Steps (fun ws payload ws' => ws' = ws ++ payload) ws wss ws') : ws' = ws ++ wss.flatten := by
  induction h with
  | nil => exact (List.append_nil _).symm
  | cons hstep _ ih => rw [ih, hstep, List.flatten_cons, List.append_assoc]

/-- The reader between two events: it has read `n` of them, and `ws` are the trigger words of the
last one. -/
structure World.Ready (n : Nat) (ws : List UInt32) (w : World) : Prop where
  et : w.tool.fReadFromEt = false
  set : w.tool.set = {}
  keep : w.tool.fFullErase = false
  shape : Bank.shape w.tool.bank = Bank.shape filterTop
  leads : w.tool.bank.Leads (BankInfo.LeafAt FileEvent.isTrigger 1 (TriggerAt ws)) FileEvent.trigPath
  few : n < 2 ^ 31
  chunk : w.tool.fCurrentChunk = -1 - n

/-- The reader behind the `n`-th event, with what is in its leaves. -/
structure World.Past (n : Nat) (e : FileEvent) (behind : List UInt32) (h : Held) (w : World) : Prop where
  ready : w.Ready n e.seen
  buffer : w.tool.fEvioBuf = some ⟨e.words ++ behind, 0⟩
  lines : w.configLines = some h.lines

section World

variable {fill fuel n : Nat} {e : FileEvent} {w u : World} {ws behind : List UInt32} {r : Int} {h : Held}

theorem World.Ready.address (hw : w.Ready n ws) :
    w.tool.bank.label.address = filterTop.label.address := by
  have hshape (i : BankInfo) : i.shape.address = i.address := rfl
  rw [← hshape, label_of_shape hw.shape, hshape]

theorem World.Ready.trigger (hw : w.Ready n ws) : Filter.trigger { world := w } = some ws := by
  have hleads := hw.leads
  unfold Filter.trigger
  cases hb : w.tool.bank with
  | node i bs =>
    rw [hb] at hleads
    cases hleads with
    | sub hcls hn hlead hc =>
      cases hc with
      | here hc =>
        obtain ⟨l, hl, hws, -⟩ := hc.leaf
        simp [hn, hl, hws]

theorem Held.In.configLines (hb : h.In w.tool.bank) : w.configLines = some h.lines := by
  obtain ⟨l, hl, hlines⟩ := hb.lines
  simp [World.configLines, hl, hlines]

theorem World.Ready.readEvent (hw : w.Ready n ws) (e : FileEvent) (behind : List UInt32) :
    readEvent w.tool fill fuel ⟨e.words ++ behind, 0⟩ =
      readEvent { bank := filterTop } fill fuel (e.toEvent behind).buf := by
  rw [EvioTool.readEvent, EvioTool.readEvent, Tool.clear, Tool.clear, hw.keep, hw.set]
  rfl

theorem tracks_next_held (e : FileEvent) (behind : List UInt32) {fill : Nat}
    (hfill : 4 * (e.words ++ behind).length < fill) : ∃ F, ∀ fuel, F ≤ fuel → ∀ w n ws,
      World.Ready n ws w → Tracks (next fill fuel { read := .ok (e.words ++ behind) })
        (if n + 1 < 2 ^ 31 then e.held behind else none) (fun h _ u => h.In u.tool.bank ∧
          u.tool.fReadFromEt = false ∧ u.tool.fEvioBuf = some ⟨e.words ++ behind, 0⟩ ∧
          u.tool.fCurrentChunk = -1 - (n + 1 : Nat)) w := by
  obtain ⟨F, hF⟩ := tracks_parseEvioBuff e behind hfill
  refine ⟨F, fun fuel hfuel w n ws hw => ?_⟩
  have hsplit : (if n + 1 < 2 ^ 31 then e.held behind else none) = e.held behind >>= fun h =>
      (if n + 1 < 2 ^ 31 then some () else none).map fun _ => h := by
    cases e.held behind <;> split <;> rfl
  have hfile : Returns (nextNoParse { read := .ok (e.words ++ behind) }) w S_SUCCESS _ :=
    returns_nextNoParse_file hw.et
  rw [hsplit]
  refine Tracks.after hfile ?_
  rw [if_neg (by simp)]
  refine Tracks.gets_bind (Tracks.after (a := ()) (returns_onBank.mpr ⟨_, returns_modify.mpr rfl, rfl⟩)
    (Tracks.after (returns_demand.mpr ⟨rfl, rfl⟩) ?_))
  have hset : w.tool.set = {} := hw.set
  have hkeep : w.tool.fFullErase = false := hw.keep
  simp only [hset, hkeep, Bool.false_eq_true, if_false]
  refine Tracks.bind (P := fun h _ u => h.In u.tool.bank ∧ u.tool.fReadFromEt = false ∧
    u.tool.fEvioBuf = some ⟨e.words ++ behind, 0⟩ ∧ u.tool.fCurrentChunk = -1 - (n : Int))
    (Tracks.zoom rfl (hF fuel hfuel _ (.cleared hw.shape)) fun h _ c hc => ⟨hc, hw.et, rfl, hw.chunk⟩)
    fun h stat u _ hu => ?_
  refine (tracks_endEvent_file hu.2.1 hu.2.2.2).map fun _ _ v hv => ?_
  subst hv
  exact ⟨hu.1, hu.2.1, hu.2.2.1, rfl⟩

theorem stops_parse_file (e : FileEvent) (behind : List UInt32) {fill : Nat}
    (hfits : (e.words ++ behind).length ≤ 2 ^ 32) (hfill : 4 * (e.words ++ behind).length + 1 < fill) :
    ∃ F, ∀ fuel, F ≤ fuel → ∀ b, Stops Halt.Final (fun _ => False)
      (parseEvioBuff {} (EvioBuf.mem ⟨e.words ++ behind, 0⟩) fill fuel) b := by
  obtain ⟨F, hF⟩ : ∃ F, ∀ fuel, F ≤ fuel → ∀ b, Follows (parseEvioBuff {} (e.toEvent behind).buf.mem fill fuel >>=
    fun _ => pure ()) _ b := followsEvent (e.toEvent behind).wf (e.toEvent behind).holds
  refine ⟨F, fun fuel hfuel b err herr => .inl ?_⟩
  have hm : (EvioBuf.mem ⟨e.words ++ behind, 0⟩).Below (e.words ++ behind).length := by
    intro x w hw
    have hbelow := Mem.below_ofList (e.words ++ behind) (x + 0) w hw
    simpa using hbelow
  have hout := (hF fuel hfuel b).out.trans (out_bind_of_error herr)
  refine (stops_visitEvent hm hfits hfill b err hout).resolve_right ?_
  rintro ⟨_, _, h⟩
  exact h

theorem stops_endEvent {put : Int} (w : World) :
    Stops Halt.Final (fun _ => False) (endEvent put) w := by
  have hrest (status : Int) (t : Tool) (w : World) : Stops Halt.Final (fun _ => False)
      (if status ≠ ET_OK then pure status
        else do
          let c ← int32 (t.fCurrentChunk - 1)
          modifyTool fun t => { t with fEventValid := false, fCurrentChunk := c }
          pure ET_OK) w := by
    split
    · exact stops_pure
    · exact stops_int32.bind fun _ _ _ => stops_modify.bind fun _ _ _ => stops_pure
  refine stops_gets.bind fun t v _ => ?_
  dsimp only
  split
  · refine Stops.bind ?_ fun status u _ => hrest status t u
    exact stops_gets.bind fun _ _ _ => (stops_demand Halt.final_undefined).bind fun _ _ _ =>
      stops_modify.bind fun _ _ _ => stops_pure
  · exact stops_pure.bind fun status u _ => hrest status t u

theorem seen_next (fill : Nat) (e : FileEvent) (behind : List UInt32) : ∃ F, ∀ fuel, F ≤ fuel →
    ∀ w u n ws r, World.Ready n ws w → Returns (next fill fuel { read := .ok (e.words ++ behind) }) w r u →
      r = S_SUCCESS ∧ u.tool.set = {} ∧ u.tool.fFullErase = false ∧
        u.tool.bank.Leads (BankInfo.LeafAt FileEvent.isTrigger 1 (TriggerAt e.seen)) FileEvent.trigPath := by
  obtain ⟨F, hF⟩ : ∃ F, ∀ fuel, F ≤ fuel → ∀ b c ws r, Bank.Leads _ FileEvent.trigPath b →
      Returns (readEvent { bank := filterTop } fill fuel (e.toEvent behind).buf) b r c → _ :=
    fills_readEvent takes_trigger (z := fun _ => []) (fun _ _ h => ⟨rfl, h.2⟩) rfl (e.toEvent behind)
  refine ⟨F, fun fuel hfuel w u n ws r hw hr => ?_⟩
  obtain ⟨hread, hset, hfull⟩ := (reads_file hw.et).returns hr
  rw [hw.readEvent e behind] at hread
  obtain ⟨⟨ws', hsteps, hleads⟩, -⟩ := hF fuel hfuel _ _ _ _ hw.leads hread
  obtain rfl := steps_trigger hsteps
  rw [contents_of_address hw.address] at hleads
  exact ⟨e.stat hread, hset.trans hw.set, hfull.trans hw.keep, hleads⟩

theorem tracks_next (e : FileEvent) (behind : List UInt32) {fill : Nat}
    (hfill : 4 * (e.words ++ behind).length < fill) : ∃ F, ∀ fuel, F ≤ fuel → ∀ w n ws,
      World.Ready n ws w → Tracks (next fill fuel { read := .ok (e.words ++ behind) })
        (if n + 1 < 2 ^ 31 then e.held behind else none)
        (fun h r u => r = S_SUCCESS ∧ u.Past (n + 1) e behind h) w := by
  obtain ⟨F, hF⟩ := tracks_next_held e behind hfill
  obtain ⟨G, hG⟩ := seen_next fill e behind
  refine ⟨max F G, fun fuel hfuel w n ws hw => ?_⟩
  have hboth := (hF fuel (by omega) w n ws hw).and fun r u hr => hG fuel (by omega) w u n ws r hw hr
  by_cases hfew : n + 1 < 2 ^ 31
  · rw [if_pos hfew] at hboth ⊢
    refine hboth.mono fun h r u hu => ?_
    obtain ⟨⟨hin, het, hbuf, hchunk⟩, hstat, hset, hkeep, hleads⟩ := hu
    exact ⟨hstat, ⟨het, hset, hkeep, hin.shape, hleads, hfew, hchunk⟩, hbuf, hin.configLines⟩
  · rw [if_neg hfew] at hboth ⊢
    exact hboth

theorem stops_next_file (e : FileEvent) (behind : List UInt32) {fill : Nat}
    (hfits : (e.words ++ behind).length ≤ 2 ^ 32) (hfill : 4 * (e.words ++ behind).length + 1 < fill) :
    ∃ F, ∀ fuel, F ≤ fuel → ∀ w n ws, World.Ready n ws w → Stops Halt.Final (fun _ => False)
      (next fill fuel { read := .ok (e.words ++ behind) }) w := by
  obtain ⟨F, hF⟩ := stops_parse_file e behind hfits hfill
  refine ⟨F, fun fuel hfuel w n ws hw => ?_⟩
  have hfile : Returns (nextNoParse { read := .ok (e.words ++ behind) }) w S_SUCCESS _ :=
    returns_nextNoParse_file hw.et
  refine hfile.stops.bind fun stat v hv => ?_
  obtain ⟨rfl, rfl⟩ := hfile.det hv
  rw [if_neg (by simp)]
  refine stops_gets.bind fun t u ht => ?_
  obtain ⟨rfl, rfl⟩ := returns_gets.mp ht
  refine (Stops.zoom Halt.final_undefined fun _ => stops_modify).bind fun _ _ _ => ?_
  refine (stops_demand Halt.final_undefined).bind fun buf u hbuf => ?_
  obtain rfl := Option.some.inj (returns_demand.mp hbuf).1
  refine Stops.bind (Stops.zoom Halt.final_undefined fun b => ?_) fun _ _ _ =>
    (stops_endEvent _).bind fun _ _ _ => stops_pure
  have hset : w.tool.set = {} := hw.set
  simp only [hset]
  exact hF fuel hfuel b

theorem World.Ready.setOpen (hw : w.Ready n ws) (x : Bool) :
    World.Ready n ws { w with tool := { w.tool with fIsOpen := x } } :=
  ⟨hw.et, hw.set, hw.keep, hw.shape, hw.leads, hw.few, hw.chunk⟩

theorem returns_open_file (w : World) :
    Returns (open_ true) w 0 { w with tool := { w.tool with fIsOpen := true } } := by
  simp [open_, modifyTool]

theorem returns_close_file (hw : w.Ready n ws) :
    Returns close w () { w with tool := { w.tool with fIsOpen := false } } := by
  simp [close, modifyTool, hw.et]

end World

section Config

variable {u : Uninit} {c : TriggerConfig} {lines : List Str}

theorem tracks_trigConfCallBack (hc : c.Sound) (lines : List Str) :
    Tracks (trigConfCallBack u lines) (if Parses u lines then some () else none)
      (fun _ _ c => c.Sound) c := by
  have hfill : Tracks (TriggerConfig.fill u lines) (if Parses u lines then some () else none)
      (fun _ _ c => c.Sound) c := by
    have hvars : Tracks (TriggerConfig.fill u lines)
        ((linesVars u (TriggerConfig.rawLines lines) {}).map fun _ => ()) (fun _ _ c => c.Sound) c :=
      (tracks_fill hc lines).relabel fun _ _ _ h => h
    have hparses : (linesVars u (TriggerConfig.rawLines lines) {}).map (fun _ => ()) =
        if Parses u lines then some () else none := by
      cases hv : linesVars u (TriggerConfig.rawLines lines) {} <;> simp [Parses, hv]
    rwa [hparses] at hvars
  unfold trigConfCallBack
  by_cases hnil : lines = []
  · subst hnil
    exact tracks_pure hc
  · rw [decide_eq_true hnil]
    exact hfill.quietly.congr (congrFun (bind_pure _) c)

theorem stops_trigConfCallBack (c : TriggerConfig) :
    Stops Halt.Final (fun _ => False) (trigConfCallBack u lines) c :=
  (stops_quietly fun _ => Halt.final_undefined).when

end Config

structure Filter.Ready (n : Nat) (ws : List UInt32) (s : Filter) : Prop where
  world : s.world.Ready n ws
  config : s.config.Sound

section Loop

variable {a : FilterArgs} {uninit : UInt32} {u : Uninit} {fill fuel n : Nat} {e : FileEvent}
  {s t : Filter} {ws behind : List UInt32} {h : Held}

theorem returns_onWorld {α : Type} {m : Exec Halt Obs World α} {x : α} :
    Returns (onWorld m) s x t ↔ ∃ w, Returns m s.world x w ∧ t = { s with world := w } := by
  constructor
  · intro h
    obtain ⟨w, u, hw, hu, rfl⟩ := returns_zoom.mp h
    cases hw
    exact ⟨u, hu, rfl⟩
  · rintro ⟨u, hu, rfl⟩
    exact returns_zoom.mpr ⟨_, u, rfl, hu, rfl⟩

theorem stops_onWorld {α : Type} {m : Exec Halt Obs World α}
    (h : Stops Halt.Final (fun _ => False) m s.world) :
    Stops Halt.Final (fun _ => False) (onWorld m) s := h

theorem tracks_callTrigConf {lines : List Str} (hc : s.config.Sound)
    (hl : s.world.configLines = some lines) :
    Tracks (callTrigConf u) (if Parses u lines then some () else none)
      (fun _ _ t => t.world = s.world ∧ t.config.Sound ∧ t.written = s.written) s := by
  refine Tracks.gets_bind (Tracks.after (returns_demand.mpr ⟨hl, rfl⟩) ?_)
  exact Tracks.zoom rfl (tracks_trigConfCallBack hc lines) fun _ _ _ hc => ⟨rfl, hc, rfl⟩

theorem stops_callTrigConf : Stops Halt.Final (fun _ => False) (callTrigConf u) s :=
  stops_gets.bind fun _ _ _ => (stops_demand Halt.final_undefined).bind fun _ _ _ =>
    Stops.zoom Halt.final_undefined fun c => stops_trigConfCallBack c

theorem returns_evWrite {c : Bool} (hbuf : s.world.tool.fEvioBuf = some ⟨e.words ++ behind, 0⟩) :
    Returns (when c evWrite) s () { s with written := s.written ++ if c then [e.words] else [] } := by
  cases c with
  | false =>
    rw [if_neg Bool.false_ne_true, List.append_nil]
    exact returns_when_false.mpr rfl
  | true =>
    simp [evWrite, hbuf, e.event_words]

theorem tracks_decide (hpast : s.world.Past n e behind h) (hc : s.config.Sound) {β : Type}
    {o : Option β} {m : Exec Halt Obs Filter Unit} {P : β → Filter → Prop}
    (hm : ∀ t, t.Ready n e.seen →
      t.written = s.written ++ (if a.accepts uninit e.seen then [e.words] else []) →
      Tracks m o (fun y _ t => P y t) t) :
    Tracks (callTrigConf u >>= fun _ => gets Filter.trigger >>= fun x => demand .undefined x >>= fun data =>
        when (a.accepts uninit data) evWrite >>= fun _ => m)
      ((if Parses u h.lines then some () else none) >>= fun _ => o) (fun y _ t => P y t) s := by
  refine (tracks_callTrigConf hc hpast.lines).bind fun _ _ t _ ht => ?_
  obtain ⟨hworld, hconfig, hwritten⟩ := ht
  have htrigger : t.trigger = some e.seen := by
    rw [← hpast.ready.trigger, ← hworld]
    rfl
  refine Tracks.gets_bind (Tracks.after (returns_demand.mpr ⟨htrigger, rfl⟩) ?_)
  have hbuf := hpast.buffer
  rw [← hworld] at hbuf
  refine Tracks.after (returns_evWrite hbuf) (hm _ ⟨?_, hconfig⟩ (by rw [hwritten]))
  rw [hworld]
  exact hpast.ready

theorem FileEvent.readsTo_split (e : FileEvent) (u : Uninit) (behind : List UInt32) (n : Nat) {β : Type}
    (o : Option β) : (if n + 1 < 2 ^ 31 ∧ e.ReadsTo u behind then o else none) =
      (if n + 1 < 2 ^ 31 then e.held behind else none) >>= fun h =>
        (if Parses u h.lines then some () else none) >>= fun _ => o := by
  by_cases hfew : n + 1 < 2 ^ 31
  · rw [if_pos hfew]
    obtain hh | ⟨h, hh⟩ := Option.eq_none_or_eq_some (e.held behind)
    · have hnot : ¬e.ReadsTo u behind := by simp [ReadsTo, hh]
      rw [if_neg fun h => hnot h.2, hh]
      rfl
    · have hreads : e.ReadsTo u behind ↔ Parses u h.lines := by simp [ReadsTo, hh]
      rw [hh, Option.bind_eq_bind, Option.bind_some]
      by_cases hp : Parses u h.lines
      · rw [if_pos ⟨hfew, hreads.mpr hp⟩, if_pos hp]
        rfl
      · rw [if_neg fun h => hp (hreads.mp h.2), if_neg hp]
        rfl
  · rw [if_neg fun h => hfew h.1, if_neg hfew]
    rfl

theorem tracks_eventLoop (a : FilterArgs) (uninit : UInt32) (u : Uninit) {fill : Nat}
    (file : List BlockEvent) (hfill : ∀ e ∈ file, 4 * e.buffer.length < fill) :
    ∃ F, ∀ fuel, F ≤ fuel → ∀ s n ws, Filter.Ready n ws s →
      Tracks (eventLoop a uninit u fill fuel (file.map BlockEvent.buffer))
        (if n + file.length < 2 ^ 31 ∧ ∀ e ∈ file, e.ReadsTo u e.behind then some () else none)
        (fun _ _ t => (∃ ws', t.Ready (n + file.length) ws') ∧ t.written = s.written ++
          (file.filter fun e => a.accepts uninit e.seen).map fun e => e.words) s := by
  induction file with
  | nil =>
    refine ⟨0, fun fuel _ s n ws hs => ?_⟩
    rw [if_pos ⟨hs.world.few, fun _ h => absurd h List.not_mem_nil⟩]
    refine Tracks.after (returns_onWorld.mpr ⟨_, returns_next_eof hs.world.et, rfl⟩) (tracks_pure ?_)
    exact ⟨⟨ws, hs⟩, (List.append_nil _).symm⟩
  | cons e file ih =>
    obtain ⟨F, hF⟩ := ih fun e' he' => hfill e' (.tail _ he')
    obtain ⟨G, hG⟩ := tracks_next e.toFileEvent e.behind (hfill e (.head _))
    refine ⟨max F G, fun fuel hfuel s n ws hs => ?_⟩
    have hsplit : (if n + (e :: file).length < 2 ^ 31 ∧ ∀ e' ∈ e :: file, e'.ReadsTo u e'.behind
          then some () else none) =
        (if n + 1 < 2 ^ 31 then e.held e.behind else none) >>= fun h =>
          (if Parses u h.lines then some () else none) >>= fun _ =>
            if n + 1 + file.length < 2 ^ 31 ∧ ∀ e' ∈ file, e'.ReadsTo u e'.behind then some () else none := by
      rw [← FileEvent.readsTo_split]
      simp only [List.length_cons, List.forall_mem_cons]
      by_cases he : n + 1 < 2 ^ 31 ∧ e.ReadsTo u e.behind
      · rw [if_pos he]
        exact if_congr (by rw [and_iff_right he.2, Nat.add_assoc, Nat.add_comm 1]) rfl rfl
      · rw [if_neg he, if_neg fun h => he ⟨by omega, h.2.1⟩]
    rw [hsplit]
    have hnext : Tracks (onWorld (next fill fuel { read := .ok e.buffer })) _
        (fun h r (t : Filter) => r = S_SUCCESS ∧ t.world.Past (n + 1) e.toFileEvent e.behind h ∧
          t.config = s.config ∧ t.written = s.written) s :=
      Tracks.zoom rfl (hG fuel (by omega) s.world n ws hs.world) fun h r w hw => ⟨hw.1, hw.2, rfl, rfl⟩
    refine hnext.bind fun h r t _ ht => ?_
    obtain ⟨rfl, hpast, hconfig, hwritten⟩ := ht
    rw [if_pos rfl]
    refine tracks_decide hpast (hconfig ▸ hs.config) fun t' ht' hwritten' => ?_
    refine (hF fuel (by omega) t' (n + 1) e.seen ht').mono fun _ _ t'' ht'' => ?_
    refine ⟨?_, ?_⟩
    · obtain ⟨ws', hws'⟩ := ht''.1
      refine ⟨ws', ?_⟩
      rwa [List.length_cons, Nat.add_comm file.length, ← Nat.add_assoc]
    · rw [ht''.2, hwritten', hwritten, List.filter_cons]
      split <;> simp

theorem Filter.Ready.setOpen (hs : s.Ready n ws) (x : Bool) :
    Filter.Ready n ws { s with world := { s.world with tool := { s.world.tool with fIsOpen := x } } } :=
  ⟨hs.world.setOpen x, hs.config⟩

theorem tracks_triggerFilter (a : FilterArgs) (uninit : UInt32) (u : Uninit) {fill : Nat}
    (files : List (List BlockEvent)) (hfill : ∀ e ∈ files.flatten, 4 * e.buffer.length < fill) :
    ∃ F, ∀ fuel, F ≤ fuel → ∀ s n ws, Filter.Ready n ws s →
      Tracks (triggerFilter a uninit u fill fuel (files.map (List.map BlockEvent.buffer)))
        (if n + files.flatten.length < 2 ^ 31 ∧ ∀ e ∈ files.flatten, e.ReadsTo u e.behind
          then some () else none)
        (fun _ _ t => t.written = s.written ++
          (files.flatten.filter fun e => a.accepts uninit e.seen).map fun e => e.words) s := by
  induction files with
  | nil =>
    refine ⟨0, fun fuel _ s n ws hs => ?_⟩
    rw [if_pos ⟨hs.world.few, fun _ h => absurd h List.not_mem_nil⟩]
    exact tracks_pure (List.append_nil _).symm
  | cons file files ih =>
    obtain ⟨F, hF⟩ := ih fun e he => hfill e (by simp [he])
    obtain ⟨G, hG⟩ := tracks_eventLoop a uninit u file fun e he => hfill e (by simp [he])
    refine ⟨max F G, fun fuel hfuel s n ws hs => ?_⟩
    have hsplit : (if n + (file :: files).flatten.length < 2 ^ 31 ∧
          ∀ e ∈ (file :: files).flatten, e.ReadsTo u e.behind then some () else none) =
        (if n + file.length < 2 ^ 31 ∧ ∀ e ∈ file, e.ReadsTo u e.behind then some () else none) >>= fun _ =>
          if n + file.length + files.flatten.length < 2 ^ 31 ∧
            ∀ e ∈ files.flatten, e.ReadsTo u e.behind then some () else none := by
      simp only [List.flatten_cons, List.length_append, List.forall_mem_append, ← Nat.add_assoc]
      by_cases hfile : n + file.length < 2 ^ 31 ∧ ∀ e ∈ file, e.ReadsTo u e.behind
      · rw [if_pos hfile]
        exact if_congr (by tauto) rfl rfl
      · rw [if_neg hfile, if_neg fun h => hfile ⟨by omega, h.2.1⟩]
        rfl
    rw [hsplit]
    refine Tracks.after (returns_onWorld.mpr ⟨_, returns_open_file s.world, rfl⟩) ?_
    refine (hG fuel (by omega) _ n ws (hs.setOpen true)).bind fun _ _ t _ ht => ?_
    obtain ⟨⟨ws', ht⟩, hwritten⟩ := ht
    refine Tracks.after (returns_onWorld.mpr ⟨_, returns_close_file ht.world, rfl⟩) ?_
    refine (hF fuel (by omega) _ _ ws' (ht.setOpen false)).mono fun _ _ v hv => ?_
    rw [hv, hwritten, List.flatten_cons, List.filter_append, List.map_append, List.append_assoc]

theorem stops_evWrite : Stops Halt.Final (fun _ => False) evWrite s :=
  stops_gets.bind fun _ _ _ => (stops_demand Halt.final_undefined).bind fun _ _ _ =>
    (stops_demand Halt.final_outside).bind fun _ _ _ => stops_modify

theorem stops_eventLoop (a : FilterArgs) (uninit : UInt32) (u : Uninit) {fill : Nat}
    (file : List BlockEvent) (hfill : ∀ e ∈ file, 4 * e.buffer.length + 1 < fill) :
    ∃ F, ∀ fuel, F ≤ fuel → ∀ s n ws, Filter.Ready n ws s → Stops Halt.Final (fun _ => False)
      (eventLoop a uninit u fill fuel (file.map BlockEvent.buffer)) s := by
  induction file with
  | nil =>
    refine ⟨0, fun fuel _ s n ws hs => ?_⟩
    exact Stops.bind (stops_onWorld (returns_next_eof hs.world.et).stops) fun _ _ _ => stops_pure
  | cons e file ih =>
    obtain ⟨F, hF⟩ := ih fun e' he' => hfill e' (.tail _ he')
    have hlength : (e.words ++ e.behind).length ≤ 2 ^ 32 := List.length_append ▸ e.fits
    obtain ⟨G, hG⟩ := stops_next_file e.toFileEvent e.behind hlength (hfill e (.head _))
    obtain ⟨H, hH⟩ := tracks_next e.toFileEvent e.behind ((Nat.le_succ _).trans_lt (hfill e (.head _)))
    refine ⟨max F (max G H), fun fuel hfuel s n ws hs => ?_⟩
    refine (stops_onWorld (hG fuel (by omega) s.world n ws hs.world)).bind fun r t hr => ?_
    obtain ⟨w, hw, rfl⟩ := returns_onWorld.mp hr
    obtain ⟨h, -, rfl, hpast⟩ := (hH fuel (by omega) s.world n ws hs.world).returns hw
    rw [if_pos rfl]
    refine stops_callTrigConf.bind fun _ t ht => ?_
    obtain ⟨_, -, hworld, hconfig, -⟩ := (tracks_callTrigConf (s := { s with world := w }) hs.config hpast.lines).returns ht
    refine stops_gets.bind fun d t' ht' => ?_
    obtain ⟨rfl, rfl⟩ := returns_gets.mp ht'
    refine (stops_demand Halt.final_undefined).bind fun data t'' ht'' => ?_
    obtain ⟨-, rfl⟩ := returns_demand.mp ht''
    refine stops_evWrite.when.bind fun _ v hv => ?_
    obtain ⟨-, rfl⟩ := (returns_evWrite ((congrArg (·.tool.fEvioBuf) hworld).trans hpast.buffer)).det hv
    refine hF fuel (by omega) _ (n + 1) e.seen ⟨?_, hconfig⟩
    exact hworld ▸ hpast.ready

theorem stops_triggerFilter (a : FilterArgs) (uninit : UInt32) (u : Uninit) {fill : Nat}
    (files : List (List BlockEvent)) (hfill : ∀ e ∈ files.flatten, 4 * e.buffer.length + 1 < fill) :
    ∃ F, ∀ fuel, F ≤ fuel → ∀ s n ws, Filter.Ready n ws s → Stops Halt.Final (fun _ => False)
      (triggerFilter a uninit u fill fuel (files.map (List.map BlockEvent.buffer))) s := by
  induction files with
  | nil => exact ⟨0, fun fuel _ s n ws _ => stops_pure⟩
  | cons file files ih =>
    obtain ⟨F, hF⟩ := ih fun e he => hfill e (by simp [he])
    obtain ⟨G, hG⟩ := stops_eventLoop a uninit u file fun e he => hfill e (by simp [he])
    have hfile : ∀ e ∈ file, 4 * e.buffer.length < fill := fun e he =>
      (Nat.le_succ _).trans_lt (hfill e (by simp [he]))
    obtain ⟨H, hH⟩ := tracks_eventLoop a uninit u file hfile
    refine ⟨max F (max G H), fun fuel hfuel s n ws hs => ?_⟩
    have hopen : Returns (onWorld (open_ true)) s 0 _ := returns_onWorld.mpr ⟨_, returns_open_file s.world, rfl⟩
    refine hopen.stops.bind fun r t ht => ?_
    obtain ⟨-, rfl⟩ := hopen.det ht
    refine (hG fuel (by omega) _ n ws (hs.setOpen true)).bind fun _ v hv => ?_
    obtain ⟨_, -, ⟨ws', hready⟩, -⟩ := (hH fuel (by omega) _ n ws (hs.setOpen true)).returns hv
    have hclose : Returns (onWorld close) v () _ :=
      returns_onWorld.mpr ⟨_, returns_close_file hready.world, rfl⟩
    refine hclose.stops.bind fun _ x hx => ?_
    obtain ⟨-, rfl⟩ := hclose.det hx
    exact hF fuel (by omega) _ _ ws' (hready.setOpen false)

end Loop

section Decision

variable {a : FilterArgs} {uninit : UInt32} {e : FileEvent} {ws : List UInt32}

theorem accepts_nil :
    a.accepts uninit [] = true ↔ a.exclusive = true ∧ a.trigger_setting = 0 := by
  have hzero : (0 : UInt32) = a.trigger_setting ↔ a.trigger_setting = 0 := eq_comm
  simp [FilterArgs.accepts, TSBank.isTrigger, TSBank.isExactTrigger, TSBank.isFCup,
    TSBank.getTriggerInt, hzero]

theorem accepts_seven (h : ws.length = 7) : a.accepts uninit ws = true ↔
    (a.exclusive = false ∧ ws.getD 4 0 &&& a.trigger_setting ≠ 0) ∨
    (a.exclusive = true ∧ ws.getD 4 0 = a.trigger_setting) ∨
    (a.filter_FCup = true ∧ ws.getD 5 0 &&& 0x8000 ≠ 0) := by
  have hbit : (1 : UInt32) <<< 15 = 0x8000 := by decide
  simp [FilterArgs.accepts, TSBank.isTrigger, TSBank.isExactTrigger, TSBank.isFCup,
    TSBank.getTriggerInt, h, hbit, or_assoc]

namespace FileEvent

/-- The reader gets to trigger words of the event, or the arguments select an event with the
pattern 0 if and only if they select this one. -/
def Agrees (a : FilterArgs) (e : FileEvent) : Prop :=
  (e.IsRead ∧ e.trigBanks ≠ []) ∨
    (e.Selected a ↔ a.exclusive = true ∧ a.trigger_setting = 0)

instance (a : FilterArgs) : DecidablePred (Agrees a) :=
  fun _ => inferInstanceAs (Decidable ((_ ∧ ¬_ = []) ∨ _))

theorem seen_cases (a : FilterArgs) (uninit : UInt32) (h : e.TriggerShaped) :
    (e.IsRead ∧ e.trigBanks ≠ []) ∧ (a.accepts uninit e.seen = true ↔ e.Selected a) ∨
    ¬(e.IsRead ∧ e.trigBanks ≠ []) ∧ e.seen = [] := by
  rw [seen_eq]
  by_cases hread : e.IsRead
  · rw [if_pos hread]
    cases hbanks : e.trigBanks with
    | nil => exact .inr ⟨fun h => h.2 rfl, rfl⟩
    | cons trees rest =>
      have hone := h.one
      rw [hbanks] at hone
      obtain rfl : rest = [] := List.length_eq_zero_iff.mp (by simpa using hone)
      refine .inl ⟨⟨hread, by simp⟩, ?_⟩
      rw [List.flatMap_singleton, accepts_seven (h.seven trees (by simp [hbanks])), Selected, hbanks]
      simp [hread.1]
  · rw [if_neg hread]
    exact .inr ⟨fun h => hread h.1, rfl⟩

theorem agrees_iff (a : FilterArgs) (uninit : UInt32) (h : e.TriggerShaped) :
    e.Agrees a ↔ (a.accepts uninit e.seen = true ↔ e.Selected a) := by
  obtain ⟨hvis, hsame⟩ | ⟨hvis, hseen⟩ := seen_cases a uninit h
  · exact iff_of_true (.inl hvis) hsame
  · rw [Agrees, hseen, accepts_nil, or_iff_right hvis]
    exact Iff.comm

theorem accepts_or (a : FilterArgs) (uninit : UInt32) :
    (∀ e : FileEvent, e.TriggerShaped → e.Selected a → a.accepts uninit e.seen = true) ∨
    (∀ e : FileEvent, e.TriggerShaped → a.accepts uninit e.seen = true → e.Selected a) := by
  by_cases hzero : a.exclusive = true ∧ a.trigger_setting = 0
  · refine .inl fun e h hsel => ?_
    obtain ⟨-, hsame⟩ | ⟨-, hseen⟩ := seen_cases a uninit h
    · exact hsame.mpr hsel
    · rw [hseen]
      exact accepts_nil.mpr hzero
  · refine .inr fun e h hacc => ?_
    obtain ⟨-, hsame⟩ | ⟨-, hseen⟩ := seen_cases a uninit h
    · exact hsame.mp hacc
    · rw [hseen] at hacc
      exact absurd (accepts_nil.mp hacc) hzero

end FileEvent

theorem eq_of_filter_le {α β : Type} {f : α → β} {xs : List α} {p q : α → Bool}
    (h : ∀ x ∈ xs, p x = true → q x = true) (heq : (xs.filter p).map f = (xs.filter q).map f) :
    ∀ x ∈ xs, p x = q x := by
  have hsub : (xs.filter p).Sublist (xs.filter q) := by
    have hpq : xs.filter p = (xs.filter q).filter p := by
      rw [List.filter_filter]
      refine List.filter_congr fun x hx => ?_
      cases hp : p x with
      | false => rfl
      | true => rw [h x hx hp, Bool.and_true]
    rw [hpq]
    exact List.filter_sublist
  have hlen : (xs.filter p).length = (xs.filter q).length := by
    simpa using congrArg List.length heq
  have hfilter := hsub.eq_of_length hlen
  intro x hx
  have hmem : x ∈ xs.filter p ↔ x ∈ xs.filter q := by rw [hfilter]
  rw [List.mem_filter, List.mem_filter, and_iff_right hx, and_iff_right hx] at hmem
  exact Bool.eq_iff_iff.mpr hmem

end Decision

theorem findLeaf_trigCrate (tag : UInt16) (num : UInt8) :
    trigCrate.label.findLeaf tag num = some 1 ↔ tag = 57610 := by
  rw [← UInt16.toNat_inj]
  simp [BankInfo.findLeaf, trigCrate, uintLeaf, LeafPtr.tag, LeafPtr.num, List.findIdx?_cons]
  split_ifs <;> simp <;> omega

theorem ready_filterReader : World.Ready 0 [] filterReader where
  et := rfl
  set := rfl
  keep := rfl
  shape := rfl
  leads := by
    refine .sub rfl rfl (fun tag num => ?_) (.here ⟨rfl, fun tag num => ?_, _, rfl, rfl, rfl⟩)
    · change Bank.findBank filterTop tag num = some 0 ↔ _
      rw [findBank_filterTop, decide_eq_true_iff]
      split_ifs with h h h <;> simp_all
    · exact (findLeaf_trigCrate tag num).trans decide_eq_true_iff.symm
  few := by decide
  chunk := rfl

theorem ready_start : Filter.Ready 0 [] { world := filterReader } :=
  ⟨ready_filterReader, TriggerConfig.sound_ofBank⟩

theorem accepts_eq_selected_iff (a : FilterArgs) (uninit : UInt32) (es : List BlockEvent)
    (hshape : ∀ e ∈ es, e.TriggerShaped) :
    (es.filter fun e => a.accepts uninit e.seen).map (fun e => e.words) =
        (es.filter fun e => e.Selected a).map (fun e => e.words) ↔ ∀ e ∈ es, e.Agrees a := by
  constructor
  · intro heq
    suffices hpoint : ∀ e ∈ es, a.accepts uninit e.seen = decide (e.Selected a) by
      intro e he
      rw [FileEvent.agrees_iff a uninit (hshape e he), hpoint e he, decide_eq_true_iff]
    obtain hle | hle := FileEvent.accepts_or a uninit
    · intro e he
      refine (eq_of_filter_le (fun e he hsel => ?_) heq.symm e he).symm
      exact hle e.toFileEvent (hshape e he) (of_decide_eq_true hsel)
    · refine eq_of_filter_le (fun e he hacc => ?_) heq
      exact decide_eq_true (hle e.toFileEvent (hshape e he) hacc)
  · intro hagree
    congr 1
    refine List.filter_congr fun e he => ?_
    rw [Bool.eq_iff_iff, decide_eq_true_iff]
    exact (FileEvent.agrees_iff a uninit (hshape e he)).mp (hagree e he)

/-- The trigger filter gets to its end and has written exactly the selected events, if and only if
there are not too many events to count, it can read each of them, and it agrees with the arguments on
each of them. -/
theorem triggerFilter_writes_iff (a : FilterArgs) (uninit : UInt32) (u : Uninit)
    (files : List (List BlockEvent)) (hshape : ∀ e ∈ files.flatten, e.TriggerShaped) :
    ∃ G, ∀ fill, G ≤ fill → ∃ F, ∀ fuel, F ≤ fuel →
      let run := triggerFilter a uninit u fill fuel (files.map (List.map BlockEvent.buffer))
      (∀ err, (run { world := filterReader }).out = .error err → err.Final) ∧
      ((∃ t, Returns run { world := filterReader } () t ∧
          t.written = (files.flatten.filter fun e => e.Selected a).map fun e => e.words) ↔
        files.flatten.length < 2 ^ 31 ∧ ∀ e ∈ files.flatten, e.ReadsTo u e.behind ∧ e.Agrees a) := by
  refine ⟨(files.flatten.map fun e => 4 * e.buffer.length).sum + 2, fun fill hfill => ?_⟩
  have hfits : ∀ e ∈ files.flatten, 4 * e.buffer.length + 1 < fill := by
    intro e he
    have hle := List.single_le_sum (l := files.flatten.map fun e => 4 * e.buffer.length)
      (fun _ _ => Nat.zero_le _) _ (List.mem_map_of_mem he)
    omega
  obtain ⟨F, hF⟩ := stops_triggerFilter a uninit u files hfits
  obtain ⟨H, hH⟩ := tracks_triggerFilter a uninit u files fun e he => (Nat.le_succ _).trans_lt (hfits e he)
  refine ⟨max F H, fun fuel hfuel => ⟨fun err herr => ?_, ?_⟩⟩
  · exact (hF fuel (by omega) _ 0 [] ready_start err herr).resolve_right fun ⟨_, _, h⟩ => h
  · have hrun := hH fuel (by omega) _ 0 [] ready_start
    rw [Nat.zero_add] at hrun
    rw [forall₂_and, ← and_assoc, ← accepts_eq_selected_iff a uninit files.flatten hshape]
    by_cases hreads : files.flatten.length < 2 ^ 31 ∧ ∀ e ∈ files.flatten, e.ReadsTo u e.behind
    · rw [if_pos hreads] at hrun
      obtain ⟨_, t, ht, hwritten⟩ := hrun.of_some
      rw [List.nil_append] at hwritten
      rw [and_iff_right hreads, ← hwritten]
      refine ⟨fun ⟨t', ht', hsel⟩ => ?_, fun hsel => ⟨t, ht, hsel⟩⟩
      rw [← (ht.det ht').2, hsel]
    · rw [if_neg hreads] at hrun
      exact iff_of_false (fun ⟨t, ht, _⟩ => hrun () t ht) fun h => hreads h.1

def skippedEvent : FileEvent where
  tag := 0
  num := 0
  container := .bank10
  trees := []
  banks := rfl
  wf := by
    simp [Tree.WF, Tree.WFAll]
    decide

def pulserTrees : List Tree := [.leaf 57610 0 0x1 0 [0, 0, 0, 0, 0x8000, 0, 0]]

def pulserEvent : FileEvent where
  tag := 128
  num := 0
  container := .bank10
  trees := [.container 46 0 .bank10 pulserTrees]
  banks := rfl
  wf := by
    simp [Tree.WF, Tree.WFAll, pulserTrees]
    decide

theorem shaped_skippedEvent : skippedEvent.TriggerShaped := ⟨by decide, nofun⟩

theorem shaped_pulserEvent : pulserEvent.TriggerShaped := by
  refine ⟨by decide, fun trees h => ?_⟩
  have htrees : trees = pulserTrees := List.mem_singleton.mp h
  rw [htrees]
  rfl

def pulserBlockEvents : List BlockEvent :=
  [{ skippedEvent with behind := pulserEvent.words, fits := by decide },
    { pulserEvent with behind := [], fits := by decide }]

theorem triggerFilter_writes_pulser :
    let a : FilterArgs := { trigger_setting := 0x8000, exclusive := false, filter_FCup := false }
    let u : Uninit := { chan := 0, thres := 0, prescale_val := 0 }
    ∃ G, ∀ fill, G ≤ fill → ∃ F, ∀ fuel, F ≤ fuel → ∃ t,
      Returns (triggerFilter a 0 u fill fuel ([pulserBlockEvents].map (List.map BlockEvent.buffer)))
        { world := filterReader } () t ∧ t.written = [pulserEvent.words] := by
  intro a u
  have hshape : ∀ e ∈ [pulserBlockEvents].flatten, e.TriggerShaped := by
    intro e he
    obtain rfl | rfl : e = pulserBlockEvents[0] ∨ e = pulserBlockEvents[1] := by
      simpa [pulserBlockEvents] using he
    · exact shaped_skippedEvent
    · exact shaped_pulserEvent
  obtain ⟨G, hG⟩ := triggerFilter_writes_iff a 0 u [pulserBlockEvents] hshape
  refine ⟨G, fun fill hfill => ?_⟩
  obtain ⟨F, hF⟩ := hG fill hfill
  refine ⟨F, fun fuel hfuel => ?_⟩
  obtain ⟨t, ht, hwritten⟩ := (hF fuel hfuel).2.mpr (by decide)
  exact ⟨t, ht, hwritten.trans (by decide)⟩

theorem triggerFilter_writes_skipped :
    ¬∀ (a : FilterArgs) (uninit : UInt32) (u : Uninit) (files : List (List BlockEvent)),
      (∀ e ∈ files.flatten, e.TriggerShaped) →
      ∃ G, ∀ fill, G ≤ fill → ∃ F, ∀ fuel, F ≤ fuel → ∃ t,
        Returns (triggerFilter a uninit u fill fuel (files.map (List.map BlockEvent.buffer)))
          { world := filterReader } () t ∧
        t.written = (files.flatten.filter fun e => e.Selected a).map fun e => e.words := by
  intro h
  let a : FilterArgs := { trigger_setting := 0, exclusive := true, filter_FCup := false }
  let e : BlockEvent := { skippedEvent with behind := [], fits := by decide }
  let u : Uninit := { chan := 0, thres := 0, prescale_val := 0 }
  have hshape : ∀ e' ∈ [[e]].flatten, e'.TriggerShaped := fun e' he => by
    obtain rfl : e' = e := by simpa using he
    exact shaped_skippedEvent
  obtain ⟨G, hG⟩ := h a 0 u [[e]] hshape
  have hfill : ∀ e' ∈ [[e]].flatten, 4 * e'.buffer.length < max G 9 := fun e' he => by
    obtain rfl : e' = e := by simpa using he
    exact lt_max_of_lt_right (by decide)
  obtain ⟨F, hF⟩ := hG (max G 9) (le_max_left _ _)
  obtain ⟨H, hH⟩ := tracks_triggerFilter a 0 u [[e]] hfill
  obtain ⟨t, ht, hwritten⟩ := hF (max F H) (le_max_left _ _)
  obtain ⟨_, -, hall⟩ := (hH (max F H) (le_max_right _ _) _ 0 [] ready_start).returns ht
  exact absurd (hall.symm.trans hwritten) (by decide)

def configEvent : FileEvent where
  tag := 17
  num := 0
  container := .bank10
  trees := [.leaf 0xE10E 0 0x3 0 [0x43444146, 0x5f303532, 0x54415243, 0x70682045, 0x460a3173,
    0x32434441, 0x4e5f3035, 0x61204253, 0x040a6362, 0x04040404]]
  banks := rfl
  wf := by
    simp [Tree.WF, Tree.WFAll]
    decide

example : ¬configEvent.ReadsTo { chan := 0, thres := 0, prescale_val := 0 } [] := by decide +kernel

end EvioTool
