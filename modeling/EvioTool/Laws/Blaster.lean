import Mathlib.Algebra.Order.BigOperators.Group.List
import EvioTool.Defs.Blaster
import EvioTool.Laws.Reader

namespace EvioTool

open Lib Exec

variable {args : BlasterArgs} {et : EtSystem} {s t : Blaster} {e : EtEvent} {es es' : List EtEvent}
  {event : List UInt32} {d d' : EtData} {more : Bool}

def BlasterArgs.Takes (args : BlasterArgs) (event : List UInt32) : Prop :=
  ¬args.et_event_size_max.toUInt32 < UInt32.ofNat event.length + 16

instance (args : BlasterArgs) : DecidablePred args.Takes := fun _ => inferInstanceAs (Decidable (¬_))

theorem toInt_max (hmax : 0 ≤ args.et_event_size_max) :
    args.et_event_size_max.toInt = args.et_event_size_max.toUInt32.toNat := by
  rw [Int32.toNat_toUInt32_of_le hmax, Int32.toInt_eq_toNatClampNeg hmax]

theorem takes_iff (hmax : 0 ≤ args.et_event_size_max) (hlen : event.length + 16 < 2 ^ 32) :
    args.Takes event ↔ args.Fits event := by
  have hevent : (UInt32.ofNat event.length).toNat = event.length :=
    UInt32.toNat_ofNat_of_lt' (show event.length < 2 ^ 32 by omega)
  have hsum : (UInt32.ofNat event.length + 16).toNat = event.length + 16 := by
    rw [UInt32.toNat_add, hevent]
    exact Nat.mod_eq_of_lt hlen
  rw [BlasterArgs.Takes, BlasterArgs.Fits, UInt32.not_lt, UInt32.le_iff_toNat_le, hsum,
    toInt_max hmax]
  omega

theorem BlasterArgs.Fits.nonneg (h : args.Fits event) : 0 ≤ args.et_event_size_max := by
  rw [Int32.le_iff_toInt_le]
  exact le_trans (Int.natCast_nonneg (event.length + 16)) h

theorem BlasterArgs.Fits.length_lt (h : args.Fits event) : event.length + 16 < 2 ^ 31 := by
  have hlt := args.et_event_size_max.toInt_lt
  rw [BlasterArgs.Fits] at h
  omega

theorem BlasterArgs.Fits.takes (h : args.Fits event) : args.Takes event :=
  (takes_iff h.nonneg (h.length_lt.trans (by decide))).mpr h

theorem requested_eq (hmax : 0 ≤ args.et_event_size_max) :
    (args.requested : Int) = 4 * args.et_event_size_max.toInt := by
  have hlt := args.et_event_size_max.toNatClampNeg_lt
  have hpos : 0 ≤ args.et_event_size_max.toInt64 := by
    rw [Int64.le_iff_toInt_le, Int32.toInt_toInt64]
    exact Int32.le_iff_toInt_le.mp hmax
  rw [Int32.toInt_eq_toNatClampNeg hmax, BlasterArgs.requested, UInt64.toNat_mul,
    Int64.toNat_toUInt64_of_le hpos, Int32.toNatClampNeg_toInt64]
  change ((args.et_event_size_max.toNatClampNeg * 4 % 2 ^ 64 : Nat) : Int) = _
  omega

theorem BlasterArgs.Fits.toNat_buflen (h : args.Fits event) :
    (UInt32.ofNat event.length).toNat = event.length := by
  have hlt := h.length_lt
  exact UInt32.toNat_ofNat_of_lt' (show event.length < 2 ^ 32 by omega)

theorem length_record : (record event).length = event.length + 8 := by
  rw [record, List.length_append, Nat.add_comm]
  rfl

theorem BlasterArgs.Fits.copied (h : args.Fits event) :
    recordHeader (UInt32.ofNat event.length) ++ event.take (UInt32.ofNat event.length).toNat =
      record event := by
  rw [h.toNat_buflen, List.take_length]
  rfl

theorem copyEvent_isSome (hfits : args.Fits event)
    (hroom : args.requested ≤ 4 * d.words.length) : (d.copyEvent event).isSome := by
  have hreq := requested_eq hfits.nonneg
  have hlen : (record event).length ≤ d.words.length := by
    rw [length_record]
    rw [BlasterArgs.Fits] at hfits
    omega
  simp only [EtData.copyEvent, hfits.copied, dif_pos hlen, Option.isSome_some]

theorem used_copyEvent (hfits : args.Fits event) (h : d.copyEvent event = some d') :
    d'.used = record event := by
  have hlt := hfits.length_lt
  have hsum : (UInt32.ofNat event.length + 8).toNat = (record event).length := by
    rw [UInt32.toNat_add, hfits.toNat_buflen, length_record]
    exact Nat.mod_eq_of_lt (show event.length + 8 < 2 ^ 32 by omega)
  simp only [EtData.copyEvent, hfits.copied, Option.dite_none_right_eq_some, Option.some.injEq] at h
  obtain ⟨-, rfl⟩ := h
  have hused : 4 * (UInt32.ofNat event.length + 8).toNat / 4 = (record event).length := by
    rw [hsum, Nat.mul_div_cancel_left _ (by decide)]
  change List.take (4 * (UInt32.ofNat event.length + 8).toNat / 4) (record event ++ _) = _
  rw [hused]
  exact List.take_left

def Carries (event : List UInt32) (e : EtEvent) : Prop :=
  ∃ d : EtData, d.copyEvent event = some e.data

def Blaster.setEvents (s : Blaster) (events : List (List UInt32)) : Blaster :=
  { s with evio := { s.evio with events } }

theorem returns_evReadNoCopy_nil {r : Int × List UInt32} (hs : s.evio.events = [])
    (h : Returns evReadNoCopy s r t) : r = (s.evio.ending, []) ∧ t = s := by
  obtain ⟨_, _, hgets, h⟩ := returns_bind.mp h
  obtain ⟨rfl, rfl⟩ := returns_gets.mp hgets
  rw [hs] at h
  exact returns_pure.mp h

theorem returns_evReadNoCopy_cons {r : Int × List UInt32} {events : List (List UInt32)}
    (hs : s.evio.events = event :: events) (h : Returns evReadNoCopy s r t) :
    r = (S_SUCCESS, event) ∧ t = s.setEvents events := by
  obtain ⟨_, _, hgets, h⟩ := returns_bind.mp h
  obtain ⟨rfl, rfl⟩ := returns_gets.mp hgets
  rw [hs] at h
  obtain ⟨_, _, hmodify, h⟩ := returns_bind.mp h
  obtain rfl := returns_modify.mp hmodify
  exact returns_pure.mp h

theorem returns_fillEvents (h : Returns (fillEvents args es) s (es', more) t) :
    ∃ read events left, s.evio.events = read ++ events ∧ t = s.setEvents events ∧
      (∀ e ∈ left, e ∈ es) ∧ Interleave Carries (read.filter fun ev => args.Takes ev) left es' ∧
      (more = true → es ≠ [] → read ≠ []) ∧ (more = false → events = [] ∧ left ≠ []) := by
  induction es generalizing s es' more with
  | nil =>
    obtain ⟨heq, rfl⟩ := returns_pure.mp h
    obtain ⟨rfl, rfl⟩ := Prod.mk.inj heq
    refine ⟨[], t.evio.events, [], rfl, rfl, fun _ he => absurd he List.not_mem_nil, .nil, ?_, ?_⟩
    · exact fun _ hne => absurd rfl hne
    · exact fun hmore => absurd hmore (by decide)
  | cons e es ih =>
    obtain ⟨⟨status, evio⟩, u, hread, h⟩ := returns_bind.mp h
    cases hs : s.evio.events with
    | nil =>
      obtain ⟨hr, rfl⟩ := returns_evReadNoCopy_nil hs hread
      obtain ⟨rfl, rfl⟩ := Prod.mk.inj hr
      simp only [if_pos u.evio.ended, returns_pure] at h
      obtain ⟨heq, rfl⟩ := h
      obtain ⟨rfl, rfl⟩ := Prod.mk.inj heq
      have hsame : t = t.setEvents [] := by rw [← hs]; rfl
      refine ⟨[], [], _, rfl, hsame, fun _ h => h, .others _, ?_, fun _ => ⟨rfl, ?_⟩⟩
      · exact fun hmore => absurd hmore (by decide)
      · exact List.cons_ne_nil _ _
    | cons event events =>
      obtain ⟨hr, rfl⟩ := returns_evReadNoCopy_cons hs hread
      obtain ⟨rfl, rfl⟩ := Prod.mk.inj hr
      simp only [ne_eq, not_true, if_false] at h
      by_cases htakes : args.Takes evio
      · rw [if_neg htakes] at h
        obtain ⟨data, _, hdata, h⟩ := returns_bind.mp h
        obtain ⟨hcopy, rfl⟩ := returns_demand.mp hdata
        obtain ⟨⟨es'', more'⟩, v, hrest, h⟩ := returns_bind.mp h
        obtain ⟨heq, rfl⟩ := returns_pure.mp h
        obtain ⟨rfl, rfl⟩ := Prod.mk.inj heq
        obtain ⟨read, events', left, hevents, rfl, hleft, hput, -, hover⟩ := ih hrest
        refine ⟨evio :: read, events', left, ?_, rfl, ?_, ?_, fun _ _ => List.cons_ne_nil _ _, hover⟩
        · exact congrArg (evio :: ·) hevents
        · exact fun e he => List.mem_cons_of_mem _ (hleft e he)
        · rw [List.filter_cons, if_pos (decide_eq_true htakes)]
          exact .image ⟨_, hcopy⟩ hput
      · rw [if_pos (Classical.not_not.mp htakes)] at h
        obtain ⟨heq, rfl⟩ := returns_pure.mp h
        obtain ⟨rfl, rfl⟩ := Prod.mk.inj heq
        refine ⟨[evio], events, _, rfl, rfl, fun _ h => h, ?_, fun _ _ => List.cons_ne_nil _ _, ?_⟩
        · rw [List.filter_cons, if_neg (by simpa using htakes)]
          exact .others _
        · exact fun hmore => absurd hmore (by decide)

def EtSystem.Granted (et : EtSystem) (args : BlasterArgs) (e : EtEvent) : Prop :=
  ∃ k fresh, e ∈ (et.new k).events (max 1 args.chunk) fresh

/-- Of the events that are read, those that pass the check are put, among events that are
put as they were granted. -/
structure Puts (args : BlasterArgs) (et : EtSystem) (read : List (List UInt32))
    (left new : List EtEvent) : Prop where
  granted : ∀ e ∈ left, et.Granted args e
  put : Interleave Carries (read.filter fun ev => args.Takes ev) left new

theorem Puts.nil : Puts args et [] [] [] := ⟨nofun, .nil⟩

theorem Puts.append {read read' : List (List UInt32)} {left left' new new' : List EtEvent}
    (h : Puts args et read left new) (h' : Puts args et read' left' new') :
    Puts args et (read ++ read') (left ++ left') (new ++ new') where
  granted e he := (List.mem_append.mp he).elim (h.granted e) (h'.granted e)
  put := by
    rw [List.filter_append]
    exact h.put.append h'.put

theorem events_ne_nil {a : GetAnswer} {first : EtData} {rest : List EtData} {num fresh : Nat}
    (ha : a = .ok first rest) : a.events (max 1 num) fresh ≠ [] := by
  have hlen : 0 < (a.events (max 1 num) fresh).length := by
    rw [ha, GetAnswer.events, List.length_mapIdx, GetAnswer.data, List.length_take,
      List.length_cons]
    omega
  exact List.length_pos_iff.mp hlen

theorem returns_putChunk (het : et.Grants args) (h : Returns (putChunk args et) s more t) :
    ∃ read left new, t.put = s.put ++ new ∧ s.evio.events = read ++ t.evio.events ∧
      Puts args et read left new ∧
      (more = true → read ≠ []) ∧ (more = false → t.evio.events = [] ∧ left ≠ []) := by
  obtain ⟨d, ds, hnew, -⟩ := het.new s.requests
  rw [putChunk, returns_congr (get_bind_apply _ _)] at h
  obtain ⟨_, _, hmodify, h⟩ := returns_bind.mp h
  obtain rfl := returns_modify.mp hmodify
  have hstatus : (et.new s.requests).status = ET_OK := by
    rw [hnew]
    rfl
  rw [if_pos hstatus] at h
  obtain ⟨_, _, hmodify', h⟩ := returns_bind.mp h
  obtain rfl := returns_modify.mp hmodify'
  obtain ⟨⟨es, evio_has_events⟩, u, hfill, h⟩ := returns_bind.mp h
  obtain ⟨_, _, hput, h⟩ := returns_bind.mp h
  obtain rfl := returns_modify.mp hput
  rw [if_pos (het.put _)] at h
  obtain ⟨hmore, rfl⟩ := returns_pure.mp h
  obtain ⟨read, events, left, hevents, rfl, hleft, hputs, hread, hover⟩ := returns_fillEvents hfill
  refine ⟨read, left, es, rfl, hevents, ⟨fun e he => ⟨_, _, hleft e he⟩, hputs⟩, ?_, ?_⟩
  · exact fun htrue => hread (hmore ▸ htrue) (events_ne_nil hnew)
  · exact fun hfalse => hover (hmore ▸ hfalse)

theorem returns_blastFile (het : et.Grants args) {fuel : Nat}
    (h : Returns (blastFile args et fuel) s () t) :
    ∃ left new, t.put = s.put ++ new ∧ Puts args et s.evio.events left new ∧ left ≠ [] := by
  induction fuel generalizing s with
  | zero => exact absurd h returns_halt
  | succ fuel ih =>
    obtain ⟨more, u, hchunk, h⟩ := returns_bind.mp h
    obtain ⟨read, left, new, hput, hevents, hputs, -, hlast⟩ := returns_putChunk het hchunk
    cases more with
    | false =>
      obtain rfl : t = u := (returns_pure.mp h).2
      obtain ⟨hnil, hleft⟩ := hlast rfl
      rw [hevents, hnil, List.append_nil]
      exact ⟨left, new, hput, hputs, hleft⟩
    | true =>
      obtain ⟨left', new', hput', hputs', hleft'⟩ := ih h
      refine ⟨left ++ left', new ++ new', ?_, ?_, List.append_ne_nil_of_right_ne_nil _ hleft'⟩
      · rw [hput', hput, List.append_assoc]
      · rw [hevents]
        exact hputs.append hputs'

theorem returns_blastFiles (het : et.Grants args) {fuel : Nat} {files : List EvioFile}
    (h : Returns (blastFiles args et fuel files) s () t) :
    ∃ left new, t.put = s.put ++ new ∧ Puts args et (fileEvents files) left new ∧
      files.length ≤ left.length := by
  induction files generalizing s with
  | nil =>
    obtain rfl : t = s := (returns_pure.mp h).2
    exact ⟨[], [], (List.append_nil _).symm, .nil, le_rfl⟩
  | cons file files ih =>
    rw [blastFiles] at h
    split_ifs at h with hopen
    · exact absurd h returns_halt
    · obtain ⟨_, _, hmodify, h⟩ := returns_bind.mp h
      obtain rfl := returns_modify.mp hmodify
      obtain ⟨_, u, hfile, h⟩ := returns_bind.mp h
      obtain ⟨left, new, hput, hputs, hleft⟩ := returns_blastFile het hfile
      obtain ⟨left', new', hput', hputs', hlen⟩ := ih h
      refine ⟨left ++ left', new ++ new', ?_, hputs.append hputs', ?_⟩
      · rw [hput', hput, List.append_assoc]
      · have hpos : 0 < left.length := List.length_pos_iff.mpr hleft
        rw [List.length_append, List.length_cons]
        omega

section Stops

variable {E : BlasterStop → Prop} {Q : Empty → Prop} {fuel : Nat} {files : List EvioFile}

theorem stops_evReadNoCopy : Stops E Q evReadNoCopy s := by
  refine stops_gets.bind fun evio _ _ => ?_
  cases evio.events with
  | nil => exact stops_pure
  | cons event events => exact stops_modify.bind fun _ _ _ => stops_pure

theorem stops_fillEvents (hroom : ∀ e ∈ es, ∀ event ∈ s.evio.events, args.Takes event →
      e.data.copyEvent event = none → E .outside) : Stops E Q (fillEvents args es) s := by
  induction es generalizing s with
  | nil => exact stops_pure
  | cons e es ih =>
    refine stops_evReadNoCopy.bind fun ⟨status, evio⟩ u hread => ?_
    cases hs : s.evio.events with
    | nil =>
      obtain ⟨hr, rfl⟩ := returns_evReadNoCopy_nil hs hread
      obtain ⟨rfl, rfl⟩ := Prod.mk.inj hr
      simp only [if_pos u.evio.ended]
      exact stops_pure
    | cons event events =>
      obtain ⟨hr, rfl⟩ := returns_evReadNoCopy_cons hs hread
      obtain ⟨rfl, rfl⟩ := Prod.mk.inj hr
      rw [hs] at hroom
      simp only [ne_eq, not_true, if_false]
      split_ifs with htakes
      · exact stops_pure
      · refine Stops.bind ?_ fun data v hdata => ?_
        · cases hcopy : e.data.copyEvent evio with
          | some data => exact stops_pure
          | none => exact stops_halt.mpr (hroom e List.mem_cons_self _ List.mem_cons_self htakes hcopy)
        · obtain ⟨-, rfl⟩ := returns_demand.mp hdata
          refine (ih fun e he event hevent => ?_).bind fun _ _ _ => stops_pure
          exact hroom e (List.mem_cons_of_mem _ he) event (List.mem_cons_of_mem _ hevent)

def Roomy (args : BlasterArgs) (E : BlasterStop → Prop) (events : List (List UInt32)) : Prop :=
  ∀ d : EtData, args.requested ≤ 4 * d.words.length → ∀ event ∈ events, args.Takes event →
    d.copyEvent event = none → E .outside

theorem stops_putChunk (het : et.Grants args) (hroom : Roomy args E s.evio.events) :
    Stops E Q (putChunk args et) s := by
  obtain ⟨d, ds, hnew, hsize⟩ := het.new s.requests
  have hstatus : (et.new s.requests).status = ET_OK := by
    rw [hnew]
    rfl
  have hdata : ∀ e ∈ (et.new s.requests).events (max 1 args.chunk) s.fresh,
      args.requested ≤ 4 * e.data.words.length := by
    intro e he
    rw [hnew] at he
    obtain ⟨i, hi, rfl⟩ := List.mem_mapIdx.mp he
    exact hsize _ (List.mem_of_mem_take (List.getElem_mem hi))
  rw [putChunk, Stops, get_bind_apply]
  refine Stops.bind stops_modify fun _ u hmodify => ?_
  obtain rfl := returns_modify.mp hmodify
  rw [if_pos hstatus]
  refine stops_modify.bind fun _ v hmodify => ?_
  obtain rfl := returns_modify.mp hmodify
  refine Stops.bind ?_ fun _ w _ => ?_
  · exact stops_fillEvents fun e he => hroom e.data (hdata e he)
  · refine stops_modify.bind fun _ _ _ => ?_
    rw [if_pos (het.put _)]
    exact stops_pure

theorem stops_blastFile (het : et.Grants args) (hroom : Roomy args E s.evio.events)
    (hfuel : s.evio.events.length < fuel) : Stops E Q (blastFile args et fuel) s := by
  induction fuel generalizing s with
  | zero => exact absurd hfuel (Nat.not_lt_zero _)
  | succ fuel ih =>
    refine (stops_putChunk het hroom).bind fun more u hchunk => ?_
    obtain ⟨read, left, new, -, hevents, -, hread, -⟩ := returns_putChunk het hchunk
    cases more with
    | false => exact stops_pure
    | true =>
      have hpos : 0 < read.length := List.length_pos_iff.mpr (hread rfl)
      rw [hevents] at hroom hfuel
      rw [List.length_append] at hfuel
      refine ih (fun d hd event hevent => hroom d hd event ?_) (by omega)
      exact List.mem_append_right _ hevent

theorem stops_blastFiles (het : et.Grants args) (hroom : Roomy args E (fileEvents files))
    (hopen : ∀ file ∈ files, file.evOpen ≠ S_SUCCESS → E .exit)
    (hfuel : ∀ file ∈ files, file.events.length < fuel) :
    Stops E Q (blastFiles args et fuel files) s := by
  induction files generalizing s with
  | nil => exact stops_pure
  | cons file files ih =>
    rw [blastFiles]
    split_ifs with h
    · exact stops_halt.mpr (hopen file List.mem_cons_self h)
    · refine stops_modify.bind fun _ u hmodify => ?_
      obtain rfl := returns_modify.mp hmodify
      have hfile : Roomy args E file.events := fun d hd event hevent =>
        hroom d hd event (List.mem_append_left _ hevent)
      have hrest : Roomy args E (fileEvents files) := fun d hd event hevent =>
        hroom d hd event (List.mem_append_right _ hevent)
      refine (stops_blastFile het hfile (hfuel file List.mem_cons_self)).bind fun _ _ _ => ?_
      exact ih hrest (fun f hf => hopen f (List.mem_cons_of_mem _ hf))
        fun f hf => hfuel f (List.mem_cons_of_mem _ hf)

end Stops

theorem used_of_record (h : d.used = record event) :
    d.length / 4 = event.length + 8 ∧ d.words = record event ++ d.words.drop (event.length + 8) := by
  have hlen : d.length / 4 = event.length + 8 := by
    rw [← length_record, ← h, EtData.used, List.length_take]
    have hfits := d.fits
    omega
  refine ⟨hlen, ?_⟩
  rw [← h, EtData.used, ← hlen, List.take_append_drop]

theorem data_single {num : Nat} (h : 0 < num) : (GetAnswer.ok d []).data num = [d] := by
  rw [GetAnswer.data]
  exact List.take_of_length_le (Nat.le_min.mpr ⟨h, show 1 ≤ 0x7FFFFFFF by decide⟩)

theorem events_single {num fresh : Nat} (h : 0 < num) :
    (GetAnswer.ok d []).events num fresh = [⟨fresh, d⟩] := by
  rw [GetAnswer.events, data_single h]
  rfl

theorem World.Waits.get {w : World} (hw : w.Waits) :
    ∃ u, Returns (getEvent (.ok d [])) w ET_OK u ∧ u.tool.fCurrentChunk = 0 ∧
      u.tool.entry = some (some ⟨w.fresh, d⟩) := by
  obtain ⟨b, hb, hne⟩ := hw.buffer
  obtain ⟨x, xs, rfl⟩ := List.exists_cons_of_ne_nil hne
  by_cases hl : w.tool.locality = .ET_LOCAL
  · simp [getEvent, hl, hw.chunk, et_events_get, call, modifyTool, events_single hw.size, hb, GetAnswer.status,
      Tool.entry]
  · simp [getEvent, hl, et_events_get, call, modifyTool, events_single Nat.one_pos, hb,
      GetAnswer.status, Tool.entry]

theorem World.Waits.nextNoParse {w : World} (hw : w.Waits) (d : EtData) :
    ∃ u, u.tool.fCurrentChunk = 0 ∧ u.tool.entry = some (some ⟨w.fresh, d⟩) ∧
      ∀ stat t, Returns (nextNoParse { get := .ok d [] }) w stat t ↔ Returns checkEvent u stat t := by
  obtain ⟨u, hget, hc, he⟩ := hw.get
  refine ⟨u, hc, he, fun stat t => ?_⟩
  rw [EvioTool.nextNoParse, returns_congr (gets_bind_apply _ _ _), if_pos hw.et, hw.ended, when, if_neg (by decide), pure_bind]
  constructor
  · intro h
    obtain ⟨r, v, hget', h⟩ := returns_bind.mp h
    obtain ⟨rfl, rfl⟩ := hget.det hget'
    exact h
  · exact fun h => hget.bind h

theorem returns_checkEvent_record {u : World} {e : EtEvent} (hc : u.tool.fCurrentChunk = 0)
    (he : u.tool.entry = some (some e)) (h : e.data.used = record event) (hlen : 3 ≤ event.length) :
    ∃ t, Returns checkEvent u ET_OK t ∧ t.tool.fEvioBuf = some ⟨e.data.words, 8⟩ := by
  obtain ⟨hsize, hwords⟩ := used_of_record h
  have hmagic : e.data.words[7]? = some 0xc0da0100 := by
    rw [hwords]
    rfl
  have hlong : e.data.length / 4 > 10 := by omega
  simp [checkEvent, hc, he, call, modifyTool, hlong, hmagic]

def waitingReader : World :=
  { tool := { bank := .node { name := "", title := "", tags := [] } [], fReadFromEt := true, fPEventBuffer := some [none] } }

theorem waits_waitingReader : waitingReader.Waits := ⟨rfl, rfl, by decide, by decide, _, rfl, nofun⟩

theorem recovers_iff (h : d.used = record event) : d.Recovers event ↔ 3 ≤ event.length := by
  obtain ⟨hsize, hwords⟩ := used_of_record h
  constructor
  · intro hrec
    obtain ⟨t, b, hret, -⟩ := hrec _ waits_waitingReader
    obtain ⟨u, hc, he, hnext⟩ := waits_waitingReader.nextNoParse d
    have hstat : Ends checkEvent (fun stat _ => d.short → stat = EvioTool_Status_ERROR)
        (fun _ => True) u := by
      refine ends_checkEvent (fun hneg => ?_) (fun _ => ⟨fun _ => trivial, fun _ => trivial⟩) ?_
      · omega
      · intro _ e he' _ hshort
        obtain rfl : _ = e := Option.some.inj (Option.some.inj (he.symm.trans he'))
        rw [verdict_short hshort]
    by_contra hlt
    have hshort : d.short := by
      rw [EtData.short]
      omega
    exact absurd (hstat.of_returns ((hnext _ _).mp hret) hshort) (by decide)
  · intro hlen w hw
    obtain ⟨u, hc, he, hnext⟩ := hw.nextNoParse d
    obtain ⟨t, hcheck, hbuf⟩ := returns_checkEvent_record hc he h hlen
    refine ⟨t, _, (hnext _ _).mpr hcheck, hbuf, ?_⟩
    change (d.words.drop 8).take event.length = event
    rw [hwords, record, List.append_assoc]
    exact List.take_left

section Pass

variable {files : List EvioFile} {fuel : Nat}

def enoughRounds (files : List EvioFile) : Nat := (files.map fun file => file.events.length).sum + 1

theorem length_lt_enoughRounds {file : EvioFile} (h : file ∈ files) :
    file.events.length < enoughRounds files :=
  Nat.lt_succ_of_le (List.single_le_sum (fun _ _ => Nat.zero_le _) _ (List.mem_map_of_mem h))

theorem returns_of_stops {m : Exec BlasterStop Empty Blaster Unit}
    (h : Stops (fun _ => False) (fun _ => False) m s) : ∃ t, Returns m s () t := by
  cases hout : (m s).out with
  | ok a => exact ⟨_, hout, rfl⟩
  | error e => exact ((h e hout).elim id fun ⟨w, _⟩ => nomatch w).elim

theorem blastFiles_puts (het : et.Grants args) (hmax : 0 ≤ args.et_event_size_max)
    (hlen : ∀ event ∈ fileEvents files, event.length + 16 < 2 ^ 32)
    (hopen : ∀ file ∈ files, file.evOpen = S_SUCCESS) (hfuel : enoughRounds files ≤ fuel) :
    ∃ t left, Returns (blastFiles args et fuel files) {} () t ∧
      (∀ e ∈ left, et.Granted args e) ∧ files.length ≤ left.length ∧
      Interleave (fun event e => e.data.used = record event)
        ((fileEvents files).filter fun event => args.Fits event) left t.put := by
  have hroom : Roomy args (fun _ => False) (fileEvents files) := by
    intro d hd event hevent htakes hnone
    have hfits := (takes_iff hmax (hlen event hevent)).mp htakes
    have hsome := copyEvent_isSome hfits hd
    rw [hnone] at hsome
    exact absurd hsome Bool.false_ne_true
  obtain ⟨t, ht⟩ := returns_of_stops (stops_blastFiles (s := {}) het hroom
    (fun file hfile hne => hne (hopen file hfile))
    fun file hfile => (length_lt_enoughRounds hfile).trans_le hfuel)
  obtain ⟨left, new, hput, hputs, hleft⟩ := returns_blastFiles het ht
  obtain rfl : t.put = new := hput
  refine ⟨t, left, ht, hputs.granted, hleft, ?_⟩
  have hfilter : ((fileEvents files).filter fun event => args.Takes event) =
      (fileEvents files).filter fun event => args.Fits event :=
    List.filter_congr fun event hevent =>
      decide_eq_decide.mpr (takes_iff hmax (hlen event hevent))
  rw [← hfilter]
  refine hputs.put.imp fun event hevent e ⟨d, hcopy⟩ => ?_
  rw [hfilter, List.mem_filter, decide_eq_true_iff] at hevent
  exact used_copyEvent hevent.2 hcopy

theorem length_fits_le (args : BlasterArgs) (files : List EvioFile) :
    ((fileEvents files).filter fun event => args.Fits event).length ≤
    ((fileEvents files).filter fun event => args.Takes event).length := by
  rw [← List.countP_eq_length_filter, ← List.countP_eq_length_filter]
  refine List.countP_mono_left fun event _ hfits => ?_
  exact decide_eq_true (of_decide_eq_true hfits : args.Fits event).takes

/-- A pass puts each fitting event once and nothing else, if and only if there is no file. -/
theorem blastFiles_putsOnce_iff (args : BlasterArgs) (et : EtSystem) (het : et.Grants args)
    (files : List EvioFile) :
    ∃ F, ∀ fuel, F ≤ fuel →
      (blastFiles args et fuel files {}).out ≠ .error .fuel ∧
      ((∃ t, Returns (blastFiles args et fuel files) {} () t ∧ PutsOnce args files t.put) ↔
        files = []) := by
  refine ⟨enoughRounds files, fun fuel hfuel => ⟨fun hout => ?_, ?_, ?_⟩⟩
  · have hstops : Stops (· ≠ .fuel) (fun _ => False) (blastFiles args et fuel files) {} :=
      stops_blastFiles het (fun _ _ _ _ _ _ => nofun) (fun _ _ _ => nofun)
        fun file hfile => (length_lt_enoughRounds hfile).trans_le hfuel
    exact (hstops _ hout).elim (fun h => h rfl) fun ⟨w, _⟩ => nomatch w
  · rintro ⟨t, ht, honce⟩
    obtain ⟨left, new, hput, hputs, hleft⟩ := returns_blastFiles het ht
    obtain rfl : t.put = new := hput
    have hrecords := congrArg List.length honce.records
    rw [List.length_map, List.length_map, hputs.put.length] at hrecords
    have hfits := length_fits_le args files
    exact List.length_eq_zero_iff.mp (by omega)
  · rintro rfl
    exact ⟨{}, ⟨rfl, rfl⟩, rfl, nofun⟩

end Pass

def staleData : EtData := ⟨List.replicate 32 7, 128, by decide⟩

def staleRing : EtSystem := ⟨fun _ => .ok staleData [staleData], fun _ => ET_OK⟩

def chunkArgs : BlasterArgs := { chunk := 2, et_event_size_max := 32 }

def smallFile : EvioFile := { events := [[2, 0x00800A00, 0]] }

theorem grants_staleRing : staleRing.Grants chunkArgs := by
  refine ⟨fun _ => ⟨_, _, rfl, fun x hx => ?_⟩, fun _ => rfl⟩
  have hstale : x = staleData := by simpa using hx
  rw [hstale]
  decide

theorem blastFiles_putsOnce_small :
    ∃ F, ∀ fuel, F ≤ fuel →
      (blastFiles chunkArgs staleRing fuel [smallFile] {}).out ≠ .error .fuel ∧
      ¬∃ t, Returns (blastFiles chunkArgs staleRing fuel [smallFile]) {} () t ∧
        PutsOnce chunkArgs [smallFile] t.put := by
  obtain ⟨F, hF⟩ := blastFiles_putsOnce_iff chunkArgs staleRing grants_staleRing [smallFile]
  refine ⟨F, fun fuel hfuel => ⟨(hF fuel hfuel).1, ?_⟩⟩
  exact (hF fuel hfuel).2.not.mpr (List.cons_ne_nil _ _)

theorem blastFiles_puts_stale :
    ¬∀ (args : BlasterArgs) (et : EtSystem) (files : List EvioFile), et.Grants args →
      ∃ F, ∀ fuel, F ≤ fuel → ∃ t, Returns (blastFiles args et fuel files) {} () t ∧
        PutsOnce args files t.put := by
  intro h
  obtain ⟨F, hF⟩ := h chunkArgs staleRing [smallFile] grants_staleRing
  obtain ⟨t, ht, honce⟩ := hF (F + 1) (Nat.le_succ F)
  have hlast : t.put.map (fun e => e.data.used) =
      [record [2, 0x00800A00, 0], staleData.used] := by
    rw [← ht.2]
    rfl
  have hlength := congrArg List.length (hlast.symm.trans honce.records)
  exact absurd hlength (by decide)

end EvioTool
