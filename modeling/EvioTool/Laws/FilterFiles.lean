import EvioTool.Defs.FilterFiles
import EvioTool.Laws.EvioWrite
import EvioTool.Laws.FileReader

namespace EvioTool

open Lib Exec

namespace EvWriter

variable {garbage : Nat → UInt32} {a b : EvWriter} {xs ys : List (List UInt32)} {es : List EvioEvent}
  {x : Bool} {statuses : List Int}

theorem Lost.writeAll (h : a.Lost) (hwrite : a.writeAll garbage (es.map (·.words)) = some (x, b)) :
    b.Lost := by
  induction es generalizing a with
  | nil =>
    obtain ⟨-, rfl⟩ := Prod.mk.inj (Option.some.inj hwrite)
    exact h
  | cons e es ih =>
    rw [List.map_cons, EvWriter.writeAll] at hwrite
    obtain ⟨⟨status, a1⟩, he, hwrite⟩ := Option.bind_eq_some_iff.mp hwrite
    have hperform : a.perform garbage (.evWrite e []) = some (status, a1) := by
      rw [EvWriter.perform, List.append_nil]
      exact he
    have hlost := h.perform hperform
    dsimp only at hwrite
    by_cases hstatus : status = 0
    · rw [if_neg (not_not.mpr hstatus)] at hwrite
      exact ih hlost hwrite
    · rw [if_pos hstatus] at hwrite
      obtain ⟨-, rfl⟩ := Prod.mk.inj (Option.some.inj hwrite)
      exact hlost

end EvWriter

namespace FilterFiles

variable {env : FilterEnv} {args : FilterArgs} {fill fuel n : Nat} {s t u : FilterFiles} {ws : List UInt32}
  {sw : Bool} {d : DiskEvent env.read.swap sw} {ds : List (DiskEvent env.read.swap sw)}

theorem returns_onReader {α : Type} {m : Exec Halt Obs FileReader α} {x : α} :
    Returns (onReader m) s x t ↔ ∃ r, Returns m s.reader x r ∧ t = { s with reader := r } := by
  constructor
  · intro h
    obtain ⟨r, u, hr, hu, rfl⟩ := returns_zoom.mp h
    cases hr
    exact ⟨u, hu, rfl⟩
  · rintro ⟨u, hu, rfl⟩
    exact returns_zoom.mpr ⟨_, u, rfl, hu, rfl⟩

theorem stops_onReader {α : Type} {m : Exec Halt Obs FileReader α}
    (h : Stops Halt.Final (fun _ => False) m s.reader) :
    Stops Halt.Final (fun _ => False) (onReader m) s := h

structure Idle (n : Nat) (ws : List UInt32) (s : FilterFiles) : Prop where
  world : s.reader.world.Ready n ws
  config : s.config.Sound

structure Facing (ds : List (DiskEvent env.read.swap sw)) (n : Nat) (ws : List UInt32) (s : FilterFiles) :
    Prop where
  idle : Idle n ws s
  input : FileReader.Facing env.read sw ds s.reader

structure Behind (ds : List (DiskEvent env.read.swap sw)) (n : Nat) (e : FileEvent) (h : Held)
    (s t : FilterFiles) : Prop where
  past : t.reader.world.Past n e [] h
  input : FileReader.Facing env.read sw ds t.reader
  config : t.config = s.config
  output : t.output = s.output

theorem tracks_nextEvent_cons (env : FilterEnv) (e : FileEvent) {fill : Nat}
    (hfill : 4 * e.words.length < fill) : ∃ F, ∀ fuel, F ≤ fuel →
      ∀ {sw} {d : DiskEvent env.read.swap sw} {ds s n ws}, d.words = e.words → Facing (d :: ds) n ws s →
        Tracks (onReader (FileReader.nextEvent env.read fill fuel)) (if n + 1 < 2 ^ 31 then e.held [] else none)
          (fun h stat t => stat = S_SUCCESS ∧ Behind ds (n + 1) e h s t) s := by
  obtain ⟨F, hF⟩ := tracks_next e [] (by rwa [List.append_nil])
  refine ⟨F, fun fuel hfuel sw d ds s n ws hd h => ?_⟩
  obtain ⟨u, hworld, hface, heq⟩ := h.input.nextEvent_cons fill fuel
  have hnext := hF fuel hfuel u.world n ws (hworld ▸ h.idle.world)
  rw [List.append_nil, ← hd] at hnext
  have htool : Tracks (FileReader.onTool (next fill fuel { read := .ok d.words })) _
      (fun h stat (r : FileReader) => stat = S_SUCCESS ∧ r.world.Past (n + 1) e [] h ∧
        FileReader.Facing env.read sw ds r) u :=
    Tracks.zoom rfl hnext fun h stat w hw => ⟨hw.1, hw.2, hface.onTool⟩
  exact Tracks.zoom rfl (htool.congr heq) fun h stat r hr => ⟨hr.1, hr.2.1, hr.2.2, rfl, rfl⟩

theorem returns_nextEvent_nil (fill fuel : Nat) (h : Facing ([] : List (DiskEvent env.read.swap sw)) n ws s) :
    ∃ t, Returns (onReader (FileReader.nextEvent env.read fill fuel)) s EvioTool_Status_EOF t ∧
      Idle n ws t ∧ t.output = s.output := by
  obtain ⟨u, hworld, heq⟩ := h.input.nextEvent_nil fill fuel
  have hready : u.world.Ready n ws := hworld ▸ h.idle.world
  refine ⟨{ s with reader := u }, ?_, ⟨hready, h.idle.config⟩, rfl⟩
  refine returns_onReader.mpr ⟨u, (FileReader.returns_of_eq heq).mpr ?_, rfl⟩
  exact FileReader.returns_onTool.mpr ⟨u.world, returns_next_eof hready.et, rfl⟩

theorem tracks_callTrigConf {lines : List Str} (hc : s.config.Sound)
    (hl : s.reader.world.configLines = some lines) :
    Tracks (callTrigConf env) (if Parses env.config lines then some () else none)
      (fun _ _ t => t.reader = s.reader ∧ t.config.Sound ∧ t.output = s.output) s := by
  refine Tracks.gets_bind (Tracks.after (returns_demand.mpr ⟨hl, rfl⟩) ?_)
  exact Tracks.zoom rfl (tracks_trigConfCallBack hc lines) fun _ _ _ hc => ⟨rfl, hc, rfl⟩

theorem stops_callTrigConf : Stops Halt.Final (fun _ => False) (callTrigConf env) s :=
  stops_gets.bind fun _ _ _ => (stops_demand Halt.final_undefined).bind fun _ _ _ =>
    Stops.zoom Halt.final_undefined fun c => stops_trigConfCallBack c

theorem tracks_writeEvent {e : FileEvent} (hbuf : s.reader.world.tool.fEvioBuf = some ⟨e.words, 0⟩) :
    Tracks (writeEvent env) (s.output.evWrite env.garbage e.words)
      (fun r status t => status = r.1 ∧ t = { s with output := r.2 }) s := by
  refine Tracks.gets_bind (Tracks.after (returns_demand.mpr ⟨hbuf, rfl⟩) (Tracks.gets_bind ?_))
  have hid : s.output.evWrite env.garbage e.words =
      s.output.evWrite env.garbage e.words >>= some := (Option.bind_fun_some _).symm
  rw [hid]
  refine (tracks_demand _).bind fun r r' t _ hr => ?_
  obtain ⟨rfl, rfl⟩ := hr
  exact Tracks.modify_bind (tracks_pure ⟨rfl, rfl⟩)

theorem Behind.facing {e : FileEvent} {h : Held} (hb : Behind ds n e h s t) (hr : u.reader = t.reader)
    (hc : u.config.Sound) : Facing ds n e.seen u :=
  ⟨⟨hr ▸ hb.past.ready, hc⟩, hr ▸ hb.input⟩

theorem Facing.setOutput (h : Facing ds n ws s) (output : EvWriter) :
    Facing ds n ws { s with output } := ⟨⟨h.idle.world, h.idle.config⟩, h.input⟩

/-- Whether the loop gets through the events that are behind the first `n`, and what the writer is
then; nothing if it stops. -/
def outcome (env : FilterEnv) (args : FilterArgs) : Nat → EvWriter → List FileEvent → Option (Bool × EvWriter)
  | _, a, [] => some (true, a)
  | n, a, e :: es =>
    if n + 1 < 2 ^ 31 ∧ e.ReadsTo env.config [] then
      if args.accepts env.uninit e.seen then do
        let (status, a) ← a.evWrite env.garbage e.words
        if status ≠ 0 then some (false, a) else outcome env args (n + 1) a es
      else outcome env args (n + 1) a es
    else none

theorem tracks_eventLoop (env : FilterEnv) (args : FilterArgs) {fill : Nat} (es : List FileEvent)
    (hfill : ∀ e ∈ es, 4 * e.words.length < fill) : ∃ F, ∀ fuel, F ≤ fuel →
      ∀ {sw} {ds : List (DiskEvent env.read.swap sw)} {k s n ws}, es.length < k →
        ds.map (fun d => d.words) = es.map FileEvent.words → Facing ds n ws s →
        Tracks (eventLoop env args fill fuel k) (outcome env args n s.output es)
          (fun r x t => x = r.1 ∧ t.output = r.2 ∧ (x = true → ∃ ws', Idle (n + es.length) ws' t)) s := by
  induction es with
  | nil =>
    refine ⟨0, fun fuel _ sw ds k s n ws hk hds h => ?_⟩
    obtain rfl : ds = [] := by simpa using hds
    obtain ⟨k, rfl⟩ := Nat.exists_eq_add_of_le' (show 1 ≤ k from hk)
    obtain ⟨t, ht, hidle, hout⟩ := returns_nextEvent_nil fill fuel h
    refine Tracks.after ht ?_
    rw [if_neg (by decide)]
    exact tracks_pure ⟨rfl, hout, fun _ => ⟨ws, hidle⟩⟩
  | cons e es ih =>
    obtain ⟨F, hF⟩ := ih fun e' he' => hfill e' (.tail _ he')
    obtain ⟨G, hG⟩ := tracks_nextEvent_cons env e (hfill e (.head _))
    refine ⟨max F G, fun fuel hfuel sw ds k s n ws hk hds h => ?_⟩
    obtain ⟨d, ds, rfl, hd, hds⟩ := List.map_eq_cons_iff.mp hds
    rw [List.length_cons] at hk
    obtain ⟨k, rfl⟩ := Nat.exists_eq_add_of_le' (show 1 ≤ k by omega)
    have hsplit : outcome env args n s.output (e :: es) = (if n + 1 < 2 ^ 31 then e.held [] else none) >>= fun h =>
        (if Parses env.config h.lines then some () else none) >>= fun _ =>
          if args.accepts env.uninit e.seen then s.output.evWrite env.garbage e.words >>= fun r =>
            if r.1 ≠ 0 then some (false, r.2) else outcome env args (n + 1) r.2 es
          else outcome env args (n + 1) s.output es := by
      rw [← FileEvent.readsTo_split]
      rfl
    rw [hsplit]
    refine (hG fuel (by omega) hd h).bind fun held stat t _ ht => ?_
    obtain ⟨rfl, hb⟩ := ht
    rw [if_pos rfl]
    refine (tracks_callTrigConf (hb.config ▸ h.idle.config) hb.past.lines).bind fun _ _ u _ hu => ?_
    obtain ⟨hreader, hconfig, hout⟩ := hu
    have hfacing := hb.facing hreader hconfig
    have hbuf : u.reader.world.tool.fEvioBuf = some ⟨e.words, 0⟩ := by
      rw [hreader, hb.past.buffer, List.append_nil]
    refine Tracks.gets_bind (Tracks.after (returns_demand.mpr ⟨hfacing.idle.world.trigger, rfl⟩) ?_)
    have hn : n + (es.length + 1) = n + 1 + es.length := by omega
    have hrest {v : FilterFiles} (hv : Facing ds (n + 1) e.seen v) :=
      hF fuel (by omega) (show es.length < k by omega) hds hv
    rw [← hb.output, ← hout, List.length_cons, hn]
    cases args.accepts env.uninit e.seen with
    | false =>
      rw [if_neg Bool.false_ne_true, if_neg Bool.false_ne_true, Exec.pure_bind]
      dsimp only
      rw [if_neg (not_not.mpr rfl)]
      exact hrest hfacing
    | true =>
      rw [if_pos rfl, if_pos rfl]
      refine (tracks_writeEvent hbuf).bind fun r status v _ hv => ?_
      obtain ⟨rfl, rfl⟩ := hv
      dsimp only
      by_cases hstatus : r.1 = 0
      · rw [if_neg (not_not.mpr hstatus), if_neg (not_not.mpr hstatus)]
        exact hrest (hfacing.setOutput r.2)
      · rw [if_pos hstatus, if_pos hstatus]
        exact tracks_pure ⟨rfl, rfl, nofun⟩

theorem stops_nextEvent_cons (env : FilterEnv) {fill : Nat} (e : FileEvent)
    (hfill : 4 * e.words.length + 1 < fill) : ∃ F, ∀ fuel, F ≤ fuel →
      ∀ {sw} {d : DiskEvent env.read.swap sw} {ds s n ws}, d.words = e.words → Facing (d :: ds) n ws s →
        Stops Halt.Final (fun _ => False) (onReader (FileReader.nextEvent env.read fill fuel)) s := by
  have hlength : e.words.length ≤ 2 ^ 32 := by
    obtain ⟨-, -, -, -, hfit⟩ : Kind.bank.Fits _ _ _ _ _ := e.wf.1
    simp only [FileEvent.words, Tree.encode, List.length_append, Kind.length_header, Kind.dataOffset]
    omega
  obtain ⟨F, hF⟩ := stops_next_file e [] (by rwa [List.append_nil]) (by rwa [List.append_nil])
  refine ⟨F, fun fuel hfuel sw d ds s n ws hd h => stops_onReader ?_⟩
  obtain ⟨u, hworld, -, heq⟩ := h.input.nextEvent_cons fill fuel
  refine FileReader.stops_of_eq heq (FileReader.stops_onTool ?_)
  rw [hd, ← List.append_nil e.words]
  exact hF fuel hfuel u.world n ws (hworld ▸ h.idle.world)

theorem stops_writeEvent : Stops Halt.Final (fun _ => False) (writeEvent env) s :=
  stops_gets.bind fun _ _ _ => (stops_demand Halt.final_undefined).bind fun _ _ _ =>
    stops_gets.bind fun _ _ _ => (stops_demand Halt.final_outside).bind fun _ _ _ =>
      stops_modify.bind fun _ _ _ => stops_pure

theorem stops_eventLoop (env : FilterEnv) (args : FilterArgs) {fill : Nat} (es : List FileEvent)
    (hfill : ∀ e ∈ es, 4 * e.words.length + 1 < fill) : ∃ F, ∀ fuel, F ≤ fuel →
      ∀ {sw} {ds : List (DiskEvent env.read.swap sw)} {k s n ws}, es.length < k →
        ds.map (fun d => d.words) = es.map FileEvent.words → Facing ds n ws s →
        Stops Halt.Final (fun _ => False) (eventLoop env args fill fuel k) s := by
  induction es with
  | nil =>
    refine ⟨0, fun fuel _ sw ds k s n ws hk hds h => ?_⟩
    obtain rfl : ds = [] := by simpa using hds
    obtain ⟨k, rfl⟩ := Nat.exists_eq_add_of_le' (show 1 ≤ k from hk)
    obtain ⟨t, ht, -⟩ := returns_nextEvent_nil fill fuel h
    refine ht.stops.bind fun stat u hu => ?_
    obtain ⟨rfl, -⟩ := ht.det hu
    exact stops_pure
  | cons e es ih =>
    obtain ⟨F, hF⟩ := ih fun e' he' => hfill e' (.tail _ he')
    obtain ⟨G, hG⟩ := stops_nextEvent_cons env e (hfill e (.head _))
    obtain ⟨H, hH⟩ := tracks_nextEvent_cons env e ((Nat.le_succ _).trans_lt (hfill e (.head _)))
    refine ⟨max F (max G H), fun fuel hfuel sw ds k s n ws hk hds h => ?_⟩
    obtain ⟨d, ds, rfl, hd, hds⟩ := List.map_eq_cons_iff.mp hds
    rw [List.length_cons] at hk
    obtain ⟨k, rfl⟩ := Nat.exists_eq_add_of_le' (show 1 ≤ k by omega)
    refine (hG fuel (by omega) hd h).bind fun stat t ht => ?_
    obtain ⟨held, -, rfl, hb⟩ := (hH fuel (by omega) hd h).returns ht
    rw [if_pos rfl]
    refine stops_callTrigConf.bind fun _ u hu => ?_
    obtain ⟨_, -, hreader, hconfig, -⟩ :=
      (tracks_callTrigConf (hb.config ▸ h.idle.config) hb.past.lines).returns hu
    have hfacing := hb.facing hreader hconfig
    have hbuf : u.reader.world.tool.fEvioBuf = some ⟨e.words, 0⟩ := by
      rw [hreader, hb.past.buffer, List.append_nil]
    refine stops_gets.bind fun _ v hv => ?_
    obtain ⟨rfl, rfl⟩ := returns_gets.mp hv
    refine (stops_demand Halt.final_undefined).bind fun data w hw => ?_
    obtain ⟨-, rfl⟩ := returns_demand.mp hw
    have hrest {v : FilterFiles} (hv : Facing ds (n + 1) e.seen v) (status : Int) :
        Stops Halt.Final (fun _ => False)
          (if status ≠ 0 then pure false else eventLoop env args fill fuel k) v := by
      split
      · exact stops_pure
      · exact hF fuel (by omega) (by omega) hds hv
    dsimp only
    split
    · refine stops_writeEvent.bind fun status x hx => ?_
      obtain ⟨r, -, -, rfl⟩ := (tracks_writeEvent hbuf).returns hx
      exact hrest (hfacing.setOutput r.2) status
    · refine stops_pure.bind fun status x hx => ?_
      obtain ⟨-, rfl⟩ := returns_pure.mp hx
      exact hrest hfacing status

section Left

variable {garbage : Nat → UInt32} {ev : EvioEvent} {evs : List EvioEvent} {x : Bool} {b : EvWriter}
  {file : Option (List UInt32)}

end Left

end FilterFiles

end EvioTool
