import EvioTool.Defs.Leaf

namespace EvioTool

structure VTPHits where
  clusters : List UInt64 := []
  singletrigs : List UInt32 := []
  pairtrigs : List UInt32 := []
  calibtrigs : List UInt32 := []
  clustermult : List UInt32 := []
  feetrigger : List UInt32 := []
  deriving DecidableEq

namespace VTPHits

def append (a b : VTPHits) : VTPHits where
  clusters := a.clusters ++ b.clusters
  singletrigs := a.singletrigs ++ b.singletrigs
  pairtrigs := a.pairtrigs ++ b.pairtrigs
  calibtrigs := a.calibtrigs ++ b.calibtrigs
  clustermult := a.clustermult ++ b.clustermult
  feetrigger := a.feetrigger ++ b.feetrigger

theorem append_assoc (a b c : VTPHits) : (a.append b).append c = a.append (b.append c) := by
  simp [append]

@[simp] theorem append_empty (a : VTPHits) : a.append {} = a := by
  simp [append]

@[simp] theorem empty_append (a : VTPHits) : append {} a = a := by
  simp [append]

/-- The record in a single word of expansion type. -/
def ofWord (w : UInt32) : (subtype : Nat) → VTPHits
  | 3 => { singletrigs := [w] }
  | 4 => { pairtrigs := [w] }
  | 5 => { calibtrigs := [w] }
  | 6 => { clustermult := [w] }
  | 7 => { feetrigger := [w] }
  | _ => {}

theorem ofWord_other {w : UInt32} {k : Nat} (h3 : k ≠ 3) (h4 : k ≠ 4) (h5 : k ≠ 5) (h6 : k ≠ 6)
    (h7 : k ≠ 7) : ofWord w k = {} := by
  unfold ofWord
  split <;> first | contradiction | rfl

/-- The records in VTP data.  A trigger time takes the next word with it; a cluster
shares its second word with what follows. -/
def decode : List UInt32 → Except Halt VTPHits
  | [] => .ok {}
  | w :: rest =>
    if w &&& (1 : UInt32) <<< 31 ≠ 0 then
      match ((w >>> 27) &&& 0x0F).toNat with
      | 3 => match rest with
        | [] => .error .outside
        | _ :: rest => decode rest
      | 12 => match ((w >>> 23) &&& 0x0F).toNat with
        | 2 => match rest with
          | [] => .error .outside
          | c :: _ => (decode rest).map (append { clusters := [w.toUInt64 + c.toUInt64 <<< 32] })
        | k => (decode rest).map (append (ofWord w k))
      | _ => decode rest
    else decode rest

theorem map_append (x : Except Halt VTPHits) (a h : VTPHits) (p : Bool) :
    (x.map (append h)).map (fun d => (a.append d, p)) = x.map fun d => ((a.append h).append d, p) := by
  cases x with
  | error e => rfl
  | ok d => simp [Except.map, append_assoc]

end VTPHits

namespace VTPBank

def hits (v : VTPBank) : VTPHits where
  clusters := v.clusters
  singletrigs := v.singletrigs
  pairtrigs := v.pairtrigs
  calibtrigs := v.calibtrigs
  clustermult := v.clustermult
  feetrigger := v.feetrigger

@[simp] theorem hits_clear (v : VTPBank) : v.clear.hits = {} := rfl

@[simp] theorem autoParse_clear (v : VTPBank) : v.clear.autoParse = v.autoParse := rfl

theorem parseWords_eq (ws : List UInt32) (v : VTPBank) :
    (parseWords ws v).map (fun u => (u.hits, u.autoParse)) =
      (VTPHits.decode ws).map fun d => (v.hits.append d, v.autoParse) := by
  induction ws, v using parseWords.induct
  case case1 v => simp [parseWords, VTPHits.decode, Except.map]
  all_goals
    unfold parseWords VTPHits.decode
    simp only [*, ne_eq, not_false_eq_true, if_true, if_false]
  -- a record at the head
  case case8 | case9 | case10 | case11 | case12 | case13 =>
    rw [VTPHits.map_append]
    simp [hits, VTPHits.append, VTPHits.ofWord]
  case case14 w rest v _ _ h2 h3 h4 h5 h6 h7 _ =>
    rw [VTPHits.map_append, VTPHits.ofWord_other h3 h4 h5 h6 h7, VTPHits.append_empty]
  all_goals simp [hits, Except.map]

theorem parseWords_ok {ws : List UInt32} {v u : VTPBank} (h : parseWords ws v = .ok u) :
    ∃ d, VTPHits.decode ws = .ok d ∧ u.hits = v.hits.append d ∧ u.autoParse = v.autoParse := by
  have heq := parseWords_eq ws v
  rw [h] at heq
  cases hd : VTPHits.decode ws with
  | error e =>
    rw [hd] at heq
    cases heq
  | ok d =>
    rw [hd] at heq
    injection heq with heq
    exact ⟨d, rfl, congrArg Prod.fst heq, congrArg Prod.snd heq⟩

theorem parseBank_ok {ws : List UInt32} {v u : VTPBank} (h : parseBank ws v = .ok u) :
    VTPHits.decode ws = .ok u.hits ∧ u.autoParse = v.autoParse := by
  obtain ⟨d, hd, hhits, hauto⟩ := parseWords_ok h
  rw [hits_clear, VTPHits.empty_append] at hhits
  exact ⟨hhits ▸ hd, hauto⟩

def blank (v : VTPBank) : VTPBank where
  blockHeader := 0
  blockTail := 0
  eventHeader := 0
  trigTime := 0
  autoParse := v.autoParse

theorem parseBank_blank (ws : List UInt32) (v : VTPBank) :
    (parseBank ws v).map blank = (VTPHits.decode ws).map fun _ => v.blank := by
  have heq := parseWords_eq ws v.clear
  unfold parseBank
  cases hp : parseWords ws v.clear <;> cases hd : VTPHits.decode ws <;> rw [hp, hd] at heq <;>
    simp only [Except.map, reduceCtorEq, Except.error.injEq, Except.ok.injEq, Prod.mk.injEq] at heq ⊢
  · exact heq
  · simp [blank, heq.2]

end VTPBank

end EvioTool
