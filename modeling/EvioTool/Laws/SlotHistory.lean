import EvioTool.Laws.DAQMap

namespace EvioTool

open Lib Exec

namespace Edit

def onSlot (k : Int) (s : FADC250_slot_t) : Edit → FADC250_slot_t
  | .all f v => s.put v f
  | .own j e => if j = k then e.run s else s
  | _ => s

def onAll (s : FADC250_slot_t) : Edit → FADC250_slot_t
  | .all f v => s.put v f
  | _ => s

def onMode (m : Int) : Edit → Int
  | .mode v => v
  | _ => m

end Edit

def FADC250_slot_t.fromAll (all : FADC250_slot_t) (k : Int) : FADC250_slot_t where
  slot := k
  NSB := all.NSB
  NSA := all.NSA
  npeak := all.npeak
  w_offset := all.w_offset
  window := all.window
  pedestal := all.pedestal
  gain := all.gain
  threshold := all.threshold

section Crate

variable {c : FADC250_crate_t} {k : Int} {s : FADC250_slot_t} {e : Edit} {es : List Edit}

theorem slots_onSlot (c : FADC250_crate_t) (k : Int) (f : FADC250_slot_t → FADC250_slot_t) :
    (c.onSlot k f).slots k = some (f ((c.slots k).getD {})) :=
  Function.update_self _ _ _

theorem slots_onSlot_of_ne {j : Int} (h : k ≠ j) (f : FADC250_slot_t → FADC250_slot_t) :
    (c.onSlot j f).slots k = c.slots k :=
  Function.update_of_ne h _ _

theorem mode_run (e : Edit) : (e.run c).mode = e.onMode c.mode := by
  cases e with
  | slot k =>
    simp only [Edit.run, FADC250_crate_t.addSlot]
    split <;> rfl
  | _ => rfl

theorem all_slots_run (e : Edit) : (e.run c).all_slots = e.onAll c.all_slots := by
  cases e with
  | slot k =>
    simp only [Edit.run, FADC250_crate_t.addSlot]
    split <;> rfl
  | _ => rfl

theorem slots_run_some (h : c.slots k = some s) (e : Edit) :
    (e.run c).slots k = some (e.onSlot k s) := by
  cases e with
  | slot j =>
    simp only [Edit.run, FADC250_crate_t.addSlot]
    split
    · exact h
    · rename_i hj
      have hne : k ≠ j := fun hk => Option.some_ne_none s ((hk ▸ h).symm.trans hj)
      exact (slots_onSlot_of_ne hne _).trans h
  | mode v => exact h
  | all f v =>
    simp only [Edit.run, FADC250_crate_t.putAll, h]
    rfl
  | own j e =>
    simp only [Edit.run, Edit.onSlot]
    split
    · rename_i hj
      rw [hj, slots_onSlot, h]
      rfl
    · rename_i hj
      exact (slots_onSlot_of_ne (Ne.symm hj) _).trans h

theorem slots_run_none (h : c.slots k = none) (he : ¬e.Names k) : (e.run c).slots k = none := by
  cases e with
  | slot j =>
    simp only [Edit.run, FADC250_crate_t.addSlot]
    split
    · exact h
    · exact (slots_onSlot_of_ne (Ne.symm he) _).trans h
  | mode v => exact h
  | all f v =>
    simp only [Edit.run, FADC250_crate_t.putAll, h]
    rfl
  | own j e => exact (slots_onSlot_of_ne (Ne.symm he) e.run).trans h

theorem slots_addSlot (h : c.slots k = none) :
    (Edit.run c (.slot k)).slots k = some (c.all_slots.fromAll k) := by
  simp only [Edit.run, FADC250_crate_t.addSlot, h, slots_onSlot]
  rfl

theorem slots_own (h : c.slots k = none) (e : SlotEdit) :
    (Edit.run c (.own k e)).slots k = some (e.run {}) := by
  rw [Edit.run, slots_onSlot, h]
  rfl

theorem all_slots_fold (es : List Edit) (c : FADC250_crate_t) :
    (es.foldl Edit.run c).all_slots = es.foldl Edit.onAll c.all_slots :=
  (List.foldl_hom FADC250_crate_t.all_slots fun _ e => (all_slots_run e).symm).symm

theorem mode_fold (es : List Edit) (c : FADC250_crate_t) :
    (es.foldl Edit.run c).mode = es.foldl Edit.onMode c.mode :=
  (List.foldl_hom FADC250_crate_t.mode fun _ e => (mode_run e).symm).symm

theorem slots_fold_some (h : c.slots k = some s) (es : List Edit) :
    (es.foldl Edit.run c).slots k = some (es.foldl (Edit.onSlot k) s) := by
  induction es generalizing c s with
  | nil => exact h
  | cons e es ih => exact ih (slots_run_some h e)

theorem slots_fold_none (h : c.slots k = none) (hes : ∀ e ∈ es, ¬e.Names k) :
    (es.foldl Edit.run c).slots k = none := by
  induction es generalizing c with
  | nil => exact h
  | cons e es ih => exact ih (slots_run_none h (hes e (.head _))) fun e he => hes e (.tail _ he)

end Crate

section First

variable {k : Int} {es rest : List Edit} {e : Edit}

theorem before_append_since (k : Int) (es : List Edit) : before k es ++ since k es = es :=
  List.takeWhile_append_dropWhile

theorem not_names_of_mem_before (k : Int) (es : List Edit) : ∀ e ∈ before k es, ¬e.Names k := by
  intro e h
  have hall := List.all_eq_true.mp List.all_takeWhile e h
  simpa using hall

theorem names_of_since (h : since k es = e :: rest) : e.Names k := by
  have hhead := List.head?_dropWhile_not (fun e => ¬Edit.Names k e) es
  rw [show es.dropWhile _ = e :: rest from h] at hhead
  simpa using hhead

theorem since_cases (k : Int) (es : List Edit) :
    since k es = [] ∨ (∃ rest, since k es = .slot k :: rest) ∨
      ∃ e rest, since k es = .own k e :: rest := by
  cases h : since k es with
  | nil => exact .inl rfl
  | cons e rest =>
    have hnames := names_of_since h
    cases e with
    | slot j =>
      obtain rfl : j = k := hnames
      exact .inr (.inl ⟨rest, rfl⟩)
    | own j e =>
      obtain rfl : j = k := hnames
      exact .inr (.inr ⟨e, rest, rfl⟩)
    | mode v => exact hnames.elim
    | all f v => exact hnames.elim

variable {c : FADC250_crate_t} (h : c.slots k = none)
include h

theorem slots_of_nil (hs : since k es = []) : (es.foldl Edit.run c).slots k = none := by
  have hes := before_append_since k es
  rw [hs, List.append_nil] at hes
  rw [← hes]
  exact slots_fold_none h (not_names_of_mem_before k es)

theorem slots_of_slot (hs : since k es = .slot k :: rest) :
    (es.foldl Edit.run c).slots k =
      some (rest.foldl (Edit.onSlot k) (((before k es).foldl Edit.onAll c.all_slots).fromAll k)) := by
  have hbefore := slots_fold_none h (not_names_of_mem_before k es)
  rw [← all_slots_fold]
  conv_lhs => rw [← before_append_since k es, hs, List.foldl_append, List.foldl_cons]
  exact slots_fold_some (slots_addSlot hbefore) rest

theorem slots_of_own {e : SlotEdit} (hs : since k es = .own k e :: rest) :
    (es.foldl Edit.run c).slots k = some (rest.foldl (Edit.onSlot k) (e.run {})) := by
  have hbefore := slots_fold_none h (not_names_of_mem_before k es)
  conv_lhs => rw [← before_append_since k es, hs, List.foldl_append, List.foldl_cons]
  exact slots_fold_some (slots_own hbefore e) rest

end First

section Fields

variable {s : FADC250_slot_t} {k : Int} {q : Field} {e : Edit} {es : List Edit}

theorem get_put (hs : s.Sized) (v : Int) (f : Setting) :
    q.get (s.put v f) = if f.sets q then v else q.get s := by
  cases f with
  | TET =>
    cases q with
    | threshold i =>
      have hi : (i : Nat) < s.threshold.length := hs.threshold.symm ▸ i.isLt
      simp [Field.get, FADC250_slot_t.put, Setting.sets, hi]
    | _ => rfl
  | _ => cases q <;> rfl

theorem get_slotEdit (hs : s.Sized) (e : SlotEdit) :
    q.get (e.run s) = (e.value q).getD (q.get s) := by
  cases e with
  | setting f v =>
    rw [SlotEdit.run, get_put hs, SlotEdit.value]
    split <;> rfl
  | threshold chan thres =>
    cases q with
    | threshold i =>
      have hi : (i : Nat) < s.threshold.length := hs.threshold.symm ▸ i.isLt
      simp only [Field.get, SlotEdit.run, SlotEdit.value, List.getD_eq_getElem?_getD,
        List.getElem?_set]
      split
      · rename_i hc
        rw [hc, if_pos hi]
        rfl
      · rfl
    | _ => rfl
  | _ => cases q <;> rfl

theorem sized_onSlot (hs : s.Sized) (e : Edit) : (e.onSlot k s).Sized := by
  cases e with
  | all f v => exact hs.put v f
  | own j e =>
    simp only [Edit.onSlot]
    split
    · exact e.sized_run hs
    · exact hs
  | _ => exact hs

theorem get_onSlot (hs : s.Sized) (e : Edit) :
    q.get (e.onSlot k s) = (e.value k q).getD (q.get s) := by
  cases e with
  | all f v =>
    rw [Edit.onSlot, get_put hs, Edit.value, SlotEdit.value]
    split <;> rfl
  | own j e =>
    simp only [Edit.onSlot, Edit.value]
    split
    · exact get_slotEdit hs e
    · rfl
  | _ => rfl

theorem get_fold (hs : s.Sized) (es : List Edit) :
    q.get (es.foldl (Edit.onSlot k) s) = written (es.map (Edit.value k q)) (q.get s) :=
  foldl_written (Edit.onSlot k) (fun s => q.get s) (Edit.value k q)
    (fun _ e h => sized_onSlot h e) (fun _ e h => get_onSlot h e) es hs

theorem onSlot_of_not_names (he : ¬e.Names k) : e.onSlot k s = e.onAll s := by
  cases e with
  | own j e => exact if_neg he
  | _ => rfl

theorem fold_of_not_names (hes : ∀ e ∈ es, ¬e.Names k) (s : FADC250_slot_t) :
    es.foldl (Edit.onSlot k) s = es.foldl Edit.onAll s := by
  induction es generalizing s with
  | nil => rfl
  | cons e es ih =>
    rw [List.foldl_cons, List.foldl_cons, onSlot_of_not_names (hes e (.head _)),
      ih fun e he => hes e (.tail _ he)]

end Fields

end EvioTool
