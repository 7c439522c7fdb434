import Synapse.Transition.Machine

/-!
# Incremental repaints

A board shows a scene of items in an environment, on a surface that keeps what is painted on it. An
item is painted with a pen, which it sets as far as it can, and which it leaves to the next one.
Painting the scene again from its ground costs a mark for each item; when nothing but new items has
come, it is enough to paint those. A board remembers which of the two is due and how many items it
has painted, and asks for a frame; a frame does what is due.

What a board shows when nothing is due is what a full repaint shows that starts from a pen of some
time. It is what a full repaint would show now if the first item sets the pen completely.
-/

open Transition

namespace Repaint

variable {ε π α β : Type*}

/-- How a scene is painted: its ground, what an item makes of the pen, and the mark of an item with
that pen. -/
structure Painter (ε π α β : Type*) where
  ground : ε → List β
  take : π → α → π
  mark : ε → π → α → β

namespace Painter

variable (P : Painter ε π α β)

/-- The marks of some items, beginning with a pen. -/
def marks (env : ε) : π → List α → List β
  | _, [] => []
  | pen, item :: items => P.mark env (P.take pen item) item :: marks env (P.take pen item) items

/-- What a full repaint shows. -/
def full (env : ε) (pen : π) (items : List α) : List β := P.ground env ++ P.marks env pen items

variable {P} {env : ε} {pen : π} {items : List α}

theorem marks_append (added : List α) : P.marks env pen (items ++ added)
    = P.marks env pen items ++ P.marks env (items.foldl P.take pen) added := by
  induction items generalizing pen with
  | nil => rfl
  | cons item items ih => rw [List.cons_append, marks, ih, marks, List.cons_append, List.foldl_cons]

theorem full_append (added : List α) : P.full env pen (items ++ added)
    = P.full env pen items ++ P.marks env (items.foldl P.take pen) added := by
  rw [full, full, marks_append, List.append_assoc]

/-- If the first item sets the pen completely, the items are painted alike with every pen. -/
theorem marks_congr (h : ∀ item ∈ items.head?, ∀ p q, P.take p item = P.take q item) (pen' : π) :
    P.marks env pen items = P.marks env pen' items := by
  cases items with
  | nil => rfl
  | cons item items => rw [marks, marks, h item rfl pen pen']

theorem forall_mem_marks {Q : β → Prop} (h : ∀ p item, Q (P.mark env p item)) :
    ∀ mark ∈ P.marks env pen items, Q mark := by
  induction items generalizing pen with
  | nil => exact List.forall_mem_nil _
  | cons item items ih => exact List.forall_mem_cons.mpr ⟨h _ item, ih⟩

theorem map_marks_iff {γ : Type*} {f : β → γ} {g : α → γ} {Q : α → Prop}
    (h : ∀ p item, f (P.mark env (P.take p item) item) = g item ↔ Q item) :
    (P.marks env pen items).map f = items.map g ↔ ∀ item ∈ items, Q item := by
  induction items generalizing pen with
  | nil => simp [marks]
  | cons item items ih =>
    rw [marks, List.map_cons, List.map_cons, List.cons.injEq, h, ih, List.forall_mem_cons]

end Painter

/-- What is due. -/
inductive Dirty
  | none
  | append
  | full
  deriving DecidableEq

/-- A scene, and the surface that shows it. -/
structure Board (ε π α β : Type*) where
  env : ε
  /-- What the items painted last have left the pen at. -/
  pen : π
  items : List α
  dirty : Dirty
  /-- How many items have been painted. -/
  painted : ℕ
  /-- Whether a frame has been asked for. -/
  pending : Bool
  shown : List β

/-- What happens to a board. -/
inductive Change (ε π α β : Type*)
  /-- An item comes. -/
  | add (item : α)
  /-- The environment, the pen, the scene or the surface changes. -/
  | reload (env : ε) (pen : π) (items : List α) (shown : List β)
  /-- A frame is asked for on another account. -/
  | request
  | frame

namespace Board

variable (P : Painter ε π α β) (b : Board ε π α β)

/-- Paints the items that have not been painted. -/
def catchUp : Board ε π α β :=
  if b.items.length ≤ b.painted then b
  else
    { b with
      shown := b.shown ++ P.marks b.env b.pen (b.items.drop b.painted)
      pen := (b.items.drop b.painted).foldl P.take b.pen
      painted := b.items.length }

/-- Paints everything. -/
def repaint : Board ε π α β :=
  { b with
    shown := P.full b.env b.pen b.items
    pen := b.items.foldl P.take b.pen
    painted := b.items.length }

/-- Does what is due. -/
def flush : Board ε π α β :=
  match b.dirty with
  | .none => b
  | .append => { b with dirty := .none }.catchUp P
  | .full => { b with dirty := .none }.repaint P

/-- What one change does; a frame needs one to be pending. -/
def step : Change ε π α β → Option (Board ε π α β)
  | .add item =>
    some { b with
      items := b.items ++ [item]
      dirty := if b.dirty = .none then .append else b.dirty
      pending := true }
  | .reload env pen items shown =>
    some { b with
      env := env, pen := pen, items := items, shown := shown, dirty := .full, pending := true }
  | .request => some { b with pending := true }
  | .frame => if b.pending then some ({ b with pending := false }.flush P) else none

/-- A board under any changes, from one on which a full repaint is due. -/
def machine : Machine (Board ε π α β) (Change ε π α β) where
  init b := b.dirty = .full ∧ b.pending = true
  step b change := b.step P change

/-- The board shows the first `n` items, painted from `pen`, and the pen is where they left it. -/
def ShowsFrom (n : ℕ) (pen : π) : Prop :=
  b.shown = P.full b.env pen (b.items.take n) ∧ b.pen = (b.items.take n).foldl P.take pen

/-- The painted items are shown unless a full repaint is due, and they are all of them when nothing
is due. -/
structure Faithful : Prop where
  painted : b.dirty ≠ .full → b.painted ≤ b.items.length
  shown : b.dirty ≠ .full → ∃ pen, b.ShowsFrom P b.painted pen
  complete : b.dirty = .none → b.painted = b.items.length

/-- Besides, something is due only while a frame is pending. -/
structure Coherent : Prop extends b.Faithful P where
  pending : b.dirty ≠ .none → b.pending = true

/-- Everything has been painted, from `pen`. -/
def settled (pen : π) : Board ε π α β :=
  { b with
    dirty := .none
    painted := b.items.length
    shown := P.full b.env pen b.items
    pen := b.items.foldl P.take pen }

variable {P b}

theorem dirty_flush : (b.flush P).dirty = .none := by
  unfold flush
  split
  · assumption
  · unfold catchUp
    split_ifs <;> rfl
  · rfl

theorem flush_eq_self (h : b.dirty = .none) : b.flush P = b := by
  rw [flush, h]

theorem eq_settled {pen : π} (hdirty : b.dirty = .none) (hpainted : b.painted = b.items.length)
    (hshown : b.ShowsFrom P b.painted pen) : b = b.settled P pen := by
  obtain ⟨hshown, hpen⟩ := hshown
  rw [hpainted, List.take_length] at hshown hpen
  rw [settled, ← hshown, ← hpen, ← hpainted, ← hdirty]

theorem catchUp_eq {pen : π} (hdirty : b.dirty = .none) (hpainted : b.painted ≤ b.items.length)
    (hshown : b.ShowsFrom P b.painted pen) : b.catchUp P = b.settled P pen := by
  unfold catchUp
  split_ifs with hle
  · exact eq_settled hdirty (Nat.le_antisymm hpainted hle) hshown
  · obtain ⟨hshown, hpen⟩ := hshown
    rw [settled, hshown, hpen, ← Painter.full_append, ← List.foldl_append, List.take_append_drop,
      ← hdirty]

/-- What is due comes to a full repaint, from the pen of some time. -/
theorem Faithful.flush_eq (h : b.Faithful P) : ∃ pen, b.flush P = b.settled P pen := by
  unfold flush
  split
  · next hdirty =>
    obtain ⟨pen, hpen⟩ := h.shown (by rw [hdirty]; nofun)
    exact ⟨pen, eq_settled hdirty (h.complete hdirty) hpen⟩
  · next hdirty =>
    have hfull : b.dirty ≠ .full := by rw [hdirty]; nofun
    obtain ⟨pen, hpen⟩ := h.shown hfull
    exact ⟨pen, catchUp_eq (b := { b with dirty := .none }) rfl (h.painted hfull) hpen⟩
  · exact ⟨b.pen, rfl⟩

theorem coherent_settled (b : Board ε π α β) (pen : π) : (b.settled P pen).Coherent P where
  painted := fun _ ↦ Nat.le_refl _
  shown := fun _ ↦ ⟨pen, by rw [ShowsFrom, settled, List.take_length]; exact ⟨rfl, rfl⟩⟩
  complete := fun _ ↦ rfl
  pending := fun h ↦ absurd rfl h

theorem Coherent.step {change : Change ε π α β} {b' : Board ε π α β} (h : b.Coherent P)
    (hstep : b.step P change = some b') : b'.Coherent P := by
  cases change with
  | add item =>
    cases hstep
    have hfull : (if b.dirty = .none then Dirty.append else b.dirty) ≠ .full → b.dirty ≠ .full := by
      grind
    refine ⟨⟨fun hdirty ↦ ?_, fun hdirty ↦ ?_, fun hdirty ↦ ?_⟩, fun _ ↦ rfl⟩
    · have hle := h.painted (hfull hdirty)
      rw [List.length_append]
      exact Nat.le_trans hle (Nat.le_add_right _ _)
    · have hle := h.painted (hfull hdirty)
      obtain ⟨pen, hpen⟩ := h.shown (hfull hdirty)
      refine ⟨pen, ?_⟩
      rw [ShowsFrom, List.take_append_of_le_length hle]
      exact hpen
    · grind
  | reload env pen items shown =>
    cases hstep
    exact ⟨⟨fun hdirty ↦ absurd rfl hdirty, fun hdirty ↦ absurd rfl hdirty, nofun⟩, fun _ ↦ rfl⟩
  | request =>
    cases hstep
    exact ⟨⟨h.painted, h.shown, h.complete⟩, fun _ ↦ rfl⟩
  | frame =>
    obtain ⟨-, hflush⟩ := Option.ite_none_right_eq_some.mp hstep
    obtain rfl := Option.some_inj.mp hflush
    have hframe : ({ b with pending := false } : Board ε π α β).Faithful P :=
      ⟨h.painted, h.shown, h.complete⟩
    obtain ⟨pen, hpen⟩ := hframe.flush_eq
    rw [hpen]
    exact coherent_settled _ pen

theorem coherent_of_reaches (h : (machine P).Reaches Machine.anyStep b) : b.Coherent P := by
  refine h.invariant (fun b hb ↦ ?_) fun u change v hu _ hstep ↦ hu.step hstep
  exact ⟨⟨fun hdirty ↦ absurd hb.1 hdirty, fun hdirty ↦ absurd hb.1 hdirty,
    fun hdirty ↦ by rw [hb.1] at hdirty; cases hdirty⟩, fun _ ↦ hb.2⟩

/-- When nothing is due, everything is shown. -/
theorem Faithful.exists_shown_eq_full (h : b.Faithful P) (hdirty : b.dirty = .none) :
    ∃ pen, b.shown = P.full b.env pen b.items := by
  obtain ⟨pen, hshown, -⟩ := h.shown (by rw [hdirty]; nofun)
  rw [h.complete hdirty, List.take_length] at hshown
  exact ⟨pen, hshown⟩

/-- And a full repaint would change nothing if the first item sets the pen completely. -/
theorem Faithful.shown_eq_full (h : b.Faithful P) (hdirty : b.dirty = .none)
    (hfirst : ∀ item ∈ b.items.head?, ∀ p q, P.take p item = P.take q item) :
    b.shown = P.full b.env b.pen b.items := by
  obtain ⟨pen, hshown⟩ := h.exists_shown_eq_full hdirty
  rw [hshown, Painter.full, Painter.full, Painter.marks_congr hfirst]

end Board

end Repaint
