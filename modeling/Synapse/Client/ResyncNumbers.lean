import Mathlib.Order.Bounds.Basic
import Synapse.Client.Session
import Synapse.Floating.Format
import Synapse.Transition.Machine

/-!
# The resync controller over all numbers

The wire promises the client nothing about the sequence numbers it receives, and the controller is
written for any of them: `strokeSync.ts` screens what is not finite, and computes with doubles. Here
its two functions and the controller are stated over the doubles, with `NaN`, the infinities and the
strokes of older servers that have no number.

The mark is the maximum of what has passed and never decreases, and what is applied comes in order.
What the comment promises of a gap, that a stroke more than one past the mark asks for a resync and
no other does, holds of the strokes that are not strictly between the mark and the number after it,
and that the rounding of that number does not reach.
-/

open Transition Floating

namespace Synapse.Js

/-- A number of the language. -/
abbrev Number := Value binary64

/-- A natural number the format has. -/
def whole (k : ℕ) (hk : k < 2 ^ 53) : Finite binary64 :=
  Finite.scaled k 0 (by rw [Nat.abs_cast]; exact_mod_cast hk) (by decide) (by decide)

theorem whole_val {k : ℕ} (hk : k < 2 ^ 53) : (whole k hk).val = k := by
  simp [whole, Finite.scaled]

/-- The literal `0`. -/
def zero : Number := .finite (whole 0 (by decide))

/-- The literal `1`. -/
def one : Number := .finite (whole 1 (by decide))

/-- A stroke whose number may be anything, or missing. -/
structure LooseStroke extends StrokeSegment where
  seq : Option Number
  deriving DecidableEq

/-! ## `strokeSync.ts` -/

/-- Decides how to handle a stroke given the highest number already applied. -/
def decideStrokeAction (lastAppliedSeq incomingSeq : Number) : StrokeAction :=
  if !incomingSeq.isFinite then .ignore
  else if incomingSeq.le lastAppliedSeq then .ignore
  else if incomingSeq.eq (lastAppliedSeq.add one) then .apply
  else .resync

/-- The highest finite number among `strokes`, never below `current`. -/
def highestSeq (strokes : List LooseStroke) (current : Number) : Number :=
  strokes.foldl
    (fun highest k ↦
      match k.seq with
      | some n => if n.isFinite && highest.lt n then n else highest
      | none => highest)
    current

/-! ## `ResyncController.ts` -/

/-- The high-water mark. -/
structure ResyncController where
  lastAppliedSeq : Number := zero

/-- What the controller asks of its owner. -/
inductive ResyncCallback
  | onApply (stroke : LooseStroke)
  | onResync (sinceSeq : Number)
  deriving DecidableEq

namespace ResyncController

variable (resync : ResyncController)

/-- Handles one live stroke. -/
def ingest (stroke : LooseStroke) : ResyncController × Option ResyncCallback :=
  match stroke.seq with
  | none => (resync, some (.onApply stroke))
  | some seq =>
    match decideStrokeAction resync.lastAppliedSeq seq with
    | .apply => (⟨seq⟩, some (.onApply stroke))
    | .resync => (resync, some (.onResync resync.lastAppliedSeq))
    | .ignore => (resync, none)

/-- Adopts a batch as the new baseline. -/
def adoptBatch (strokes : List LooseStroke) : ResyncController :=
  ⟨highestSeq strokes resync.lastAppliedSeq⟩

end ResyncController

/-! ## Runs -/

/-- A number that the controller let pass: through `onApply`, or as a finite number of a batch. -/
structure Passed where
  applied : Bool
  number : Number

/-- A controller, with what has passed since it was constructed or reset, the oldest first. -/
structure Tracking where
  resync : ResyncController := {}
  passed : List Passed := []

/-- A call of the controller. -/
inductive ControllerMove
  | ingest (stroke : LooseStroke)
  | adoptBatch (strokes : List LooseStroke)
  | reset

/-- The finite numbers of a batch. -/
def finiteSeqs (strokes : List LooseStroke) : List Number :=
  (strokes.filterMap (·.seq)).filter (·.isFinite)

/-- What passes when a stroke is handled with `callback`. -/
def passedBy (stroke : LooseStroke) : (callback : Option ResyncCallback) → List Passed
  | some (.onApply _) => (stroke.seq.map (⟨true, ·⟩)).toList
  | _ => []

/-- Any sequence of calls. -/
def controller : Machine Tracking ControllerMove where
  init s := s = {}
  step s
    | .ingest stroke =>
      let outcome := s.resync.ingest stroke
      some ⟨outcome.1, s.passed ++ passedBy stroke outcome.2⟩
    | .adoptBatch strokes =>
      some ⟨s.resync.adoptBatch strokes, s.passed ++ (finiteSeqs strokes).map (⟨false, ·⟩)⟩
    | .reset => some {}

/-- `mark` is one of the numbers, and none of them is above it. -/
def IsHighest (numbers : List Number) (mark : Number) : Prop :=
  mark ∈ numbers ∧ ∀ n ∈ numbers, n.le mark = true

/-- The mark is the maximum of zero and of all that has passed. -/
def Tracking.MarkIsMaximum (s : Tracking) : Prop :=
  IsHighest (zero :: s.passed.map (·.number)) s.resync.lastAppliedSeq

/-- What is applied is greater than all that has passed before it. -/
def Tracking.InOrder (s : Tracking) : Prop :=
  s.passed.Pairwise fun p q ↦ q.applied = true → p.number.lt q.number = true

/-- `n` is the mark plus one. -/
def Next (mark n : Number) : Prop :=
  ∃ m q : Finite binary64, mark = .finite m ∧ n = .finite q ∧ q.val = m.val + 1

/-- `n` is finite and beyond the mark plus one. -/
def Beyond (mark n : Number) : Prop :=
  ∃ m q : Finite binary64, mark = .finite m ∧ n = .finite q ∧ m.val + 1 < q.val

/-- A stroke numbered `n` is applied exactly when it is the next one, and a resync is requested
exactly when it is beyond that. -/
def ResyncController.JudgesGap (resync : ResyncController) (stroke : LooseStroke) (n : Number) :
    Prop :=
  ((resync.ingest stroke).2 = some (.onApply stroke) ↔ Next resync.lastAppliedSeq n) ∧
    ((∃ since, (resync.ingest stroke).2 = some (.onResync since)) ↔
      Beyond resync.lastAppliedSeq n)

/-- `n` is past the mark by less than one. -/
def Within (mark n : Number) : Prop :=
  ∃ m q : Finite binary64, mark = .finite m ∧ n = .finite q ∧ m.val < q.val ∧ q.val < m.val + 1

/-- `n` is past the mark by more than one, and is what the mark plus one is rounded to. -/
def RoundedTo (mark n : Number) : Prop :=
  ∃ m q : Finite binary64, mark = .finite m ∧ n = .finite q ∧ m.val + 1 < q.val ∧
    q.val = binary64.round (m.val + 1)

/-! ## One decision -/

variable {m q : Finite binary64}

theorem decideStrokeAction_finite (m q : Finite binary64) :
    decideStrokeAction (.finite m) (.finite q) =
      if q.val ≤ m.val then .ignore
      else if q.val = binary64.round (m.val + 1) then .apply
      else .resync := by
  have hnext : Value.eq (.finite q) (Value.add (.finite m) one) = true ↔
      q.val = binary64.round (m.val + 1) := by
    rw [one, Value.add, Value.eq_ofRat_iff]
    simp [whole, Finite.scaled]
  simp only [decideStrokeAction, Value.isFinite, Value.le, decide_eq_true_eq, hnext, Bool.not_true,
    Bool.false_eq_true, if_false]

theorem ingest_cases {resync : ResyncController} {stroke : LooseStroke}
    (hmark : resync.lastAppliedSeq = .finite m) (hseq : stroke.seq = some (.finite q)) :
    (q.val ≤ m.val ∧ resync.ingest stroke = (resync, none)) ∨
    (m.val < q.val ∧ q.val = binary64.round (m.val + 1) ∧
      resync.ingest stroke = (⟨.finite q⟩, some (.onApply stroke))) ∨
    (m.val < q.val ∧ q.val ≠ binary64.round (m.val + 1) ∧
      resync.ingest stroke = (resync, some (.onResync resync.lastAppliedSeq))) := by
  unfold ResyncController.ingest
  rw [hseq, hmark]
  simp only [decideStrokeAction_finite]
  split_ifs with hle hnext
  · exact Or.inl ⟨hle, rfl⟩
  · exact Or.inr (Or.inl ⟨not_le.mp hle, hnext, rfl⟩)
  · exact Or.inr (Or.inr ⟨not_le.mp hle, hnext, rfl⟩)

theorem ingest_of_not_finite {resync : ResyncController} {stroke : LooseStroke} {n : Number}
    (hseq : stroke.seq = some n) (hn : n.isFinite = false) :
    resync.ingest stroke = (resync, none) := by
  simp [ResyncController.ingest, hseq, decideStrokeAction, hn]

theorem eq_of_onResync {resync : ResyncController} {stroke : LooseStroke} {since : Number}
    (h : (resync.ingest stroke).2 = some (.onResync since)) :
    since = resync.lastAppliedSeq ∧ (resync.ingest stroke).1 = resync := by
  unfold ResyncController.ingest at h ⊢
  split at h
  · cases h
  · split at h
    · cases h
    · cases h
      exact ⟨rfl, rfl⟩
    · cases h

/-! ## Batches -/

theorem highestSeq_cons (k : LooseStroke) (strokes : List LooseStroke) (current : Number) :
    highestSeq (k :: strokes) current = highestSeq strokes (highestSeq [k] current) := rfl

theorem finiteSeqs_cons (k : LooseStroke) (strokes : List LooseStroke) :
    finiteSeqs (k :: strokes) = finiteSeqs [k] ++ finiteSeqs strokes := by
  rw [finiteSeqs, finiteSeqs, finiteSeqs, ← List.filter_append, ← List.filterMap_append,
    List.singleton_append]

theorem IsHighest.trans {numbers added : List Number} {mark mark' : Number}
    (h : IsHighest numbers mark) (h' : IsHighest (mark :: added) mark') :
    IsHighest (numbers ++ added) mark' := by
  obtain ⟨hmem, hle⟩ := h
  obtain ⟨hmem', hle'⟩ := h'
  refine ⟨?_, ?_⟩
  · rcases List.mem_cons.mp hmem' with rfl | hadded
    · exact List.mem_append_left _ hmem
    · exact List.mem_append_right _ hadded
  · intro n hn
    rcases List.mem_append.mp hn with hold | hadded
    · exact Value.le_trans (hle n hold) (hle' mark List.mem_cons_self)
    · exact hle' n (List.mem_cons_of_mem _ hadded)

theorem isHighest_singleton (m : Finite binary64) : IsHighest [.finite m] (.finite m) :=
  ⟨List.mem_cons_self, fun _ hn ↦ List.mem_singleton.mp hn ▸ Value.le_refl m⟩

theorem isHighest_highestSeq_single (k : LooseStroke) (m : Finite binary64) :
    IsHighest (.finite m :: finiteSeqs [k]) (highestSeq [k] (.finite m)) := by
  have hself := isHighest_singleton m
  rcases hk : k.seq with _ | n
  · simpa [finiteSeqs, highestSeq, hk] using hself
  cases n with
  | nan => simpa [finiteSeqs, highestSeq, hk, Value.isFinite] using hself
  | infinity b => simpa [finiteSeqs, highestSeq, hk, Value.isFinite] using hself
  | finite q =>
    have hseqs : finiteSeqs [k] = [.finite q] := by simp [finiteSeqs, hk, Value.isFinite]
    have hhighest : highestSeq [k] (.finite m)
        = if m.val < q.val then .finite q else .finite m := by
      simp [highestSeq, hk, Value.isFinite, Value.lt]
    rw [hseqs, hhighest]
    split_ifs with hlt
    · refine ⟨by simp, ?_⟩
      simp [Value.le, hlt.le]
    · refine ⟨by simp, ?_⟩
      simp [Value.le, not_lt.mp hlt]

theorem isHighest_highestSeq (strokes : List LooseStroke) (m : Finite binary64) :
    IsHighest (.finite m :: finiteSeqs strokes) (highestSeq strokes (.finite m)) := by
  induction strokes generalizing m with
  | nil => exact isHighest_singleton m
  | cons k strokes ih =>
    have hk := isHighest_highestSeq_single k m
    obtain ⟨m', hm'⟩ : ∃ m', highestSeq [k] (.finite m) = .finite m' := by
      rcases List.mem_cons.mp hk.1 with h | h
      · exact ⟨m, h⟩
      · exact Value.exists_of_isFinite (List.mem_filter.mp h).2
    rw [highestSeq_cons, finiteSeqs_cons, ← List.cons_append]
    rw [hm'] at hk ⊢
    exact hk.trans (ih m')

/-! ## A call -/

/-- What a call other than a reset does: `added` passes, the mark becomes the highest, and what is
applied is above the mark before. -/
structure Advances (s t : Tracking) (added : List Passed) : Prop where
  passed : t.passed = s.passed ++ added
  mark : IsHighest (s.resync.lastAppliedSeq :: added.map (·.number)) t.resync.lastAppliedSeq
  above : ∀ p ∈ added, p.applied = true → s.resync.lastAppliedSeq.lt p.number = true
  ordered : added.Pairwise fun _ q ↦ q.applied = false
  finite : ∀ p ∈ added, p.number.isFinite = true

theorem Advances.idle {s t : Tracking} (hmark : s.resync.lastAppliedSeq = .finite m)
    (hresync : t.resync = s.resync) (hpassed : t.passed = s.passed) : Advances s t [] where
  passed := by rw [hpassed, List.append_nil]
  mark := by
    rw [hresync, hmark]
    exact isHighest_singleton m
  above := fun _ hp ↦ absurd hp List.not_mem_nil
  ordered := List.Pairwise.nil
  finite := fun _ hp ↦ absurd hp List.not_mem_nil

theorem advances_ingest {s : Tracking} (hmark : s.resync.lastAppliedSeq = .finite m)
    (stroke : LooseStroke) :
    ∃ added, Advances s ⟨(s.resync.ingest stroke).1,
      s.passed ++ passedBy stroke (s.resync.ingest stroke).2⟩ added := by
  have hidle (h : (s.resync.ingest stroke).1 = s.resync)
      (h' : passedBy stroke (s.resync.ingest stroke).2 = []) :
      ∃ added, Advances s ⟨(s.resync.ingest stroke).1,
        s.passed ++ passedBy stroke (s.resync.ingest stroke).2⟩ added :=
    ⟨[], Advances.idle hmark h (by rw [h', List.append_nil])⟩
  rcases hseq : stroke.seq with _ | n
  · have hingest : s.resync.ingest stroke = (s.resync, some (.onApply stroke)) := by
      simp [ResyncController.ingest, hseq]
    refine hidle ?_ ?_ <;> simp [hingest, passedBy, hseq]
  rcases hn : n.isFinite with _ | _
  · have hingest : s.resync.ingest stroke = (s.resync, none) := ingest_of_not_finite hseq hn
    refine hidle ?_ ?_ <;> simp [hingest, passedBy]
  obtain ⟨q, rfl⟩ := Value.exists_of_isFinite hn
  rcases ingest_cases hmark hseq with ⟨-, hingest⟩ | ⟨hlt, -, hingest⟩ | ⟨-, -, hingest⟩
  · refine hidle ?_ ?_ <;> simp [hingest, passedBy]
  · refine ⟨[⟨true, .finite q⟩], ?_, ?_, ?_, ?_, ?_⟩
    · simp [hingest, passedBy, hseq]
    · rw [hingest, hmark]
      refine ⟨by simp, ?_⟩
      simp [Value.le, hlt.le]
    · simp [hmark, Value.lt, hlt]
    · exact List.pairwise_singleton _ _
    · simp [Value.isFinite]
  · refine hidle ?_ ?_ <;> simp [hingest, passedBy]

theorem advances_adoptBatch {s : Tracking} (hmark : s.resync.lastAppliedSeq = .finite m)
    (strokes : List LooseStroke) :
    Advances s ⟨s.resync.adoptBatch strokes, s.passed ++ (finiteSeqs strokes).map (⟨false, ·⟩)⟩
      ((finiteSeqs strokes).map (⟨false, ·⟩)) where
  passed := rfl
  mark := by
    rw [List.map_map, ResyncController.adoptBatch, hmark]
    have hmap : (finiteSeqs strokes).map ((·.number) ∘ (Passed.mk false ·)) = finiteSeqs strokes :=
      List.map_id _
    rw [hmap]
    exact isHighest_highestSeq strokes m
  above := by
    intro p hp happlied
    obtain ⟨n, -, rfl⟩ := List.mem_map.mp hp
    cases happlied
  ordered := by
    rw [List.pairwise_map]
    exact List.pairwise_of_forall fun _ _ ↦ rfl
  finite := by
    intro p hp
    obtain ⟨n, hn, rfl⟩ := List.mem_map.mp hp
    exact (List.mem_filter.mp hn).2

theorem controller_step {s t : Tracking} {move : ControllerMove}
    (hmark : s.resync.lastAppliedSeq = .finite m) (h : controller.step s move = some t) :
    move = .reset ∧ t = {} ∨ move ≠ .reset ∧ ∃ added, Advances s t added := by
  cases move with
  | ingest stroke =>
    cases h
    exact Or.inr ⟨nofun, advances_ingest hmark stroke⟩
  | adoptBatch strokes =>
    cases h
    exact Or.inr ⟨nofun, _, advances_adoptBatch hmark strokes⟩
  | reset =>
    cases h
    exact Or.inl ⟨rfl, rfl⟩

/-! ## Runs of the controller -/

/-- What holds of a controller after any calls. -/
structure Tracking.Sound (s : Tracking) : Prop where
  finite : ∃ m, s.resync.lastAppliedSeq = .finite m
  maximum : s.MarkIsMaximum
  inOrder : s.InOrder

theorem sound_init : ({} : Tracking).Sound where
  finite := ⟨_, rfl⟩
  maximum := isHighest_singleton _
  inOrder := List.Pairwise.nil

theorem Advances.sound {s t : Tracking} {added : List Passed} (hs : s.Sound)
    (h : Advances s t added) : t.Sound where
  finite := by
    rcases List.mem_cons.mp h.mark.1 with hold | hadded
    · rw [hold]
      exact hs.finite
    · obtain ⟨p, hp, hnumber⟩ := List.mem_map.mp hadded
      have hfinite := h.finite p hp
      rw [hnumber] at hfinite
      exact Value.exists_of_isFinite hfinite
  maximum := by
    rw [Tracking.MarkIsMaximum, h.passed, List.map_append, ← List.cons_append]
    exact hs.maximum.trans h.mark
  inOrder := by
    rw [Tracking.InOrder, h.passed]
    refine List.pairwise_append.mpr ⟨hs.inOrder, h.ordered.imp fun hq happlied ↦ ?_, ?_⟩
    · rw [hq] at happlied
      cases happlied
    · intro p hp q hq happlied
      have hle := hs.maximum.2 p.number (List.mem_cons_of_mem _ (List.mem_map_of_mem hp))
      exact Value.lt_of_le_of_lt hle (h.above q hq happlied)

theorem sound_of_reaches {s : Tracking} (h : controller.Reaches Machine.anyStep s) : s.Sound := by
  refine h.invariant (fun s hs ↦ hs ▸ sound_init) fun u move t hu _ hstep ↦ ?_
  obtain ⟨m, hm⟩ := hu.finite
  rcases controller_step hm hstep with ⟨-, rfl⟩ | ⟨-, added, hadded⟩
  · exact sound_init
  · exact hadded.sound hu

/-! ## The exact condition -/

theorem next_finite : Next (.finite m) (.finite q) ↔ q.val = m.val + 1 := by
  simp [Next]

theorem beyond_finite : Beyond (.finite m) (.finite q) ↔ m.val + 1 < q.val := by
  simp [Beyond]

theorem within_finite : Within (.finite m) (.finite q) ↔ m.val < q.val ∧ q.val < m.val + 1 := by
  simp [Within]

theorem roundedTo_finite : RoundedTo (.finite m) (.finite q) ↔
    m.val + 1 < q.val ∧ q.val = binary64.round (m.val + 1) := by
  simp [RoundedTo]

theorem judgesGap_iff {resync : ResyncController} {stroke : LooseStroke} {n : Number}
    (hmark : resync.lastAppliedSeq = .finite m) (hseq : stroke.seq = some n) :
    resync.JudgesGap stroke n ↔
      ¬ Within resync.lastAppliedSeq n ∧ ¬ RoundedTo resync.lastAppliedSeq n := by
  rcases hn : n.isFinite with _ | _
  · have hnot (q : Finite binary64) : n ≠ .finite q := by
      rintro rfl
      cases hn
    simp [ResyncController.JudgesGap, ingest_of_not_finite hseq hn, Next, Beyond, Within,
      RoundedTo, hnot]
  obtain ⟨q, rfl⟩ := Value.exists_of_isFinite hn
  rw [ResyncController.JudgesGap, hmark, next_finite, beyond_finite, within_finite,
    roundedTo_finite]
  rcases ingest_cases hmark hseq with ⟨hle, h⟩ | ⟨hlt, hround, h⟩ | ⟨hlt, hround, h⟩
  · simp only [h]
    constructor
    · intro _
      exact ⟨fun hw ↦ absurd hw.1 (not_lt.mpr hle), fun hr ↦ by linarith [hr.1]⟩
    · intro _
      refine ⟨iff_of_false nofun fun hq ↦ by linarith, iff_of_false nofun fun hq ↦ by linarith⟩
  · simp only [h]
    constructor
    · rintro ⟨happly, -⟩
      have hq := happly.mp trivial
      exact ⟨fun hw ↦ by linarith [hw.2], fun hr ↦ by linarith [hr.1]⟩
    · rintro ⟨hw, hr⟩
      have hlow : m.val + 1 ≤ q.val := not_lt.mp fun hq ↦ hw ⟨hlt, hq⟩
      have hhigh : q.val ≤ m.val + 1 := not_lt.mp fun hq ↦ hr ⟨hq, hround⟩
      exact ⟨iff_of_true trivial (le_antisymm hhigh hlow), iff_of_false nofun (not_lt.mpr hhigh)⟩
  · -- the next number would be rounded to itself
    have hne : q.val ≠ m.val + 1 := fun hq ↦ hround (by rw [← hq, q.round_val])
    simp only [h]
    constructor
    · rintro ⟨-, hresync⟩
      have hq := hresync.mp ⟨_, rfl⟩
      exact ⟨fun hw ↦ by linarith [hw.2], fun hr ↦ hround hr.2⟩
    · rintro ⟨hw, -⟩
      have hlow : m.val + 1 ≤ q.val := not_lt.mp fun hq ↦ hw ⟨hlt, hq⟩
      exact ⟨iff_of_false nofun hne, iff_of_true ⟨_, rfl⟩ (lt_of_le_of_ne hlow hne.symm)⟩

/-- After any calls the mark is the maximum of what has passed and does not decrease before a reset,
what is applied is in order, and a resync asks from the mark and changes nothing. A stroke is judged
by its gap exactly when its number is neither within one of the mark nor the rounded sum. -/
theorem ordered_application {s : Tracking} (h : controller.Reaches Machine.anyStep s) :
    s.MarkIsMaximum ∧ s.InOrder ∧
      (∀ move t, move ≠ .reset → controller.step s move = some t →
        s.resync.lastAppliedSeq.le t.resync.lastAppliedSeq = true) ∧
      (∀ stroke since, (s.resync.ingest stroke).2 = some (.onResync since) →
        since = s.resync.lastAppliedSeq ∧ (s.resync.ingest stroke).1 = s.resync) ∧
      ∀ stroke n, stroke.seq = some n →
        (s.resync.JudgesGap stroke n ↔
          ¬ Within s.resync.lastAppliedSeq n ∧ ¬ RoundedTo s.resync.lastAppliedSeq n) := by
  have hs := sound_of_reaches h
  obtain ⟨m, hm⟩ := hs.finite
  refine ⟨hs.maximum, hs.inOrder, ?_, fun _ _ ↦ eq_of_onResync, fun _ _ ↦ judgesGap_iff hm⟩
  intro move t hmove hstep
  rcases controller_step hm hstep with ⟨rfl, -⟩ | ⟨-, added, hadded⟩
  · exact absurd rfl hmove
  · exact hadded.mark.2 _ List.mem_cons_self

/-- A stroke numbered `n`. -/
def numbered (n : Number) : LooseStroke := ⟨default, some n⟩

/-- The calls of the witness: a batch of the strokes two and seven, and stroke eight. -/
def batchThenNext : List ControllerMove :=
  [.adoptBatch [numbered (.finite (whole 2 (by decide))), numbered (.finite (whole 7 (by decide)))],
    .ingest (numbered (.finite (whole 8 (by decide))))]

theorem ordered_application_batchThenNext : ∃ s : Tracking, s.passed.length = 3 ∧
    s.MarkIsMaximum ∧ s.InOrder ∧
      (∀ move t, move ≠ .reset → controller.step s move = some t →
        s.resync.lastAppliedSeq.le t.resync.lastAppliedSeq = true) ∧
      (∀ stroke since, (s.resync.ingest stroke).2 = some (.onResync since) →
        since = s.resync.lastAppliedSeq ∧ (s.resync.ingest stroke).1 = s.resync) ∧
      ∀ stroke n, stroke.seq = some n →
        (s.resync.JudgesGap stroke n ↔
          ¬ Within s.resync.lastAppliedSeq n ∧ ¬ RoundedTo s.resync.lastAppliedSeq n) := by
  obtain ⟨s, -, hsteps, hlength⟩ := Machine.exists_of_exec (M := controller)
    (p := fun s ↦ decide (s.passed.length = 3)) {} batchThenNext (by decide +kernel)
  exact ⟨s, of_decide_eq_true hlength, ordered_application ⟨_, rfl, hsteps⟩⟩

/-- One half. -/
def half : Finite binary64 := Finite.scaled 1 (-1) (by decide) (by decide) (by decide)

/-- A new controller answers a stroke numbered one half with a request to resync. -/
theorem resync_at_half :
    (ResyncController.ingest {} (numbered (.finite half))).2 = some (.onResync zero) ∧
      ¬ Beyond zero (.finite half) ∧
      ¬ ResyncController.JudgesGap {} (numbered (.finite half)) (.finite half) := by
  have hresync : (ResyncController.ingest {} (numbered (.finite half))).2
      = some (.onResync zero) := by
    decide +kernel
  have hbeyond : ¬ Beyond zero (.finite half) := by
    rw [zero, beyond_finite]
    decide +kernel
  exact ⟨hresync, hbeyond, fun h ↦ hbeyond (h.2.mp ⟨zero, hresync⟩)⟩

/-! ## Whole numbers

The server stamps its strokes with natural numbers. On those the doubles have, the controller here
is the controller of the sessions.
-/

/-- The double of a natural number. -/
def ofNat (k : ℕ) : Number := Value.ofRat binary64 k

/-- A stroke of the server, as the client gets it. -/
def loosen (stroke : PersistedStroke) : LooseStroke :=
  ⟨stroke.toStrokeSegment, some (ofNat stroke.seq)⟩

/-- The controller of a session. -/
def ResyncController.ofSession (resync : Synapse.ResyncController) : ResyncController :=
  ⟨ofNat resync.lastAppliedSeq⟩

/-- A callback of the controller of a session. -/
def ResyncCallback.ofSession : Synapse.ResyncCallback → ResyncCallback
  | .onApply stroke => .onApply (loosen stroke)
  | .onResync since => .onResync (ofNat since)

theorem round_natCast {k : ℕ} (hk : k ≤ 2 ^ 53) : binary64.round k = k := by
  have h := Format.round_mul_zpow (F := binary64) (n := k) (e := 0)
    (by rw [Nat.abs_cast]; exact_mod_cast hk) (by decide)
  simpa using h

theorem ofNat_eq {k : ℕ} (hk : k < 2 ^ 53) : ofNat k = .finite (whole k hk) := by
  have hround := round_natCast hk.le
  have hmax : |binary64.round k| ≤ binary64.maxFinite := by
    rw [hround]
    have h := (whole k hk).abs_le
    rwa [whole_val] at h
  rw [ofNat, Value.ofRat, dif_pos hmax]
  congr 1
  exact Finite.ext (hround.trans (whole_val hk).symm)

theorem decideStrokeAction_ofNat {a b : ℕ} (ha : a < 2 ^ 53) (hb : b < 2 ^ 53) :
    decideStrokeAction (ofNat a) (ofNat b) = Synapse.decideStrokeAction a b := by
  have hround : binary64.round ((a : ℚ) + 1) = a + 1 := by
    exact_mod_cast round_natCast (k := a + 1) ha
  rw [ofNat_eq ha, ofNat_eq hb, decideStrokeAction_finite, whole_val, whole_val, hround,
    Synapse.decideStrokeAction]
  have hle : (b : ℚ) ≤ a ↔ b ≤ a := Nat.cast_le
  have hnext : (b : ℚ) = a + 1 ↔ b = a + 1 := by exact_mod_cast Iff.rfl
  simp only [hle, hnext]

theorem ingest_loosen {resync : Synapse.ResyncController} {stroke : PersistedStroke}
    (hmark : resync.lastAppliedSeq < 2 ^ 53) (hseq : stroke.seq < 2 ^ 53) :
    (ResyncController.ofSession resync).ingest (loosen stroke)
      = (.ofSession (resync.ingest stroke).1,
          (resync.ingest stroke).2.map ResyncCallback.ofSession) := by
  have hdecide := decideStrokeAction_ofNat hmark hseq
  simp only [ResyncController.ingest, loosen, ResyncController.ofSession, hdecide,
    Synapse.ResyncController.ingest]
  cases Synapse.decideStrokeAction resync.lastAppliedSeq stroke.seq <;> rfl

theorem highestSeq_loosen {strokes : List PersistedStroke} {mark : ℕ} (hmark : mark < 2 ^ 53)
    (hseq : ∀ k ∈ strokes, k.seq < 2 ^ 53) :
    highestSeq (strokes.map loosen) (ofNat mark) = ofNat (Synapse.highestSeq strokes mark) := by
  induction strokes generalizing mark with
  | nil => rfl
  | cons k strokes ih =>
    have hk := hseq k List.mem_cons_self
    have hsingle : highestSeq [loosen k] (ofNat mark) = ofNat (max mark k.seq) := by
      have hlt : (mark : ℚ) < k.seq ↔ mark < k.seq := Nat.cast_lt
      simp only [highestSeq, loosen, List.foldl_cons, List.foldl_nil, ofNat_eq hk, ofNat_eq hmark,
        Value.isFinite, Value.lt, whole_val, hlt, Bool.true_and, decide_eq_true_eq]
      split_ifs with h
      · rw [max_eq_right h.le, ofNat_eq hk]
      · rw [max_eq_left (not_lt.mp h), ofNat_eq hmark]
    rw [List.map_cons, highestSeq_cons, hsingle, Synapse.highestSeq_cons]
    exact ih (max_lt hmark hk) fun l hl ↦ hseq l (List.mem_cons_of_mem _ hl)

theorem adoptBatch_loosen {resync : Synapse.ResyncController} {strokes : List PersistedStroke}
    (hmark : resync.lastAppliedSeq < 2 ^ 53) (hseq : ∀ k ∈ strokes, k.seq < 2 ^ 53) :
    (ResyncController.ofSession resync).adoptBatch (strokes.map loosen)
      = .ofSession (resync.adoptBatch strokes) :=
  congrArg ResyncController.mk (highestSeq_loosen hmark hseq)

end Synapse.Js
