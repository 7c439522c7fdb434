import Mathlib.Data.List.Nodup
import Mathlib.Data.List.ReduceOption

/-!
# Sets that change while they are walked through

An insertion-ordered set, and cursors into it. A deletion leaves a gap, so that a cursor stays
where it is, and an insertion goes to the end, where every cursor still gets to it. A loop over the
set is a cursor that is moved on by `next` until nothing is ahead of it; whoever runs the body of
the loop may insert and delete, and start loops of its own.

What is `Ahead` of a cursor stays ahead of it until it is deleted or the cursor moves over it. This
is all that has to be known of a loop.
-/

namespace Live

variable {α : Type*}

/-- Elements in the order of their insertion, with a gap in the place of each deleted one. -/
structure OrderedSet (α : Type*) where
  slots : List (Option α)
  /-- No element is listed twice. -/
  nodup : slots.reduceOption.Nodup

namespace OrderedSet

variable {s : OrderedSet α} {a b : α} {i j : ℕ}

instance : Membership α (OrderedSet α) := ⟨fun s a ↦ some a ∈ s.slots⟩

theorem mem_def : a ∈ s ↔ some a ∈ s.slots := Iff.rfl

def empty : OrderedSet α := ⟨[], List.nodup_nil⟩

/-- The elements, in the order of their insertion. -/
def toList (s : OrderedSet α) : List α := s.slots.reduceOption

@[simp] theorem mem_toList : a ∈ s.toList ↔ a ∈ s := List.reduceOption_mem_iff

/-- The element is at or behind the cursor's place. -/
def Ahead (s : OrderedSet α) (i : ℕ) (a : α) : Prop := some a ∈ s.slots.drop i

/-- The first element from a cursor on, and the cursor behind it. -/
def nextFrom : ℕ → List (Option α) → Option (α × ℕ)
  | _, [] => none
  | i, some a :: _ => some (a, i + 1)
  | i, none :: slots => nextFrom (i + 1) slots

/-- Moves a cursor on. -/
def next (s : OrderedSet α) (i : ℕ) : Option (α × ℕ) := nextFrom i (s.slots.drop i)

theorem ahead_zero : s.Ahead 0 a ↔ a ∈ s := by rw [Ahead, List.drop_zero, mem_def]

theorem nextFrom_eq_none {slots : List (Option α)} :
    nextFrom i slots = none ↔ ∀ a, some a ∉ slots := by
  induction slots generalizing i with
  | nil => simp [nextFrom]
  | cons x slots ih =>
    cases x with
    | none => simp [nextFrom, ih]
    | some a => simpa [nextFrom] using ⟨a, fun h ↦ absurd rfl h⟩

/-- A loop ends when nothing is ahead of its cursor. -/
theorem next_eq_none : s.next i = none ↔ ∀ a, ¬ s.Ahead i a := nextFrom_eq_none

theorem nextFrom_eq_some {slots : List (Option α)} (h : nextFrom i slots = some (a, j)) :
    ∃ k, j = i + k ∧ some a ∈ slots ∧ ∀ b, some b ∈ slots → b = a ∨ some b ∈ slots.drop k := by
  induction slots generalizing i with
  | nil => cases h
  | cons x slots ih =>
    cases x with
    | none =>
      obtain ⟨k, rfl, hmem, hrest⟩ := ih h
      refine ⟨k + 1, by omega, List.mem_cons_of_mem _ hmem, fun b hb ↦ ?_⟩
      rw [List.drop_succ_cons]
      exact hrest b ((List.mem_cons.mp hb).resolve_left (by simp))
    | some c =>
      cases h
      refine ⟨1, rfl, List.mem_cons_self, fun b hb ↦ ?_⟩
      rw [List.drop_succ_cons, List.drop_zero]
      exact (List.mem_cons.mp hb).imp_left Option.some_inj.mp

/-- A cursor moves over one element, which is in the set. -/
theorem next_eq_some (h : s.next i = some (a, j)) :
    a ∈ s ∧ ∀ b, s.Ahead i b → b = a ∨ s.Ahead j b := by
  obtain ⟨k, rfl, hmem, hrest⟩ := nextFrom_eq_some h
  refine ⟨List.mem_of_mem_drop hmem, fun b hb ↦ (hrest b hb).imp_right fun hb ↦ ?_⟩
  rwa [List.drop_drop] at hb

section Edit

variable [DecidableEq α]

instance (s : OrderedSet α) (a : α) : Decidable (a ∈ s) :=
  inferInstanceAs (Decidable (some a ∈ s.slots))

/-- Inserts an element at the end, unless it is there. -/
def add (s : OrderedSet α) (a : α) : OrderedSet α :=
  if h : a ∈ s then s
  else
    { slots := s.slots ++ [some a]
      nodup := by
        rw [List.reduceOption_append, List.reduceOption_singleton]
        refine List.Nodup.append s.nodup (List.nodup_singleton a) fun b hb hba ↦ h ?_
        obtain rfl := List.mem_singleton.mp hba
        exact List.reduceOption_mem_iff.mp hb }

/-- What is left of an element when it is deleted. -/
def gap (a : α) (x : Option α) : Option α := if x = some a then none else x

theorem gap_eq_some {x : Option α} : gap a x = some b ↔ x = some b ∧ b ≠ a := by
  unfold gap
  split_ifs with h
  · subst h
    simpa using fun h ↦ h.symm
  · exact ⟨fun hx ↦ ⟨hx, fun hba ↦ h (hba ▸ hx)⟩, And.left⟩

theorem reduceOption_map_gap (a : α) (slots : List (Option α)) :
    (slots.map (gap a)).reduceOption = slots.reduceOption.filter fun b ↦ decide (b ≠ a) := by
  induction slots with
  | nil => rfl
  | cons x slots ih =>
    cases x with
    | none => exact ih
    | some b =>
      rw [List.map_cons, List.reduceOption_cons_of_some]
      by_cases hb : b = a
      · rw [gap, if_pos (congrArg some hb), List.reduceOption_cons_of_none, ih,
          List.filter_cons_of_neg (by simpa using hb)]
      · rw [gap, if_neg fun h ↦ hb (Option.some_inj.mp h), List.reduceOption_cons_of_some, ih,
          List.filter_cons_of_pos (by simpa using hb)]

/-- Deletes an element, which leaves a gap. -/
def delete (s : OrderedSet α) (a : α) : OrderedSet α where
  slots := s.slots.map (gap a)
  nodup := by
    rw [reduceOption_map_gap]
    exact s.nodup.filter _

theorem mem_add : b ∈ s.add a ↔ b ∈ s ∨ b = a := by
  unfold add
  split_ifs with h
  · exact ⟨Or.inl, fun hb ↦ hb.elim id fun hba ↦ hba ▸ h⟩
  · simp [mem_def]

theorem mem_delete : b ∈ s.delete a ↔ b ∈ s ∧ b ≠ a := by
  rw [mem_def, delete, List.mem_map, mem_def]
  simp only [gap_eq_some]
  exact ⟨fun ⟨x, hx, hxb, hne⟩ ↦ ⟨hxb ▸ hx, hne⟩, fun ⟨hb, hne⟩ ↦ ⟨some b, hb, rfl, hne⟩⟩

theorem Ahead.add (h : s.Ahead i b) (a : α) : (s.add a).Ahead i b := by
  unfold OrderedSet.add
  split_ifs
  · exact h
  · rw [Ahead, List.drop_append]
    exact List.mem_append_left _ h

theorem Ahead.delete (h : s.Ahead i b) (hne : b ≠ a) : (s.delete a).Ahead i b := by
  rw [Ahead, OrderedSet.delete, ← List.map_drop]
  exact List.mem_map.mpr ⟨some b, h, gap_eq_some.mpr ⟨rfl, hne⟩⟩

end Edit

end OrderedSet

end Live
