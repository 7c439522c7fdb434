import Mathlib.Logic.Function.Basic
import Mathlib.Logic.Relation
import Synapse.Table.Keyed

/-!
# Custody of accepted items

Items are accepted one by one, wait in *places*, and end up in a keyed table. The moves between
the places are the ones a write-behind buffer makes: a place hands everything it holds over to
another, the table takes a copy of what a place holds, a place lets go of what is already stored,
and rows are pruned from the table.

The account of where an item can be (`Sound`) is what every durability statement about such a
buffer rests on. It is preserved by every move provided each item is accepted under a fresh key;
that proviso is a premise of the accepting move, because it is the one thing the moves cannot
provide by themselves.

A pruned row is remembered in `pruned`. Nothing reads that history; it lets an item that was
stored and later pruned be told apart from one that was lost.
-/

namespace Custody

open Keyed

variable {α κ π : Type*} {key : α → κ}

/-- The accepted items, what each place holds, and what has been stored. -/
@[ext] structure State (π : Type*) (key : α → κ) where
  /-- Every item accepted so far, in order. -/
  accepted : List α
  /-- What each place holds. -/
  held : π → List α
  /-- The table. -/
  table : Table key
  /-- The rows pruned from the table so far. -/
  pruned : List α

namespace State

variable {s : State π key} {p q : π} {x y : α}

/-- The item has reached the table, whether or not it was pruned later. -/
def Stored (s : State π key) (x : α) : Prop := x ∈ s.table ∨ x ∈ s.pruned

instance [DecidableEq α] (s : State π key) (x : α) : Decidable (s.Stored x) :=
  inferInstanceAs (Decidable (_ ∨ _))

/-- Where the accepted items can be. -/
structure Sound (s : State π key) : Prop where
  /-- Accepted items have distinct keys. -/
  keyed : (s.accepted.map key).Nodup
  /-- Places hold accepted items only. -/
  accepted_of_held : ∀ p, ∀ x ∈ s.held p, x ∈ s.accepted
  /-- The table holds accepted items only. -/
  accepted_of_stored : ∀ x, s.Stored x → x ∈ s.accepted
  /-- No place holds an item twice. -/
  held_nodup : ∀ p, (s.held p).Nodup
  /-- No two places hold the same item. -/
  held_unique : ∀ p q x, x ∈ s.held p → x ∈ s.held q → p = q
  /-- Every accepted item is stored or held. -/
  accounted : ∀ x ∈ s.accepted, s.Stored x ∨ ∃ p, x ∈ s.held p

theorem Sound.eq_of_key_eq (h : s.Sound) (hx : x ∈ s.accepted) (hy : y ∈ s.accepted)
    (hk : key x = key y) : x = y :=
  List.inj_on_of_nodup_map h.keyed hx hy hk

/-! ## The moves -/

section Places

variable [DecidableEq π]

/-- A new item enters a place. -/
def accept (s : State π key) (p : π) (x : α) : State π key :=
  { s with
    accepted := s.accepted ++ [x]
    held := Function.update s.held p (s.held p ++ [x]) }

/-- A place puts everything it holds in front of what another holds. -/
def handOver (s : State π key) (p q : π) : State π key :=
  { s with held := Function.update (Function.update s.held q (s.held p ++ s.held q)) p [] }

/-- A place lets go of what it holds. -/
def release (s : State π key) (p : π) : State π key :=
  { s with held := Function.update s.held p [] }

theorem held_accept : (s.accept p x).held q = if q = p then s.held p ++ [x] else s.held q :=
  Function.update_apply _ _ _ _

theorem held_handOver {r : π} : (s.handOver p q).held r
    = if r = p then [] else if r = q then s.held p ++ s.held q else s.held r := by
  simp only [handOver, Function.update_apply]

theorem held_release : (s.release p).held q = if q = p then [] else s.held q :=
  Function.update_apply _ _ _ _

theorem mem_held_accept : y ∈ (s.accept p x).held q ↔ y ∈ s.held q ∨ (y = x ∧ q = p) := by
  rw [held_accept]
  by_cases h : q = p
  · subst h
    simp
  · simp [h]

theorem mem_held_handOver {r : π} (hpq : p ≠ q) :
    y ∈ (s.handOver p q).held r ↔ (y ∈ s.held r ∧ r ≠ p) ∨ (y ∈ s.held p ∧ r = q) := by
  rw [held_handOver]
  by_cases hrp : r = p
  · subst hrp
    simp [hpq]
  · by_cases hrq : r = q
    · subst hrq
      simp [hrp, or_comm]
    · simp [hrp, hrq]

theorem mem_held_release : y ∈ (s.release p).held q ↔ y ∈ s.held q ∧ q ≠ p := by
  rw [held_release]
  by_cases h : q = p
  · subst h
    simp
  · simp [h]

end Places

/-- The table takes what a place holds. -/
def commit [DecidableEq κ] (s : State π key) (p : π) : State π key :=
  { s with table := s.table.insertAll (s.held p) }

/-- Rows are pruned from the table. -/
def prune (s : State π key) (f : α → Bool) : State π key :=
  { s with
    table := s.table.deleteWhere f
    pruned := s.pruned ++ s.table.rows.filter f }

theorem stored_prune {f : α → Bool} : (s.prune f).Stored x ↔ s.Stored x := by
  have hprune : x ∈ (s.prune f).pruned ↔ x ∈ s.pruned ∨ (x ∈ s.table ∧ f x = true) := by
    rw [prune, List.mem_append, List.mem_filter, Table.mem_rows]
  rw [Stored, Stored, hprune, prune, Table.mem_deleteWhere]
  cases f x <;> simp [or_comm]

theorem Stored.commit [DecidableEq κ] (h : s.Stored x) : (s.commit p).Stored x :=
  h.imp_left Table.mem_insertAll_of_mem

/-- What a sound state holds in a place is stored once the place is committed. -/
theorem Sound.stored_commit [DecidableEq κ] (hs : s.Sound) (hx : x ∈ s.held p) :
    (s.commit p).Stored x := by
  refine Or.inl (Table.mem_insertAll_of_determined hx fun y hy hk ↦ ?_)
  have hacc : y ∈ s.accepted :=
    hy.elim (fun h ↦ hs.accepted_of_stored y (Or.inl h)) (hs.accepted_of_held p y)
  exact hs.eq_of_key_eq hacc (hs.accepted_of_held p x hx) hk

/-! ## The account is preserved -/

section Places

variable [DecidableEq π]

theorem Sound.accept (hs : s.Sound) (hfresh : ∀ y ∈ s.accepted, key y ≠ key x) :
    (s.accept p x).Sound := by
  have hx : x ∉ s.accepted := fun h ↦ hfresh x h rfl
  have hacc : (s.accept p x).accepted = s.accepted ++ [x] := rfl
  refine ⟨?_, ?_, ?_, ?_, ?_, ?_⟩
  · rw [hacc, List.map_append, List.map_cons, List.map_nil]
    refine hs.keyed.append (List.nodup_singleton _) ?_
    simpa using hfresh
  · intro q y hy
    rw [hacc]
    rcases mem_held_accept.mp hy with hy | ⟨rfl, -⟩
    · exact List.mem_append_left _ (hs.accepted_of_held q y hy)
    · simp
  · exact fun y hy ↦ List.mem_append_left _ (hs.accepted_of_stored y hy)
  · intro q
    rw [held_accept]
    split_ifs with hq
    · refine (hs.held_nodup p).append (List.nodup_singleton _) ?_
      exact List.disjoint_singleton.mpr fun h ↦ hx (hs.accepted_of_held p x h)
    · exact hs.held_nodup q
  · -- the new item is nowhere else, since only accepted items are held
    intro q r y hq hr
    rcases mem_held_accept.mp hq with hq' | ⟨hyq, hqp⟩ <;>
      rcases mem_held_accept.mp hr with hr' | ⟨hyr, hrp⟩
    · exact hs.held_unique q r y hq' hr'
    · exact absurd (hs.accepted_of_held q y hq') (hyr ▸ hx)
    · exact absurd (hs.accepted_of_held r y hr') (hyq ▸ hx)
    · exact hqp.trans hrp.symm
  · intro y hy
    rw [hacc, List.mem_append, List.mem_singleton] at hy
    rcases hy with hy | rfl
    · refine (hs.accounted y hy).imp_right fun ⟨q, hq⟩ ↦ ⟨q, ?_⟩
      exact mem_held_accept.mpr (Or.inl hq)
    · exact Or.inr ⟨p, mem_held_accept.mpr (Or.inr ⟨rfl, rfl⟩)⟩

theorem Sound.handOver (hs : s.Sound) (hpq : p ≠ q) : (s.handOver p q).Sound := by
  refine ⟨hs.keyed, ?_, hs.accepted_of_stored, ?_, ?_, ?_⟩
  · intro r y hy
    rcases (mem_held_handOver hpq).mp hy with ⟨hy, -⟩ | ⟨hy, -⟩
    · exact hs.accepted_of_held r y hy
    · exact hs.accepted_of_held p y hy
  · intro r
    rw [held_handOver]
    split_ifs with hrp hrq
    · exact List.nodup_nil
    · -- what the two places held had nothing in common
      exact (hs.held_nodup p).append (hs.held_nodup q) fun y hp hq ↦
        hpq (hs.held_unique p q y hp hq)
    · exact hs.held_nodup r
  · intro r r' y hr hr'
    rcases (mem_held_handOver hpq).mp hr with ⟨h, hrp⟩ | ⟨h, hrq⟩ <;>
      rcases (mem_held_handOver hpq).mp hr' with ⟨h', hrp'⟩ | ⟨h', hrq'⟩
    · exact hs.held_unique r r' y h h'
    · exact absurd (hs.held_unique r p y h h') hrp
    · exact absurd (hs.held_unique r' p y h' h) hrp'
    · exact hrq.trans hrq'.symm
  · intro y hy
    refine (hs.accounted y hy).imp_right fun ⟨r, hr⟩ ↦ ?_
    by_cases hrp : r = p
    · exact ⟨q, (mem_held_handOver hpq).mpr (Or.inr ⟨hrp ▸ hr, rfl⟩)⟩
    · exact ⟨r, (mem_held_handOver hpq).mpr (Or.inl ⟨hr, hrp⟩)⟩

theorem Sound.release (hs : s.Sound) (hstored : ∀ x ∈ s.held p, s.Stored x) :
    (s.release p).Sound := by
  refine ⟨hs.keyed, fun r y hy ↦ hs.accepted_of_held r y (mem_held_release.mp hy).1,
    hs.accepted_of_stored, ?_, fun r r' y hr hr' ↦
      hs.held_unique r r' y (mem_held_release.mp hr).1 (mem_held_release.mp hr').1, ?_⟩
  · intro r
    rw [held_release]
    split_ifs
    · exact List.nodup_nil
    · exact hs.held_nodup r
  · intro y hy
    rcases hs.accounted y hy with hy | ⟨r, hr⟩
    · exact Or.inl hy
    · by_cases hrp : r = p
      · exact Or.inl (hstored y (hrp ▸ hr))
      · exact Or.inr ⟨r, mem_held_release.mpr ⟨hr, hrp⟩⟩

end Places

theorem Sound.commit [DecidableEq κ] (hs : s.Sound) : (s.commit p).Sound := by
  refine ⟨hs.keyed, hs.accepted_of_held, ?_, hs.held_nodup, hs.held_unique, ?_⟩
  · rintro y (hy | hy)
    · rcases Table.mem_or_mem_of_mem_insertAll hy with hy | hy
      · exact hs.accepted_of_stored y (Or.inl hy)
      · exact hs.accepted_of_held p y hy
    · exact hs.accepted_of_stored y (Or.inr hy)
  · exact fun y hy ↦ (hs.accounted y hy).imp_left Stored.commit

theorem Sound.prune {f : α → Bool} (hs : s.Sound) : (s.prune f).Sound :=
  ⟨hs.keyed, hs.accepted_of_held, fun y hy ↦ hs.accepted_of_stored y (stored_prune.mp hy),
    hs.held_nodup, hs.held_unique, fun y hy ↦ (hs.accounted y hy).imp_left stored_prune.mpr⟩

end State

/-! ## Runs of moves -/

variable [DecidableEq κ] [DecidableEq π]

/-- The moves of a write-behind buffer. -/
inductive Move : State π key → State π key → Prop
  | accept (s : State π key) (p : π) (x : α) (hfresh : ∀ y ∈ s.accepted, key y ≠ key x) :
      Move s (s.accept p x)
  | handOver (s : State π key) (p q : π) (hpq : p ≠ q) : Move s (s.handOver p q)
  | commit (s : State π key) (p : π) : Move s (s.commit p)
  | release (s : State π key) (p : π) (hstored : ∀ x ∈ s.held p, s.Stored x) :
      Move s (s.release p)
  | prune (s : State π key) (f : α → Bool) : Move s (s.prune f)

/-- Any number of moves. -/
abbrev Moves : State π key → State π key → Prop := Relation.ReflTransGen Move

variable {s t : State π key} {x : α}

theorem Move.stored (h : Move s t) (hx : s.Stored x) : t.Stored x := by
  cases h with
  | accept | handOver | release => exact hx
  | commit => exact hx.commit
  | prune => exact State.stored_prune.mpr hx

theorem Moves.stored (h : Moves s t) (hx : s.Stored x) : t.Stored x := by
  induction h with
  | refl => exact hx
  | tail _ hm ih => exact hm.stored ih

theorem Move.prefix_accepted (h : Move s t) : s.accepted <+: t.accepted := by
  cases h with
  | accept => exact List.prefix_append _ _
  | handOver | commit | release | prune => exact List.prefix_refl _

theorem Moves.prefix_accepted (h : Moves s t) : s.accepted <+: t.accepted := by
  induction h with
  | refl => exact List.prefix_refl _
  | tail _ hm ih => exact ih.trans hm.prefix_accepted

/-- **The account is preserved by every move.** -/
theorem Move.sound (h : Move s t) (hs : s.Sound) : t.Sound := by
  cases h with
  | accept p x hfresh => exact hs.accept hfresh
  | handOver p q hpq => exact hs.handOver hpq
  | commit p => exact hs.commit
  | release p hstored => exact hs.release hstored
  | prune f => exact hs.prune

theorem Moves.sound (h : Moves s t) (hs : s.Sound) : t.Sound := by
  induction h with
  | refl => exact hs
  | tail _ hm ih => exact hm.sound ih

end Custody
