import Mathlib.Algebra.BigOperators.Fin
import Mathlib.Data.Int.ModEq
import Mathlib.Tactic.Linarith

/-!
# Sliding windows in a ring

What has been recorded lately is kept in `W` slots: an amount recorded at time `t` is added to the
slot `t % W`, which starts afresh if it stands for another time. So a slot forgets only what is at
least `W` older than the amount that it takes up, and as long as times do not run backwards the sum
over the slots in a window of length `W` is the sum over all that was ever recorded in it
(`Ring.total_eq`). Slots that are not reused keep what they have; their time tells that it is old.
-/

open Finset

namespace Window

variable {M : Type*} [AddCommMonoid M] {W : ℕ}

/-- Amounts with the times of their recording, the latest first. -/
abbrev Log (M : Type*) := List (ℤ × M)

namespace Log

/-- What was recorded from `a` to `b`. -/
def sumIn (log : Log M) (a b : ℤ) : M :=
  ((log.filter fun e ↦ decide (a ≤ e.1 ∧ e.1 ≤ b)).map Prod.snd).sum

/-- What was recorded at a time. -/
def sumAt (log : Log M) (t : ℤ) : M := ((log.filter fun e ↦ decide (e.1 = t)).map Prod.snd).sum

/-- What was recorded from `a` to `b` at times of a residue. -/
def sumOf (log : Log M) (W : ℕ) (i : ℤ) (a b : ℤ) : M :=
  ((log.filter fun e ↦ decide ((a ≤ e.1 ∧ e.1 ≤ b) ∧ e.1 % W = i)).map Prod.snd).sum

variable {log : Log M} {t a b : ℤ} {x : M}

theorem sumAt_cons (e : ℤ × M) (log : Log M) (t : ℤ) :
    sumAt (e :: log) t = (if e.1 = t then e.2 else 0) + log.sumAt t := by
  by_cases h : e.1 = t <;> simp [sumAt, h]

theorem sumAt_eq_zero (h : ∀ e ∈ log, e.1 ≠ t) : log.sumAt t = 0 := by
  have hnone : log.filter (fun e ↦ decide (e.1 = t)) = [] := by simpa using h
  rw [sumAt, hnone]
  rfl

theorem sum_sumOf (log : Log M) (hW : 0 < W) (a b : ℤ) :
    ∑ i : Fin W, log.sumOf W i a b = log.sumIn a b := by
  induction log with
  | nil => exact Finset.sum_const_zero
  | cons e log ih =>
    by_cases he : a ≤ e.1 ∧ e.1 ≤ b
    · have hsplit : ∀ i : Fin W, sumOf (e :: log) W i a b
          = (if e.1 % W = i then e.2 else 0) + sumOf log W i a b := by
        intro i
        by_cases hi : e.1 % W = i <;> simp [sumOf, he, hi]
      have hone : ∑ i : Fin W, (if e.1 % W = (i : ℤ) then e.2 else 0) = e.2 := by
        have hlt : (e.1 % W).toNat < W := by
          have := Int.emod_lt_of_pos e.1 (Int.natCast_pos.mpr hW)
          omega
        rw [Finset.sum_eq_single_of_mem (⟨_, hlt⟩ : Fin W) (Finset.mem_univ _)]
        · exact if_pos (Int.toNat_of_nonneg (Int.emod_nonneg _ (by omega))).symm
        · intro i _ hne
          refine if_neg fun hi ↦ hne (Fin.ext ?_)
          change (i : ℕ) = (e.1 % W).toNat
          rw [hi, Int.toNat_natCast]
      have hin : sumIn (e :: log) a b = e.2 + sumIn log a b := by simp [sumIn, he]
      rw [Finset.sum_congr rfl fun i _ ↦ hsplit i, Finset.sum_add_distrib, hone, ih, hin]
    · have hskip : ∀ i : Fin W, sumOf (e :: log) W i a b = sumOf log W i a b := by
        intro i
        simp only [sumOf, List.filter_cons]
        rw [if_neg (by simp [he])]
      have hin : sumIn (e :: log) a b = sumIn log a b := by
        simp only [sumIn, List.filter_cons]
        rw [if_neg (by simpa using he)]
      rw [Finset.sum_congr rfl fun i _ ↦ hskip i, ih, hin]

end Log

/-- An amount, and the time it is of. -/
structure Slot (M : Type*) where
  time : ℤ
  total : M

/-- Takes up an amount, starting afresh if it is of another time. -/
def Slot.add (s : Slot M) (t : ℤ) (x : M) : Slot M :=
  ⟨t, (if s.time = t then s.total else 0) + x⟩

/-- What a slot has, if that is of a time from `a` to `b`. -/
def Slot.within (s : Slot M) (a b : ℤ) : M := if a ≤ s.time ∧ s.time ≤ b then s.total else 0

/-- Slots for the residues of times. -/
abbrev Ring (M : Type*) (W : ℕ) := Fin W → Slot M

namespace Ring

/-- Records an amount in the slot of its time. -/
def add (ring : Ring M W) (t : ℤ) (x : M) : Ring M W := fun i ↦
  if t % W = (i : ℤ) then (ring i).add t x else ring i

/-- What the slots of a window have. -/
def total (ring : Ring M W) (a b : ℤ) : M := ∑ i, (ring i).within a b

variable {ring : Ring M W} {log : Log M} {t : ℤ} {x : M} {i : Fin W}

/-- What a slot has: nothing, as nothing was recorded at the times of its residue, or all that was
recorded at the last of them. -/
def Stands (log : Log M) (i : Fin W) (s : Slot M) : Prop :=
  ((∀ e ∈ log, e.1 % W ≠ (i : ℤ)) ∧ s.total = 0) ∨
  (s.time % W = (i : ℤ) ∧ (∃ e ∈ log, e.1 = s.time) ∧
    (∀ e ∈ log, e.1 % W = (i : ℤ) → e.1 ≤ s.time) ∧ s.total = log.sumAt s.time)

/-- The slots have what was recorded last. -/
def Keeps (ring : Ring M W) (log : Log M) : Prop := ∀ i, Stands log i (ring i)

theorem keeps_nil (h : ∀ i, (ring i).total = 0) : ring.Keeps [] :=
  fun i ↦ Or.inl ⟨fun _ he ↦ absurd he List.not_mem_nil, h i⟩

theorem Stands.add_self {s : Slot M} (h : Stands log i s) (hi : t % W = (i : ℤ))
    (ht : ∀ e ∈ log, e.1 ≤ t) : Stands ((t, x) :: log) i (s.add t x) := by
  have hlatest : ∀ e ∈ (t, x) :: log, e.1 % W = (i : ℤ) → e.1 ≤ t := by
    intro e he _
    rcases List.mem_cons.mp he with rfl | he
    · exact le_rfl
    · exact ht e he
  -- what the slot has if it stands for `t`, and what it gives up if it does not
  have htotal : (if s.time = t then s.total else 0) = log.sumAt t := by
    rcases h with ⟨hnone, hzero⟩ | ⟨-, ⟨e, he, htime⟩, hlast, hsum⟩
    · rw [hzero, ite_self, Log.sumAt_eq_zero fun e he hte ↦ hnone e he (hte ▸ hi)]
    · by_cases hst : s.time = t
      · rw [if_pos hst, hsum, hst]
      · rw [if_neg hst, Log.sumAt_eq_zero fun e' he' hte ↦ hst ?_]
        exact le_antisymm (htime ▸ ht e he) (hte ▸ hlast e' he' (hte ▸ hi))
  refine Or.inr ⟨hi, ⟨_, List.mem_cons_self, rfl⟩, hlatest, ?_⟩
  rw [Slot.add, htotal, Log.sumAt_cons, if_pos rfl, add_comm]

theorem Stands.add_other {s : Slot M} (h : Stands log i s) (hi : t % W ≠ (i : ℤ)) :
    Stands ((t, x) :: log) i s := by
  rcases h with ⟨hnone, hzero⟩ | ⟨hres, ⟨e, he, htime⟩, hlast, hsum⟩
  · refine Or.inl ⟨fun e he ↦ ?_, hzero⟩
    rcases List.mem_cons.mp he with rfl | he
    · exact hi
    · exact hnone e he
  · refine Or.inr ⟨hres, ⟨e, List.mem_cons_of_mem _ he, htime⟩, fun e' he' hres' ↦ ?_, ?_⟩
    · rcases List.mem_cons.mp he' with rfl | he'
      · exact absurd hres' hi
      · exact hlast e' he' hres'
    · rw [hsum, Log.sumAt_cons, if_neg fun ht ↦ hi ?_, zero_add]
      rw [← hres, ← ht]

theorem Keeps.add (h : ring.Keeps log) (ht : ∀ e ∈ log, e.1 ≤ t) :
    (ring.add t x).Keeps ((t, x) :: log) := by
  intro i
  by_cases hi : t % W = (i : ℤ)
  · rw [Ring.add, if_pos hi]
    exact (h i).add_self hi ht
  · rw [Ring.add, if_neg hi]
    exact (h i).add_other hi

theorem eq_of_emod_eq {u v : ℤ} (hu : t - W + 1 ≤ u ∧ u ≤ t) (hv : t - W + 1 ≤ v ∧ v ≤ t)
    (h : u % W = v % W) : u = v := by
  obtain ⟨k, hk⟩ : (W : ℤ) ∣ u - v := Int.ModEq.dvd h.symm
  rcases lt_trichotomy k 0 with hneg | rfl | hpos
  · nlinarith
  · omega
  · nlinarith

/-- What a slot has of a window is what was recorded in it at the times of its residue. -/
theorem Stands.within_eq {s : Slot M} (h : Stands log i s) (ht : ∀ e ∈ log, e.1 ≤ t) :
    s.within (t - W + 1) t = log.sumOf W i (t - W + 1) t := by
  rcases h with ⟨hnone, hzero⟩ | ⟨hres, ⟨e, he, htime⟩, hlast, hsum⟩
  · have hempty : log.filter (fun e ↦ decide ((t - W + 1 ≤ e.1 ∧ e.1 ≤ t) ∧ e.1 % W = (i : ℤ)))
        = [] := by
      rw [List.filter_eq_nil_iff]
      intro e he hdec
      exact hnone e he (of_decide_eq_true hdec).2
    rw [Slot.within, hzero, ite_self, Log.sumOf, hempty]
    rfl
  · have hst : s.time ≤ t := htime ▸ ht e he
    by_cases hin : t - W + 1 ≤ s.time
    · rw [Slot.within, if_pos ⟨hin, hst⟩, hsum, Log.sumAt, Log.sumOf]
      congr 2
      refine List.filter_congr fun e' _ ↦ decide_eq_decide.mpr ⟨?_, ?_⟩
      · intro heq
        rw [heq]
        exact ⟨⟨hin, hst⟩, hres⟩
      · rintro ⟨hwin, hmod⟩
        exact eq_of_emod_eq hwin ⟨hin, hst⟩ (hmod.trans hres.symm)
    · have hempty : log.filter (fun e ↦ decide ((t - W + 1 ≤ e.1 ∧ e.1 ≤ t) ∧ e.1 % W = (i : ℤ)))
          = [] := by
        rw [List.filter_eq_nil_iff]
        intro e' he' hdec
        obtain ⟨⟨hle, -⟩, hmod⟩ := of_decide_eq_true hdec
        exact hin (hle.trans (hlast e' he' hmod))
      rw [Slot.within, if_neg fun h ↦ hin h.1, Log.sumOf, hempty]
      rfl

/-- **The ring is as good as the log** for windows of its length that end now. -/
theorem total_eq (h : ring.Keeps log) (hW : 0 < W) (ht : ∀ e ∈ log, e.1 ≤ t) :
    ring.total (t - W + 1) t = log.sumIn (t - W + 1) t := by
  rw [total, ← Log.sum_sumOf log hW]
  exact Finset.sum_congr rfl fun i _ ↦ (h i).within_eq ht

end Ring

end Window
