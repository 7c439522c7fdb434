import Mathlib.Data.List.Basic
import Mathlib.Logic.Function.Basic

/-!
# Cells told apart by a key

A map from keys to cells, together with a service that answers a call on a key from that key's cell
alone and writes only that cell. A cell is absent until the first call that writes it.

Calls on different keys arrive in one list, in any order. What the service answers on one key is
what a single cell answers to that key's calls, taken by themselves (`filter_serve`); every
statement about one key of an interleaved run is reduced to a run of one cell by it.
-/

namespace Keyed

/-- One cell a key, absent until it is first written. -/
abbrev Cells (κ S : Type*) := κ → Option S

variable {κ S ι β : Type*}

/-- The calls put to one cell, each with its answer. -/
def answers (g : Option S → ι → β × Option S) (cell : Option S) : List ι → List (ι × β)
  | [] => []
  | i :: calls => (i, (g cell i).1) :: answers g (g cell i).2 calls

@[simp] theorem answers_nil (g : Option S → ι → β × Option S) (cell : Option S) :
    answers g cell [] = [] := rfl

@[simp] theorem answers_cons (g : Option S → ι → β × Option S) (cell : Option S) (i : ι)
    (calls : List ι) :
    answers g cell (i :: calls) = (i, (g cell i).1) :: answers g (g cell i).2 calls := rfl

/-- Renaming the answers of a cell. -/
theorem answers_map {γ : Type*} (φ : β → γ) (g : Option S → ι → β × Option S) (cell : Option S)
    (calls : List ι) :
    answers (fun cell i ↦ (φ (g cell i).1, (g cell i).2)) cell calls
      = (answers g cell calls).map fun r ↦ (r.1, φ r.2) := by
  induction calls generalizing cell with
  | nil => rfl
  | cons i calls ih => rw [answers_cons, answers_cons, List.map_cons, ih]

/-- A cell that reads only `φ i` of a call `i`. -/
theorem map_answers_comp {γ : Type*} (φ : γ → ι) (g : Option S → ι → β × Option S)
    (cell : Option S) (calls : List γ) :
    (answers (fun cell i ↦ g cell (φ i)) cell calls).map (fun r ↦ (φ r.1, r.2))
      = answers g cell (calls.map φ) := by
  induction calls generalizing cell with
  | nil => rfl
  | cons i calls ih => rw [answers_cons, List.map_cons, List.map_cons, answers_cons, ih]

namespace Cells

variable [DecidableEq κ]

/-- The cells after a call: only the cell of the called key is written. -/
def write (f : κ → Option S → ι → β × Option S) (cells : Cells κ S) (call : κ × ι) : Cells κ S :=
  Function.update cells call.1 (f call.1 (cells call.1) call.2).2

/-- The calls of an interleaved run, each with its answer. -/
def serve (f : κ → Option S → ι → β × Option S) (cells : Cells κ S) :
    List (κ × ι) → List (κ × ι × β)
  | [] => []
  | call :: calls =>
    (call.1, call.2, (f call.1 (cells call.1) call.2).1) :: serve f (cells.write f call) calls

/-- The cells an interleaved run leaves behind. -/
def after (f : κ → Option S → ι → β × Option S) (cells : Cells κ S) (calls : List (κ × ι)) :
    Cells κ S :=
  calls.foldl (write f) cells

variable {f : κ → Option S → ι → β × Option S} {cells : Cells κ S}

@[simp] theorem write_self (call : κ × ι) :
    cells.write f call call.1 = (f call.1 (cells call.1) call.2).2 :=
  Function.update_self _ _ _

theorem write_of_ne {call : κ × ι} {k : κ} (h : call.1 ≠ k) : cells.write f call k = cells k :=
  Function.update_of_ne h.symm _ _

/-- The answers on one key are those of its own cell to its own calls. -/
theorem filter_serve (f : κ → Option S → ι → β × Option S) (cells : Cells κ S) (k : κ)
    (calls : List (κ × ι)) :
    ((serve f cells calls).filter fun r ↦ r.1 = k).map Prod.snd
      = answers (f k) (cells k) ((calls.filter fun c ↦ c.1 = k).map Prod.snd) := by
  induction calls generalizing cells with
  | nil => rfl
  | cons call calls ih =>
    by_cases hk : call.1 = k
    · subst hk
      have hserve := ih (cells.write f call)
      rw [write_self] at hserve
      rw [serve, List.filter_cons_of_pos (by simp), List.filter_cons_of_pos (by simp),
        List.map_cons, List.map_cons, answers_cons, hserve]
    · have hserve := ih (cells.write f call)
      rw [write_of_ne hk] at hserve
      rw [serve, List.filter_cons_of_neg (by simpa using hk),
        List.filter_cons_of_neg (by simpa using hk), hserve]

theorem map_call_serve (f : κ → Option S → ι → β × Option S) (cells : Cells κ S)
    (calls : List (κ × ι)) : (serve f cells calls).map (fun r ↦ (r.1, r.2.1)) = calls := by
  induction calls generalizing cells with
  | nil => rfl
  | cons call calls ih => rw [serve, List.map_cons, ih]

/-- Runs that agree on the calls to a key, and start with the same cell for it, answer that key
alike. -/
theorem filter_serve_congr {cells' : Cells κ S} {k : κ} {calls calls' : List (κ × ι)}
    (hcell : cells k = cells' k)
    (hcalls : (calls.filter fun c ↦ c.1 = k) = calls'.filter fun c ↦ c.1 = k) :
    ((serve f cells calls).filter fun r ↦ r.1 = k).map Prod.snd
      = ((serve f cells' calls').filter fun r ↦ r.1 = k).map Prod.snd := by
  rw [filter_serve, filter_serve, hcell, hcalls]

/-- What every call establishes of the cell it writes holds of all cells after any run. -/
theorem after_invariant {P : κ → S → Prop} (h₀ : ∀ k s, cells k = some s → P k s)
    (hstep : ∀ k cell i s, (∀ r, cell = some r → P k r) → (f k cell i).2 = some s → P k s)
    (calls : List (κ × ι)) : ∀ k s, cells.after f calls k = some s → P k s := by
  induction calls generalizing cells with
  | nil => exact h₀
  | cons call calls ih =>
    refine @ih (cells.write f call) fun k s hk ↦ ?_
    by_cases hcall : call.1 = k
    · subst hcall
      rw [write_self] at hk
      exact hstep _ _ _ _ (h₀ call.1) hk
    · rw [write_of_ne hcall] at hk
      exact h₀ k s hk

end Cells

end Keyed
