import Mathlib.Data.List.Basic
import Mathlib.Order.Basic

/-!
# Sessions and transactions

What a connection does to a database, one request at a time. Outside a transaction a statement
takes effect at once, or not at all when it fails. Inside one, it is applied to a working copy that
nobody else sees; a statement that fails leaves the transaction good for nothing but its end, and
only a commit of a transaction without such a failure makes the working copy the database.

`Session.transaction` is the way programs use this: start, send statements up to the first that
fails, commit if none has, roll back otherwise, ignoring whether that succeeds. It is atomic
wherever it fails (`transaction_cases`).

A request may fail for any reason, and always fails if its statement is in error.
-/

namespace Sql

variable {σ : Type*}

/-- The transaction a connection is in. -/
inductive Transaction (σ : Type*)
  | none
  /-- With what its statements have made of the database. -/
  | active (working : σ)
  /-- One of its statements has failed. -/
  | aborted

/-- A connection to a database. -/
structure Session (σ : Type*) where
  /-- The database as others see it. -/
  committed : σ
  current : Transaction σ := .none

/-- A request. -/
inductive Command (σ : Type*)
  | start
  /-- A statement; it is in error where it has no result. -/
  | run (statement : σ → Option σ)
  | commit
  | rollback

namespace Session

/-- One request, which fails if `fails`, and whether it has succeeded. -/
def send (s : Session σ) (fails : Bool) : Command σ → Session σ × Bool
  | .start =>
    match s.current, fails with
    | .none, false => (⟨s.committed, .active s.committed⟩, true)
    | .active _, false => (s, true)
    | _, _ => (s, false)
  | .run statement =>
    match s.current with
    | .none =>
      match fails, statement s.committed with
      | false, some db => (⟨db, .none⟩, true)
      | _, _ => (s, false)
    | .active working =>
      match fails, statement working with
      | false, some working' => (⟨s.committed, .active working'⟩, true)
      | _, _ => (⟨s.committed, .aborted⟩, false)
    | .aborted => (s, false)
  | .commit =>
    match s.current, fails with
    | .active working, false => (⟨working, .none⟩, true)
    | _, _ => (⟨s.committed, .none⟩, !fails)
  | .rollback => if fails then (s, false) else (⟨s.committed, .none⟩, true)

/-- Requests in turn, up to the first that fails; `fails i` is whether the `i`-th does. -/
def sendAll (s : Session σ) (fails : ℕ → Bool) : List (Command σ) → Session σ × Bool
  | [] => (s, true)
  | c :: cs =>
    match s.send (fails 0) c with
    | (t, true) => t.sendAll (fun i ↦ fails (i + 1)) cs
    | (t, false) => (t, false)

/-- Statements in a transaction, and whether it has been committed. -/
def transaction (s : Session σ) (fails : ℕ → Bool) (rollbackFails : Bool)
    (statements : List (σ → Option σ)) : Session σ × Bool :=
  match s.sendAll fails (.start :: statements.map .run ++ [.commit]) with
  | (t, true) => (t, true)
  | (t, false) => ((t.send rollbackFails .rollback).1, false)

/-- Statements one after the other. -/
def runAll (db : σ) (statements : List (σ → Option σ)) : Option σ :=
  statements.foldlM (fun db statement ↦ statement db) db

variable {s t : Session σ} {db working : σ} {fails : ℕ → Bool} {c : Command σ}
  {cs : List (Command σ)} {statements : List (σ → Option σ)}

theorem runAll_cons (db : σ) (statement : σ → Option σ) (statements : List (σ → Option σ)) :
    runAll db (statement :: statements) = (statement db).bind fun db' ↦ runAll db' statements :=
  rfl

theorem send_run {statement : σ → Option σ} {db' : σ} (h : statement db = some db') :
    Session.send ⟨db, .none⟩ false (.run statement) = (⟨db', .none⟩, true) := by
  simp [send, h]

theorem send_run_fails (db : σ) (statement : σ → Option σ) :
    Session.send ⟨db, .none⟩ true (.run statement) = (⟨db, .none⟩, false) := rfl

theorem sendAll_cons (h : s.send (fails 0) c = (t, true)) :
    s.sendAll fails (c :: cs) = t.sendAll (fun i ↦ fails (i + 1)) cs := by
  rw [sendAll, h]

theorem sendAll_cons_of_fails (h : s.send (fails 0) c = (t, false)) :
    s.sendAll fails (c :: cs) = (t, false) := by
  rw [sendAll, h]

/-- The requests of an open transaction: all succeed and the working copy is committed, or one fails
and the database is as it was. -/
theorem sendAll_active (db working : σ) (fails : ℕ → Bool) (statements : List (σ → Option σ)) :
    (∃ db', runAll working statements = some db' ∧ (∀ i ≤ statements.length, fails i = false) ∧
      Session.sendAll ⟨db, .active working⟩ fails (statements.map .run ++ [.commit])
        = (⟨db', .none⟩, true)) ∨
    ((runAll working statements = none ∨ ∃ i ≤ statements.length, fails i = true) ∧
      ∃ t, Session.sendAll ⟨db, .active working⟩ fails (statements.map .run ++ [.commit])
        = (t, false) ∧ t.committed = db) := by
  induction statements generalizing working fails with
  | nil =>
    cases hfails : fails 0 with
    | false =>
      refine Or.inl ⟨working, rfl, fun i hi ↦ ?_, ?_⟩
      · rwa [Nat.le_zero.mp hi]
      · simp [sendAll, send, hfails]
    | true =>
      refine Or.inr ⟨Or.inr ⟨0, Nat.le_refl _, hfails⟩, ⟨db, .none⟩, ?_, rfl⟩
      simp [sendAll, send, hfails]
  | cons statement statements ih =>
    rw [List.map_cons, List.cons_append]
    cases hfails : fails 0 with
    | true =>
      refine Or.inr ⟨Or.inr ⟨0, Nat.zero_le _, hfails⟩, ⟨db, .aborted⟩, ?_, rfl⟩
      exact sendAll_cons_of_fails (by simp [send, hfails])
    | false =>
      cases hrun : statement working with
      | none =>
        refine Or.inr ⟨Or.inl (by simp [runAll, hrun]), ⟨db, .aborted⟩, ?_, rfl⟩
        exact sendAll_cons_of_fails (by simp [send, hfails, hrun])
      | some working' =>
        have hsend : Session.send ⟨db, .active working⟩ (fails 0) (.run statement)
            = (⟨db, .active working'⟩, true) := by simp [send, hfails, hrun]
        have hall : runAll working (statement :: statements) = runAll working' statements := by
          simp [runAll, hrun]
        rw [sendAll_cons hsend, hall]
        refine (ih working' fun i ↦ fails (i + 1)).imp ?_ ?_
        · rintro ⟨db', hrunAll, hnone, hsent⟩
          refine ⟨db', hrunAll, fun i hi ↦ ?_, hsent⟩
          cases i with
          | zero => exact hfails
          | succ i => exact hnone i (Nat.succ_le_succ_iff.mp hi)
        · rintro ⟨hwhy, hsent⟩
          refine ⟨hwhy.imp_right ?_, hsent⟩
          rintro ⟨i, hi, hfail⟩
          exact ⟨i + 1, Nat.succ_le_succ hi, hfail⟩

theorem transaction_cases (db : σ) (fails : ℕ → Bool) (rollbackFails : Bool)
    (statements : List (σ → Option σ)) :
    (∃ db', runAll db statements = some db' ∧ (∀ i ≤ statements.length + 1, fails i = false) ∧
      Session.transaction ⟨db, .none⟩ fails rollbackFails statements = (⟨db', .none⟩, true)) ∨
    ((runAll db statements = none ∨ ∃ i ≤ statements.length + 1, fails i = true) ∧
      ∃ t, Session.transaction ⟨db, .none⟩ fails rollbackFails statements = (t, false) ∧
        t.committed = db) := by
  have hrollback : ∀ t : Session σ, (t.send rollbackFails .rollback).1.committed = t.committed := by
    intro t
    rw [send]
    split_ifs <;> rfl
  unfold transaction
  rw [List.cons_append]
  cases hfails : fails 0 with
  | true =>
    rw [sendAll_cons_of_fails (t := ⟨db, .none⟩) (by simp [send, hfails])]
    exact Or.inr ⟨Or.inr ⟨0, Nat.zero_le _, hfails⟩, _, rfl, hrollback _⟩
  | false =>
    rw [sendAll_cons (t := ⟨db, .active db⟩) (by simp [send, hfails])]
    rcases sendAll_active db db (fun i ↦ fails (i + 1)) statements with
      ⟨db', hrun, hnone, hsent⟩ | ⟨hwhy, t, hsent, hcommitted⟩
    · rw [hsent]
      refine Or.inl ⟨db', hrun, fun i hi ↦ ?_, rfl⟩
      cases i with
      | zero => exact hfails
      | succ i => exact hnone i (Nat.succ_le_succ_iff.mp hi)
    · rw [hsent]
      refine Or.inr ⟨hwhy.imp_right ?_, _, rfl, (hrollback t).trans hcommitted⟩
      rintro ⟨i, hi, hfail⟩
      exact ⟨i + 1, Nat.succ_le_succ hi, hfail⟩

end Session

end Sql
