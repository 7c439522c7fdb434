import Synapse.Room.Reconnect

/-!
# The client after a resync

The `room-history` listener adopts the strokes of a reply and nothing else. The mark it keeps never
falls, and a reply that consists of a baseline alone leaves it where it was. So a client that is
ahead of the server stays ahead, and one that is behind a bare baseline stays behind, however often
it asks.
-/

namespace Synapse

open Keyed Transition

namespace World

variable {w : World Unit}

/-- The session reports its mark in a `request-resync` and handles the reply. -/
def afterResync (w : World Unit) (session : Session) (now now' : ℕ) : Session :=
  session.roomHistory
    (w.resyncReply (some (.num (.finite session.resync.sinceSeq))) now now')

theorem le_highestSeq_iff {strokes : List PersistedStroke} {current n : ℕ} :
    n ≤ highestSeq strokes current ↔ n ≤ current ∨ ∃ k ∈ strokes, n ≤ k.seq := by
  rw [← not_lt, highestSeq_lt_iff, not_and_or, not_lt]
  simp

/-- The mark moves to the highest number of the board's tail, and never back. -/
theorem Quiescent.le_mark_iff (hw : w.Quiescent) (session : Session) (now now' n : ℕ) :
    n ≤ (w.afterResync session now now').resync.sinceSeq ↔ n ≤ session.resync.sinceSeq ∨
      ∃ k, w.Has k ∧ w.log.store.getSnapshotSeq < k.seq ∧ n ≤ k.seq := by
  rw [afterResync, Session.roomHistory, ResyncController.adoptBatch, ResyncController.sinceSeq,
    le_highestSeq_iff]
  set mark := session.resync.sinceSeq with hmark
  change n ≤ mark ∨ _ ↔ _
  obtain ⟨hdelta, hreload, -⟩ := resync_reply hw (some (.num (.finite mark))) now now'
  by_cases hwithin : ∃ m, w.Within (some (.num (.finite mark))) m
  · obtain ⟨m, hm⟩ := hwithin
    have hm' : mark = m := by
      have := hm.1.1
      simp only [Option.some_inj, Json.num.injEq, JsNumber.finite.injEq] at this
      exact_mod_cast this
    simp only [(hdelta m hm).2]
    constructor
    · rintro (hle | ⟨k, ⟨hk, hlt⟩, hle⟩)
      · exact Or.inl hle
      · exact Or.inr ⟨k, hk, hm.2.1.trans_lt hlt, hle⟩
    · rintro (hle | ⟨k, hk, hlt, hle⟩)
      · exact Or.inl hle
      · by_cases hnew : m < k.seq
        · exact Or.inr ⟨k, ⟨hk, hnew⟩, hle⟩
        · exact Or.inl (by omega)
  · simp only [(hreload (not_exists.mp hwithin)).2, and_assoc]

/-- **The mark reaches the highest number when it is not beyond it, and either there already or
given a stroke to move on.** Only then is the next live stroke applied. -/
theorem resync_converges_iff (hw : w.Quiescent) (session : Session) (now now' : ℕ) :
    ((w.afterResync session now now').resync.sinceSeq = w.highest ↔
      session.resync.sinceSeq ≤ w.highest ∧
        (w.log.store.getSnapshotSeq < w.highest ∨ session.resync.sinceSeq = w.highest)) ∧
    ∀ k : PersistedStroke, k.seq = w.highest + 1 →
      (((w.afterResync session now now').resync.ingest k).2 = some (.onApply k) ↔
        session.resync.sinceSeq ≤ w.highest ∧
          (w.log.store.getSnapshotSeq < w.highest ∨ session.resync.sinceSeq = w.highest)) := by
  have hle := hw.le_mark_iff session now now'
  have hbase : w.log.store.getSnapshotSeq ≤ w.highest := le_highest_iff.mpr (Or.inl le_rfl)
  have hmax : ∀ k, w.Has k → k.seq ≤ w.highest := fun k hk ↦
    le_highest_iff.mpr (Or.inr ⟨k, hk, le_rfl⟩)
  have hconverges : (w.afterResync session now now').resync.sinceSeq = w.highest ↔
      session.resync.sinceSeq ≤ w.highest ∧
        (w.log.store.getSnapshotSeq < w.highest ∨ session.resync.sinceSeq = w.highest) := by
    constructor
    · intro heq
      rw [heq] at hle
      refine ⟨(hle _).mpr (Or.inl le_rfl), ?_⟩
      rcases (hle w.highest).mp le_rfl with hmark | ⟨k, hk, hlt, -⟩
      · exact Or.inr (le_antisymm ((hle _).mpr (Or.inl le_rfl)) hmark)
      · exact Or.inl (hlt.trans_le (hmax k hk))
    · rintro ⟨hmark, hcase⟩
      refine le_antisymm ?_ ((hle _).mpr ?_)
      · rcases (hle _).mp le_rfl with h | ⟨k, hk, -, h⟩
        · exact h.trans hmark
        · exact h.trans (hmax k hk)
      · rcases hcase with hlt | heq
        · rcases le_highest_iff.mp (le_refl w.highest) with h | ⟨k, hk, h⟩
          · omega
          · exact Or.inr ⟨k, hk, hlt.trans_le h, h⟩
        · exact Or.inl heq.ge
  refine ⟨hconverges, fun k hk ↦ ?_⟩
  rw [← hconverges]
  change _ ↔ (w.afterResync session now now').resync.lastAppliedSeq = w.highest
  rcases (w.afterResync session now now').resync.ingest_cases k with ⟨h, heq⟩ | ⟨h, heq⟩ | ⟨h, heq⟩
  · rw [heq]
    exact iff_of_false (by simp) (by omega)
  · rw [heq]
    exact iff_of_true rfl (by omega)
  · rw [heq]
    exact iff_of_false (by simp) (by omega)

/-- A client at 3 reaches 5. -/
theorem resync_converges_sampleQuiet :
    (sampleQuiet.afterResync { resync := ⟨3⟩ } 7 8).resync.sinceSeq = 5 := by
  have hconverges := (resync_converges_iff quiescent_sampleQuiet { resync := ⟨3⟩ } 7 8).1
  exact hconverges.mpr ⟨by decide, Or.inl (by decide)⟩

/-- A board that consists of its baseline, 2. -/
def sampleCompacted : World Unit := World.start Unit { sampleStore with boardRow := some 2 }

/-- A client at 9, of which the server has lost the last strokes, stays there and ignores the next
stroke. A client at 0 of a board that consists of its baseline stays there as well, and takes the
next stroke for a gap. -/
theorem resync_leaves_mark :
    ((sampleQuiet.afterResync { resync := ⟨9⟩ } 7 8).resync.sinceSeq = 9 ∧
      sampleQuiet.highest = 5 ∧ decideStrokeAction 9 6 = .ignore) ∧
    (sampleCompacted.afterResync {} 7 8).resync.sinceSeq = 0 ∧ sampleCompacted.highest = 2 ∧
      decideStrokeAction 0 3 = .resync := by
  decide

end World

end Synapse
