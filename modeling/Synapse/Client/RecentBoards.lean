import Synapse.Recency.Basic
import Synapse.Wire.JsonText

/-!
# Recent boards

The list of recent boards of `boardStorage.ts`. It lives in the local storage of the browser, as
JSON text: every visit reads the text, puts its board in front, and writes the text of the first
five, unless the storage does not take it. A storage that has only ever been written to by visits
holds the list of board entries that is most recently used (`getBoards_run`).
-/

namespace Synapse

open JsonText Recency

def maxBoards : ℕ := 5

structure BoardEntry where
  id : String
  lastVisited : String
  deriving DecidableEq

def BoardEntry.toJson (b : BoardEntry) : Json :=
  .obj [("id", .str b.id), ("lastVisited", .str b.lastVisited)]

/-- A call of `saveBoardVisit`. -/
structure BoardVisit where
  id : String
  /-- What `new Date().toISOString()` returns. -/
  now : String
  /-- Whether `setItem` does not throw. -/
  saved : Bool

def BoardVisit.entry (visit : BoardVisit) : BoardEntry := ⟨visit.id, visit.now⟩

/-- The list in a storage item, whatever has been stored. -/
def getBoards (item : Option String) : Json :=
  match item with
  | none => .arr []
  | some raw => if raw = "" then .arr [] else (Json.parse raw).getD (.arr [])

/-- The storage item after a visit, or nothing where that throws: what has been stored is no array,
or it is one with a `null` in it. -/
def saveBoardVisit (R : Json.Rendering) (item : Option String) (visit : BoardVisit) :
    Option (Option String) :=
  match getBoards item with
  | .arr stored =>
    if .null ∈ stored then none
    else
      let boards := visit.entry.toJson ::
        stored.filter fun b ↦ decide (Json.prop (some b) "id" ≠ some (.str visit.id))
      if visit.saved then some (some (Json.stringify R (.arr (boards.take maxBoards))))
      else some item
  | _ => none

/-- A storage item that has these board entries. -/
def Holds (item : Option String) (boards : List BoardEntry) : Prop :=
  getBoards item = .arr (boards.map BoardEntry.toJson)

variable {R : Json.Rendering} {item : Option String} {boards : List BoardEntry}

theorem readable_boards (boards : List BoardEntry) :
    Readable R (.arr (boards.map BoardEntry.toJson)) := by
  refine .arr fun v hv ↦ ?_
  obtain ⟨b, -, rfl⟩ := List.mem_map.mp hv
  have hnodup : ["id", "lastVisited"].Nodup := by decide
  refine .obj hnodup fun f hf ↦ ?_
  rcases List.mem_cons.mp hf with rfl | hf
  · exact .str b.id
  · rw [List.mem_singleton.mp hf]
    exact .str b.lastVisited

theorem holds_stringify (boards : List BoardEntry) :
    Holds (some (Json.stringify R (.arr (boards.map BoardEntry.toJson)))) boards := by
  have hparse := Json.parse_stringify (readable_boards (R := R) boards)
  have hne : Json.stringify R (.arr (boards.map BoardEntry.toJson)) ≠ "" := by
    intro hempty
    rw [hempty] at hparse
    cases hparse
  rw [Holds, getBoards, if_neg hne, hparse]
  rfl

theorem Holds.saveBoardVisit (h : Holds item boards) (visit : BoardVisit) :
    ∃ item', saveBoardVisit R item visit = some item' ∧
      Holds item' (if visit.saved then touch BoardEntry.id maxBoards boards visit.entry
        else boards) := by
  have hnull : ¬ Json.null ∈ boards.map BoardEntry.toJson := by
    intro hmem
    obtain ⟨b, -, hb⟩ := List.mem_map.mp hmem
    cases hb
  have hfilter : (boards.map BoardEntry.toJson).filter
        (fun b ↦ decide (Json.prop (some b) "id" ≠ some (.str visit.id)))
      = (boards.filter fun b ↦ decide (b.id ≠ visit.entry.id)).map BoardEntry.toJson := by
    rw [List.filter_map]
    congr 1
    refine List.filter_congr fun b _ ↦ decide_eq_decide.mpr (not_congr ?_)
    simp [BoardEntry.toJson, Json.prop, BoardVisit.entry]
  have htouch : (visit.entry.toJson :: (boards.map BoardEntry.toJson).filter
        fun b ↦ decide (Json.prop (some b) "id" ≠ some (.str visit.id))).take maxBoards
      = (touch BoardEntry.id maxBoards boards visit.entry).map BoardEntry.toJson := by
    rw [hfilter, touch, List.map_take, List.map_cons]
  unfold Synapse.saveBoardVisit
  rw [h]
  dsimp only
  rw [if_neg hnull, htouch]
  cases visit.saved with
  | true => exact ⟨_, rfl, holds_stringify _⟩
  | false => exact ⟨item, rfl, h⟩

theorem Holds.run (h : Holds item boards) (visits : List BoardVisit) :
    ∃ item', visits.foldlM (Synapse.saveBoardVisit R) item = some item' ∧
      Holds item' (((visits.filter BoardVisit.saved).map BoardVisit.entry).foldl
        (touch BoardEntry.id maxBoards) boards) := by
  induction visits generalizing item boards with
  | nil => exact ⟨item, rfl, h⟩
  | cons visit visits ih =>
    obtain ⟨item', hvisit, hitem'⟩ := h.saveBoardVisit (R := R) visit
    obtain ⟨item'', hvisits, hitem''⟩ := ih hitem'
    refine ⟨item'', (foldlM_cons_of_eq_some hvisit visits).trans hvisits, ?_⟩
    cases hsaved : visit.saved with
    | true =>
      rw [hsaved, if_pos rfl] at hitem''
      rwa [List.filter_cons_of_pos hsaved]
    | false =>
      rw [hsaved, if_neg Bool.false_ne_true] at hitem''
      rwa [List.filter_cons_of_neg (by rw [hsaved]; exact Bool.false_ne_true)]

/-- After any visits a storage has the latest saved visit of each board, the latest first, up to
five. -/
theorem holds_run (R : Json.Rendering) (visits : List BoardVisit) :
    ∃ item, visits.foldlM (saveBoardVisit R) none = some item ∧
      Holds item ((firsts BoardEntry.id
        ((visits.filter BoardVisit.saved).map BoardVisit.entry).reverse).take maxBoards) := by
  have hempty : Holds none [] := rfl
  obtain ⟨item, hrun, hitem⟩ := hempty.run (R := R) visits
  rw [foldl_touch] at hitem
  exact ⟨item, hrun, hitem⟩

/-- **The boards visited last.** After any visits, each of which may fail to be saved, the list in
a storage that was empty has at most five entries with different ids: the first different ids of the
saved visits from the latest back. -/
theorem getBoards_run (R : Json.Rendering) (visits : List BoardVisit) :
    ∃ (item : Option String) (boards : List BoardEntry),
      visits.foldlM (saveBoardVisit R) none = some item ∧
      getBoards item = .arr (boards.map BoardEntry.toJson) ∧
      boards.length ≤ 5 ∧ (boards.map BoardEntry.id).Nodup ∧
      boards.map BoardEntry.id
        = ((visits.filter BoardVisit.saved).reverse.map BoardVisit.id).eraseDups.take 5 := by
  obtain ⟨item, hrun, hitem⟩ := holds_run R visits
  refine ⟨item, _, hrun, hitem, List.length_take_le _ _, ?_, ?_⟩
  · rw [List.map_take]
    exact (nodup_firsts _).sublist (List.take_sublist _ _)
  · rw [List.map_take, map_firsts, ← List.map_reverse, List.map_map]
    rfl

end Synapse
