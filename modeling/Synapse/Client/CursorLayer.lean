import Mathlib.Logic.Function.Basic
import Synapse.Client.Viewport
import Synapse.Transition.Along

/-!
# Cursors of the other members

The `CursorLayer` of a canvas. Members, positions and nodes come from different messages: the list
of members from `users-update`, the positions from `cursor-update`, and the nodes are made when a
frame is rendered. The layer knows which member is its own by the colour alone, and it forgets the
position of a member who left only where there is a node to remove.

`Cursors` is the layer with, for the record, the latest position of each socket and whether it was
received since the socket last joined the list. After every render the nodes are those of the other
members exactly as long as nobody is drawn from a position of before joining and nobody's position
is left out for the colour (`cursors_shown_iff`).
-/

namespace Synapse

open Transition

/-- A member of a room as `users-update` lists them; the layer reads no more of it. -/
structure RoomUser where
  socketId : String
  username : String
  cursorColor : String
  deriving DecidableEq

/-- The DOM node of a cursor. A new one has no transform, so it is at the origin. -/
structure CursorNode where
  color : String
  name : String
  place : Point := ⟨0, 0⟩
  deriving DecidableEq

/-- The current user's cursor color, matched by socket id, for self-filtering. -/
def mySocketColor (users : List RoomUser) (socketId : Option String) : String :=
  ((users.find? fun u ↦ some u.socketId == socketId).map RoomUser.cursorColor).getD ""

structure CursorLayer where
  /-- Whether there is a container. -/
  mounted : Bool := false
  nodes : String → Option CursorNode := fun _ ↦ none
  positions : String → Option Point := fun _ ↦ none
  users : List RoomUser := []
  myColor : String := ""

/-- A socket that a list has a member of. -/
def Listed (users : List RoomUser) (socketId : String) : Prop :=
  socketId ∈ users.map RoomUser.socketId

instance (users : List RoomUser) (socketId : String) : Decidable (Listed users socketId) :=
  inferInstanceAs (Decidable (_ ∈ _))

namespace CursorLayer

variable (layer : CursorLayer)

def mount : CursorLayer := { layer with mounted := true }

/-- Updates membership and prunes departed cursors: those that have a node. -/
def setUsers (users : List RoomUser) (myColor : String) : CursorLayer :=
  { layer with
    users := users
    myColor := myColor
    nodes := fun u ↦ if Listed users u then layer.nodes u else none
    positions := fun u ↦
      if ¬ Listed users u ∧ (layer.nodes u).isSome then none else layer.positions u }

/-- Records a remote cursor's world-space position. -/
def setPosition (socketId : String) (pos : Point) : CursorLayer :=
  { layer with positions := Function.update layer.positions socketId (some pos) }

/-- The node of a user, with the color and the name that the user has now. -/
def ensureNode (user : RoomUser) : CursorNode :=
  match layer.nodes user.socketId with
  | some existing => { existing with color := user.cursorColor, name := user.username }
  | none => { color := user.cursorColor, name := user.username }

/-- One pass of the loop of `render`. -/
def renderUser (viewport : Viewport) (layer : CursorLayer) (user : RoomUser) : CursorLayer :=
  if user.cursorColor = layer.myColor then layer
  else
    match layer.positions user.socketId with
    | none => layer
    | some pos =>
      { layer with
        nodes := Function.update layer.nodes user.socketId
          (some { layer.ensureNode user with place := viewport.toScreen pos }) }

/-- Repositions every cursor node for the current frame. -/
def render (viewport : Viewport) : CursorLayer :=
  if layer.mounted then layer.users.foldl (renderUser viewport) layer else layer

/-- A socket with a member in a color other than one's own. -/
def Colored (socketId : String) : Prop :=
  ∃ user ∈ layer.users, user.socketId = socketId ∧ user.cursorColor ≠ layer.myColor

end CursorLayer

/-- The calls on a mounted layer. -/
inductive CursorEvent
  | setUsers (users : List RoomUser)
  | setPosition (socketId : String) (pos : Point)
  | render (viewport : Viewport)

/-- A layer, and the record of the positions received. -/
structure Cursors where
  layer : CursorLayer := CursorLayer.mount {}
  /-- The latest position of each socket. -/
  latest : String → Option Point := fun _ ↦ none
  /-- Whether a position was received since the socket last joined the list. -/
  fresh : String → Bool := fun _ ↦ false

namespace Cursors

variable (me : String) (s : Cursors)

def step : CursorEvent → Cursors
  | .setUsers users =>
    { s with
      layer := s.layer.setUsers users (mySocketColor users (some me))
      -- a socket that the list before does not have joins now
      fresh := fun u ↦ s.fresh u && decide (Listed s.layer.users u ∧ Listed users u) }
  | .setPosition socketId pos =>
    { layer := s.layer.setPosition socketId pos
      latest := Function.update s.latest socketId (some pos)
      fresh := Function.update s.fresh socketId (decide (Listed s.layer.users socketId)) }
  | .render viewport => { s with layer := s.layer.render viewport }

/-- The cursors are those of the other members, each at its latest position. -/
structure Shown (viewport : Viewport) : Prop where
  others : ∀ u ≠ me, (s.layer.nodes u).isSome ↔ Listed s.layer.users u ∧ s.fresh u = true
  own : s.layer.nodes me = none
  place : ∀ u node, s.layer.nodes u = some node →
    ∃ pos, s.latest u = some pos ∧ node.place = viewport.toScreen pos

/-- After a render the cursors are right. -/
def Shows : CursorEvent → Prop
  | .render viewport => (s.step me (.render viewport)).Shown me viewport
  | _ => True

/-- What a render must find for the cursors to be right after it. -/
structure Drawable (viewport : Viewport) : Prop where
  /-- Who is drawn has sent a position since joining, if there is one. -/
  joined : ∀ u ≠ me, s.layer.Colored u → (s.layer.positions u).isSome → s.fresh u = true
  /-- Who is left out for the color has not, unless a node of before is in the right place. -/
  leftOut : ∀ u ≠ me, ¬ s.layer.Colored u → s.fresh u = true →
    ∃ node pos, s.layer.nodes u = some node ∧ s.latest u = some pos ∧
      node.place = viewport.toScreen pos
  /-- Nobody has sent a position of one's own, if one is listed in two colors. -/
  own : s.layer.Colored me → s.layer.positions me = none

/-- A render finds cursors that it can draw. -/
def Draws : CursorEvent → Prop
  | .render viewport => s.Drawable me viewport
  | _ => True

end Cursors

namespace CursorLayer

variable {layer : CursorLayer} {viewport : Viewport} {user : RoomUser} {u : String} {pos : Point}

/-! ## One pass of the loop -/

theorem renderUser_eq : renderUser viewport layer user
    = { layer with nodes := (renderUser viewport layer user).nodes } := by
  rw [renderUser]
  split_ifs with hcolor
  · rfl
  · cases layer.positions user.socketId with
    | none => rfl
    | some pos => rfl

theorem renderUser_myColor : (renderUser viewport layer user).myColor = layer.myColor := by
  rw [renderUser_eq]

theorem renderUser_positions : (renderUser viewport layer user).positions = layer.positions := by
  rw [renderUser_eq]

theorem nodes_renderUser (viewport : Viewport) (hcolor : user.cursorColor ≠ layer.myColor)
    (hpos : layer.positions user.socketId = some pos) :
    ∃ node, (renderUser viewport layer user).nodes user.socketId = some node ∧
      node.place = viewport.toScreen pos ∧ node.color = user.cursorColor ∧
      node.name = user.username := by
  refine ⟨{ layer.ensureNode user with place := viewport.toScreen pos }, ?_, rfl, ?_, ?_⟩
  · rw [renderUser, if_neg hcolor, hpos]
    exact Function.update_self _ _ _
  · cases hnode : layer.nodes user.socketId <;> rw [ensureNode, hnode]
  · cases hnode : layer.nodes user.socketId <;> rw [ensureNode, hnode]

theorem nodes_renderUser_of_not
    (h : user.socketId = u → user.cursorColor = layer.myColor ∨ layer.positions u = none) :
    (renderUser viewport layer user).nodes u = layer.nodes u := by
  rw [renderUser]
  split_ifs with hcolor
  · rfl
  · cases hpos : layer.positions user.socketId with
    | none => rfl
    | some pos =>
      have hne : u ≠ user.socketId := by
        rintro rfl
        rcases h rfl with heq | hnone
        · exact hcolor heq
        · exact Option.some_ne_none pos (hpos.symm.trans hnone)
      exact Function.update_of_ne hne _ _

/-! ## The loop -/

section Loop

variable {users : List RoomUser}

theorem foldl_renderUser_eq : users.foldl (renderUser viewport) layer
    = { layer with nodes := (users.foldl (renderUser viewport) layer).nodes } := by
  induction users generalizing layer with
  | nil => rfl
  | cons user users ih =>
    rw [List.foldl_cons, ih, renderUser_eq]

theorem nodes_foldl_of_not
    (h : ∀ user ∈ users, user.socketId = u →
      user.cursorColor = layer.myColor ∨ layer.positions u = none) :
    (users.foldl (renderUser viewport) layer).nodes u = layer.nodes u := by
  induction users generalizing layer with
  | nil => rfl
  | cons user users ih =>
    rw [List.foldl_cons, ih, nodes_renderUser_of_not (h user List.mem_cons_self)]
    intro other hmem hsocket
    rw [renderUser_myColor, renderUser_positions]
    exact h other (List.mem_cons_of_mem _ hmem) hsocket

theorem nodes_foldl (hpos : layer.positions u = some pos)
    (h : ∃ user ∈ users, user.socketId = u ∧ user.cursorColor ≠ layer.myColor) :
    ∃ node, (users.foldl (renderUser viewport) layer).nodes u = some node ∧
      node.place = viewport.toScreen pos ∧
      ∃ user ∈ users, user.socketId = u ∧ node.color = user.cursorColor ∧
        node.name = user.username := by
  induction users generalizing layer with
  | nil =>
    obtain ⟨user, hmem, -⟩ := h
    exact nomatch hmem
  | cons head users ih =>
    by_cases hlater : ∃ user ∈ users, user.socketId = u ∧ user.cursorColor ≠ layer.myColor
    · have hpos' : (renderUser viewport layer head).positions u = some pos := by
        rw [renderUser_positions, hpos]
      obtain ⟨node, hnode, hplace, user, hmem, hlook⟩ :=
        ih hpos' (by rwa [renderUser_myColor])
      exact ⟨node, hnode, hplace, user, List.mem_cons_of_mem _ hmem, hlook⟩
    · obtain ⟨user, hmem, rfl, hcolor⟩ := h
      obtain rfl : user = head := by
        rcases List.mem_cons.mp hmem with heq | hmem
        · exact heq
        · exact absurd ⟨user, hmem, rfl, hcolor⟩ hlater
      obtain ⟨node, hnode, hplace, hlook⟩ := nodes_renderUser viewport hcolor hpos
      refine ⟨node, ?_, hplace, user, List.mem_cons_self, rfl, hlook⟩
      rw [List.foldl_cons, nodes_foldl_of_not, hnode]
      intro other hmem hsocket
      rw [renderUser_myColor]
      exact .inl (not_not.mp fun hcolor ↦ hlater ⟨other, hmem, hsocket, hcolor⟩)

end Loop

theorem render_eq :
    layer.render viewport = { layer with nodes := (layer.render viewport).nodes } := by
  rw [render]
  split_ifs
  · exact foldl_renderUser_eq
  · rfl

theorem nodes_render_of_not (h : layer.Colored u → layer.positions u = none) :
    (layer.render viewport).nodes u = layer.nodes u := by
  rw [render]
  split_ifs
  · refine nodes_foldl_of_not fun user hmem hsocket ↦ ?_
    by_cases hcolor : user.cursorColor = layer.myColor
    · exact .inl hcolor
    · exact .inr (h ⟨user, hmem, hsocket, hcolor⟩)
  · rfl

/-- A drawn cursor is where its position is on the screen, and looks as the list says. -/
theorem nodes_render (viewport : Viewport) (hmounted : layer.mounted = true) (h : layer.Colored u)
    (hpos : layer.positions u = some pos) :
    ∃ node, (layer.render viewport).nodes u = some node ∧
      node.place = viewport.toScreen pos ∧
      ∃ user ∈ layer.users, user.socketId = u ∧ node.color = user.cursorColor ∧
        node.name = user.username := by
  rw [render, if_pos hmounted]
  exact nodes_foldl hpos h

end CursorLayer

namespace Cursors

variable {me u : String} {s : Cursors} {viewport : Viewport} {event : CursorEvent}

theorem layer_render : (s.step me (.render viewport)).layer
    = { s.layer with nodes := (s.layer.render viewport).nodes } := CursorLayer.render_eq

/-! ## What runs keep -/

/-- The record of a layer is right, and its nodes are of positions since joining. -/
structure Recorded (me : String) (s : Cursors) : Prop where
  mounted : s.layer.mounted = true
  latest : ∀ u pos, s.layer.positions u = some pos → s.latest u = some pos
  fresh : ∀ u, s.fresh u = true → Listed s.layer.users u ∧ (s.layer.positions u).isSome
  nodes : ∀ u, (s.layer.nodes u).isSome → s.fresh u = true
  own : s.layer.nodes me = none

theorem Recorded.start : Recorded me {} where
  mounted := rfl
  latest _ _ h := nomatch h
  fresh _ h := nomatch h
  nodes _ h := nomatch h
  own := rfl

/-- A member who stays in the list keeps node, position and record. -/
theorem Recorded.setUsers (h : s.Recorded me) (users : List RoomUser) :
    (s.step me (.setUsers users)).Recorded me := by
  refine ⟨h.mounted, fun u pos hpos ↦ ?_, fun u hfresh ↦ ?_, fun u hnode ↦ ?_, ?_⟩
  · simp only [step, CursorLayer.setUsers] at hpos
    split_ifs at hpos
    exact h.latest u pos hpos
  · simp only [step, Bool.and_eq_true, decide_eq_true_eq] at hfresh
    obtain ⟨hfresh, -, hlisted⟩ := hfresh
    refine ⟨hlisted, ?_⟩
    simp only [step, CursorLayer.setUsers]
    rw [if_neg fun hgone ↦ hgone.1 hlisted]
    exact (h.fresh u hfresh).2
  · simp only [step, CursorLayer.setUsers] at hnode
    split_ifs at hnode with hlisted
    · have hfresh := h.nodes u hnode
      simp only [step, Bool.and_eq_true, decide_eq_true_eq]
      exact ⟨hfresh, (h.fresh u hfresh).1, hlisted⟩
    · cases hnode
  · simp only [step, CursorLayer.setUsers]
    rw [h.own, ite_self]

theorem Recorded.setPosition (h : s.Recorded me) (socketId : String) (pos : Point) :
    (s.step me (.setPosition socketId pos)).Recorded me := by
  refine ⟨h.mounted, fun u pos' hpos ↦ ?_, fun u hfresh ↦ ?_, fun u hnode ↦ ?_, h.own⟩
  · by_cases hu : u = socketId
    · subst hu
      simpa [step, CursorLayer.setPosition] using hpos
    · simp only [step, CursorLayer.setPosition, Function.update_of_ne hu] at hpos ⊢
      exact h.latest u pos' hpos
  · by_cases hu : u = socketId
    · subst hu
      simp only [step, Function.update_self, decide_eq_true_eq] at hfresh
      exact ⟨hfresh, by simp [step, CursorLayer.setPosition]⟩
    · simp only [step, CursorLayer.setPosition, Function.update_of_ne hu] at hfresh ⊢
      exact h.fresh u hfresh
  · have hfresh := h.nodes u hnode
    by_cases hu : u = socketId
    · subst hu
      simp only [step, Function.update_self, decide_eq_true_eq]
      exact (h.fresh u hfresh).1
    · simp only [step, Function.update_of_ne hu]
      exact hfresh

theorem Recorded.render (h : s.Recorded me)
    (hshown : (s.step me (.render viewport)).Shown me viewport) :
    (s.step me (.render viewport)).Recorded me := by
  refine ⟨?_, fun u pos hpos ↦ ?_, fun u hfresh ↦ ?_, fun u hnode ↦ ?_, hshown.own⟩
  · rw [layer_render]
    exact h.mounted
  · rw [layer_render] at hpos
    exact h.latest u pos hpos
  · rw [layer_render]
    exact h.fresh u hfresh
  · by_cases hu : u = me
    · rw [hu, hshown.own] at hnode
      cases hnode
    · exact ((hshown.others u hu).mp hnode).2

/-! ## What a render shows -/

theorem nodes_step_of_not (h : s.layer.Colored u → s.layer.positions u = none) :
    (s.step me (.render viewport)).layer.nodes u = s.layer.nodes u :=
  CursorLayer.nodes_render_of_not h

theorem Recorded.drawable (h : s.Recorded me)
    (hshown : (s.step me (.render viewport)).Shown me viewport) : s.Drawable me viewport := by
  refine ⟨fun u hu hcolored hpos ↦ ?_, fun u hu hcolored hfresh ↦ ?_, fun hcolored ↦ ?_⟩
  · obtain ⟨pos, hpos⟩ := Option.isSome_iff_exists.mp hpos
    obtain ⟨node, hnode, -⟩ :=
      CursorLayer.nodes_render viewport h.mounted hcolored hpos
    exact ((hshown.others u hu).mp (Option.isSome_of_eq_some hnode)).2
  · have hlisted : Listed (s.step me (.render viewport)).layer.users u := by
      rw [layer_render]
      exact (h.fresh u hfresh).1
    obtain ⟨node, hnode⟩ := Option.isSome_iff_exists.mp ((hshown.others u hu).mpr ⟨hlisted, hfresh⟩)
    obtain ⟨pos, hlatest, hplace⟩ := hshown.place u node hnode
    rw [nodes_step_of_not fun hcolor ↦ absurd hcolor hcolored] at hnode
    exact ⟨node, pos, hnode, hlatest, hplace⟩
  · by_contra hpos
    obtain ⟨pos, hpos⟩ := Option.ne_none_iff_exists'.mp hpos
    obtain ⟨node, hnode, -⟩ :=
      CursorLayer.nodes_render viewport h.mounted hcolored hpos
    exact Option.some_ne_none node (hnode.symm.trans hshown.own)

theorem Recorded.node_cases (h : s.Recorded me) (viewport : Viewport) (u : String) :
    (∃ pos node, s.layer.Colored u ∧ s.layer.positions u = some pos ∧
      (s.step me (.render viewport)).layer.nodes u = some node ∧
      node.place = viewport.toScreen pos) ∨
    (¬ (s.layer.Colored u ∧ (s.layer.positions u).isSome) ∧
      (s.step me (.render viewport)).layer.nodes u = s.layer.nodes u) := by
  by_cases hdrawn : s.layer.Colored u ∧ (s.layer.positions u).isSome
  · obtain ⟨hcolored, hsome⟩ := hdrawn
    obtain ⟨pos, hpos⟩ := Option.isSome_iff_exists.mp hsome
    obtain ⟨node, hnode, hplace, -⟩ :=
      CursorLayer.nodes_render viewport h.mounted hcolored hpos
    exact .inl ⟨pos, node, hcolored, hpos, hnode, hplace⟩
  · refine .inr ⟨hdrawn, nodes_step_of_not fun hcolored ↦ ?_⟩
    exact Option.not_isSome_iff_eq_none.mp fun hsome ↦ hdrawn ⟨hcolored, hsome⟩

theorem Recorded.not_colored (h : s.Recorded me) (hfresh : s.fresh u = true)
    (hdrawn : ¬ (s.layer.Colored u ∧ (s.layer.positions u).isSome)) : ¬ s.layer.Colored u :=
  fun hcolored ↦ hdrawn ⟨hcolored, (h.fresh u hfresh).2⟩

theorem Recorded.shown (h : s.Recorded me) (hdrawable : s.Drawable me viewport) :
    (s.step me (.render viewport)).Shown me viewport := by
  have hown : (s.step me (.render viewport)).layer.nodes me = none := by
    rw [nodes_step_of_not hdrawable.own]
    exact h.own
  refine ⟨fun u hu ↦ ⟨fun hnode ↦ ?_, fun ⟨_, hfresh⟩ ↦ ?_⟩, hown, fun u node hnode ↦ ?_⟩
  · have hfresh : s.fresh u = true := by
      rcases h.node_cases viewport u with
        ⟨pos, -, hcolored, hpos, -⟩ | ⟨-, hsame⟩
      · exact hdrawable.joined u hu hcolored (Option.isSome_of_eq_some hpos)
      · rw [hsame] at hnode
        exact h.nodes u hnode
    rw [layer_render]
    exact ⟨(h.fresh u hfresh).1, hfresh⟩
  · rcases h.node_cases viewport u with ⟨-, node, -, -, hnode, -⟩ | ⟨hdrawn, hsame⟩
    · exact Option.isSome_of_eq_some hnode
    · obtain ⟨node, -, hnode, -⟩ :=
        hdrawable.leftOut u hu (h.not_colored hfresh hdrawn) hfresh
      rw [hsame]
      exact Option.isSome_of_eq_some hnode
  · have hu : u ≠ me := by
      rintro rfl
      exact Option.some_ne_none node (hnode.symm.trans hown)
    rcases h.node_cases viewport u with
      ⟨pos, node', -, hpos, hnode', hplace⟩ | ⟨hdrawn, hsame⟩
    · obtain rfl : node' = node := Option.some_inj.mp (hnode'.symm.trans hnode)
      exact ⟨pos, h.latest u pos hpos, hplace⟩
    · rw [hsame] at hnode
      have hfresh := h.nodes u (Option.isSome_of_eq_some hnode)
      obtain ⟨node', pos, hnode', hlatest, hplace⟩ :=
        hdrawable.leftOut u hu (h.not_colored hfresh hdrawn) hfresh
      obtain rfl : node' = node := Option.some_inj.mp (hnode'.symm.trans hnode)
      exact ⟨pos, hlatest, hplace⟩

theorem Recorded.shows_iff (h : s.Recorded me) : s.Shows me event ↔ s.Draws me event := by
  cases event with
  | setUsers users => exact Iff.rfl
  | setPosition socketId pos => exact Iff.rfl
  | render viewport => exact ⟨h.drawable, h.shown⟩

theorem Recorded.step (h : s.Recorded me) (hdraws : s.Draws me event) :
    (s.step me event).Recorded me := by
  cases event with
  | setUsers users => exact h.setUsers users
  | setPosition socketId pos => exact h.setPosition socketId pos
  | render viewport => exact h.render (h.shown hdraws)

end Cursors

/-- **When the cursors are those of the other members.** In a sequence of calls every render leaves
a cursor for each other member that has sent a position since joining, at its latest position, and
no other cursor, exactly if each render finds of the other members nobody in another color than
one's own with a position of before joining only, nobody in one's own color with a position since
joining that no node shows already, and no position of one's own where one is listed in two
colors. -/
theorem cursors_shown_iff (me : String) (events : List CursorEvent) :
    Along (Cursors.step me) (Cursors.Shows me) {} events ↔
      Along (Cursors.step me) (Cursors.Draws me) {} events :=
  Along.iff_of_invariant (fun _ _ h ↦ h.shows_iff) (fun _ _ h hdraws ↦ h.step hdraws)
    Cursors.Recorded.start

/-- Two members with the same color, as beyond twenty, the second of which moves the cursor. -/
private def repeatedColor : List CursorEvent :=
  [.setUsers [⟨"s-1", "Ada", "#f43f5e"⟩, ⟨"s-2", "Ben", "#f43f5e"⟩],
    .setPosition "s-2" ⟨10, 20⟩, .render .initial]

/-- The first does not see it. -/
theorem repeated_color_not_shown : ¬ ∀ (me : String) (events : List CursorEvent),
    Along (Cursors.step me) (Cursors.Shows me) {} events := by
  intro h
  obtain ⟨-, -, hshown, -⟩ := h "s-1" repeatedColor
  have hnode := (hshown.others "s-2" (by decide)).mpr ⟨by decide, by decide⟩
  exact absurd hnode (by decide)

/-- A position that arrives after its sender has left, without a node, is drawn when the sender
joins again. -/
example :
    let events := [.setUsers [⟨"s-2", "Ben", "#3b82f6"⟩], .setUsers [], .setPosition "s-2" ⟨10, 20⟩,
      .setUsers [⟨"s-2", "Ben", "#3b82f6"⟩], .render .initial]
    let s := events.foldl (Cursors.step "s-1") {}
    (s.layer.nodes "s-2").isSome ∧ s.fresh "s-2" = false := by
  decide

end Synapse
