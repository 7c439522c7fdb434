import Synapse.Client.Pointer
import Synapse.Live.OrderedSet

/-!
# The stores of the client

`createStore.ts`: the state that React renders from (session, presence, tools) is in stores. A write
runs every listener before it returns, in a loop over a live `Set`; a listener may write, subscribe
and unsubscribe, so that loops nest and the set changes under all of them. A listener that throws
ends the loop it is called from, and the write with it.

`useStore` makes each mounted component a listener with a selector. A component that is called, or
that has subscribed, reads what it selects from the state; React renders it again at a time of its
own if that has changed.
-/

namespace Synapse.Client

open Live Transition

/-- A store over states `σ`, with components `L` that select an `S` each. -/
structure ExternalStore (σ L S : Type*) where
  state : σ
  listeners : OrderedSet L
  /-- The loops of the writes under way, the innermost first. -/
  loops : List ℕ
  /-- What each component has read last. -/
  shown : L → S

inductive StoreEvent (σ L : Type*)
  /-- `set` merges a patch and starts its loop. -/
  | set (patch : σ → σ)
  /-- The innermost loop calls the next listener. -/
  | call
  /-- The innermost loop is over, and its write returns. -/
  | finish
  /-- The listener that was called, or a write it makes, throws. -/
  | throws
  | subscribe (l : L)
  | unsubscribe (l : L)

namespace ExternalStore

variable {σ L S : Type*} [DecidableEq L]

/-- A component reads the state. -/
def read (select : L → σ → S) (s : ExternalStore σ L S) (l : L) : ExternalStore σ L S :=
  { s with shown := Function.update s.shown l (select l s.state) }

def set (s : ExternalStore σ L S) (patch : σ → σ) : ExternalStore σ L S :=
  { s with state := patch s.state, loops := 0 :: s.loops }

def step (select : L → σ → S) (s : ExternalStore σ L S) :
    StoreEvent σ L → Option (ExternalStore σ L S)
  | .set patch => some (s.set patch)
  | .call =>
    match s.loops with
    | [] => none
    | cursor :: outer =>
      (s.listeners.next cursor).map fun (l, cursor) ↦
        read select { s with loops := cursor :: outer } l
  | .finish =>
    match s.loops with
    | [] => none
    | cursor :: outer =>
      if s.listeners.next cursor = none then some { s with loops := outer } else none
  | .throws =>
    match s.loops with
    | [] => none
    | _ :: outer => some { s with loops := outer }
  | .subscribe l => some (read select { s with listeners := s.listeners.add l } l)
  | .unsubscribe l => some { s with listeners := s.listeners.delete l }

/-- A store that nobody listens to. -/
def init (s : ExternalStore σ L S) : Prop := s.listeners = .empty ∧ s.loops = []

def machine (select : L → σ → S) : Machine (ExternalStore σ L S) (StoreEvent σ L) :=
  ⟨init, step select⟩

/-- No listener throws. -/
def Quiet : ExternalStore σ L S → StoreEvent σ L → Prop
  | _, .throws => False
  | _, _ => True

instance : ∀ (s : ExternalStore σ L S) (e : StoreEvent σ L), Decidable (Quiet s e)
  | _, .throws => instDecidableFalse
  | _, .set _ | _, .call | _, .finish | _, .subscribe _ | _, .unsubscribe _ => instDecidableTrue

variable {select : L → σ → S} {s t : ExternalStore σ L S} {e : StoreEvent σ L} {l m : L}

theorem shown_read : (s.read select l).shown m = if m = l then select l s.state else s.shown m :=
  Function.update_apply _ _ _ _

/-! ## The hooks of `uiStore.ts` -/

inductive UiHook
  | useTool
  | useColor
  | useWidth
  | usePaletteOpen
  deriving DecidableEq

def UiHook.selector : UiHook → UiState → Tool ⊕ String ⊕ ℚ ⊕ Bool
  | useTool, state => .inl state.tool
  | useColor, state => .inr (.inl state.color)
  | useWidth, state => .inr (.inr (.inl state.width))
  | usePaletteOpen, state => .inr (.inr (.inr state.paletteOpen))

/-- The store, before anything is mounted. -/
def uiStore : ExternalStore UiState UiHook (Tool ⊕ String ⊕ ℚ ⊕ Bool) where
  state := {}
  listeners := .empty
  loops := []
  shown l := l.selector {}

/-- Two components are mounted, and the palette is opened. While the first is told of the color that
is picked then, the eraser is taken and the second is unmounted. -/
def pickRun : List (StoreEvent UiState UiHook) :=
  [.call, .call, .finish, .set (·.setColor "#ef4444"), .call, .set (·.setTool .eraser),
    .subscribe .useTool, .call, .unsubscribe .usePaletteOpen, .call, .finish, .call, .finish]

def mounted : ExternalStore UiState UiHook (Tool ⊕ String ⊕ ℚ ⊕ Bool) :=
  { uiStore with listeners := (OrderedSet.empty.add .useColor).add .usePaletteOpen }

/-! ## Every component is told -/

/-- What the component has read last is what it selects from the state. -/
def Current (select : L → σ → S) (s : ExternalStore σ L S) (l : L) : Prop :=
  select l s.state = s.shown l

theorem current_read_self : (s.read select l).Current select l := by
  rw [Current, shown_read, if_pos rfl]
  rfl

theorem Current.read (h : s.Current select m) : (s.read select l).Current select m := by
  rw [Current, shown_read]
  split_ifs with hm
  · rw [hm]
    rfl
  · exact h

theorem stale_of_read (h : ¬ (s.read select l).Current select m) :
    m ≠ l ∧ ¬ s.Current select m := by
  refine ⟨?_, fun hc ↦ h hc.read⟩
  rintro rfl
  exact h current_read_self

/-- Whoever has not read the state yet is ahead of the innermost loop. -/
def Told (select : L → σ → S) (s : ExternalStore σ L S) : Prop :=
  ∀ l ∈ s.listeners, ¬ s.Current select l →
    ∃ cursor outer, s.loops = cursor :: outer ∧ s.listeners.Ahead cursor l

omit [DecidableEq L] in
theorem told_set (patch : σ → σ) : (s.set patch).Told select :=
  fun _ hl _ ↦ ⟨0, s.loops, rfl, OrderedSet.ahead_zero.mpr hl⟩

theorem Told.step (h : s.Told select) (hquiet : Quiet s e) (hstep : s.step select e = some t) :
    t.Told select := by
  cases e with
  | set patch =>
    cases hstep
    exact told_set patch
  | call =>
    unfold ExternalStore.step at hstep
    dsimp only at hstep
    split at hstep
    · cases hstep
    · next cursor outer hloops =>
      obtain ⟨⟨l, cursor'⟩, hnext, rfl⟩ := Option.map_eq_some_iff.mp hstep
      obtain ⟨-, hahead⟩ := OrderedSet.next_eq_some hnext
      intro m hm hstale
      obtain ⟨hml, hbefore⟩ := stale_of_read hstale
      obtain ⟨c, o, heq, hm'⟩ := h m hm hbefore
      rw [hloops] at heq
      cases heq
      exact ⟨cursor', outer, rfl, (hahead m hm').resolve_left hml⟩
  | finish =>
    unfold ExternalStore.step at hstep
    dsimp only at hstep
    split at hstep
    · cases hstep
    · next cursor outer hloops =>
      obtain ⟨hnext, hstep⟩ := Option.ite_none_right_eq_some.mp hstep
      cases hstep
      intro m hm hstale
      -- nobody is ahead of a loop that is over, so nobody is out of date
      obtain ⟨c, o, heq, hm'⟩ := h m hm hstale
      rw [hloops] at heq
      cases heq
      exact absurd hm' (OrderedSet.next_eq_none.mp hnext m)
  | throws => exact absurd hquiet id
  | subscribe l =>
    cases hstep
    intro m hm hstale
    obtain ⟨hml, hbefore⟩ := stale_of_read hstale
    obtain ⟨c, o, heq, hm'⟩ := h m ((OrderedSet.mem_add.mp hm).resolve_right hml) hbefore
    exact ⟨c, o, heq, hm'.add l⟩
  | unsubscribe l =>
    cases hstep
    intro m hm hstale
    obtain ⟨hm, hml⟩ := OrderedSet.mem_delete.mp hm
    obtain ⟨c, o, heq, hm'⟩ := h m hm hstale
    exact ⟨c, o, heq, hm'.delete hml⟩

/-- **At rest every component has read the state.** From any state whatsoever, once a write is made
and no listener throws from then on, every component that is subscribed has read last what it
selects from the state whenever no write is under way, however the writes, subscriptions and
unsubscriptions of the listeners are nested. -/
theorem current_of_set {patch : σ → σ}
    (h : (machine select).Steps Quiet (s.set patch) t) (hrest : t.loops = []) :
    ∀ l ∈ t.listeners, t.Current select l := by
  have htold : t.Told select :=
    h.invariant (told_set patch) fun _ _ _ hu hquiet hstep ↦ hu.step hquiet hstep
  intro l hl
  by_contra hstale
  obtain ⟨cursor, outer, hloops, -⟩ := htold l hl hstale
  rw [hrest] at hloops
  cases hloops

theorem current_of_set_pickRun : ∃ t,
    (machine UiHook.selector).exec (mounted.set (·.setPaletteOpen true)) pickRun = some t ∧
      t.state.color = "#ef4444" ∧ ∀ l ∈ t.listeners, t.Current UiHook.selector l := by
  have hrun : (((machine UiHook.selector).guarded Quiet).exec
      (mounted.set (·.setPaletteOpen true)) pickRun).any
      (fun t ↦ t.loops = [] ∧ t.state.color = "#ef4444") = true := by decide +kernel
  obtain ⟨t, hexec, hsteps, hp⟩ := Machine.exists_of_guarded_any _ _ hrun
  obtain ⟨hrest, hcolor⟩ := of_decide_eq_true hp
  exact ⟨t, hexec, hcolor, current_of_set hsteps hrest⟩

end ExternalStore

end Synapse.Client
