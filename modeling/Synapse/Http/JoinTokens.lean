import Synapse.Http.JoinRoute
import Synapse.Store.RoundTrip
import Synapse.Transition.Earlier
import Synapse.Wire.JsonText

/-!
# What a Join_Token stands for

A token that the guard on the sockets accepts for a room was signed for a request to the join
endpoint that named this room, and that the board let in: when the stored hash was looked up for
that request, either there was none or the request carried a password with that hash.

The stored hash may change at any time, so the agreement is with the state the lookup read
(`Machine.Earlier`), not with the state in which the token is used. That no token is forged is a
condition on the token that is presented: if it is signed with the secret, the endpoint signed it.
-/

namespace Synapse.Http

open Gateway Keyed Transition

/-- The token signed for a request. -/
def Grant.sign (cfg : JoinTokenConfig) (id : ℕ) (roomId : String) (password : Option String)
    (now : ℕ) : Grant :=
  let claims : JoinTokenClaims := ⟨roomId, cfg.generateUserId id⟩
  ⟨id, claims, password, now, cfg.signToken claims cfg.tokenTtlSeconds now⟩

/-- The response a token is sent in. -/
def Grant.response (cfg : JoinTokenConfig) (g : Grant) : JoinResponse :=
  .issued g.token g.claims.userId g.claims.roomId cfg.tokenTtlSeconds

namespace JoinServer

variable {cfg : JoinTokenConfig} {s t : JoinServer} {e : JoinEvent} {c : JoinCall} {id : ℕ}
  {password : Option String}

/-- The board lets a request with this password in. -/
def Opens (cfg : JoinTokenConfig) (s : JoinServer) (boardId : String) (password : Option String) :
    Prop :=
  ∀ hash, s.passwordHash boardId = some hash → hash = "" ∨
    ∃ given, password = some given ∧ cfg.compare given hash = true

/-- The request waited for the stored hash, and the board let it in. -/
def LetIn (cfg : JoinTokenConfig) (id : ℕ) (roomId : String) (password : Option String)
    (s : JoinServer) : Prop :=
  ⟨id, roomId, .getPasswordHash password⟩ ∈ s.calls ∧ s.Opens cfg roomId password

/-- The request waited for the stored hash, and this hash was read. -/
def HashRead (id : ℕ) (roomId password hash : String) (s : JoinServer) : Prop :=
  ⟨id, roomId, .getPasswordHash (some password)⟩ ∈ s.calls ∧ s.passwordHash roomId = some hash

/-! ## What a step does -/

theorem calls_reply (response : JoinResponse) (hc : c ∈ (s.reply id response).calls) :
    c ∈ s.calls :=
  (Table.mem_deleteWhere.mp hc).1

theorem calls_await {d : JoinCall} {phase : JoinPhase} (hc : c ∈ (s.await d phase).calls) :
    c = { d with phase } ∨ c ∈ s.calls :=
  (Table.mem_put.mp hc).imp_right And.left

/-- What a step can make of the requests under way: a request is as it was, or it went on to a phase
it is entitled to by the state the step was taken in. -/
inductive CallMove (cfg : JoinTokenConfig) (s : JoinServer) : JoinCall → Prop
  | kept {c : JoinCall} (hc : c ∈ s.calls) : CallMove cfg s c
  | parseJson (id : ℕ) (roomId : String) : CallMove cfg s ⟨id, roomId, .parseJson⟩
  | getPasswordHash (id : ℕ) (roomId : String) (password : Option String)
      (hroom : Schemas.isRoomId roomId) : CallMove cfg s ⟨id, roomId, .getPasswordHash password⟩
  | compare {id : ℕ} {roomId password hash : String} (h : s.HashRead id roomId password hash) :
      CallMove cfg s ⟨id, roomId, .compare password hash⟩
  | ensure {id : ℕ} {roomId : String} {password : Option String}
      (h : s.LetIn cfg id roomId password) : CallMove cfg s ⟨id, roomId, .ensure password⟩
  | compared {id : ℕ} {roomId password hash : String}
      (hc : ⟨id, roomId, .compare password hash⟩ ∈ s.calls) (h : cfg.compare password hash = true) :
      CallMove cfg s ⟨id, roomId, .ensure (some password)⟩

theorem CallMove.of_onPasswordHash {d : JoinCall}
    (hd : ⟨d.id, d.roomId, .getPasswordHash password⟩ ∈ s.calls)
    (hc : c ∈ (s.onPasswordHash d password).calls) : CallMove cfg s c := by
  unfold onPasswordHash at hc
  split at hc
  · next hnone =>
    rcases calls_await hc with rfl | hc
    · exact .ensure ⟨hd, fun hash hhash ↦ by rw [hnone] at hhash; cases hhash⟩
    · exact .kept hc
  · next hash hhash =>
    split_ifs at hc with hempty
    · rcases calls_await hc with rfl | hc
      · refine .ensure ⟨hd, fun hash' hhash' ↦ Or.inl ?_⟩
        rw [hhash, Option.some_inj] at hhash'
        rw [← hhash', hempty]
      · exact .kept hc
    · split at hc
      · exact .kept (calls_reply _ hc)
      · next given =>
        rcases calls_await hc with rfl | hc
        · exact .compare ⟨hd, hhash⟩
        · exact .kept hc

theorem CallMove.of_onCompare {d : JoinCall} {password hash : String}
    (hd : ⟨d.id, d.roomId, .compare password hash⟩ ∈ s.calls)
    (hc : c ∈ (s.onCompare cfg d password hash).calls) : CallMove cfg s c := by
  unfold onCompare at hc
  split_ifs at hc with hmatches
  · rcases calls_await hc with rfl | hc
    · exact .compared hd hmatches
    · exact .kept hc
  · exact .kept (calls_reply _ hc)

theorem CallMove.of_handle {d : JoinCall} {body : Option Json}
    (hc : c ∈ (s.handle d body).calls) : CallMove cfg s c := by
  unfold handle at hc
  split_ifs at hc with hroom
  · exact .kept (calls_reply _ hc)
  · split at hc
    · exact .kept (calls_reply _ hc)
    · rcases calls_await hc with rfl | hc
      · exact .getPasswordHash _ _ _ (by simpa using hroom)
      · exact .kept hc

theorem CallMove.of_arrive {req : JoinRequest} {now : ℕ}
    (hc : c ∈ (s.arrive cfg id req now).calls) : CallMove cfg s c := by
  unfold arrive at hc
  split_ifs at hc
  · exact .kept (calls_reply _ hc)
  · dsimp only at hc
    split at hc
    · next rejection _ => exact .kept (calls_reply (.rejected rejection) hc)
    · rcases calls_await hc with rfl | hc
      · exact .parseJson _ _
      · exact .kept hc

theorem callMove_of_step (h : s.step cfg e = some t) (hc : c ∈ t.calls) : CallMove cfg s c := by
  cases Step.of_step h with
  | arrive id req now => exact .of_arrive hc
  | handle d body => exact .of_handle hc
  | getPasswordHash d password hd hphase => exact .of_onPasswordHash (hphase ▸ hd) hc
  | compare d password hash hd hphase => exact .of_onCompare (hphase ▸ hd) hc
  | ensure d password now =>
    exact .kept (calls_reply (Grant.response cfg (.sign cfg d.id d.roomId password now)) hc)
  | rejects d written hd hu =>
    have hkept := calls_reply (.rejected internalError) hc
    rcases hu with rfl | rfl <;> exact .kept hkept
  | setPasswordHash => exact .kept hc

/-- Nothing is signed, and nothing but rejections is sent. -/
def Withholds (s t : JoinServer) : Prop :=
  t.grants = s.grants ∧ ∀ r ∈ t.replies, r ∈ s.replies ∨ ∃ rejection, r.2 = .rejected rejection

theorem withholds_refl (s : JoinServer) : Withholds s s := ⟨rfl, fun _ ↦ Or.inl⟩

theorem withholds_reply (h : Withholds s t) (id : ℕ) (rejection : Rejection) :
    Withholds s (t.reply id (.rejected rejection)) := by
  refine ⟨h.1, fun r hr ↦ ?_⟩
  rcases List.mem_append.mp hr with hr | hr
  · exact h.2 r hr
  · exact Or.inr ⟨rejection, by rw [List.mem_singleton.mp hr]⟩

theorem withholds_await (d : JoinCall) (phase : JoinPhase) : Withholds s (s.await d phase) :=
  ⟨rfl, fun _ ↦ Or.inl⟩

theorem withholds_onPasswordHash (d : JoinCall) (password : Option String) :
    Withholds s (s.onPasswordHash d password) := by
  unfold onPasswordHash
  split
  · exact withholds_await d _
  · split_ifs
    · exact withholds_await d _
    · split
      · exact withholds_reply (withholds_refl s) d.id _
      · exact withholds_await d _

theorem withholds_handle (d : JoinCall) (body : Option Json) : Withholds s (s.handle d body) := by
  unfold handle
  split_ifs
  · exact withholds_reply (withholds_refl s) d.id _
  · split
    · exact withholds_reply (withholds_refl s) d.id _
    · exact withholds_await d _

theorem withholds_arrive (id : ℕ) (req : JoinRequest) (now : ℕ) :
    Withholds s (s.arrive cfg id req now) := by
  unfold arrive
  split_ifs
  · exact withholds_reply (withholds_refl s) id _
  · dsimp only
    split
    · exact withholds_reply ⟨rfl, fun _ ↦ Or.inl⟩ id _
    · exact ⟨rfl, fun _ ↦ Or.inl⟩

theorem signed_of_step (h : s.step cfg e = some t) : Withholds s t ∨
    ∃ id roomId password now, e = .ensure id now ∧ ⟨id, roomId, .ensure password⟩ ∈ s.calls ∧
      t.grants = s.grants ++ [.sign cfg id roomId password now] ∧
      t.replies = s.replies ++ [(id, (Grant.sign cfg id roomId password now).response cfg)] := by
  cases Step.of_step h with
  | arrive id req now => exact Or.inl (withholds_arrive id req now)
  | handle d body => exact Or.inl (withholds_handle d body)
  | getPasswordHash d password => exact Or.inl (withholds_onPasswordHash d password)
  | compare d password hash =>
    refine Or.inl ?_
    unfold onCompare
    split_ifs
    · exact withholds_await d _
    · exact withholds_reply (withholds_refl s) d.id _
  | ensure d password now hd hphase =>
    exact Or.inr ⟨d.id, d.roomId, password, now, rfl, hphase ▸ hd, rfl, rfl⟩
  | rejects d written hd hu =>
    rcases hu with rfl | rfl
    · exact Or.inl (withholds_reply (withholds_refl _) d.id _)
    · exact Or.inl (withholds_reply ⟨rfl, fun _ ↦ Or.inl⟩ d.id _)
  | setPasswordHash => exact Or.inl ⟨rfl, fun _ ↦ Or.inl⟩

/-! ## The invariant -/

/-- The reply with a token was made by the continuation after the `await` for the row, at this
time. -/
def Issued (cfg : JoinTokenConfig) (id : ℕ) (response : JoinResponse) (issuedAt : ℕ)
    (s : JoinServer) : Prop :=
  (machine cfg).Took Machine.anyStep (.ensure id issuedAt)
    (fun u v ↦ v.replies = u.replies ++ [(id, response)]) s

/-- What holds of an endpoint in every run. -/
structure Traced (cfg : JoinTokenConfig) (s : JoinServer) : Prop where
  named : ∀ c ∈ s.calls, c.phase ≠ .parseJson → Schemas.isRoomId c.roomId
  compare : ∀ {id roomId password hash}, ⟨id, roomId, .compare password hash⟩ ∈ s.calls →
    (machine cfg).Earlier Machine.anyStep (HashRead id roomId password hash) s
  ensure : ∀ {id roomId password}, ⟨id, roomId, .ensure password⟩ ∈ s.calls →
    (machine cfg).Earlier Machine.anyStep (LetIn cfg id roomId password) s
  granted : ∀ g ∈ s.grants,
    g = .sign cfg g.requestId g.claims.roomId g.password g.issuedAt ∧
      Schemas.isRoomId g.claims.roomId ∧
      (machine cfg).Earlier Machine.anyStep (LetIn cfg g.requestId g.claims.roomId g.password) s
  issued : ∀ id token userId roomId ttl, (id, .issued token userId roomId ttl) ∈ s.replies →
    ∃ g ∈ s.grants, g.response cfg = .issued token userId roomId ttl ∧
      Issued cfg id (.issued token userId roomId ttl) g.issuedAt s

theorem traced_of_init (h : s.init) : Traced cfg s := by
  obtain ⟨-, hcalls, hreplies, hgrants⟩ := h
  have hnone : ∀ c, c ∉ s.calls := by
    intro c hc
    rw [hcalls] at hc
    exact List.not_mem_nil hc
  exact ⟨fun c hc ↦ absurd hc (hnone c), fun hc ↦ absurd hc (hnone _), fun hc ↦ absurd hc (hnone _),
    by simp [hgrants], by simp [hreplies]⟩

theorem Traced.step (hs : (machine cfg).Reaches Machine.anyStep s) (h : Traced cfg s)
    (hstep : (machine cfg).step s e = some t) : Traced cfg t where
  named c hc hphase := by
    cases callMove_of_step hstep hc with
    | kept hc => exact h.named _ hc hphase
    | parseJson => exact absurd rfl hphase
    | getPasswordHash id roomId password hroom => exact hroom
    | compare hread => exact h.named ⟨_, _, .getPasswordHash _⟩ hread.1 (by simp)
    | ensure hin => exact h.named ⟨_, _, .getPasswordHash _⟩ hin.1 (by simp)
    | compared hcompare => exact h.named ⟨_, _, .compare _ _⟩ hcompare (by simp)
  compare hc := by
    cases callMove_of_step hstep hc with
    | kept hc => exact (h.compare hc).step trivial hstep
    | compare hread => exact (Machine.Earlier.now hs hread).step trivial hstep
  ensure hc := by
    cases callMove_of_step hstep hc with
    | kept hc => exact (h.ensure hc).step trivial hstep
    | ensure hin => exact (Machine.Earlier.now hs hin).step trivial hstep
    | compared hcompare hmatches =>
      refine ((h.compare hcompare).step trivial hstep).imp fun u hread ↦
        ⟨hread.1, fun hash hhash ↦ ?_⟩
      rw [hread.2, Option.some_inj] at hhash
      exact Or.inr ⟨_, rfl, hhash ▸ hmatches⟩
  granted g hg := by
    rcases signed_of_step hstep with hw | ⟨id, roomId, password, now, -, hc, hgrants, -⟩
    · obtain ⟨hsign, hroom, hin⟩ := h.granted g (hw.1 ▸ hg)
      exact ⟨hsign, hroom, hin.step trivial hstep⟩
    · rw [hgrants, List.mem_append, List.mem_singleton] at hg
      rcases hg with hg | rfl
      · obtain ⟨hsign, hroom, hin⟩ := h.granted g hg
        exact ⟨hsign, hroom, hin.step trivial hstep⟩
      · exact ⟨rfl, h.named _ hc (by simp), (h.ensure hc).step trivial hstep⟩
  issued id token userId roomId ttl hr := by
    rcases signed_of_step hstep with hw | ⟨id', roomId', password, now, rfl, -, hgrants, hreplies⟩
    · rcases hw.2 _ hr with hr | ⟨rejection, hr⟩
      · obtain ⟨g, hg, hresponse, hissued⟩ := h.issued id token userId roomId ttl hr
        exact ⟨g, hw.1 ▸ hg, hresponse, hissued.step trivial hstep⟩
      · cases hr
    · rw [hreplies, List.mem_append, List.mem_singleton] at hr
      rcases hr with hr | hr
      · obtain ⟨g, hg, hresponse, hissued⟩ := h.issued id token userId roomId ttl hr
        exact ⟨g, hgrants ▸ List.mem_append_left _ hg, hresponse, hissued.step trivial hstep⟩
      · obtain ⟨rfl, hresponse⟩ := Prod.mk.inj hr
        rw [← hresponse] at hreplies
        exact ⟨_, hgrants ▸ List.mem_append_right _ (List.mem_singleton_self _), hresponse.symm,
          .now hs trivial hstep hreplies⟩

theorem Traced.of_reaches (hs : (machine cfg).Reaches Machine.anyStep s) : Traced cfg s := by
  obtain ⟨s₀, hinit, hsteps⟩ := hs
  induction hsteps with
  | refl => exact traced_of_init hinit
  | tail hsteps _ hstep ih => exact ih.step ⟨s₀, hinit, hsteps⟩ hstep

theorem Traced.verify (h : Traced cfg s) {g : Grant} (hg : g ∈ s.grants) (now : ℕ) :
    cfg.jwt.verify g.token now
      = if now / 1000 < g.issuedAt / 1000 + cfg.tokenTtlSeconds then
          .ok (tokenPayload g.claims cfg.tokenTtlSeconds g.issuedAt)
        else .error .tokenExpired := by
  obtain ⟨hsign, -, -⟩ := h.granted g hg
  rw [hsign]
  exact cfg.verify_signToken _ _ _ _

/-- The claims of a signed token are not empty, and read back from it. -/
theorem Traced.parseClaims (h : Traced cfg s) {g : Grant} (hg : g ∈ s.grants) :
    parseClaims (some (tokenPayload g.claims cfg.tokenTtlSeconds g.issuedAt)) = some g.claims := by
  obtain ⟨hsign, hroom, -⟩ := h.granted g hg
  have huser : g.claims.userId ≠ "" := by
    rw [hsign]
    exact cfg.generateUserId_ne_empty _
  have hroom' : nonemptyString (some (.str g.claims.roomId)) = some g.claims.roomId :=
    nonemptyString_eq_some.mpr ⟨rfl, Schemas.ne_empty_of_isRoomId hroom⟩
  have huser' : nonemptyString (some (.str g.claims.userId)) = some g.claims.userId :=
    nonemptyString_eq_some.mpr ⟨rfl, huser⟩
  exact Option.bind_eq_some_iff.mpr ⟨_, hroom', Option.bind_eq_some_iff.mpr ⟨_, huser', rfl⟩⟩

/-- What the guard makes of a signed token. -/
theorem Traced.verifyJoinToken (h : Traced cfg s) {g : Grant} (hg : g ∈ s.grants) (roomId : String)
    (now : ℕ) : verifyJoinToken (some g.token) roomId ⟨cfg.jwt, false⟩ now
      = if now / 1000 < g.issuedAt / 1000 + cfg.tokenTtlSeconds then
          if g.claims.roomId = roomId then .ok g.claims.userId else .error .roomScopeMismatch
        else .error .tokenExpired := by
  have hne : g.token ≠ "" := by
    obtain ⟨hsign, -, -⟩ := h.granted g hg
    rw [hsign]
    exact cfg.signToken_ne_empty _ _ _
  unfold Gateway.verifyJoinToken
  rw [if_neg Bool.false_ne_true]
  dsimp only
  rw [if_neg hne, h.verify hg]
  split_ifs with hlive hroom
  · dsimp only
    rw [h.parseClaims hg]
    exact if_neg (not_not.mpr hroom)
  · dsimp only
    rw [h.parseClaims hg]
    exact if_pos hroom
  · rfl

/-! ## A package -/

namespace Sample

private def plainRendering : Json.Rendering := ⟨fun _ ↦ "", fun _ ↦ ""⟩

/-- A token that spells out what it was signed with. -/
def signToken (claims : JoinTokenClaims) (expiresInSeconds issuedAt : ℕ) : String :=
  Json.stringify plainRendering (.arr [.str claims.roomId, .str claims.userId,
    .str (toString expiresInSeconds), .str (toString issuedAt)])

/-- What a token was signed with. -/
def readToken (token : String) : Option (JoinTokenClaims × ℕ × ℕ) :=
  match Json.parse token with
  | some (.arr [.str roomId, .str userId, .str ttl, .str issuedAt]) => do
    let ttl ← toNumber ttl
    let issuedAt ← toNumber issuedAt
    return (⟨roomId, userId⟩, ttl, issuedAt)
  | _ => none

theorem readToken_signToken (claims : JoinTokenClaims) (ttl issuedAt : ℕ) :
    readToken (signToken claims ttl issuedAt) = some (claims, ttl, issuedAt) := by
  have hread : JsonText.Readable plainRendering (.arr [.str claims.roomId, .str claims.userId,
      .str (toString ttl), .str (toString issuedAt)]) := by
    refine .arr fun v hv ↦ ?_
    simp only [List.mem_cons, List.not_mem_nil, or_false] at hv
    rcases hv with rfl | rfl | rfl | rfl <;> exact .str _
  rw [readToken, signToken, Json.parse_stringify hread]
  dsimp only
  rw [toNumber_toString, toNumber_toString]
  rfl

def jwt : JsonWebToken where
  verify token now :=
    match readToken token with
    | none => .error (.jsonWebToken "jwt malformed")
    | some (claims, ttl, issuedAt) =>
      if now / 1000 < issuedAt / 1000 + ttl then .ok (tokenPayload claims ttl issuedAt)
      else .error .tokenExpired
  decode token := (readToken token).map fun d ↦ tokenPayload d.1 d.2.1 d.2.2
  signed token := (readToken token).isSome
  unexpired token now := ∀ d, readToken token = some d → now / 1000 < d.2.2 / 1000 + d.2.1
  verify_isOk token now := by
    cases readToken token with
    | none => simp
    | some d =>
      by_cases hlive : now / 1000 < d.2.2 / 1000 + d.2.1 <;> simp [hlive]

/-- A password is its own hash, and users are numbered. -/
def config : JoinTokenConfig where
  jwt := jwt
  signToken := signToken
  compare password hash := password == hash
  generateUserId id := "user-" ++ toString id
  requireSecureTransport := false
  signToken_ne_empty claims ttl issuedAt hempty := by
    have hread := readToken_signToken claims ttl issuedAt
    rw [hempty] at hread
    cases hread
  generateUserId_ne_empty id hempty := by
    have hlength := congrArg String.length hempty
    simp at hlength
  verify_signToken claims ttl issuedAt now := by
    dsimp only [jwt]
    rw [readToken_signToken]

def start : JoinServer := ⟨fun _ ↦ none, fun _ ↦ none, .empty _, [], []⟩

/-- A protected board is joined with its password. -/
def joinRun : List JoinEvent :=
  [.setPasswordHash "board-1" (some "hunter2"),
    .arrive 0 ⟨⟨true, []⟩, ⟨some "10.0.0.1", []⟩, "board-1"⟩ 1000,
    .handle 0 (some (.obj [("password", .str "hunter2")])), .getPasswordHash 0, .compare 0,
    .ensure 0 1500]

/-- The request has been signed a token, which it has been sent. -/
def answered (s : JoinServer) : Bool :=
  (s.grants.any fun g ↦ g.claims.roomId == "board-1" && g.issuedAt == 1500) &&
    s.replies.any fun r ↦ match r.2 with
      | .issued _ _ _ _ => true
      | .rejected _ => false

theorem exists_answered : ∃ s, (machine config).Reaches Machine.anyStep s ∧ answered s = true := by
  obtain ⟨s, -, hsteps, hs⟩ := Machine.exists_of_exec (M := machine config) (p := answered) start
    joinRun (by decide +kernel)
  exact ⟨s, ⟨start, ⟨rfl, rfl, rfl, rfl⟩, hsteps⟩, hs⟩

end Sample

/-! ## What an accepted token stands for -/

/-- A token signed with the secret was signed at the endpoint. -/
def Unforged (cfg : JoinTokenConfig) (s : JoinServer) (token : Option String) : Prop :=
  ∀ t, token = some t → cfg.jwt.signed t → ∃ g ∈ s.grants, g.token = t

/-- **The password gate, end to end.** A packet that the guard on a socket lets through for a room,
on a token that is not forged, was let in by the board: the token was signed, within its lifetime,
for a request to join this room, and when the stored hash was looked up for that request there was
none or an empty one, or the request carried a password with that hash. -/
theorem authorized_of_letIn (hs : (machine cfg).Reaches Machine.anyStep s)
    {ctx : ConnectionContext} {now : ℕ} {p : Packet} {token : Option String}
    {roomId userId : String}
    (h : (guard ⟨cfg.jwt, false⟩ ctx now p).1 = .authorized token roomId userId)
    (hunforged : s.Unforged cfg token) :
    ∃ g ∈ s.grants, token = some g.token ∧ g.claims = ⟨roomId, userId⟩ ∧
      now / 1000 < g.issuedAt / 1000 + cfg.tokenTtlSeconds ∧
      (machine cfg).Earlier Machine.anyStep (LetIn cfg g.requestId roomId g.password) s := by
  have htraced := Traced.of_reaches hs
  obtain ⟨-, hverify⟩ := extractRoomId_of_authorized h
  obtain ⟨t, rfl, hsigned, -⟩ := grants_of_verifyJoinToken rfl hverify
  obtain ⟨g, hg, rfl⟩ := hunforged t rfl hsigned
  rw [htraced.verifyJoinToken hg] at hverify
  split_ifs at hverify with hlive hroom
  obtain ⟨-, -, hin⟩ := htraced.granted g hg
  cases hverify
  subst hroom
  exact ⟨g, hg, rfl, rfl, hlive, hin⟩

/-- Someone joins a protected board with its password and enters its room with the token. -/
theorem authorized_of_letIn_password : ∃ s, ∃ g ∈ s.grants, g.claims.roomId = "board-1" ∧
    (machine Sample.config).Earlier Machine.anyStep
      (LetIn Sample.config g.requestId "board-1" g.password) s := by
  obtain ⟨s, hs, hanswered⟩ := Sample.exists_answered
  obtain ⟨hgrants, -⟩ := (Bool.and_eq_true _ _).mp hanswered
  obtain ⟨g, hg, hgrant⟩ := List.any_eq_true.mp hgrants
  obtain ⟨hroom, htime⟩ := (Bool.and_eq_true _ _).mp hgrant
  have hroom := beq_iff_eq.mp hroom
  have htime := beq_iff_eq.mp htime
  let ctx : ConnectionContext := ⟨"s-1", some g.token, none, some .null⟩
  let p : Packet := ⟨.joinRoom, [some (.obj [("roomId", .str "board-1")])]⟩
  have hguard : (guard ⟨Sample.config.jwt, false⟩ ctx 2000 p).1
      = .authorized (some g.token) "board-1" g.claims.userId := by
    have hread : extractRoomId p.data = some "board-1" := by decide
    have htoken : (tokenOverride p).getD ctx.token = some g.token := rfl
    have hlive : 2000 / 1000 < g.issuedAt / 1000 + Sample.config.tokenTtlSeconds := by
      rw [htime]
      decide
    have hverify := (Traced.of_reaches hs).verifyJoinToken hg "board-1" 2000
    rw [if_pos hlive, if_pos hroom] at hverify
    rw [guard_of_extractRoomId rfl hread, htoken, hverify]
  obtain ⟨g', hg', -, hclaims, -, hin⟩ := authorized_of_letIn hs hguard
    fun t ht _ ↦ ⟨g, hg, Option.some.inj ht⟩
  exact ⟨s, g', hg', congrArg JoinTokenClaims.roomId hclaims, hin⟩

/-- **What the endpoint replies is true.** A token it has sent is accepted for the room it names, as
the user it names, until its lifetime from the time of the reply is over; for another room it is out
of scope, and after that it is expired. -/
theorem issued_token_accepted (hs : (machine cfg).Reaches Machine.anyStep s) {id ttl : ℕ}
    {token userId roomId : String}
    (hreply : (id, .issued token userId roomId ttl) ∈ s.replies) : ∃ issuedAt,
    Issued cfg id (.issued token userId roomId ttl) issuedAt s ∧ ∀ roomId' now,
    verifyJoinToken (some token) roomId' ⟨cfg.jwt, false⟩ now
      = if now / 1000 < issuedAt / 1000 + ttl then
          if roomId = roomId' then .ok userId else .error .roomScopeMismatch
        else .error .tokenExpired := by
  have htraced := Traced.of_reaches hs
  obtain ⟨g, hg, hresponse, hissued⟩ := htraced.issued _ _ _ _ _ hreply
  refine ⟨g.issuedAt, hissued, ?_⟩
  cases hresponse
  exact htraced.verifyJoinToken hg

/-- The token is good when it is sent, and its lifetime later it is not. -/
theorem issued_token_accepted_password : ∃ s id token roomId userId ttl issuedAt,
    Issued Sample.config id (.issued token userId roomId ttl) issuedAt s ∧
    verifyJoinToken (some token) roomId ⟨Sample.config.jwt, false⟩ issuedAt = .ok userId ∧
    verifyJoinToken (some token) roomId ⟨Sample.config.jwt, false⟩ (issuedAt + ttl * 1000)
      = .error .tokenExpired := by
  obtain ⟨s, hs, hanswered⟩ := Sample.exists_answered
  obtain ⟨-, hreplies⟩ := (Bool.and_eq_true _ _).mp hanswered
  obtain ⟨⟨id, response⟩, hreply, hissued⟩ := List.any_eq_true.mp hreplies
  cases response with
  | rejected rejection => cases hissued
  | issued token userId roomId ttl =>
    obtain ⟨issuedAt, hissued, haccepted⟩ := issued_token_accepted hs hreply
    obtain ⟨g, -, hresponse, -⟩ := (Traced.of_reaches hs).issued _ _ _ _ _ hreply
    have hlive : issuedAt / 1000 < issuedAt / 1000 + ttl := by
      cases hresponse
      exact Nat.lt_add_of_pos_right (by decide)
    have hover : ¬ (issuedAt + ttl * 1000) / 1000 < issuedAt / 1000 + ttl := by
      rw [Nat.add_mul_div_right _ _ (by decide)]
      exact lt_irrefl _
    refine ⟨s, id, token, roomId, userId, ttl, issuedAt, hissued, ?_, ?_⟩
    · rw [haccepted, if_pos hlive, if_pos rfl]
    · rw [haccepted, if_neg hover]

end JoinServer

end Synapse.Http
