import Mathlib.Data.Nat.Bitwise
import Synapse.Observability.InternalAddress

/-!
# Who is shown the metrics

The guard of `/metrics` lets a caller in who comes from an internal address, presents the token of
the configuration, or passes a predicate of its owner. The token is read from the header by a
regular expression and compared code unit by code unit, in a loop that does not stop at the first
difference.

A header presents a token if it is the scheme, white space, the token and white space again
(`Presents`). The token is trimmed on the way and `.` does not match the end of a line, so a
configured token that has white space at either end, or spans lines, lets nobody in.
-/

namespace Synapse

open Schemas

/-! ## Code units -/

/-- `charCodeAt`, of the one or two code units of a character. -/
def charUnits (c : Char) : List ℕ :=
  if c.toNat < 0x10000 then [c.toNat]
  else [0xd800 + (c.toNat - 0x10000) / 0x400, 0xdc00 + (c.toNat - 0x10000) % 0x400]

/-- The code units of a text. -/
def textUnits (s : List Char) : List ℕ := s.flatMap charUnits

theorem charUnits_append_inj {c d : Char} {xs ys : List ℕ}
    (h : charUnits c ++ xs = charUnits d ++ ys) : c = d ∧ xs = ys := by
  have hc : c.toNat < 0xd800 ∨ 0xdfff < c.toNat ∧ c.toNat < 0x110000 := c.valid
  have hd : d.toNat < 0xd800 ∨ 0xdfff < d.toNat ∧ d.toNat < 0x110000 := d.valid
  unfold charUnits at h
  split_ifs at h <;> simp only [List.cons_append, List.nil_append, List.cons.injEq] at h
  · exact ⟨Char.toNat_inj.mp h.1, h.2⟩
  · omega
  · omega
  · exact ⟨Char.toNat_inj.mp (by omega), h.2.2⟩

theorem charUnits_ne_nil (c : Char) : charUnits c ≠ [] := by
  unfold charUnits
  split_ifs <;> simp

theorem textUnits_injective : Function.Injective textUnits := by
  intro s
  induction s with
  | nil =>
    intro t h
    cases t with
    | nil => rfl
    | cons d t => exact absurd (List.append_eq_nil_iff.mp h.symm).1 (charUnits_ne_nil d)
  | cons c s ih =>
    intro t h
    cases t with
    | nil => exact absurd (List.append_eq_nil_iff.mp h).1 (charUnits_ne_nil c)
    | cons d t =>
      obtain ⟨rfl, hrest⟩ := charUnits_append_inj h
      rw [ih hrest]

/-! ## The source -/

/-- The body of the loop of `timingSafeEqual`. -/
def mismatchStep (mismatch : ℕ) (units : ℕ × ℕ) : ℕ := mismatch ||| (units.1 ^^^ units.2)

/-- Constant-time string comparison. -/
def timingSafeEqual (a b : List Char) : Bool :=
  if (textUnits a).length ≠ (textUnits b).length then false
  else decide (((textUnits a).zip (textUnits b)).foldl mismatchStep 0 = 0)

/-- What `.` does not match. -/
def isLineTerminator (c : Char) : Bool := [0xa, 0xd, 0x2028, 0x2029].contains c.toNat

/-- What is matched behind a run of white space: what follows it, or the last character of the run
if nothing does. -/
def bearerGroup (blanks rest : List Char) : List Char :=
  if rest = [] ∧ 2 ≤ blanks.length then blanks.drop (blanks.length - 1) else rest

/-- The group of `/^Bearer\s+(.+)$/i`. -/
def matchBearer (header : List Char) : Option (List Char) :=
  if (header.take 6).map Char.toLower = "bearer".toList then
    let blanks := (header.drop 6).takeWhile isBlank
    let group := bearerGroup blanks ((header.drop 6).dropWhile isBlank)
    if blanks ≠ [] ∧ group ≠ [] ∧ group.all (fun c ↦ !isLineTerminator c) then some group else none
  else none

/-- Extracts a bearer token from an Authorization header, if present. -/
def bearerToken : Option String → Option (List Char)
  | none => none
  | some authorization =>
    if authorization = "" then none else (matchBearer authorization.toList).map trim

/-- What the access predicate inspects. -/
structure MetricsRequestLike where
  authorization : Option String
  remoteAddress : Option String

structure MetricsAccessOptions where
  authToken : Option String := none
  isAuthenticated : Option (MetricsRequestLike → Bool) := none

/-- Whether a metrics request is permitted. -/
def isMetricsAccessAllowed (req : MetricsRequestLike) (options : MetricsAccessOptions) : Bool :=
  let authenticated :=
    match options.authToken with
    | none => false
    | some authToken =>
      if authToken = "" then false
      else
        match bearerToken req.authorization with
        | none => false
        | some provided =>
          decide (provided ≠ []) && timingSafeEqual provided authToken.toList
  isInternalAddress req.remoteAddress || authenticated ||
    (options.isAuthenticated.map fun isAuthenticated ↦ isAuthenticated req).getD false

/-- The reply to `GET /metrics`. -/
inductive MetricsReply
  | json (status : ℕ) (code message : String)
  | text (contentType body : String)
  deriving DecidableEq

/-- The route, over what the registry is serialized to. -/
def metricsRoute (access : MetricsAccessOptions) (contentType : String)
    (serialize : Except String String) (req : MetricsRequestLike) : MetricsReply :=
  if isMetricsAccessAllowed req access then
    match serialize with
    | .ok body => .text contentType body
    | .error _ => .json 500 "INTERNAL_ERROR" "Failed to collect metrics"
  else .json 403 "FORBIDDEN" "Metrics access is restricted"

/-! ## The comparison -/

theorem foldl_mismatchStep {a b : List ℕ} (hlen : a.length = b.length) (m : ℕ) :
    (a.zip b).foldl mismatchStep m = 0 ↔ m = 0 ∧ a = b := by
  induction a generalizing b m with
  | nil => simp [List.length_eq_zero_iff.mp hlen.symm]
  | cons x a ih =>
    obtain ⟨y, b, rfl⟩ := List.exists_cons_of_length_eq_add_one hlen.symm
    rw [List.zip_cons_cons, List.foldl_cons, ih (Nat.succ.inj hlen), mismatchStep,
      Nat.or_eq_zero_iff, Nat.xor_eq_zero_iff, List.cons.injEq, and_assoc]

/-- **The loop that does not stop early decides equality.** -/
theorem timingSafeEqual_iff {a b : List Char} : timingSafeEqual a b = true ↔ a = b := by
  unfold timingSafeEqual
  split_ifs with hlen
  · refine ⟨False.elim, fun h ↦ ?_⟩
    rw [h] at hlen
    exact absurd rfl hlen
  · rw [decide_eq_true_iff, foldl_mismatchStep (not_not.mp hlen), textUnits_injective.eq_iff]
    exact and_iff_right rfl

/-! ## The header -/

/-- A token that survives the way through a header. -/
structure Presentable (token : List Char) : Prop where
  nonempty : token ≠ []
  head : ∀ c ∈ token.head?, isBlank c = false
  last : ∀ c ∈ token.getLast?, isBlank c = false
  oneLine : ∀ c ∈ token, isLineTerminator c = false

/-- A header that presents a token: the scheme in whatever case, white space, the token, and white
space that does not end the line. -/
def Presents (token header : List Char) : Prop :=
  ∃ scheme blanks trailing, header = scheme ++ (blanks ++ (token ++ trailing)) ∧
    scheme.map Char.toLower = "bearer".toList ∧
    blanks ≠ [] ∧ (∀ c ∈ blanks, isBlank c = true) ∧
    ∀ c ∈ trailing, isBlank c = true ∧ isLineTerminator c = false

theorem trim_append {token trailing : List Char} (h : Presentable token)
    (htrailing : ∀ c ∈ trailing, isBlank c = true) : trim (token ++ trailing) = token := by
  obtain ⟨c, cs, rfl⟩ := List.exists_cons_of_ne_nil h.nonempty
  rw [List.cons_append, trim_eq (h.head c rfl), ← List.cons_append]
  induction trailing using List.reverseRecOn with
  | nil =>
    rw [List.append_nil]
    refine List.rdropWhile_eq_self_iff.mpr fun hne hblank ↦ ?_
    rw [h.last _ (List.getLast?_eq_getLast_of_ne_nil hne)] at hblank
    cases hblank
  | append_singleton trailing d ih =>
    rw [← List.append_assoc, List.rdropWhile_concat_pos _ _ _ (htrailing d (by simp))]
    exact ih fun x hx ↦ htrailing x (List.mem_append_left _ hx)

theorem exists_rdropWhile (l : List Char) :
    ∃ trailing, l = l.rdropWhile isBlank ++ trailing ∧ ∀ c ∈ trailing, isBlank c = true := by
  refine ⟨(l.reverse.takeWhile isBlank).reverse, ?_, fun c hc ↦ ?_⟩
  · rw [List.rdropWhile, ← List.reverse_append, List.takeWhile_append_dropWhile,
      List.reverse_reverse]
  · exact List.mem_takeWhile_imp (List.mem_reverse.mp hc)

theorem bearerGroup_of_ne_nil {rest : List Char} (blanks : List Char) (h : rest ≠ []) :
    bearerGroup blanks rest = rest :=
  if_neg fun hrest ↦ h hrest.1

theorem matchBearer_presents {token blanks trailing scheme : List Char} (h : Presentable token)
    (hscheme : scheme.map Char.toLower = "bearer".toList) (hne : blanks ≠ [])
    (hblanks : ∀ c ∈ blanks, isBlank c = true)
    (htrailing : ∀ c ∈ trailing, isLineTerminator c = false) :
    matchBearer (scheme ++ (blanks ++ (token ++ trailing))) = some (token ++ trailing) := by
  have hlen : scheme.length = 6 := by
    rw [← List.length_map, hscheme]
    rfl
  obtain ⟨c, cs, rfl⟩ := List.exists_cons_of_ne_nil h.nonempty
  have hc : ¬ isBlank c = true := by
    rw [h.head c rfl]
    exact Bool.false_ne_true
  have htake : (blanks ++ (c :: cs ++ trailing)).takeWhile isBlank = blanks := by
    rw [List.takeWhile_append_of_pos hblanks, List.cons_append, List.takeWhile_cons_of_neg hc,
      List.append_nil]
  have hdrop : (blanks ++ (c :: cs ++ trailing)).dropWhile isBlank = c :: cs ++ trailing := by
    rw [List.dropWhile_append_of_pos hblanks, List.cons_append, List.dropWhile_cons_of_neg hc]
  have hline : (c :: cs ++ trailing).all (fun c ↦ !isLineTerminator c) = true := by
    rw [List.all_eq_true]
    intro d hd
    rcases List.mem_append.mp hd with hd | hd
    · rw [h.oneLine d hd]
      rfl
    · rw [htrailing d hd]
      rfl
  have hrest : c :: cs ++ trailing ≠ [] := by simp
  rw [matchBearer, List.take_left' hlen, List.drop_left' hlen, htake, hdrop, if_pos hscheme]
  dsimp only
  rw [bearerGroup_of_ne_nil _ hrest]
  exact if_pos ⟨hne, hrest, hline⟩

theorem presents_of_matchBearer {header group token : List Char}
    (h : matchBearer header = some group) (htoken : trim group = token) (hne : token ≠ []) :
    Presentable token ∧ Presents token header := by
  unfold matchBearer at h
  obtain ⟨hscheme, h⟩ := Option.ite_none_right_eq_some.mp h
  obtain ⟨⟨hblanks, hgroup, hline⟩, h⟩ := Option.ite_none_right_eq_some.mp h
  obtain rfl := Option.some_inj.mp h
  by_cases hrest : (header.drop 6).dropWhile isBlank = []
  · -- a group that is given back from the run of white space is trimmed away
    refine absurd ?_ hne
    rw [← htoken, bearerGroup, hrest]
    split_ifs
    · have hblank : ∀ c ∈ ((header.drop 6).takeWhile isBlank).drop
          (((header.drop 6).takeWhile isBlank).length - 1), isBlank c = true :=
        fun c hc ↦ List.mem_takeWhile_imp (List.mem_of_mem_drop hc)
      rw [trim, List.dropWhile_eq_nil_iff.mpr hblank]
      rfl
    · rfl
  · rw [bearerGroup_of_ne_nil _ hrest] at htoken hline
    obtain ⟨c, cs, hcons⟩ := List.exists_cons_of_ne_nil hrest
    have hc : isBlank c = false := by
      have hhead := List.head?_dropWhile_not isBlank (header.drop 6)
      rw [hcons] at hhead
      exact hhead
    obtain ⟨trailing, hsplit, hblank⟩ := exists_rdropWhile (c :: cs)
    rw [hcons, trim_eq hc] at htoken
    rw [htoken] at hsplit
    have hlines : ∀ d ∈ token ++ trailing, isLineTerminator d = false := by
      intro d hd
      rw [hcons, hsplit, List.all_eq_true] at hline
      simpa using hline d hd
    refine ⟨⟨hne, fun d hd ↦ ?_, fun d hd ↦ ?_, fun d hd ↦ hlines d (List.mem_append_left _ hd)⟩,
      header.take 6, (header.drop 6).takeWhile isBlank, trailing, ?_, hscheme, hblanks,
      fun d hd ↦ List.mem_takeWhile_imp hd,
      fun d hd ↦ ⟨hblank d hd, hlines d (List.mem_append_right _ hd)⟩⟩
    · obtain ⟨e, es, rfl⟩ := List.exists_cons_of_ne_nil hne
      cases hsplit
      cases hd
      exact hc
    · have hlast : token.getLast hne = d := by
        rw [List.getLast?_eq_getLast_of_ne_nil hne] at hd
        exact Option.some_inj.mp hd
      subst htoken
      rw [← hlast]
      exact Bool.eq_false_iff.mpr (List.rdropWhile_last_not isBlank _ hne)
    · rw [← hsplit, ← hcons, List.takeWhile_append_dropWhile, List.take_append_drop]

/-- **A header yields a token exactly if it presents it.** -/
theorem bearerToken_iff {header : String} {token : List Char} :
    (bearerToken (some header) = some token ∧ token ≠ []) ↔
      Presentable token ∧ Presents token header.toList := by
  constructor
  · rintro ⟨h, hne⟩
    rw [bearerToken] at h
    obtain ⟨-, h⟩ := Option.ite_none_left_eq_some.mp h
    obtain ⟨group, hgroup, htoken⟩ := Option.map_eq_some_iff.mp h
    exact presents_of_matchBearer hgroup htoken hne
  · rintro ⟨htoken, scheme, blanks, trailing, hheader, hscheme, hne, hblanks, htrailing⟩
    refine ⟨?_, htoken.nonempty⟩
    have hnonempty : header ≠ "" := by
      rintro rfl
      have hnil := (List.append_eq_nil_iff.mp hheader.symm).2
      exact hne (List.append_eq_nil_iff.mp hnil).1
    rw [bearerToken, if_neg hnonempty, hheader,
      matchBearer_presents htoken hscheme hne hblanks fun c hc ↦ (htrailing c hc).2]
    exact congrArg some (trim_append htoken fun c hc ↦ (htrailing c hc).1)

example : bearerToken (some "bearer \t secret ") = some "secret".toList := by decide

/-! ## The guard -/

/-- The caller presents the token of the configuration. -/
def Authenticates (req : MetricsRequestLike) (options : MetricsAccessOptions) : Prop :=
  ∃ token header, options.authToken = some token ∧ req.authorization = some header ∧
    Presentable token.toList ∧ Presents token.toList header.toList

/-- The part of the guard that reads the header. -/
theorem tokenMatches_iff {authorization : Option String} {token : String} :
    (match bearerToken authorization with
      | none => false
      | some provided => decide (provided ≠ []) && timingSafeEqual provided token.toList) = true ↔
      ∃ header, authorization = some header ∧ Presentable token.toList ∧
        Presents token.toList header.toList := by
  cases authorization with
  | none => simp [bearerToken]
  | some header =>
    have hheader : (∃ other, some header = some other ∧ Presentable token.toList ∧
        Presents token.toList other.toList) ↔
        bearerToken (some header) = some token.toList ∧ token.toList ≠ [] := by
      rw [bearerToken_iff]
      simp
    rw [hheader]
    cases bearerToken (some header) with
    | none => simp
    | some provided =>
      simp only [Bool.and_eq_true, decide_eq_true_iff, timingSafeEqual_iff, Option.some_inj]
      exact ⟨fun h ↦ ⟨h.2, h.2 ▸ h.1⟩, fun h ↦ ⟨h.1 ▸ h.2, h.1⟩⟩

/-- Who is let in: a caller from an internal address, one who presents the token, or one the
predicate of the owner takes. -/
def LetIn (req : MetricsRequestLike) (options : MetricsAccessOptions) : Prop :=
  isInternalAddress req.remoteAddress = true ∨ Authenticates req options ∨
    ∃ isAuthenticated, options.isAuthenticated = some isAuthenticated ∧ isAuthenticated req = true

theorem isMetricsAccessAllowed_iff {req : MetricsRequestLike} {options : MetricsAccessOptions} :
    isMetricsAccessAllowed req options = true ↔ LetIn req options := by
  obtain ⟨authToken, isAuthenticated⟩ := options
  have hcustom : (isAuthenticated.map fun isAuthenticated ↦ isAuthenticated req).getD false = true ↔
      ∃ predicate, isAuthenticated = some predicate ∧ predicate req = true := by
    cases isAuthenticated <;> simp
  rw [isMetricsAccessAllowed, Bool.or_eq_true, Bool.or_eq_true, hcustom, or_assoc, LetIn]
  refine or_congr_right (or_congr_left ?_)
  cases authToken with
  | none => simp [Authenticates]
  | some token =>
    by_cases hempty : token = ""
    · subst hempty
      refine ⟨fun h ↦ absurd h Bool.false_ne_true, ?_⟩
      rintro ⟨token, header, ⟨⟩, -, htoken, -⟩
      exact absurd rfl htoken.nonempty
    · dsimp only
      rw [if_neg hempty, tokenMatches_iff]
      simp [Authenticates]

/-- **Who is shown the metrics.** The reply carries the serialized registry exactly if the caller is
let in and the registry could be serialized; a caller who is not let in gets one and the same reply,
whatever the registry holds. -/
theorem metricsRoute_iff (access : MetricsAccessOptions) (contentType : String)
    (req : MetricsRequestLike) (serialize : Except String String) :
    (∀ body, metricsRoute access contentType serialize req = .text contentType body ↔
      LetIn req access ∧ serialize = .ok body) ∧
    (metricsRoute access contentType serialize req =
        .json 403 "FORBIDDEN" "Metrics access is restricted" ↔ ¬ LetIn req access) := by
  rw [← isMetricsAccessAllowed_iff]
  unfold metricsRoute
  split_ifs with hallowed
  · cases serialize with
    | ok text => simp [hallowed]
    | error message => simp [hallowed]
  · simp [hallowed]

end Synapse
