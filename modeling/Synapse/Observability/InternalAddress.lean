import Mathlib.Data.List.DropRight
import Synapse.Inet.Text
import Synapse.Wire.Schemas

/-!
# Internal addresses

`normalizeIp` and `isInternalAddress` of `metrics.ts` decide on the text of an address, after taking
off brackets, a zone and the prefix of IPv4-mapped addresses. The ranges are those of the comment on
`isInternalAddress`, of the values of addresses.

An IPv6 address is judged by its first letters, which are its first bits only if the first group is
written with four digits. So `fc::1`, which is `00fc::1`, is let in as unique-local, and it is
shortened groups like this one, and no other address, for which the answer is wrong
(`isInternalAddress_sound_iff`).
-/

namespace Synapse

open Inet Schemas

/-! ## The source -/

/-- The address of `::ffff:<IPv4>`, whatever the case. -/
def mappedAddress (value : List Char) : Option (List Char) :=
  let parts := (value.drop 7).splitOn '.'
  if (value.take 7).map Char.toLower = "::ffff:".toList ∧ parts.length = 4 ∧
      ∀ part ∈ parts, part ≠ [] ∧ part.all Char.isDigit = true then
    some (value.drop 7)
  else none

/-- Takes off a bracket at either end. -/
def dropBrackets (value : List Char) : List Char :=
  let value := if value.head? = some '[' then value.tail else value
  if value.getLast? = some ']' then value.dropLast else value

/-- Strips an IPv6-mapped-IPv4 prefix and surrounding zone and brackets from an IP. -/
def normalizeIp : Option String → List Char
  | none => []
  | some ip =>
    let value := (dropBrackets (trim ip.toList)).takeWhile fun c ↦ decide (c ≠ '%')
    -- only ASCII letters matter in what follows
    ((mappedAddress value).getD value).map Char.toLower

/-- The four numbers of a dotted decimal. -/
def matchIpv4 (ip : List Char) : Option (List ℕ) :=
  let parts := ip.splitOn '.'
  if parts.length = 4 ∧
      ∀ part ∈ parts, 1 ≤ part.length ∧ part.length ≤ 3 ∧ part.all Char.isDigit = true then
    some (parts.map fun part ↦ Nat.ofDigitChars 10 part 0)
  else none

/-- Whether an IP belongs to a loopback or private range. -/
def isInternalAddress (rawIp : Option String) : Bool :=
  let ip := normalizeIp rawIp
  if ip = [] then false
  else
    match matchIpv4 ip with
    | some octets =>
      if octets.any fun octet ↦ decide (255 < octet) then false
      else
        match octets with
        | a :: b :: _ =>
          decide (a = 127 ∨ a = 10 ∨ (a = 172 ∧ 16 ≤ b ∧ b ≤ 31) ∨ (a = 192 ∧ b = 168) ∨
            (a = 169 ∧ b = 254))
        | _ => false
    | none =>
      if ip = "::1".toList then true
      else if ip = "::".toList then false
      else if "fc".toList <+: ip ∨ "fd".toList <+: ip then true
      else
        decide ("fe8".toList <+: ip ∨ "fe9".toList <+: ip ∨ "fea".toList <+: ip ∨
          "feb".toList <+: ip)

/-! ## The ranges -/

/-- 127.0.0.0/8, 10/8, 172.16/12, 192.168/16 and 169.254/16. -/
def InternalIpv4 (v : ℕ) : Prop :=
  InBlock 32 (127 * 2 ^ 24) 8 v ∨ InBlock 32 (10 * 2 ^ 24) 8 v ∨
    InBlock 32 (172 * 2 ^ 24 + 16 * 2 ^ 16) 12 v ∨ InBlock 32 (192 * 2 ^ 24 + 168 * 2 ^ 16) 16 v ∨
    InBlock 32 (169 * 2 ^ 24 + 254 * 2 ^ 16) 16 v

/-- `::1`, fc00::/7, fe80::/10, and the ranges of IPv4 behind `::ffff:0:0/96`. -/
def InternalIpv6 (v : ℕ) : Prop :=
  v = 1 ∨ InBlock 128 (0xfc00 * 2 ^ 112) 7 v ∨ InBlock 128 (0xfe80 * 2 ^ 112) 10 v ∨
    (v / 2 ^ 32 = 0xffff ∧ InternalIpv4 (v % 2 ^ 32))

def Internal : Address → Prop
  | .v4 x => InternalIpv4 x.value
  | .v6 x => InternalIpv6 x.value

/-! ## Texts that mislead -/

/-- The first letters that are taken for those of an internal address. -/
def internalPrefixes : List (List Char) :=
  ["fc".toList, "fd".toList, "fe8".toList, "fe9".toList, "fea".toList, "feb".toList]

/-- Whether an address starts with one of these in a group of fewer than four digits. -/
def Shortened : Address → Prop
  | .v4 _ => False
  | .v6 x => ∃ g gs, x.front = g :: gs ∧ g.digits.length < 4 ∧
      ∃ p ∈ internalPrefixes, p <+: g.digits.map Char.toLower

/-! ## Taking off brackets and zone -/

theorem isBlank_of_isPlain {c : Char} (h : IsPlain c) : isBlank c = false := by
  have hcode := h.toNat
  simp only [isBlank, List.contains_eq_mem, decide_eq_false_iff_not, List.mem_cons,
    List.not_mem_nil, or_false]
  omega

theorem ne_of_isPlain {c d : Char} (h : IsPlain c) (hd : d = '[' ∨ d = ']' ∨ d = '%') : c ≠ d := by
  have hcode := h.toNat
  rintro rfl
  rcases hd with rfl | rfl | rfl
  · exact absurd hcode (by decide)
  · exact absurd hcode (by decide)
  · exact absurd hcode (by decide)

theorem rdropWhile_append_cons {α : Type*} {p : α → Bool} {x : α} (hx : ¬ p x = true)
    (l m : List α) : (l ++ x :: m).rdropWhile p = l ++ x :: m.rdropWhile p := by
  induction m using List.reverseRecOn with
  | nil => exact List.rdropWhile_concat_neg _ _ _ hx
  | append_singleton m y ih =>
    have hassoc : l ++ x :: (m ++ [y]) = l ++ x :: m ++ [y] := by simp
    by_cases hy : p y = true
    · rw [hassoc, List.rdropWhile_concat_pos _ _ _ hy, ih, List.rdropWhile_concat_pos _ _ _ hy]
    · rw [hassoc, List.rdropWhile_concat_neg _ _ _ hy, List.rdropWhile_concat_neg _ _ _ hy, hassoc]

section Stripping

variable {addr : List Char}

theorem takeWhile_percent (hplain : ∀ c ∈ addr, IsPlain c) (rest : List Char) :
    (addr ++ '%' :: rest).takeWhile (fun c ↦ decide (c ≠ '%')) = addr := by
  rw [List.takeWhile_append_of_pos fun c hc ↦
      decide_eq_true (ne_of_isPlain (hplain c hc) (Or.inr (Or.inr rfl))),
    List.takeWhile_cons_of_neg (by simp), List.append_nil]

theorem takeWhile_percent_self (hplain : ∀ c ∈ addr, IsPlain c) :
    addr.takeWhile (fun c ↦ decide (c ≠ '%')) = addr :=
  List.takeWhile_eq_self_iff.mpr fun c hc ↦
    decide_eq_true (ne_of_isPlain (hplain c hc) (Or.inr (Or.inr rfl)))

theorem dropBrackets_bracketed (l : List Char) : dropBrackets ('[' :: l ++ [']']) = l := by
  have hlast : (l ++ [']']).getLast? = some ']' := List.getLast?_concat
  have hhead : ('[' :: l ++ [']']).head? = some '[' := rfl
  rw [dropBrackets, if_pos hhead]
  exact (if_pos hlast).trans List.dropLast_concat

theorem dropBrackets_cons {c : Char} (hc : c ≠ '[') (cs : List Char) :
    dropBrackets (c :: cs)
      = if (c :: cs).getLast? = some ']' then (c :: cs).dropLast else c :: cs := by
  have hhead : (c :: cs).head? ≠ some '[' := fun h ↦ hc (Option.some_inj.mp h)
  rw [dropBrackets, if_neg hhead]

theorem takeWhile_dropLast (hplain : ∀ c ∈ addr, IsPlain c) (zone : List Char) :
    (if (addr ++ '%' :: zone).getLast? = some ']' then (addr ++ '%' :: zone).dropLast
      else addr ++ '%' :: zone).takeWhile (fun c ↦ decide (c ≠ '%')) = addr := by
  split_ifs with hlast
  · cases zone using List.reverseRecOn with
    | nil => simp at hlast
    | append_singleton zone c =>
      have hdrop : (addr ++ '%' :: (zone ++ [c])).dropLast = addr ++ '%' :: zone := by
        rw [← List.cons_append, ← List.append_assoc, List.dropLast_concat]
      rw [hdrop, takeWhile_percent hplain]
  · exact takeWhile_percent hplain zone

theorem trim_eq {c : Char} {cs : List Char} (hc : isBlank c = false) :
    trim (c :: cs) = (c :: cs).rdropWhile isBlank := by
  rw [trim, List.dropWhile_cons_of_neg (by simp [hc])]
  rfl

end Stripping

theorem getLast_append_ne_bracket {addr : List Char} (hplain : ∀ c ∈ addr, IsPlain c) :
    addr.getLast? ≠ some ']' := by
  intro hlast
  exact ne_of_isPlain (hplain _ (List.mem_of_getLast? hlast)) (Or.inr (Or.inl rfl)) rfl

/-- What is judged is the address itself, without what is around it. -/
theorem normalizeIp_spelling (s : Spelling) (hne : s.address.text ≠ [])
    (hplain : ∀ c ∈ s.address.text, IsPlain c) :
    normalizeIp (some (String.ofList s.text))
      = ((mappedAddress s.address.text).getD s.address.text).map Char.toLower := by
  obtain ⟨address, zone, brackets⟩ := s
  generalize haddr : address.text = addr at hne hplain ⊢
  obtain ⟨c, cs, rfl⟩ := List.exists_cons_of_ne_nil hne
  have hc : isBlank c = false := isBlank_of_isPlain (hplain c List.mem_cons_self)
  have hbracket : c ≠ '[' := ne_of_isPlain (hplain c List.mem_cons_self) (Or.inl rfl)
  have hpercent : ¬ isBlank '%' = true := by decide
  suffices hstrip : (dropBrackets (trim (Spelling.text ⟨address, zone, brackets⟩))).takeWhile
      (fun c ↦ decide (c ≠ '%')) = c :: cs by
    simp only [normalizeIp, String.toList_ofList]
    rw [hstrip]
  simp only [Spelling.text, haddr]
  cases brackets with
  | true =>
    have hend : ¬ isBlank ']' = true := by decide
    rw [if_pos rfl, List.cons_append, trim_eq (by decide), ← List.cons_append,
      List.rdropWhile_concat_neg _ _ _ hend, dropBrackets_bracketed]
    cases zone with
    | none => rw [Option.elim_none, List.append_nil, takeWhile_percent_self hplain]
    | some zone => rw [Option.elim_some, takeWhile_percent hplain]
  | false =>
    rw [if_neg Bool.false_ne_true, List.cons_append, trim_eq hc, ← List.cons_append]
    cases zone with
    | none =>
      have hlast : ∀ hl : c :: cs ≠ [], ¬ isBlank ((c :: cs).getLast hl) = true := by
        intro hl
        rw [isBlank_of_isPlain (hplain _ (List.getLast_mem hl))]
        exact Bool.false_ne_true
      rw [Option.elim_none, List.append_nil, List.rdropWhile_eq_self_iff.mpr hlast,
        dropBrackets_cons hbracket, if_neg (getLast_append_ne_bracket hplain)]
      exact takeWhile_percent_self hplain
    | some zone =>
      rw [Option.elim_some, rdropWhile_append_cons hpercent, List.cons_append,
        dropBrackets_cons hbracket, ← List.cons_append]
      exact takeWhile_dropLast hplain _

/-! ## IPv4 -/

section DottedDecimal

variable {y : Ipv4}

theorem toLower_text (y : Ipv4) : y.text.map Char.toLower = y.text := by
  refine (List.map_congr_left fun c hc ↦ ?_).trans (List.map_id _)
  rcases Ipv4.mem_text hc with rfl | hdigit
  · rfl
  · exact toLower_of_isDigit hdigit

theorem colon_not_mem_text (y : Ipv4) : ':' ∉ y.text := by
  intro hmem
  rcases Ipv4.mem_text hmem with h | h
  · exact absurd h (by decide)
  · exact absurd h (by decide)

theorem mappedAddress_of_colon_not_mem {value : List Char} (h : ':' ∉ value) :
    mappedAddress value = none := by
  refine if_neg fun ⟨htake, _⟩ ↦ h ?_
  have hmem : ':' ∈ (value.take 7).map Char.toLower := by
    rw [htake]
    decide
  obtain ⟨c, hc, hlower⟩ := List.mem_map.mp hmem
  rw [(toLower_eq_iff (by decide)).mp hlower] at hc
  exact List.mem_of_mem_take hc

theorem matchIpv4_text (y : Ipv4) : matchIpv4 y.text = some y.octets := by
  have hparts : ∀ part ∈ y.octets.map (Nat.toDigits 10),
      1 ≤ part.length ∧ part.length ≤ 3 ∧ part.all Char.isDigit = true := by
    intro part hpart
    obtain ⟨n, hn, rfl⟩ := List.mem_map.mp hpart
    have hlt := y.octets_lt n hn
    refine ⟨Nat.length_toDigits_pos, (Nat.length_toDigits_le_iff (by decide) (by decide)).mpr
      (by omega), List.all_eq_true.mpr fun c hc ↦ ?_⟩
    exact Nat.isDigit_of_mem_toDigits (by decide) (by decide) hc
  have hvalues : (y.octets.map (Nat.toDigits 10)).map (fun part ↦ Nat.ofDigitChars 10 part 0)
      = y.octets := by
    rw [List.map_map]
    exact (List.map_congr_left fun n _ ↦ Nat.ofDigitChars_ten_toDigits).trans (List.map_id _)
  unfold matchIpv4
  simp only [Ipv4.splitOn_text]
  rw [if_pos ⟨rfl, hparts⟩, hvalues]

/-- The first two numbers tell whether an address is in the ranges. -/
theorem internalIpv4_iff (y : Ipv4) : InternalIpv4 y.value ↔
    (y.a : ℕ) = 127 ∨ (y.a : ℕ) = 10 ∨ ((y.a : ℕ) = 172 ∧ 16 ≤ (y.b : ℕ) ∧ (y.b : ℕ) ≤ 31) ∨
      ((y.a : ℕ) = 192 ∧ (y.b : ℕ) = 168) ∨ ((y.a : ℕ) = 169 ∧ (y.b : ℕ) = 254) := by
  simp only [InternalIpv4, InBlock, Ipv4.value_eq, Nat.reduceSub, Nat.reducePow, Nat.reduceMul,
    Nat.reduceAdd, Nat.reduceDiv]
  refine or_congr ?_ (or_congr ?_ (or_congr ?_ (or_congr ?_ ?_))) <;> omega

/-- A dotted decimal is judged as it should be. -/
theorem isInternalAddress_of_dotted {ip : Option String} (h : normalizeIp ip = y.text) :
    isInternalAddress ip = true ↔ InternalIpv4 y.value := by
  have hne : y.text ≠ [] := List.ne_nil_of_mem y.dot_mem_text
  have hsmall : ¬ (y.octets.any fun octet ↦ decide (255 < octet)) = true := by
    intro hany
    obtain ⟨n, hn, hlt⟩ := List.any_eq_true.mp hany
    have := y.octets_lt n hn
    have := of_decide_eq_true hlt
    omega
  unfold isInternalAddress
  simp only [h, matchIpv4_text]
  rw [if_neg hne, if_neg hsmall, internalIpv4_iff]
  exact decide_eq_true_iff

end DottedDecimal

/-! ## IPv6 -/

section Groups

variable {x : Ipv6} {p : List Char}

theorem colon_mem_toLower (x : Ipv6) : ':' ∈ x.text.map Char.toLower :=
  List.mem_map.mpr ⟨':', x.colon_mem_text, rfl⟩

theorem matchIpv4_of_colon_mem {ip : List Char} (h : ':' ∈ ip) : matchIpv4 ip = none := by
  refine if_neg fun ⟨_, hparts⟩ ↦ ?_
  have hjoin : ['.'].intercalate (ip.splitOn '.') = ip := List.intercalate_splitOn '.'
  rw [← hjoin] at h
  obtain hdot | ⟨part, hpart, hcolon⟩ := mem_intercalate h
  · exact absurd hdot (by decide)
  · exact absurd (List.all_eq_true.mp (hparts part hpart).2.2 ':' hcolon) (by decide)

theorem prefix_toLower_iff (hp : ∀ c ∈ p, c ≠ ':') : p <+: x.text.map Char.toLower ↔
    p <+: (x.text.takeWhile fun c ↦ decide (c ≠ ':')).map Char.toLower := by
  constructor
  · rintro ⟨t, ht⟩
    have hcolon : (fun c ↦ decide (c ≠ ':')) ∘ Char.toLower = fun c ↦ decide (c ≠ ':') := by
      funext c
      exact decide_eq_decide.mpr (not_congr (toLower_eq_iff (by decide)))
    have hmap := List.takeWhile_map (f := Char.toLower) (p := fun c ↦ decide (c ≠ ':'))
      (l := x.text)
    rw [← ht, List.takeWhile_append_of_pos fun c hc ↦ decide_eq_true (hp c hc), hcolon] at hmap
    exact ⟨_, hmap⟩
  · intro h
    exact h.trans (List.IsPrefix.map Char.toLower <| List.takeWhile_prefix _)

theorem ne_colon_of_mem_internalPrefixes (hp : p ∈ internalPrefixes) : ∀ c ∈ p, c ≠ ':' := by
  have hall : ∀ q ∈ internalPrefixes, ':' ∉ q := by decide
  rintro c hc rfl
  exact hall p hp hc

theorem ne_nil_of_mem_internalPrefixes (hp : p ∈ internalPrefixes) : p ≠ [] := by
  have hall : ∀ q ∈ internalPrefixes, q ≠ [] := by decide
  exact hall p hp

theorem internal_prefix_iff (hp : p ∈ internalPrefixes) : p <+: x.text.map Char.toLower ↔
    ∃ g gs, x.front = g :: gs ∧ p <+: g.digits.map Char.toLower := by
  rw [prefix_toLower_iff (ne_colon_of_mem_internalPrefixes hp)]
  cases hfront : x.front with
  | nil =>
    rw [Ipv6.takeWhile_text_of_elided hfront]
    refine ⟨fun h ↦ absurd (List.prefix_nil.mp h) (ne_nil_of_mem_internalPrefixes hp), ?_⟩
    rintro ⟨g, gs, h, -⟩
    cases h
  | cons g gs =>
    rw [Ipv6.takeWhile_text hfront]
    refine ⟨fun h ↦ ⟨g, gs, rfl, h⟩, ?_⟩
    rintro ⟨g', gs', h, hstart⟩
    cases h
    exact hstart

theorem isInternalAddress_of_colons {ip : Option String}
    (h : normalizeIp ip = x.text.map Char.toLower) : isInternalAddress ip = true ↔
      x.text.map Char.toLower = "::1".toList ∨
        ∃ p ∈ internalPrefixes, p <+: x.text.map Char.toLower := by
  have hcolon := colon_mem_toLower x
  have hmatch := matchIpv4_of_colon_mem hcolon
  generalize x.text.map Char.toLower = ip' at h hcolon hmatch ⊢
  unfold isInternalAddress
  simp only [h, hmatch]
  rw [if_neg (List.ne_nil_of_mem hcolon)]
  simp only [internalPrefixes, List.mem_cons, List.not_mem_nil, or_false, exists_eq_or_imp,
    exists_eq_left]
  by_cases hone : ip' = "::1".toList
  · simp [hone]
  · rw [if_neg hone]
    by_cases hzero : ip' = "::".toList
    · rw [if_pos hzero, hzero]
      decide
    · rw [if_neg hzero]
      by_cases hlocal : "fc".toList <+: ip' ∨ "fd".toList <+: ip'
      · rw [if_pos hlocal]
        exact iff_of_true rfl (Or.inr (or_assoc.mp (Or.inl hlocal)))
      · rw [if_neg hlocal, decide_eq_true_iff]
        exact ⟨fun h ↦ Or.inr (Or.inr (Or.inr h)),
          fun h ↦ (or_assoc.mpr (h.resolve_left hone)).resolve_left hlocal⟩

theorem value_of_loopback (h : x.text.map Char.toLower = "::1".toList) : x.value = 1 := by
  have htext : x.text = [':', ':', '1'] := by
    change _ = [':', ':', '1'] at h
    obtain ⟨c₀, t₀, ht₀, hc₀, h₀⟩ := List.map_eq_cons_iff.mp h
    obtain ⟨c₁, t₁, ht₁, hc₁, h₁⟩ := List.map_eq_cons_iff.mp h₀
    obtain ⟨c₂, t₂, ht₂, hc₂, h₂⟩ := List.map_eq_cons_iff.mp h₁
    rw [ht₀, ht₁, ht₂, List.map_eq_nil_iff.mp h₂, (toLower_eq_iff (by decide)).mp hc₀,
      (toLower_eq_iff (by decide)).mp hc₁, (toLower_eq_iff (by decide)).mp hc₂]
  have hfields : x.fields = [] :: [] :: [['1']] := by
    rw [← Ipv6.splitOn_text, htext]
    decide
  obtain ⟨hfront, back, hback, hlast⟩ := Ipv6.of_fields hfields (by decide)
  have hembedded : x.embedded = none := by
    cases hembedded : x.embedded with
    | none => rfl
    | some y =>
      have hmem : y.text ∈ x.lastFields back :=
        List.mem_append_right _ (by simp [hembedded])
      rw [hlast, List.mem_singleton] at hmem
      exact absurd y.dot_mem_text (by rw [hmem]; decide)
  rw [Ipv6.lastFields, hembedded, Option.toList_none, List.map_nil, List.append_nil] at hlast
  obtain ⟨g, gs, rfl, hg, hgs⟩ := List.map_eq_cons_iff.mp hlast
  rw [Ipv6.value_of_elided hfront hback, Ipv6.lastWords, hembedded, List.map_eq_nil_iff.mp hgs]
  simp only [List.map_cons, List.map_nil, Option.elim_none, List.append_nil, HexGroup.value, hg]
  decide

theorem dotted_of_mappedAddress {addr value : List Char} (h : mappedAddress addr = some value) :
    '.' ∈ value ∧ ':' ∉ value := by
  unfold mappedAddress at h
  dsimp only at h
  split_ifs at h with hcond
  obtain ⟨-, hparts, hdigits⟩ := hcond
  rw [Option.some_inj.mp h] at hparts hdigits
  constructor
  · by_contra hdot
    have hone : value.splitOn '.' = [value] :=
      List.splitOnP_eq_singleton fun c hc ↦ beq_false_of_ne fun heq ↦ hdot (heq ▸ hc)
    rw [hone] at hparts
    cases hparts
  · intro hmem
    have hvalue : ['.'].intercalate (value.splitOn '.') = value := List.intercalate_splitOn '.'
    rw [← hvalue] at hmem
    obtain hdot | ⟨part, hpart, hcolon⟩ := mem_intercalate hmem
    · exact absurd hdot (by decide)
    · exact absurd (List.all_eq_true.mp (hdigits part hpart).2 ':' hcolon) (by decide)

theorem eq_intercalate_of_mappedAddress {addr value : List Char}
    (h : mappedAddress addr = some value) : ∃ w : List Char,
      w.map Char.toLower = ['f', 'f', 'f', 'f'] ∧ addr = [':'].intercalate [[], [], w, value] := by
  unfold mappedAddress at h
  dsimp only at h
  split_ifs at h with hcond
  obtain ⟨htake, -⟩ := hcond
  have hjoin := List.take_append_drop 7 addr
  rw [Option.some_inj.mp h] at hjoin
  change _ = [':', ':', 'f', 'f', 'f', 'f', ':'] at htake
  obtain ⟨c₀, t₀, ht₀, hc₀, h₀⟩ := List.map_eq_cons_iff.mp htake
  obtain ⟨c₁, t₁, ht₁, hc₁, h₁⟩ := List.map_eq_cons_iff.mp h₀
  have hsplit : ['f', 'f', 'f', 'f', ':'] = ['f', 'f', 'f', 'f'] ++ [':'] := rfl
  rw [hsplit] at h₁
  obtain ⟨w, e, ht, hw, he⟩ := List.map_eq_append_iff.mp h₁
  obtain ⟨c, t, hc, hcolon, hnil⟩ := List.map_eq_cons_iff.mp he
  refine ⟨w, hw, ?_⟩
  rw [← hjoin, ht₀, ht₁, ht, hc, List.map_eq_nil_iff.mp hnil,
    (toLower_eq_iff (by decide)).mp hc₀, (toLower_eq_iff (by decide)).mp hc₁,
    (toLower_eq_iff (by decide)).mp hcolon]
  simp [List.intercalate_cons_cons]

theorem of_mappedAddress {value : List Char} (h : mappedAddress x.text = some value) :
    ∃ (g : HexGroup) (y : Ipv4), x.front = [] ∧ x.back = some [g] ∧ x.embedded = some y ∧
      g.digits.map Char.toLower = ['f', 'f', 'f', 'f'] ∧ y.text = value := by
  obtain ⟨hdot, hvalue⟩ := dotted_of_mappedAddress h
  obtain ⟨w, hw, htext⟩ := eq_intercalate_of_mappedAddress h
  -- neither the prefix nor the dotted decimal has other colons than those of the prefix
  have hcolon : ∀ l ∈ [[], [], w, value], ':' ∉ l := by
    intro l hl hmem
    simp only [List.mem_cons, List.not_mem_nil, or_false] at hl
    rcases hl with rfl | rfl | rfl | rfl
    · exact absurd hmem List.not_mem_nil
    · exact absurd hmem List.not_mem_nil
    · have hlower : ':' ∈ l.map Char.toLower := List.mem_map.mpr ⟨':', hmem, rfl⟩
      rw [hw] at hlower
      exact absurd hlower (by decide)
    · exact hvalue hmem
  have hfields : x.fields = [] :: [] :: [w, value] := by
    rw [← Ipv6.splitOn_text, htext]
    exact List.splitOn_intercalate ':' hcolon (List.cons_ne_nil _ _)
  obtain ⟨hfront, back, hback, hlast⟩ := Ipv6.of_fields hfields (by simp)
  have hmem : value ∈ x.lastFields back := by
    rw [hlast]
    exact List.mem_cons_of_mem _ List.mem_cons_self
  rcases Ipv6.mem_lastFields hmem with ⟨g, -, hg⟩ | ⟨y, hy, hvalue⟩
  · exact absurd hdot (hg ▸ g.not_mem_digits (by decide))
  · rw [Ipv6.lastFields, hy, Option.toList_some, List.map_cons, List.map_nil] at hlast
    have hgroups : back.map HexGroup.digits = [w] := by
      have hpair : [w, value] = [w] ++ [y.text] := by rw [hvalue]; rfl
      exact List.append_cancel_right (hlast.trans hpair)
    obtain ⟨g, gs, rfl, hg, hgs⟩ := List.map_eq_cons_iff.mp hgroups
    rw [List.map_eq_nil_iff.mp hgs] at hback
    exact ⟨g, y, hfront, hback, hy, hg ▸ hw, hvalue.symm⟩

theorem value_of_mapped {g : HexGroup} {y : Ipv4} (hfront : x.front = [])
    (hback : x.back = some [g]) (hembedded : x.embedded = some y)
    (hg : g.digits.map Char.toLower = ['f', 'f', 'f', 'f']) :
    x.value = 0xffff * 2 ^ 32 + y.value := by
  have hword : g.value = 0xffff := by
    rw [HexGroup.value, ← map_hexValue_toLower, hg]
    decide
  rw [Ipv6.value_of_elided hfront hback, Ipv6.lastWords, hembedded, y.value_eq]
  simp only [List.map_cons, List.map_nil, Option.elim_some, List.cons_append, List.nil_append,
    bigEndian_cons, bigEndian_nil, List.length_cons, List.length_nil, hword]
  omega

/-- Four digits that start so are the first bits of an internal address. -/
theorem internal_of_start {g : HexGroup} {gs : List HexGroup} (hfront : x.front = g :: gs)
    (hlength : g.digits.length = 4) (hp : p ∈ internalPrefixes)
    (hstart : p <+: g.digits.map Char.toLower) : InternalIpv6 x.value := by
  obtain ⟨low, hlow, hvalue⟩ := Ipv6.value_of_front hfront
  obtain ⟨rest, hrest, hword⟩ := HexGroup.value_of_start hstart
  rw [hvalue]
  have hrange : ∀ q ∈ internalPrefixes,
      (0xfc00 ≤ bigEndian 16 (q.map hexValue) * 16 ^ (4 - q.length) ∧
        bigEndian 16 (q.map hexValue) * 16 ^ (4 - q.length) + 16 ^ (4 - q.length) ≤ 0xfe00) ∨
      (0xfe80 ≤ bigEndian 16 (q.map hexValue) * 16 ^ (4 - q.length) ∧
        bigEndian 16 (q.map hexValue) * 16 ^ (4 - q.length) + 16 ^ (4 - q.length) ≤ 0xfec0) := by
    decide
  have hblock : g.value / 2 ^ 9 = 126 ∨ g.value / 2 ^ 6 = 1018 := by
    rw [hlength] at hrest hword
    have := hrange p hp
    omega
  rcases hblock with hblock | hblock
  · refine Or.inr (Or.inl ?_)
    simp only [InBlock, Nat.reduceSub, Nat.reducePow, Nat.reduceMul, Nat.reduceDiv] at hlow hblock ⊢
    omega
  · refine Or.inr (Or.inr (Or.inl ?_))
    simp only [InBlock, Nat.reduceSub, Nat.reducePow, Nat.reduceMul, Nat.reduceDiv] at hlow hblock ⊢
    omega

end Groups

/-! ## Which answers are right -/

theorem text_ne_nil (address : Address) : address.text ≠ [] := by
  cases address with
  | v4 y => exact List.ne_nil_of_mem y.dot_mem_text
  | v6 x => exact List.ne_nil_of_mem x.colon_mem_text

theorem isPlain_of_mem_text (address : Address) : ∀ c ∈ address.text, IsPlain c := by
  intro c hc
  cases address with
  | v4 y =>
    rcases Ipv4.mem_text hc with h | h
    · exact Or.inr (Or.inr h)
    · exact Or.inl (isHexDigit_of_isDigit h)
  | v6 x => exact Ipv6.isPlain_of_mem_text hc

theorem not_internal_of_shortened {x : Ipv6} (h : Shortened (.v6 x)) : ¬ InternalIpv6 x.value := by
  obtain ⟨g, gs, hfront, hlength, p, hp, hstart⟩ := h
  obtain ⟨low, hlow, hvalue⟩ := Ipv6.value_of_front hfront
  obtain ⟨rest, -, hword⟩ := HexGroup.value_of_start hstart
  have hpos : 0 < g.value := by
    have hfirst : ∀ q ∈ internalPrefixes, 0 < bigEndian 16 (q.map hexValue) := by decide
    have hmul := Nat.mul_pos (hfirst p hp)
      (Nat.pow_pos (n := g.digits.length - p.length) (show 0 < 16 by decide))
    omega
  have hsmall : g.value < 16 ^ 3 :=
    g.value_lt.trans_le (Nat.pow_le_pow_right (by decide) (by omega))
  rw [hvalue]
  simp only [InternalIpv6, InBlock, Nat.reduceSub, Nat.reducePow, Nat.reduceMul, Nat.reduceDiv]
    at hlow hsmall ⊢
  omega

/-- An address of groups is let in for an internal one if it is `::1`, if its first letters say so,
or if it is mapped and the IPv4 address is internal. -/
theorem internal_of_isInternalAddress {s : Spelling} {x : Ipv6} (hs : s.address = .v6 x)
    (h : isInternalAddress (some (String.ofList s.text)) = true) :
    InternalIpv6 x.value ∨ Shortened (.v6 x) := by
  have hnormal := normalizeIp_spelling s (text_ne_nil _) (isPlain_of_mem_text _)
  rw [hs, Address.text] at hnormal
  cases hmapped : mappedAddress x.text with
  | some value =>
    obtain ⟨g, y, hfront, hback, hembedded, hg, rfl⟩ := of_mappedAddress hmapped
    rw [hmapped, Option.getD_some, toLower_text] at hnormal
    have hinternal := (isInternalAddress_of_dotted hnormal).mp h
    have hlt := y.value_lt
    refine Or.inl (Or.inr (Or.inr (Or.inr ?_)))
    rw [value_of_mapped hfront hback hembedded hg]
    have hhigh : (0xffff * 2 ^ 32 + y.value) / 2 ^ 32 = 0xffff := by omega
    have hlow : (0xffff * 2 ^ 32 + y.value) % 2 ^ 32 = y.value := by omega
    exact ⟨hhigh, hlow.symm ▸ hinternal⟩
  | none =>
    rw [hmapped, Option.getD_none] at hnormal
    rcases (isInternalAddress_of_colons hnormal).mp h with hloopback | ⟨p, hp, hstart⟩
    · exact Or.inl (Or.inl (value_of_loopback hloopback))
    · obtain ⟨g, gs, hfront, hdigits⟩ := (internal_prefix_iff hp).mp hstart
      rcases lt_or_eq_of_le g.length_le with hlt | heq
      · exact Or.inr ⟨g, gs, hfront, hlt, p, hp, hdigits⟩
      · exact Or.inl (internal_of_start hfront heq hp hdigits)

theorem isInternalAddress_of_shortened {s : Spelling} {x : Ipv6} (hs : s.address = .v6 x)
    (h : Shortened (.v6 x)) : isInternalAddress (some (String.ofList s.text)) = true := by
  have hnormal := normalizeIp_spelling s (text_ne_nil _) (isPlain_of_mem_text _)
  obtain ⟨g, gs, hfront, -, p, hp, hstart⟩ := h
  have hmapped : mappedAddress x.text = none := by
    cases hmapped : mappedAddress x.text with
    | none => rfl
    | some value =>
      obtain ⟨-, -, hnil, -⟩ := of_mappedAddress hmapped
      rw [hfront] at hnil
      cases hnil
  rw [hs, Address.text, hmapped, Option.getD_none] at hnormal
  exact (isInternalAddress_of_colons hnormal).mpr
    (Or.inr ⟨p, hp, (internal_prefix_iff hp).mpr ⟨g, gs, hfront, hstart⟩⟩)

/-- **Addresses let in.** Whatever the writing of an address, it is let in only if it is internal,
unless its first group has fewer than four digits and starts like that of an internal address. -/
theorem isInternalAddress_sound_iff (s : Spelling) :
    (isInternalAddress (some (String.ofList s.text)) = true → Internal s.address) ↔
      ¬ Shortened s.address := by
  cases hs : s.address with
  | v4 y =>
    have hnormal := normalizeIp_spelling s (text_ne_nil _) (isPlain_of_mem_text _)
    rw [hs, Address.text, mappedAddress_of_colon_not_mem (colon_not_mem_text y),
      Option.getD_none, toLower_text] at hnormal
    exact ⟨fun _ h ↦ h, fun _ ↦ (isInternalAddress_of_dotted hnormal).mp⟩
  | v6 x =>
    constructor
    · intro hsound hshort
      exact not_internal_of_shortened hshort
        (hsound (isInternalAddress_of_shortened hs hshort))
    · intro hlong h
      exact (internal_of_isInternalAddress hs h).resolve_right hlong

/-- `fc::1`. -/
private def shortenedAddress : Spelling where
  address := .v6
    { front := [⟨['f', 'c'], List.all_eq_true.mp rfl, by decide, by decide⟩]
      back := some [⟨['1'], List.all_eq_true.mp rfl, by decide, by decide⟩]
      embedded := none
      counts := by decide }
  zone := none
  brackets := false

/-- It is `00fc::1`, which is in none of the ranges. -/
theorem shortened_address_let_in : ¬ ∀ s : Spelling,
    isInternalAddress (some (String.ofList s.text)) = true → Internal s.address := by
  intro h
  have htext : shortenedAddress.text = "fc::1".toList := rfl
  have hin : isInternalAddress (some "fc::1") = true := by decide
  have hvalue := h shortenedAddress (by rw [htext]; exact hin)
  revert hvalue
  simp only [Internal, shortenedAddress, InternalIpv6, InternalIpv4, InBlock]
  decide

end Synapse
