import Mathlib.Data.List.TakeWhile
import Mathlib.Data.Nat.Digits.Lemmas

/-!
# Internet addresses in text

An IPv4 address in text is four decimal numbers. An IPv6 address is groups of up to four hexadecimal
digits, whose leading zeros are left out or not; a run of zero groups may be left out as well, once,
and the last two groups may be written as an IPv4 address. An `Ipv6` is such a writing. So many have
the same value, and the structure says what can be written, not what it means.

A text comes apart at the colons (`Ipv6.splitOn_text`): into its groups, with an empty piece in
front of the elision, one in it and one behind it where no group is.
-/

namespace Inet

/-- The number with these digits, the most significant first. -/
def bigEndian (b : ℕ) (digits : List ℕ) : ℕ := Nat.ofDigits b digits.reverse

section BigEndian

variable {b : ℕ}

theorem bigEndian_nil (b : ℕ) : bigEndian b [] = 0 := rfl

theorem bigEndian_cons (b d : ℕ) (digits : List ℕ) :
    bigEndian b (d :: digits) = d * b ^ digits.length + bigEndian b digits := by
  rw [bigEndian, List.reverse_cons, Nat.ofDigits_append, Nat.ofDigits_singleton,
    List.length_reverse, Nat.add_comm, Nat.mul_comm, bigEndian]

theorem bigEndian_append (b : ℕ) (digits low : List ℕ) :
    bigEndian b (digits ++ low) = bigEndian b digits * b ^ low.length + bigEndian b low := by
  rw [bigEndian, List.reverse_append, Nat.ofDigits_append, List.length_reverse, Nat.add_comm,
    Nat.mul_comm, bigEndian, bigEndian]

theorem bigEndian_lt (hb : 1 < b) (digits : List ℕ) (h : ∀ d ∈ digits, d < b) :
    bigEndian b digits < b ^ digits.length := by
  have hlt := Nat.ofDigits_lt_base_pow_length (l := digits.reverse) hb
    fun d hd ↦ h d (List.mem_reverse.mp hd)
  rwa [List.length_reverse] at hlt

theorem bigEndian_replicate_zero (b n : ℕ) (digits : List ℕ) :
    bigEndian b (List.replicate n 0 ++ digits) = bigEndian b digits := by
  induction n with
  | zero => rfl
  | succ n ih => rw [List.replicate_succ, List.cons_append, bigEndian_cons, ih, Nat.zero_mul,
      Nat.zero_add]

end BigEndian

/-- Whether a number of `width` bits starts with the first `len` bits of another. -/
def InBlock (width base len v : ℕ) : Prop := v / 2 ^ (width - len) = base / 2 ^ (width - len)

instance (width base len v : ℕ) : Decidable (InBlock width base len v) :=
  inferInstanceAs (Decidable (_ = _))

/-! ## IPv4 -/

structure Ipv4 where
  a : Fin 256
  b : Fin 256
  c : Fin 256
  d : Fin 256

namespace Ipv4

def octets (x : Ipv4) : List ℕ := [x.a, x.b, x.c, x.d]

def value (x : Ipv4) : ℕ := bigEndian 256 x.octets

/-- Dotted decimal. -/
def text (x : Ipv4) : List Char := ['.'].intercalate (x.octets.map (Nat.toDigits 10))

theorem octets_lt (x : Ipv4) : ∀ n ∈ x.octets, n < 256 := by
  intro n hn
  simp only [octets, List.mem_cons, List.not_mem_nil, or_false] at hn
  omega

theorem value_eq (x : Ipv4) : x.value = ((x.a * 256 + x.b) * 256 + x.c) * 256 + x.d := by
  simp only [value, octets, bigEndian_cons, bigEndian_nil, List.length_cons, List.length_nil]
  omega

theorem value_lt (x : Ipv4) : x.value < 2 ^ 32 := by
  rw [value_eq]
  omega

theorem dot_not_mem_octet {l : List Char} {ns : List ℕ} (hl : l ∈ ns.map (Nat.toDigits 10)) :
    '.' ∉ l := by
  intro hdot
  obtain ⟨n, -, rfl⟩ := List.mem_map.mp hl
  exact absurd (Nat.isDigit_of_mem_toDigits (by decide) (by decide) hdot) (by decide)

theorem splitOn_text (x : Ipv4) : x.text.splitOn '.' = x.octets.map (Nat.toDigits 10) :=
  List.splitOn_intercalate '.' (fun _ hl ↦ dot_not_mem_octet hl) (by simp [octets])

end Ipv4

/-! ## IPv6 -/

def isHexDigit (c : Char) : Bool := c.isDigit || decide ('a' ≤ c.toLower ∧ c.toLower ≤ 'f')

def hexValue (c : Char) : ℕ :=
  if c.isDigit then c.toNat - '0'.toNat else c.toLower.toNat - 'a'.toNat + 10

/-- One to four hexadecimal digits. -/
structure HexGroup where
  digits : List Char
  hex : ∀ c ∈ digits, isHexDigit c = true
  ne_nil : digits ≠ []
  length_le : digits.length ≤ 4

def HexGroup.value (g : HexGroup) : ℕ := bigEndian 16 (g.digits.map hexValue)

/-- A way to write an IPv6 address. -/
structure Ipv6 where
  /-- The groups before the elision, or all of them. -/
  front : List HexGroup
  /-- The groups after `::`, where that is. -/
  back : Option (List HexGroup)
  /-- The last two groups, where they are written as an IPv4 address. -/
  embedded : Option Ipv4
  /-- Without an elision there are eight groups, and with one there are fewer. -/
  counts : match back with
    | none => front.length + embedded.elim 0 (fun _ ↦ 2) = 8
    | some back => front.length + back.length + embedded.elim 0 (fun _ ↦ 2) < 8

namespace Ipv6

variable (x : Ipv6)

/-- The values of the last groups. -/
def lastWords (groups : List HexGroup) : List ℕ :=
  groups.map HexGroup.value ++
    x.embedded.elim [] fun y ↦ [bigEndian 256 [y.a, y.b], bigEndian 256 [y.c, y.d]]

/-- The values of the eight groups. -/
def words : List ℕ :=
  match x.back with
  | none => x.lastWords x.front
  | some back =>
    x.front.map HexGroup.value ++
      (List.replicate (8 - (x.front.length + (x.lastWords back).length)) 0 ++ x.lastWords back)

def value : ℕ := bigEndian (2 ^ 16) x.words

/-- What is written of the last groups. -/
def lastFields (groups : List HexGroup) : List (List Char) :=
  groups.map HexGroup.digits ++ x.embedded.toList.map Ipv4.text

def text : List Char :=
  match x.back with
  | none => [':'].intercalate (x.lastFields x.front)
  | some back =>
    [':'].intercalate (x.front.map HexGroup.digits) ++ [':', ':'] ++
      [':'].intercalate (x.lastFields back)

end Ipv6

/-! ## Addresses as they are handed around -/

inductive Address
  | v4 (x : Ipv4)
  | v6 (x : Ipv6)

def Address.text : Address → List Char
  | .v4 x => x.text
  | .v6 x => x.text

/-- An address, maybe with a zone, and maybe in brackets. -/
structure Spelling where
  address : Address
  zone : Option (List Char)
  brackets : Bool

def Spelling.text (s : Spelling) : List Char :=
  let inner := s.address.text ++ s.zone.elim [] ('%' :: ·)
  if s.brackets then '[' :: inner ++ [']'] else inner

/-! ## Characters -/

section Characters

theorem mem_intercalate {α : Type*} {sep x : α} {ls : List (List α)}
    (h : x ∈ [sep].intercalate ls) : x = sep ∨ ∃ l ∈ ls, x ∈ l := by
  induction ls with
  | nil => exact absurd h List.not_mem_nil
  | cons l ls ih =>
    cases ls with
    | nil => exact Or.inr ⟨l, List.mem_cons_self, by rwa [List.intercalate_singleton] at h⟩
    | cons m ls =>
      rw [List.intercalate_cons_cons, List.append_assoc, List.mem_append, List.mem_append,
        List.mem_singleton] at h
      rcases h with h | h | h
      · exact Or.inr ⟨l, List.mem_cons_self, h⟩
      · exact Or.inl h
      · obtain hsep | ⟨l', hl', hx⟩ := ih h
        · exact Or.inl hsep
        · exact Or.inr ⟨l', List.mem_cons_of_mem _ hl', hx⟩

theorem intercalate_append {α : Type*} {sep : α} {ls ms : List (List α)} (hl : ls ≠ [])
    (hm : ms ≠ []) :
    [sep].intercalate (ls ++ ms) = [sep].intercalate ls ++ [sep] ++ [sep].intercalate ms := by
  induction ls with
  | nil => exact absurd rfl hl
  | cons l ls ih =>
    cases ls with
    | nil =>
      rw [List.singleton_append, List.intercalate_cons_of_ne_nil hm, List.intercalate_singleton]
    | cons l' ls =>
      rw [List.cons_append, List.intercalate_cons_of_ne_nil (by simp), ih (by simp),
        List.intercalate_cons_cons]
      simp only [List.append_assoc]

theorem takeWhile_intercalate {α : Type*} [DecidableEq α] {sep : α} {l : List α}
    (ls : List (List α)) (hl : sep ∉ l) :
    ([sep].intercalate (l :: ls)).takeWhile (fun x ↦ decide (x ≠ sep)) = l := by
  have hall : ∀ x ∈ l, decide (x ≠ sep) = true :=
    fun x hx ↦ decide_eq_true fun hsep ↦ hl (hsep ▸ hx)
  cases ls with
  | nil => rw [List.intercalate_singleton, List.takeWhile_eq_self_iff.mpr hall]
  | cons m ls =>
    rw [List.intercalate_cons_cons, List.append_assoc, List.takeWhile_append_of_pos hall,
      List.singleton_append, List.takeWhile_cons_of_neg (by simp), List.append_nil]

/-- The characters of addresses. -/
def IsPlain (c : Char) : Prop := isHexDigit c = true ∨ c = ':' ∨ c = '.'

theorem isHexDigit_of_isDigit {c : Char} (h : c.isDigit = true) : isHexDigit c = true := by
  rw [isHexDigit, h, Bool.true_or]

theorem toLower_cases (c : Char) : c.toLower = c ∨
    (65 ≤ c.toNat ∧ c.toNat ≤ 90 ∧ c.toLower.toNat = c.toNat + 32) := by
  by_cases h : c.val ≥ 'A'.val ∧ c.val ≤ 'Z'.val
  · have hge : 65 ≤ c.toNat := UInt32.le_iff_toNat_le.mp h.1
    have hle : c.toNat ≤ 90 := UInt32.le_iff_toNat_le.mp h.2
    refine Or.inr ⟨hge, hle, ?_⟩
    have hlower : c.toLower.val = c.val + 32 := by
      delta Char.toLower
      rw [dif_pos h]
      rfl
    change c.toLower.val.toNat = c.val.toNat + 32
    have hval : c.val.toNat = c.toNat := rfl
    rw [hlower, UInt32.toNat_add]
    have h32 : (32 : UInt32).toNat = 32 := rfl
    omega
  · exact Or.inl (dif_neg h)

theorem toLower_toLower (c : Char) : c.toLower.toLower = c.toLower := by
  rcases toLower_cases c with h | ⟨hge, -, h⟩
  · rw [h, h]
  · rcases toLower_cases c.toLower with h' | ⟨-, hle, -⟩
    · exact h'
    · omega

theorem toLower_eq_iff {c d : Char} (hd : d.toNat < 97 ∧ d.toLower = d) :
    c.toLower = d ↔ c = d := by
  constructor
  · rintro rfl
    rcases toLower_cases c with h | ⟨hge, -, h⟩
    · exact h.symm
    · omega
  · rintro rfl
    exact hd.2

theorem isDigit_iff {c : Char} : c.isDigit = true ↔ 48 ≤ c.toNat ∧ c.toNat ≤ 57 := by
  simp only [Char.isDigit, Bool.and_eq_true, decide_eq_true_iff]
  exact and_congr UInt32.le_iff_toNat_le UInt32.le_iff_toNat_le

theorem toLower_of_isDigit {c : Char} (h : c.isDigit = true) : c.toLower = c := by
  rcases toLower_cases c with h' | ⟨hge, -, -⟩
  · exact h'
  · have := (isDigit_iff.mp h).2
    omega

theorem hexValue_toLower (c : Char) : hexValue c.toLower = hexValue c := by
  rcases toLower_cases c with h | ⟨hge, hle, h⟩
  · rw [h]
  · have hupper : ¬ c.isDigit = true := fun hdigit ↦ by
      have := (isDigit_iff.mp hdigit).2
      omega
    have hlower : ¬ c.toLower.isDigit = true := fun hdigit ↦ by
      have := (isDigit_iff.mp hdigit).2
      omega
    rw [hexValue, if_neg hlower, hexValue, if_neg hupper, toLower_toLower]

theorem map_hexValue_toLower (cs : List Char) :
    (cs.map Char.toLower).map hexValue = cs.map hexValue := by
  rw [List.map_map]
  exact List.map_congr_left fun c _ ↦ hexValue_toLower c

theorem IsPlain.toNat {c : Char} (h : IsPlain c) : c.toNat = 46 ∨
    (48 ≤ c.toNat ∧ c.toNat ≤ 58) ∨ (65 ≤ c.toNat ∧ c.toNat ≤ 70) ∨
    (97 ≤ c.toNat ∧ c.toNat ≤ 102) := by
  rcases h with h | rfl | rfl
  · rw [isHexDigit, Bool.or_eq_true, decide_eq_true_iff] at h
    rcases h with h | ⟨hge, hle⟩
    · have := isDigit_iff.mp h
      omega
    · have hge' : 97 ≤ c.toLower.toNat := hge
      have hle' : c.toLower.toNat ≤ 102 := hle
      rcases toLower_cases c with heq | ⟨-, -, heq⟩
      · rw [heq] at hge' hle'
        omega
      · omega
  · exact Or.inr (Or.inl (by decide))
  · exact Or.inl rfl

theorem hexValue_lt {c : Char} (h : isHexDigit c = true) : hexValue c < 16 := by
  unfold hexValue
  by_cases hdigit : c.isDigit = true
  · rw [if_pos hdigit]
    have hle := (isDigit_iff.mp hdigit).2
    have hzero : '0'.toNat = 48 := rfl
    omega
  · rw [if_neg hdigit]
    rw [isHexDigit, Bool.not_eq_true _ |>.mp hdigit, Bool.false_or, decide_eq_true_iff] at h
    have hle : c.toLower.toNat ≤ 'f'.toNat := h.2
    have hf : 'f'.toNat = 102 := rfl
    have ha : 'a'.toNat = 97 := rfl
    omega

end Characters

/-! ## Coming apart -/

theorem HexGroup.not_mem_digits (g : HexGroup) {c : Char} (hc : isHexDigit c = false) :
    c ∉ g.digits := fun hmem ↦ absurd (g.hex c hmem) (by simp [hc])

theorem HexGroup.value_lt (g : HexGroup) : g.value < 16 ^ g.digits.length := by
  have hlt := bigEndian_lt (b := 16) (by decide) (g.digits.map hexValue) (by
    intro n hn
    obtain ⟨c, hc, rfl⟩ := List.mem_map.mp hn
    exact hexValue_lt (g.hex c hc))
  rwa [List.length_map] at hlt

/-- The first digits, in either case, are the highest. -/
theorem HexGroup.value_of_start {g : HexGroup} {p : List Char}
    (h : p <+: g.digits.map Char.toLower) :
    ∃ low < 16 ^ (g.digits.length - p.length),
      g.value = bigEndian 16 (p.map hexValue) * 16 ^ (g.digits.length - p.length) + low := by
  obtain ⟨t, ht⟩ := h
  have hlength : t.length = g.digits.length - p.length := by
    have := congrArg List.length ht
    rw [List.length_append, List.length_map] at this
    omega
  have hdigits : g.digits.map hexValue = p.map hexValue ++ t.map hexValue := by
    rw [← List.map_append, ht, map_hexValue_toLower]
  have hlow := bigEndian_lt (b := 16) (by decide) (t.map hexValue) (by
    intro n hn
    have hmem : n ∈ g.digits.map hexValue := hdigits ▸ List.mem_append_right _ hn
    obtain ⟨c, hc, rfl⟩ := List.mem_map.mp hmem
    exact hexValue_lt (g.hex c hc))
  rw [List.length_map, hlength] at hlow
  refine ⟨_, hlow, ?_⟩
  rw [value, hdigits, bigEndian_append, List.length_map, hlength]

theorem HexGroup.value_lt_word (g : HexGroup) : g.value < 2 ^ 16 :=
  calc g.value < 16 ^ g.digits.length := g.value_lt
    _ ≤ 16 ^ 4 := Nat.pow_le_pow_right (by decide) g.length_le
    _ = 2 ^ 16 := by norm_num

theorem Ipv4.mem_text {x : Ipv4} {c : Char} (h : c ∈ x.text) : c = '.' ∨ c.isDigit = true := by
  obtain rfl | ⟨l, hl, hc⟩ := mem_intercalate h
  · exact Or.inl rfl
  · obtain ⟨n, -, rfl⟩ := List.mem_map.mp hl
    exact Or.inr (Nat.isDigit_of_mem_toDigits (by decide) (by decide) hc)

theorem Ipv4.dot_mem_text (x : Ipv4) : '.' ∈ x.text := by
  simp [text, octets, List.intercalate_cons_cons]

namespace Ipv6

variable {x : Ipv6} {g : HexGroup} {gs groups : List HexGroup}

/-- Pieces between separators; the text of none is an empty one. -/
def pieces (ls : List (List Char)) : List (List Char) := if ls = [] then [[]] else ls

/-- What stands between the colons. -/
def fields (x : Ipv6) : List (List Char) :=
  match x.back with
  | none => x.lastFields x.front
  | some back => pieces (x.front.map HexGroup.digits) ++ [] :: pieces (x.lastFields back)

theorem mem_lastFields {l : List Char} (hl : l ∈ x.lastFields groups) :
    (∃ g ∈ groups, l = g.digits) ∨ ∃ y, x.embedded = some y ∧ l = y.text := by
  rcases List.mem_append.mp hl with hl | hl
  · obtain ⟨g, hg, rfl⟩ := List.mem_map.mp hl
    exact Or.inl ⟨g, hg, rfl⟩
  · obtain ⟨y, hy, rfl⟩ := List.mem_map.mp hl
    exact Or.inr ⟨y, Option.mem_toList.mp hy, rfl⟩

theorem colon_not_mem_lastFields {l : List Char} (hl : l ∈ x.lastFields groups) : ':' ∉ l := by
  rcases mem_lastFields hl with ⟨g, -, rfl⟩ | ⟨y, -, rfl⟩
  · exact g.not_mem_digits (by decide)
  · intro hmem
    rcases Ipv4.mem_text hmem with h | h
    · exact absurd h (by decide)
    · exact absurd h (by decide)

theorem intercalate_pieces (ls : List (List Char)) :
    [':'].intercalate (pieces ls) = [':'].intercalate ls := by
  by_cases h : ls = []
  · rw [pieces, if_pos h, h]
    rfl
  · rw [pieces, if_neg h]

theorem pieces_ne_nil (ls : List (List Char)) : pieces ls ≠ [] := by
  by_cases h : ls = [] <;> simp [pieces, h]

theorem mem_pieces {l : List Char} {ls : List (List Char)} (h : l ∈ pieces ls) :
    l = [] ∨ l ∈ ls := by
  unfold pieces at h
  split_ifs at h
  · exact Or.inl (List.mem_singleton.mp h)
  · exact Or.inr h

theorem text_eq (x : Ipv6) : x.text = [':'].intercalate x.fields := by
  cases hback : x.back with
  | none => simp only [text, fields, hback]
  | some back =>
    simp only [text, fields, hback]
    rw [intercalate_append (pieces_ne_nil _) (List.cons_ne_nil _ _),
      List.intercalate_cons_of_ne_nil (pieces_ne_nil _), intercalate_pieces, intercalate_pieces]
    simp

theorem colon_not_mem_fields {l : List Char} (hl : l ∈ x.fields) : ':' ∉ l := by
  unfold fields at hl
  split at hl
  · exact colon_not_mem_lastFields hl
  · rcases List.mem_append.mp hl with hl | hl
    · rcases mem_pieces hl with rfl | hl
      · exact List.not_mem_nil
      · obtain ⟨g, -, rfl⟩ := List.mem_map.mp hl
        exact g.not_mem_digits (by decide)
    · rcases List.mem_cons.mp hl with rfl | hl
      · exact List.not_mem_nil
      · rcases mem_pieces hl with rfl | hl
        · exact List.not_mem_nil
        · exact colon_not_mem_lastFields hl

theorem fields_ne_nil (x : Ipv6) : x.fields ≠ [] := by
  have hcounts := x.counts
  unfold fields
  split
  · next hback =>
    rw [hback] at hcounts
    intro hnil
    obtain ⟨hfront, hlast⟩ := List.append_eq_nil_iff.mp hnil
    rw [List.map_eq_nil_iff.mp hfront] at hcounts
    cases hembedded : x.embedded with
    | none => simp [hembedded] at hcounts
    | some y => simp [hembedded] at hlast
  · simp

/-- The colons of a text tell its fields apart. -/
theorem splitOn_text (x : Ipv6) : x.text.splitOn ':' = x.fields := by
  rw [text_eq]
  exact List.splitOn_intercalate ':' (fun _ hl ↦ colon_not_mem_fields hl) x.fields_ne_nil

theorem isPlain_of_mem_text {c : Char} (h : c ∈ x.text) : IsPlain c := by
  rw [text_eq] at h
  obtain rfl | ⟨l, hl, hc⟩ := mem_intercalate h
  · exact Or.inr (Or.inl rfl)
  have hlast : ∀ groups, l ∈ x.lastFields groups → IsPlain c := by
    intro groups hl
    rcases mem_lastFields hl with ⟨g, -, rfl⟩ | ⟨y, -, rfl⟩
    · exact Or.inl (g.hex c hc)
    · exact (Ipv4.mem_text hc).elim (fun h ↦ Or.inr (Or.inr h))
        fun h ↦ Or.inl (isHexDigit_of_isDigit h)
  unfold fields at hl
  split at hl
  · exact hlast _ hl
  · rcases List.mem_append.mp hl with hl | hl
    · rcases mem_pieces hl with rfl | hl
      · exact absurd hc List.not_mem_nil
      · obtain ⟨g, -, rfl⟩ := List.mem_map.mp hl
        exact Or.inl (g.hex c hc)
    · rcases List.mem_cons.mp hl with rfl | hl
      · exact absurd hc List.not_mem_nil
      · rcases mem_pieces hl with rfl | hl
        · exact absurd hc List.not_mem_nil
        · exact hlast _ hl

theorem takeWhile_text (hfront : x.front = g :: gs) :
    x.text.takeWhile (fun c ↦ decide (c ≠ ':')) = g.digits := by
  have hcolon : ':' ∉ g.digits := g.not_mem_digits (by decide)
  rw [text_eq, fields, lastFields, hfront]
  split
  · rw [List.map_cons, List.cons_append]
    exact takeWhile_intercalate _ hcolon
  · rw [List.map_cons, pieces, if_neg (List.cons_ne_nil _ _), List.cons_append]
    exact takeWhile_intercalate _ hcolon

/-- If none is, it starts with the elision. -/
theorem back_of_front_eq_nil (hfront : x.front = []) : ∃ back, x.back = some back := by
  have hcounts := x.counts
  cases hback : x.back with
  | some back => exact ⟨back, rfl⟩
  | none =>
    rw [hback, hfront] at hcounts
    cases hembedded : x.embedded <;> simp [hembedded] at hcounts

theorem takeWhile_text_of_elided (hfront : x.front = []) :
    x.text.takeWhile (fun c ↦ decide (c ≠ ':')) = [] := by
  obtain ⟨back, hback⟩ := back_of_front_eq_nil hfront
  rw [text, hback, hfront]
  rfl

theorem colon_mem_text (x : Ipv6) : ':' ∈ x.text := by
  by_contra hcolon
  have hone : x.fields = [x.text] := by
    rw [← splitOn_text]
    exact List.splitOnP_eq_singleton fun c hc ↦ beq_false_of_ne fun heq ↦ hcolon (heq ▸ hc)
  have hcounts := x.counts
  have hlength := congrArg List.length hone
  unfold fields at hlength
  split at hlength
  · next hback =>
    rw [hback] at hcounts
    rw [lastFields, List.length_append, List.length_map, List.length_singleton] at hlength
    cases hembedded : x.embedded with
    | none =>
      simp only [hembedded, Option.elim_none] at hcounts
      simp only [hembedded, Option.toList_none, List.map_nil, List.length_nil] at hlength
      omega
    | some y =>
      simp only [hembedded, Option.elim_some] at hcounts
      simp only [hembedded, Option.toList_some, List.map_cons, List.map_nil,
        List.length_cons, List.length_nil] at hlength
      omega
  · next back _ =>
    have hpieces := List.length_pos_iff.mpr (pieces_ne_nil (x.lastFields back))
    rw [List.length_append, List.length_cons, List.length_singleton] at hlength
    omega

theorem of_fields {rest : List (List Char)} (h : x.fields = [] :: [] :: rest)
    (hrest : rest ≠ [[]]) : x.front = [] ∧ ∃ back, x.back = some back ∧
      x.lastFields back = rest := by
  cases hfront : x.front with
  | cons g gs =>
    have hhead : x.fields.head? = some g.digits := by
      rw [fields, lastFields, hfront]
      split
      · rfl
      · rw [List.map_cons, pieces, if_neg (List.cons_ne_nil _ _)]
        rfl
    rw [h, List.head?_cons, Option.some_inj] at hhead
    exact absurd hhead.symm g.ne_nil
  | nil =>
    obtain ⟨back, hback⟩ := back_of_front_eq_nil hfront
    refine ⟨rfl, back, hback, ?_⟩
    simp only [fields, hback, hfront, List.map_nil, pieces, if_true, List.singleton_append,
      List.cons.injEq, true_and] at h
    split_ifs at h with hnil
    · exact absurd h.symm hrest
    · exact h

/-! ## Values -/

theorem length_lastWords (x : Ipv6) (groups : List HexGroup) :
    (x.lastWords groups).length = groups.length + x.embedded.elim 0 fun _ ↦ 2 := by
  cases hembedded : x.embedded <;> simp [lastWords, hembedded]

theorem length_words (x : Ipv6) : x.words.length = 8 := by
  have hcounts := x.counts
  unfold words
  split
  · next hback =>
    rw [hback] at hcounts
    exact (length_lastWords x _).trans hcounts
  · next back hback =>
    rw [hback] at hcounts
    have hlength := length_lastWords x back
    simp only [List.length_append, List.length_map, List.length_replicate]
    dsimp only at hcounts
    omega

theorem lt_of_mem_lastWords {w : ℕ} (h : w ∈ x.lastWords groups) : w < 2 ^ 16 := by
  rcases List.mem_append.mp h with h | h
  · obtain ⟨g, -, rfl⟩ := List.mem_map.mp h
    exact g.value_lt_word
  · cases hembedded : x.embedded with
    | none => simp [hembedded] at h
    | some y =>
      have hpair : ∀ m n : Fin 256, bigEndian 256 [(m : ℕ), (n : ℕ)] < 2 ^ 16 := by
        intro m n
        simp only [bigEndian_cons, bigEndian_nil, List.length_cons, List.length_nil]
        omega
      simp only [hembedded, Option.elim_some, List.mem_cons, List.not_mem_nil, or_false] at h
      rcases h with rfl | rfl
      · exact hpair _ _
      · exact hpair _ _

theorem lt_of_mem_words {w : ℕ} (h : w ∈ x.words) : w < 2 ^ 16 := by
  unfold words at h
  split at h
  · exact lt_of_mem_lastWords h
  · rcases List.mem_append.mp h with h | h
    · obtain ⟨g, -, rfl⟩ := List.mem_map.mp h
      exact g.value_lt_word
    · rcases List.mem_append.mp h with h | h
      · rw [List.eq_of_mem_replicate h]
        decide
      · exact lt_of_mem_lastWords h

theorem value_of_front (hfront : x.front = g :: gs) :
    ∃ low < 2 ^ 112, x.value = g.value * 2 ^ 112 + low := by
  have hhead : ∃ ws, x.words = g.value :: ws := by
    rw [words, lastWords, hfront]
    split
    · exact ⟨_, rfl⟩
    · exact ⟨_, rfl⟩
  obtain ⟨ws, hws⟩ := hhead
  have hlength : ws.length = 7 := by
    have := x.length_words
    rw [hws, List.length_cons] at this
    omega
  have hpow : (2 ^ 16) ^ 7 = 2 ^ 112 := by norm_num
  have hlt := bigEndian_lt (b := 2 ^ 16) (by decide) ws fun w hw ↦
    lt_of_mem_words (x := x) (hws ▸ List.mem_cons_of_mem _ hw)
  rw [hlength, hpow] at hlt
  refine ⟨_, hlt, ?_⟩
  rw [value, hws, bigEndian_cons, hlength, hpow]

theorem value_of_elided {back : List HexGroup} (hfront : x.front = [])
    (hback : x.back = some back) : x.value = bigEndian (2 ^ 16) (x.lastWords back) := by
  have hwords : x.words = List.replicate (8 - (x.front.length + (x.lastWords back).length)) 0 ++
      x.lastWords back := by
    rw [words, hback]
    simp [hfront]
  rw [value, hwords, bigEndian_replicate_zero]

end Ipv6

end Inet
