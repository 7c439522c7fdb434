import Mathlib.Data.Set.Insert

/-!
# Reservation pools

Resources are marked as in use in a plain set, which records neither who uses a resource nor how
many do. Holders take resources and give them back, and giving back clears the mark whoever else
may hold the resource.

## Two accounts

`Covered` says that every held resource is marked, so that nobody is handed a resource that someone
has. It survives a release only when nobody else holds what is released (`Spares`). `Backed` says
that every mark is owed to a holder, so that no resource is lost to the pool. It survives a release
always, but not a holder that walks away without one.

A resource can be handed out while it is marked, so holders may share it. The holders that took an
unmarked resource are the *firm* ones; `Exclusive` says that these share nothing among themselves.
-/

namespace Reservation

variable {η κ : Type*}

/-- The marks, and who holds what. -/
@[ext] structure Pool (η κ : Type*) where
  /-- The resources marked as in use. -/
  inUse : Set κ
  /-- The resources each holder has. -/
  holds : η → Set κ

namespace Pool

variable {P : Pool η κ} {h h' : η} {c d : κ} {G firm : Set η}

/-- Every held resource is marked. -/
def Covered (P : Pool η κ) : Prop := ∀ h, P.holds h ⊆ P.inUse

/-- Every mark is owed to a holder. -/
def Backed (P : Pool η κ) : Prop := ∀ c ∈ P.inUse, ∃ h, c ∈ P.holds h

/-- No two of the firm holders have the same resource. -/
def Exclusive (P : Pool η κ) (firm : Set η) : Prop :=
  ∀ h ∈ firm, ∀ h' ∈ firm, ∀ c ∈ P.holds h, c ∈ P.holds h' → h = h'

theorem Exclusive.mono {firm' : Set η} (hP : P.Exclusive firm) (hle : firm' ⊆ firm) :
    P.Exclusive firm' :=
  fun h hh h' hh' ↦ hP h (hle hh) h' (hle hh')

/-! ## The moves -/

/-- A holder exchanges what it has for one marked resource. -/
def acquire (P : Pool η κ) (h : η) (c : κ) : Pool η κ where
  inUse := insert c P.inUse
  holds h' := {d | (h' = h ∧ d = c) ∨ (h' ≠ h ∧ d ∈ P.holds h')}

/-- A holder goes without giving back. -/
def forget (P : Pool η κ) (h : η) : Pool η κ where
  inUse := P.inUse
  holds h' := {d | h' ≠ h ∧ d ∈ P.holds h'}

/-- Some holders give back what they have. -/
def release (P : Pool η κ) (G : Set η) : Pool η κ where
  inUse := {d | d ∈ P.inUse ∧ ∀ h ∈ G, d ∉ P.holds h}
  holds h' := {d | h' ∉ G ∧ d ∈ P.holds h'}

@[simp] theorem mem_holds_acquire :
    d ∈ (P.acquire h c).holds h' ↔ (h' = h ∧ d = c) ∨ (h' ≠ h ∧ d ∈ P.holds h') := Iff.rfl

@[simp] theorem mem_holds_release : d ∈ (P.release G).holds h' ↔ h' ∉ G ∧ d ∈ P.holds h' := Iff.rfl

@[simp] theorem mem_inUse_acquire : d ∈ (P.acquire h c).inUse ↔ d = c ∨ d ∈ P.inUse := Iff.rfl

@[simp] theorem mem_inUse_release :
    d ∈ (P.release G).inUse ↔ d ∈ P.inUse ∧ ∀ h ∈ G, d ∉ P.holds h := Iff.rfl

theorem ext_mem {Q : Pool η κ} (hinUse : ∀ c, c ∈ P.inUse ↔ c ∈ Q.inUse)
    (hholds : ∀ h c, c ∈ P.holds h ↔ c ∈ Q.holds h) : P = Q :=
  Pool.ext (Set.ext hinUse) (funext fun h ↦ Set.ext (hholds h))

/-- What the holders in `G` have, nobody else has. -/
def Spares (P : Pool η κ) (G : Set η) : Prop :=
  ∀ h ∈ G, ∀ h' ∉ G, ∀ c ∈ P.holds h, c ∉ P.holds h'

/-- The marked resources that `h` has apart from `c`, someone else has too. -/
def SharesBut (P : Pool η κ) (h : η) (c : Option κ) : Prop :=
  ∀ d ∈ P.holds h, d ∈ P.inUse → some d ≠ c → ∃ h' ≠ h, d ∈ P.holds h'

/-! ## Coverage -/

theorem Covered.acquire (hP : P.Covered) : (P.acquire h c).Covered := by
  rintro h' d (⟨-, rfl⟩ | ⟨-, hd⟩)
  · exact Set.mem_insert _ _
  · exact Set.mem_insert_of_mem _ (hP h' hd)

theorem Covered.release (hP : P.Covered) (hG : P.Spares G) : (P.release G).Covered :=
  fun h' _ hd ↦ ⟨hP h' hd.2, fun h hh hdh ↦ hG h hh h' hd.1 _ hdh hd.2⟩

/-! ## Backing -/

/-- Marks may go and holders may come. -/
theorem Backed.mono {Q : Pool η κ} (hP : P.Backed) (hinUse : ∀ c ∈ Q.inUse, c ∈ P.inUse)
    (hholds : ∀ h, ∀ c ∈ P.holds h, c ∈ Q.holds h) : Q.Backed := by
  intro c hc
  obtain ⟨h, hh⟩ := hP c (hinUse c hc)
  exact ⟨h, hholds h c hh⟩

theorem Backed.acquire (hP : P.Backed) (hh : P.SharesBut h (some c)) : (P.acquire h c).Backed := by
  intro d hd
  by_cases hdc : d = c
  · exact ⟨h, Or.inl ⟨rfl, hdc⟩⟩
  · obtain ⟨h', hh'⟩ := hP d (hd.resolve_left hdc)
    by_cases heq : h' = h
    · -- the mark was owed to the holder itself, so it needs another one
      obtain ⟨h'', hne, hd''⟩ := hh d (heq ▸ hh') (hd.resolve_left hdc) (by simpa using hdc)
      exact ⟨h'', Or.inr ⟨hne, hd''⟩⟩
    · exact ⟨h', Or.inr ⟨heq, hh'⟩⟩

theorem Backed.forget (hP : P.Backed) (hh : P.SharesBut h none) : (P.forget h).Backed := by
  intro d hd
  obtain ⟨h', hh'⟩ := hP d hd
  by_cases heq : h' = h
  · exact hh d (heq ▸ hh') hd (by simp)
  · exact ⟨h', heq, hh'⟩

theorem Backed.release (hP : P.Backed) : (P.release G).Backed := by
  rintro d ⟨hd, hG⟩
  obtain ⟨h, hh⟩ := hP d hd
  exact ⟨h, fun hmem ↦ hG h hmem hh, hh⟩

/-! ## Exclusiveness -/

/-- A holder that takes an unmarked resource may join the firm ones. -/
theorem Exclusive.acquire_unmarked (hP : P.Exclusive firm) (hcov : P.Covered)
    (hc : c ∉ P.inUse) : (P.acquire h c).Exclusive (insert h firm) := by
  have hfree : ∀ h', c ∉ P.holds h' := fun h' hmem ↦ hc (hcov h' hmem)
  rintro h₁ hh₁ h₂ hh₂ d (⟨rfl, rfl⟩ | ⟨hne₁, hd₁⟩) (⟨rfl, hd₂⟩ | ⟨hne₂, hd₂⟩)
  · rfl
  · exact absurd hd₂ (hfree h₂)
  · exact absurd (hd₂ ▸ hd₁) (hfree h₁)
  · exact hP h₁ (hh₁.resolve_left hne₁) h₂ (hh₂.resolve_left hne₂) d hd₁ hd₂

/-- A holder that takes a marked resource leaves the firm ones. -/
theorem Exclusive.acquire_marked (hP : P.Exclusive firm) :
    (P.acquire h c).Exclusive (firm \ {h}) := by
  rintro h₁ ⟨hh₁, hne₁⟩ h₂ ⟨hh₂, hne₂⟩ d hd₁ hd₂
  have hd₁' := (hd₁.resolve_left fun heq ↦ hne₁ heq.1).2
  exact hP h₁ hh₁ h₂ hh₂ d hd₁' (hd₂.resolve_left fun heq ↦ hne₂ heq.1).2

theorem Exclusive.acquire_held (hP : P.Exclusive firm) (hc : c ∈ P.holds h) :
    (P.acquire h c).Exclusive firm := by
  have hheld : ∀ h₁ d, d ∈ (P.acquire h c).holds h₁ → d ∈ P.holds h₁ := by
    rintro h₁ d (⟨rfl, rfl⟩ | ⟨-, hd⟩)
    · exact hc
    · exact hd
  exact fun h₁ hh₁ h₂ hh₂ d hd₁ hd₂ ↦ hP h₁ hh₁ h₂ hh₂ d (hheld h₁ d hd₁) (hheld h₂ d hd₂)

theorem Exclusive.release (hP : P.Exclusive firm) : (P.release G).Exclusive firm :=
  fun h hh h' hh' c hc hc' ↦ hP h hh h' hh' c hc.2 hc'.2

end Pool

end Reservation
