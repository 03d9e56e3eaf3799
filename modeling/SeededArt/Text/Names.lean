/-!
# Sets of names

A set of names is a strictly ascending list, in the order of the UTF-8 bytes. The first byte that
differs decides, and a text that another begins with comes before it. This order is total, so
`insertName` has one place for each name and keeps a list ascending.
-/

namespace SeededArt.Text

/-- The UTF-8 bytes of a text. -/
def bytes (text : String) : List UInt8 := text.toByteArray.data.toList

theorem bytes_inj {s t : String} : bytes s = bytes t ↔ s = t := by
  rw [bytes, bytes, Array.toList_inj, ← ByteArray.ext_iff, String.toByteArray_inj]

/-- Whether bytes come before other bytes. -/
def bytesBefore : List UInt8 → List UInt8 → Bool
  | _, [] => false
  | [], _ :: _ => true
  | a :: as, b :: bs => a.toNat < b.toNat || (a == b && bytesBefore as bs)

theorem bytesBefore_cons {a b : UInt8} {as bs : List UInt8} :
    bytesBefore (a :: as) (b :: bs) = true ↔
      a.toNat < b.toNat ∨ a = b ∧ bytesBefore as bs = true := by
  simp [bytesBefore]

theorem bytesBefore_irrefl (as : List UInt8) : bytesBefore as as = false := by
  induction as with
  | nil => rfl
  | cons a as ih => simp [bytesBefore, ih]

theorem bytesBefore_trans {as bs cs : List UInt8} (hab : bytesBefore as bs = true)
    (hbc : bytesBefore bs cs = true) : bytesBefore as cs = true := by
  induction as generalizing bs cs with
  | nil =>
    cases bs with
    | nil => simp [bytesBefore] at hab
    | cons b bs =>
      cases cs with
      | nil => simp [bytesBefore] at hbc
      | cons c cs => rfl
  | cons a as ih =>
    cases bs with
    | nil => simp [bytesBefore] at hab
    | cons b bs =>
      cases cs with
      | nil => simp [bytesBefore] at hbc
      | cons c cs =>
        rw [bytesBefore_cons] at hab hbc ⊢
        rcases hab with hab | ⟨rfl, hab⟩
        · rcases hbc with hbc | ⟨rfl, -⟩
          · exact Or.inl (Nat.lt_trans hab hbc)
          · exact Or.inl hab
        · rcases hbc with hbc | ⟨rfl, hbc⟩
          · exact Or.inl hbc
          · exact Or.inr ⟨rfl, ih hab hbc⟩

theorem bytesBefore_total {as bs : List UInt8} (hab : bytesBefore as bs = false)
    (hba : bytesBefore bs as = false) : as = bs := by
  induction as generalizing bs with
  | nil =>
    cases bs with
    | nil => rfl
    | cons b bs => simp [bytesBefore] at hab
  | cons a as ih =>
    cases bs with
    | nil => simp [bytesBefore] at hba
    | cons b bs =>
      rw [← Bool.not_eq_true, bytesBefore_cons, not_or, not_and] at hab hba
      have heq : a = b := UInt8.toNat_inj.1 (by omega)
      subst heq
      rw [ih (by simpa using hab.2 rfl) (by simpa using hba.2 rfl)]

/-- Whether a name comes before another one. -/
def Precedes (s t : String) : Prop := bytesBefore (bytes s) (bytes t) = true

instance (s t : String) : Decidable (Precedes s t) := inferInstanceAs (Decidable (_ = true))

theorem Precedes.irrefl (s : String) : ¬Precedes s s := by
  simp [Precedes, bytesBefore_irrefl]

theorem Precedes.trans {s t u : String} (hst : Precedes s t) (htu : Precedes t u) :
    Precedes s u := bytesBefore_trans hst htu

theorem Precedes.total {s t : String} (hst : ¬Precedes s t) (hne : s ≠ t) : Precedes t s := by
  by_cases hts : Precedes t s
  · exact hts
  · have := bytesBefore_total (by simpa [Precedes] using hst) (by simpa [Precedes] using hts)
    exact absurd (bytes_inj.1 this) hne

/-- Adds a name at its place, unless it is there already. -/
def insertName (name : String) : List String → List String
  | [] => [name]
  | first :: rest =>
    if Precedes name first then name :: first :: rest
    else if name = first then first :: rest
    else first :: insertName name rest

/-- The names of a list, ascending and without repetition. -/
def nameSet (names : List String) : List String := names.foldr insertName []

@[simp] theorem mem_insertName {x name : String} {names : List String} :
    x ∈ insertName name names ↔ x = name ∨ x ∈ names := by
  induction names with
  | nil => simp [insertName]
  | cons first rest ih =>
    simp only [insertName]
    split
    next => simp
    next =>
      split
      next _ heq => subst heq; simp
      next => simp [ih, or_left_comm]

@[simp] theorem mem_nameSet {x : String} {names : List String} :
    x ∈ nameSet names ↔ x ∈ names := by
  induction names with
  | nil => simp [nameSet]
  | cons first rest ih => simpa [nameSet] using or_congr_right ih

theorem pairwise_insertName {name : String} {names : List String}
    (h : names.Pairwise Precedes) : (insertName name names).Pairwise Precedes := by
  induction names with
  | nil => simp [insertName]
  | cons first rest ih =>
    obtain ⟨below, ascending⟩ := List.pairwise_cons.1 h
    simp only [insertName]
    split
    next hlt =>
      refine List.pairwise_cons.2 ⟨fun x hx => ?_, h⟩
      rcases List.mem_cons.1 hx with rfl | hx
      · exact hlt
      · exact hlt.trans (below x hx)
    next hnlt =>
      split
      next => exact h
      next hne =>
        refine List.pairwise_cons.2 ⟨fun x hx => ?_, ih ascending⟩
        rcases mem_insertName.1 hx with rfl | hx
        · exact Precedes.total hnlt hne
        · exact below x hx

theorem pairwise_nameSet (names : List String) : (nameSet names).Pairwise Precedes := by
  induction names with
  | nil => simp [nameSet]
  | cons first rest ih => exact pairwise_insertName ih

end SeededArt.Text
