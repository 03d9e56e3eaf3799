import SeededArt.Proofs.Numbers.Double
import SeededArt.Proofs.Sampling.Unit
import SeededArt.Proofs.Synthesis.CheckedDepth
import SeededArt.Proofs.Synthesis.Recursion
/-!
# Synthesis into a buffer

`expandInto` is synthesis as a program that appends to a buffer and advances a source: it writes a
name and a parenthesis before it knows the arguments, and nothing it has written is looked at again.
It appends what `spell` answers to whatever the buffer holds, and takes the draws that `spell` takes
(`appends_expandInto`).

With `synthesize` this makes four descriptions of one recursion: into a buffer, with a bound on the
levels, with an expression in between, and by draws alone (`synthesize_eq_spell`).
-/

namespace SeededArt

open Arithmetic SeededArt.Random

/-! ## Buffers -/

/-- A source together with the text written so far. -/
structure Writing (σ : Type) where
  source : σ
  text : String

/-- Draws leave the text alone. -/
instance (σ α : Type) [Source σ α] : Source (Writing σ) α where
  next w :=
    let (u, source) := Source.next w.source
    (u, { w with source })
  strays w := @Source.strays σ α _ w.source

def write {ε σ : Type} (text : String) : Drawing ε (Writing σ) Unit := fun w =>
  .ok () { w with text := w.text ++ text }

/-- What stands before an argument, unless it is the first. -/
def separate {ε σ : Type} (place : Nat) : Drawing ε (Writing σ) Unit :=
  if 0 < place then write ", " else pure ()

/-! ## What is appended -/

section Appending

variable {σ α β ε : Type} {buffer : String}

/-- A program has appended what an ending shows to a buffer, or has failed like it after it
appended some text. -/
def Appends (shown : β → String) (buffer : String) :
    Ending α σ β → Ending α (Writing σ) Unit → Prop
  | .ok b s, r => r = .ok () ⟨s, buffer ++ shown b⟩
  | .error fault s, r => ∃ written, r = .error fault ⟨s, buffer ++ written⟩

theorem appends_ok {shown : β → String} {b : β} {s : σ} {r : Ending α (Writing σ) Unit} :
    Appends shown buffer (.ok b s) r ↔ r = .ok () ⟨s, buffer ++ shown b⟩ := Iff.rfl

theorem appends_error {shown : β → String} {fault : SynthesisFault α} {s : σ}
    {r : Ending α (Writing σ) Unit} :
    Appends shown buffer (.error fault s) r ↔
      ∃ written, r = .error fault ⟨s, buffer ++ written⟩ := Iff.rfl

theorem Appends.isCut {shown : β → String} {r : Ending α σ β} {w : Ending α (Writing σ) Unit}
    (h : Appends shown buffer r w) (hcut : IsCut r) : IsCut w := by
  cases r with
  | ok b s => exact absurd hcut not_isCut_ok
  | error fault s =>
    obtain ⟨written, rfl⟩ := h
    exact isCut_error.2 (isCut_error.1 hcut)

theorem write_apply (text : String) (w : Writing σ) :
    (write text : Drawing ε (Writing σ) Unit) w = .ok () ⟨w.source, w.text ++ text⟩ := rfl

theorem separate_apply (place : Nat) (w : Writing σ) :
    (separate place : Drawing ε (Writing σ) Unit) w =
      .ok () ⟨w.source, w.text ++ if 0 < place then ", " else ""⟩ := by
  unfold separate
  split
  next => rfl
  next =>
    rw [String.append_empty]
    rfl

/-- The texts of arguments from the given place on, each but the first of all after a comma. -/
def listing (place : Nat) : List String → String
  | [] => ""
  | text :: texts => (if 0 < place then ", " else "") ++ text ++ listing (place + 1) texts

theorem listing_succ (place : Nat) (text : String) (texts : List String) :
    listing (place + 1) (text :: texts) = ", " ++ ", ".intercalate (text :: texts) := by
  induction texts generalizing place text with
  | nil => simp [listing]
  | cons next texts ih =>
    rw [listing, ih, String.intercalate_cons_cons]
    simp [String.append_assoc]

theorem listing_zero (texts : List String) : listing 0 texts = ", ".intercalate texts := by
  cases texts with
  | nil => rfl
  | cons text texts =>
    cases texts with
    | nil => simp [listing]
    | cons next texts =>
      rw [listing, listing_succ, String.intercalate_cons_cons]
      simp [String.append_assoc]

/-- Programs that append the texts of arguments append all of them, with commas between. -/
theorem appends_forM {run : String → Drawing (SynthesisFault α) (Writing σ) Unit}
    {text : String → Drawing (SynthesisFault α) σ String}
    (h : ∀ x s buffer, Appends id buffer (text x s) (run x ⟨s, buffer⟩)) (symbols : List String)
    (place : Nat) (s : σ) (buffer : String) :
    Appends (listing place) buffer ((symbols.mapM text) s)
      ((forM (symbols.zipIdx place) fun (x, place) => do
        separate place
        run x) ⟨s, buffer⟩) := by
  induction symbols generalizing place s buffer with
  | nil =>
    show (EStateM.Result.ok () (Writing.mk s buffer) : Ending α (Writing σ) Unit) =
      .ok () ⟨s, buffer ++ ""⟩
    rw [String.append_empty]
  | cons x symbols ih =>
    have hfirst := h x s (buffer ++ if 0 < place then ", " else "")
    rw [List.zipIdx_cons, List.forM_cons, mapM_cons_apply, bind_apply]
    simp only [bind_apply, separate_apply]
    cases hx : text x s with
    | error fault s₁ =>
      rw [hx] at hfirst
      obtain ⟨written, hrun⟩ := hfirst
      refine ⟨(if 0 < place then ", " else "") ++ written, ?_⟩
      rw [← String.append_assoc]
      simp only [hrun]
    | ok t s₁ =>
      have hrun : run x ⟨s, buffer ++ if 0 < place then ", " else ""⟩ =
          .ok () ⟨s₁, buffer ++ (if 0 < place then ", " else "") ++ t⟩ := by
        rw [hx] at hfirst
        exact hfirst
      have hrest := ih (place + 1) s₁ (buffer ++ (if 0 < place then ", " else "") ++ t)
      simp only [hrun]
      cases hsymbols : (symbols.mapM text) s₁ with
      | error fault s₂ =>
        rw [hsymbols] at hrest
        obtain ⟨written, hwritten⟩ := hrest
        refine ⟨(if 0 < place then ", " else "") ++ t ++ written, ?_⟩
        rw [← String.append_assoc, ← String.append_assoc]
        exact hwritten
      | ok texts s₂ =>
        rw [hsymbols] at hrest
        show _ = _
        rw [listing, ← String.append_assoc, ← String.append_assoc]
        exact hrest

end Appending

/-! ## Expansion into a buffer -/

section Writing

variable {σ α : Type} [Source σ α]

theorem keepsDraws_writing (buffer : String) :
    KeepsDraws α fun s : σ => Writing.mk s buffer := fun _ => rfl

variable [Arithmetic α]

/-- Expands a rule, in at most so many levels, and appends the text of the expression. -/
def Grammar.expandInto (g : Grammar α) :
    (levels : Nat) → (symbol : String) → (depth : Int) →
      Drawing (SynthesisFault α) (Writing σ) Unit
  | 0, _, _ => throw .tooManyLevels
  | levels + 1, symbol, depth => do
    let rule ← match g.require symbol with
      | .ok rule => pure rule
      | .error fault => throw fault
    let chosen ← pickAlternative (g.ruleAtDepth rule depth)
    if chosen.isTerminal then
      if chosen.isConstant then
        let value : α ← draw
        write (literal value)
      else
        write chosen.emit
        write "()"
    else
      let left ← decay (α := α) (depth + 1).toNat depth
      write chosen.emit
      write "("
      forM chosen.arguments.zipIdx fun (argument, place) => do
        separate place
        g.expandInto levels argument (left - 1)
      write ")"

section Expansion

variable {g : Grammar α} {symbol : String}

theorem expandInto_succ (g : Grammar α) (levels : Nat) (symbol : String) (depth : Int) (s : σ)
    (buffer : String) :
    g.expandInto (levels + 1) symbol depth ⟨s, buffer⟩ =
      match g.level symbol depth s with
      | .ended (.ok text s) => .ok () ⟨s, buffer ++ text⟩
      | .ended (.error fault s) => .error fault ⟨s, buffer⟩
      | .call a depth s =>
        match (forM a.arguments.zipIdx fun (x, place) => do
            separate place
            g.expandInto levels x depth) (Writing.mk s (buffer ++ a.emit ++ "(")) with
        | .ok () w => .ok () ⟨w.source, w.text ++ ")"⟩
        | .error fault w => .error fault w := by
  rw [Grammar.expandInto]
  unfold Grammar.require Grammar.level
  cases g.rule? symbol with
  | none => rfl
  | some rule =>
    simp only [bind_apply, pure_apply, Grammar.pickAlternative, pick_eq, Grammar.ruleAtDepth,
      keepsDraws_writing buffer s]
    cases choose (·.weight) (if depth ≤ 0 then g.fallbackRule else rule).alternatives
      (Source.next s : α × σ).1 with
    | error cause => rfl
    | ok a =>
      simp only
      cases hconst : a.isConstant with
      | true =>
        simp only [Alternative.isTerminal_of_isConstant hconst, if_true]
        rfl
      | false =>
        cases a.isTerminal with
        | true =>
          simp only [if_true, Bool.false_eq_true, if_false, bind_apply, write_apply]
          rw [String.append_assoc]
        | false =>
          simp only [Bool.false_eq_true, if_false, bind_apply, decay_eq_decayed,
            (keepsDraws_writing buffer).decayed, write_apply]
          generalize (forM (m := Drawing (SynthesisFault α) (Writing σ)) a.arguments.zipIdx _) _ = r
          cases r <;> rfl

/-- An expansion into a buffer appends the text of the expression, with the same draws. -/
theorem appends_expandInto (g : Grammar α) (levels : Nat) (symbol : String) (depth : Int) (s : σ)
    (buffer : String) :
    Appends id buffer (g.textWithin levels symbol depth s)
      (g.expandInto levels symbol depth ⟨s, buffer⟩) := by
  induction levels generalizing symbol depth s buffer with
  | zero =>
    refine ⟨"", ?_⟩
    rw [String.append_empty]
    rfl
  | succ levels ih =>
    rw [Grammar.textWithin_succ, expandInto_succ]
    cases g.level symbol depth s with
    | ended ending =>
      cases ending with
      | ok text s => rfl
      | error fault s =>
        refine ⟨"", ?_⟩
        rw [String.append_empty]
    | call a depth s =>
      have hlist := appends_forM (fun x s buffer => ih x depth s buffer) a.arguments 0 s
        (buffer ++ a.emit ++ "(")
      simp only
      cases hargs : (a.arguments.mapM fun x => g.textWithin levels x depth) s with
      | error fault s₁ =>
        rw [hargs, appends_error] at hlist
        obtain ⟨written, hwritten⟩ := hlist
        refine ⟨a.emit ++ "(" ++ written, ?_⟩
        rw [hwritten]
        simp only [String.append_assoc]
      | ok texts s₁ =>
        rw [hargs, appends_ok] at hlist
        rw [Alternative.close, appends_ok, hlist, listing_zero]
        simp only [String.append_assoc, id]

theorem Grammar.level_of_not_has (h : g.has symbol = false) (depth : Int) (s : σ) :
    g.level symbol depth s = .ended (.error (.unknownRule symbol g.name) s) := by
  have hnone : g.rule? symbol = none := by
    rw [← Option.not_isSome_iff_eq_none, Draft.rule?, Rule.isSome_find?_eq]
    exact Bool.not_eq_true _ ▸ h
  unfold level
  rw [hnone]

end Expansion

end Writing

/-- Synthesis is the recursion on draws. If that ends, then within every bound on the levels that is
large enough a program appends its text to any buffer, or fails as it does, and so does `synthesize`
if the source allows for enough strays; if it does not end, every bound cuts it off. No more strays
need be allowed for than there are. A symbol that names no rule takes no draw. -/
theorem Grammar.synthesize_eq_spell (g : Grammar Float) (symbol : String) (depth : Int) {σ : Type}
    [Source σ Float] (s : σ) :
    (∀ ending, g.spell symbol depth s = some ending → ∃ bound, ∀ levels, bound ≤ levels →
        (∀ buffer, Appends id buffer ending (g.expandInto levels symbol depth ⟨s, buffer⟩)) ∧
          g.synthesize symbol depth (Allowing.mk s levels) =
            carry (fun s => Allowing.mk s levels) ending) ∧
      (g.spell symbol depth s = none → ∀ levels buffer,
        IsCut (g.expandInto levels symbol depth ⟨s, buffer⟩)) ∧
      (¬IsCut (g.synthesize symbol depth s) →
        g.spell symbol depth s = some (g.synthesize symbol depth s)) ∧
      (StraysAtMost (InUnit (α := Float)) s (@Source.strays σ Float _ s) →
        g.spell symbol depth s = some (g.synthesize symbol depth s)) ∧
      (g.has symbol = false →
        g.spell symbol depth s = some (.error (.unknownRule symbol g.name) s) ∧
          g.synthesize symbol depth s = .error (.unknownRule symbol g.name) s ∧
          ∀ levels buffer, g.expandInto (levels + 1) symbol depth ⟨s, buffer⟩ =
            .error (.unknownRule symbol g.name) ⟨s, buffer⟩) := by
  refine ⟨?_, ?_, ?_, ?_, ?_⟩
  · intro ending h
    obtain ⟨-, bound, hbound⟩ := exists_textWithin_of_spell h
    refine ⟨bound, fun levels hlevels => ⟨fun buffer => ?_, ?_⟩⟩
    · rw [← hbound levels hlevels]
      exact appends_expandInto g levels symbol depth s buffer
    · have henough : bound ≤ levelBound Float depth (Allowing.mk s levels) := by
        show bound ≤ depth.toNat + levels + 1
        omega
      rw [synthesize_eq_textWithin, (keepsDraws_allowing levels).textWithin, hbound _ henough]
  · intro h levels buffer
    refine (appends_expandInto g levels symbol depth s buffer).isCut ?_
    by_contra hcut
    rw [spell_eq_of_textWithin hcut] at h
    cases h
  · intro hcut
    exact spell_eq_of_textWithin hcut
  · intro hs
    refine spell_eq_of_textWithin (not_isCut_textWithin g.choosesPositive_of_inUnit hs ?_)
    unfold levelBound
    omega
  · intro h
    have hlevel := level_of_not_has h depth s
    refine ⟨?_, ?_, fun levels buffer => ?_⟩
    · rw [spell_eq_level, hlevel]
    · rw [synthesize_eq_textWithin, levelBound, textWithin_succ, hlevel]
    · rw [expandInto_succ, hlevel]

/-- A generator draws no strays, so its runs are those of the recursion. -/
theorem Grammar.spell_perrig :
    ∃ g : Grammar Float, Builtin.assemble "perrig" Builtin.perrigRules = .ok g ∧
      StraysAtMost (InUnit (α := Float)) (Mulberry.ofSeed "art") 0 ∧
      (∃ (ending : Ending Float Mulberry String) (levels : ℕ),
        g.spell "E" 4 (Mulberry.ofSeed "art") = some ending ∧
        g.synthesize "E" 4 (Mulberry.ofSeed "art") = ending ∧
        Appends id "colour = " ending
          (g.expandInto levels "E" 4 ⟨Mulberry.ofSeed "art", "colour = "⟩)) ∧
      g.has "nowhere" = false ∧
      g.synthesize "nowhere" 4 (Mulberry.ofSeed "art") =
        .error (.unknownRule "nowhere" g.name) (Mulberry.ofSeed "art") := by
  have hunit : AllDraws (InUnit (α := Float)) (Mulberry.ofSeed "art") := by
    intro n
    exact (allDraws_mulberry (Mulberry.ofSeed "art") n).inUnit
  have hstrays := hunit.straysAtMost 0
  have hcheck : Builtin.assembles (fun g : Grammar Float => !g.has "nowhere") "perrig"
      Builtin.perrigRules = true := by
    decide +kernel
  obtain ⟨g, hg, habsent⟩ := Builtin.exists_assemble hcheck
  rw [Bool.not_eq_true'] at habsent
  obtain ⟨hends, -, -, hsame, -⟩ := g.synthesize_eq_spell "E" 4 (Mulberry.ofSeed "art")
  obtain ⟨-, -, -, -, hnowhere⟩ := g.synthesize_eq_spell "nowhere" 4 (Mulberry.ofSeed "art")
  obtain ⟨levels, hlevels⟩ := hends _ (hsame hstrays)
  refine ⟨g, hg, hstrays, ⟨_, levels, hsame hstrays, rfl, ?_⟩, habsent, (hnowhere habsent).2.1⟩
  exact (hlevels levels le_rfl).1 "colour = "

end SeededArt
