import SeededArt.Proofs.Synthesis.Recursion
/-!
# Grammars that synthesize alike

A level of synthesis sees a grammar through one window: the alternative that a draw chooses for a
symbol at a depth (`choiceAt`). So if two grammars of one name choose the same for some symbols, and
no choice leads out of these symbols (`AgreeOn`), then they synthesize the same from each of them,
with the same draws (`AgreeOn.synthesize_eq`).
-/

namespace SeededArt

open Arithmetic SeededArt.Random

namespace Grammar

section Choice

variable {α : Type} [Arithmetic α]

/-- What a draw chooses for a symbol at a depth, if the symbol names a rule. -/
def choiceAt (g : Grammar α) (symbol : String) (depth : Int) (u : α) :
    Option (Except (NothingChosen α) (Alternative α)) :=
  (g.rule? symbol).map fun rule => choose (·.weight) (g.ruleAtDepth rule depth).alternatives u

/-- For some symbols, draws with a property choose the same in both grammars, and what they choose
leads to such symbols again. -/
structure AgreeOn (P : α → Prop) (S : String → Prop) (g h : Grammar α) : Prop where
  name_eq : h.name = g.name
  choice_eq : ∀ symbol, S symbol → ∀ depth u, P u →
    h.choiceAt symbol depth u = g.choiceAt symbol depth u
  closed : ∀ symbol, S symbol → ∀ depth u, P u → ∀ a, g.choiceAt symbol depth u = some (.ok a) →
    ∀ argument ∈ a.arguments, S argument

end Choice

section Levels

variable {σ α : Type} [Arithmetic α] [Source σ α] {P : α → Prop} {S : String → Prop}
  {g h : Grammar α} {symbol text : String} {symbols : List String} {depth d : Int} {s s' : σ}
  {a : Alternative α}

/-- A level depends on the name of the grammar and on the choice. -/
theorem level_congr (hname : h.name = g.name)
    (hchoice : h.choiceAt symbol depth (Source.next s : α × σ).1 =
      g.choiceAt symbol depth (Source.next s : α × σ).1) :
    h.level symbol depth s = g.level symbol depth s := by
  unfold choiceAt ruleAtDepth at hchoice
  unfold level
  cases hg : g.rule? symbol with
  | none =>
    rw [hg, Option.map_none, Option.map_eq_none_iff] at hchoice
    rw [hchoice]
    simp only [hname]
  | some rule =>
    rw [hg, Option.map_some, Option.map_eq_some_iff] at hchoice
    obtain ⟨other, hother, hsame⟩ := hchoice
    rw [hother]
    simp only [hsame]

theorem choiceAt_of_level (hlevel : g.level symbol depth s = .call a d s') :
    g.choiceAt symbol depth (Source.next s : α × σ).1 = some (.ok a) := by
  obtain ⟨rule, hrule, hchoose, -⟩ := of_level_eq_call hlevel
  rw [choiceAt, hrule, Option.map_some, hchoose]

theorem allDraws_of_level (hlevel : g.level symbol depth s = .call a d s') (hs : AllDraws P s) :
    AllDraws P s' := by
  obtain ⟨-, -, -, -, -, rfl⟩ := of_level_eq_call hlevel
  have hdecay := decay_eq_decayed (α := α) (ε := SynthesisFault α) depth
    (Source.next s : α × σ).2
  exact (decay_eq_ok_iff.1 hdecay).allDraws hs.tail

theorem allDraws_of_textWithin {levels : Nat}
    (htext : g.textWithin levels symbol depth s = .ok text s') (hs : AllDraws P s) :
    AllDraws P s' := by
  rw [textWithin, bind_apply] at htext
  split at htext
  next e s₁ he =>
    cases htext
    obtain ⟨t, ht, -⟩ := expand_eq_ok_iff.1 he
    exact ht.allDraws hs
  next => cases htext

namespace AgreeOn

theorem mapM_textWithin_eq {levels : Nat}
    (hone : ∀ {symbol : String} {depth : Int} {s : σ}, S symbol → AllDraws P s →
      h.textWithin levels symbol depth s = g.textWithin levels symbol depth s)
    (hsymbols : ∀ x ∈ symbols, S x) (hs : AllDraws P s) :
    (symbols.mapM fun x => h.textWithin levels x depth) s =
      (symbols.mapM fun x => g.textWithin levels x depth) s := by
  induction symbols generalizing s with
  | nil => rfl
  | cons symbol symbols ih =>
    obtain ⟨hsymbol, hrest⟩ := List.forall_mem_cons.1 hsymbols
    rw [mapM_cons_apply, mapM_cons_apply, hone hsymbol hs]
    cases htext : g.textWithin levels symbol depth s with
    | error fault s₁ => rfl
    | ok text s₁ =>
      simp only
      rw [ih hrest (allDraws_of_textWithin htext hs)]

theorem textWithin_eq (hagree : AgreeOn P S g h) (hsymbol : S symbol) (hs : AllDraws P s)
    (levels : Nat) :
    h.textWithin levels symbol depth s = g.textWithin levels symbol depth s := by
  induction levels generalizing symbol depth s with
  | zero => rfl
  | succ levels ih =>
    rw [textWithin_succ, textWithin_succ,
      level_congr hagree.name_eq (hagree.choice_eq symbol hsymbol depth _ hs.head)]
    cases hlevel : g.level symbol depth s with
    | ended ending => rfl
    | call a d s₁ =>
      simp only
      have harguments : ∀ x ∈ a.arguments, S x :=
        hagree.closed symbol hsymbol depth _ hs.head a (choiceAt_of_level hlevel)
      rw [mapM_textWithin_eq ih harguments (allDraws_of_level hlevel hs)]

/-- Grammars that agree end with the same text or fault, and leave the same draws. -/
theorem synthesize_eq (hagree : AgreeOn P S g h) (hsymbol : S symbol) (hs : AllDraws P s) :
    h.synthesize symbol depth s = g.synthesize symbol depth s := by
  rw [synthesize_eq_textWithin, synthesize_eq_textWithin]
  exact hagree.textWithin_eq hsymbol hs _

end AgreeOn

end Levels

end Grammar

end SeededArt
