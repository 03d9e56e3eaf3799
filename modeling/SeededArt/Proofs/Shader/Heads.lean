import SeededArt.Proofs.Shader.Definitions
import SeededArt.Proofs.Shader.Placeholder
import SeededArt.Proofs.Text.Words
/-!
# Lines that count as defining a function

A line has the head of a function if it is, between blanks, two words, a parenthesis and whatever
ends in a brace (`HasHead`). A template defines the functions whose heads its lines have, unless
`return` is the first word (`Template.definesFunction_exact`); whether the two words are names is
not looked at. A definition proper has names there (`Template.IsDefined`). So an `else if` with a
brace at the end of its line, and a definition behind a comment mark, count as definitions too
(`Template.definesFunction_else_if`).
-/

namespace SeededArt

open Text

/-! ## Heads -/

/-- Between blanks, a line is the head of a function: two words without a parenthesis, blanks
between them, the first parenthesis, and at the end a brace. -/
def HasHead (line type name : List Char) : Prop :=
  ∃ indent gap space parameters after,
    line = indent ++ (type ++ (gap ++ (name ++ space)) ++ '(' :: (parameters ++ '\x7b' :: after)) ∧
      (∀ c ∈ indent ++ (gap ++ (space ++ after)), isBlank c = true) ∧ gap ≠ [] ∧
      IsWord type ∧ IsWord name ∧ '(' ∉ type ++ name

section Heads

variable {cs head line type name : List Char}

theorem isBlank_brace : isBlank '\x7b' = false := by decide

theorem not_mem_parenthesis_of_blanks (h : ∀ c ∈ cs, isBlank c = true) : '(' ∉ cs := by
  intro hc
  have hblank := h _ hc
  rw [show isBlank '(' = false from by decide] at hblank
  exact Bool.false_ne_true hblank

/-- What precedes the first parenthesis of a text. -/
theorem takeWhile_ne_parenthesis (h : '(' ∉ head) (after : List Char) :
    (head ++ '(' :: after).takeWhile (· != '(') = head := by
  rw [List.takeWhile_append_of_pos, List.takeWhile_cons_of_neg (by decide), List.append_nil]
  intro c hc
  rw [bne_iff_ne]
  rintro rfl
  exact h hc

/-- A text with a parenthesis that ends in a brace is what precedes its first parenthesis, the
parenthesis, and what stands between it and the brace. -/
theorem opensBlock_iff :
    (cs.getLast? = some '\x7b' ∧ '(' ∈ cs ∧ cs.takeWhile (· != '(') = head) ↔
      '(' ∉ head ∧ ∃ parameters, cs = head ++ '(' :: (parameters ++ ['\x7b']) := by
  constructor
  · rintro ⟨hlast, hmem, rfl⟩
    obtain ⟨head, tail, rfl, hnone⟩ := List.eq_append_cons_of_mem hmem
    rw [takeWhile_ne_parenthesis hnone]
    refine ⟨hnone, ?_⟩
    rw [List.getLast?_append_cons] at hlast
    cases tail using List.reverseRecOn with
    | nil => cases hlast
    | append_singleton parameters last =>
      rw [← List.cons_append, List.getLast?_concat, Option.some.injEq] at hlast
      exact ⟨parameters, by rw [hlast]⟩
  · rintro ⟨hnone, parameters, rfl⟩
    refine ⟨?_, List.mem_append_right head List.mem_cons_self, takeWhile_ne_parenthesis hnone _⟩
    rw [List.getLast?_append_cons, ← List.cons_append, List.getLast?_concat]

/-- The head of a line is what the line, trimmed, has before its first parenthesis. -/
theorem hasHead_iff :
    HasHead line type name ↔ (trim line).getLast? = some '\x7b' ∧ '(' ∈ trim line ∧
      words ((trim line).takeWhile (· != '(')) = [type, name] := by
  constructor
  · rintro ⟨indent, gap, space, parameters, after, rfl, hblank, hgap, htype, hname, hnone⟩
    simp only [List.forall_mem_append] at hblank
    obtain ⟨hindent, hgaps, hspace, hafter⟩ := hblank
    have hpar : '(' ∉ type ++ (gap ++ (name ++ space)) := by
      simp only [List.mem_append, not_or] at hnone ⊢
      exact ⟨hnone.1, not_mem_parenthesis_of_blanks hgaps, hnone.2,
        not_mem_parenthesis_of_blanks hspace⟩
    have hwords : words (type ++ (gap ++ (name ++ space))) = [type, name] := by
      refine words_eq_pair_iff.2 ⟨[], gap, space, rfl, hgap, ?_, htype, hname⟩
      rw [List.nil_append, List.forall_mem_append]
      exact ⟨hgaps, hspace⟩
    -- neither end of what is between the outer blanks is a blank, so this is the trimmed line
    obtain ⟨c, type, rfl⟩ := List.exists_cons_of_ne_nil htype.1
    rw [List.cons_append] at hpar hwords ⊢
    generalize type ++ (gap ++ (name ++ space)) = head at hpar hwords ⊢
    have htrimmed : Trimmed (c :: head ++ '(' :: (parameters ++ ['\x7b'])) := by
      simpa using trimmed_of_ends (htype.2 c List.mem_cons_self) isBlank_brace
        (head ++ '(' :: parameters)
    have htrim : trim (indent ++ (c :: head ++ '(' :: (parameters ++ '\x7b' :: after))) =
        c :: head ++ '(' :: (parameters ++ ['\x7b']) := by
      simpa using trim_append hindent htrimmed hafter
    obtain ⟨hlast, hmem, htake⟩ := opensBlock_iff.2 ⟨hpar, parameters, htrim⟩
    exact ⟨hlast, hmem, by rw [htake, hwords]⟩
  · rintro ⟨hlast, hmem, hwords⟩
    obtain ⟨before, after, hline, hbefore, hafter⟩ := exists_eq_append_trim line
    obtain ⟨hnone, parameters, htrim⟩ := opensBlock_iff.1 ⟨hlast, hmem, rfl⟩
    obtain ⟨indent, gap, space, hhead, hgap, hblank, htype, hname⟩ := words_eq_pair_iff.1 hwords
    rw [hhead] at hnone htrim
    refine ⟨before ++ indent, gap, space, parameters, after, ?_, ?_, hgap, htype, hname, ?_⟩
    · rw [hline, htrim]
      simp only [List.append_assoc, List.cons_append, List.nil_append]
    · simp only [List.forall_mem_append] at hblank ⊢
      exact ⟨⟨hbefore, hblank.1⟩, hblank.2.1, hblank.2.2, hafter⟩
    · simp only [List.mem_append, not_or] at hnone ⊢
      exact ⟨hnone.2.1, hnone.2.2.2.1⟩

/-- The two words of the head of a line, if it has one. -/
def head? (line : List Char) : Option (List Char × List Char) :=
  let line := trim line
  if line.getLast? = some '\x7b' ∧ '(' ∈ line then
    match words (line.takeWhile (· != '(')) with
    | [type, name] => some (type, name)
    | _ => none
  else none

theorem head?_eq_some_iff : head? line = some (type, name) ↔ HasHead line type name := by
  rw [hasHead_iff, head?]
  constructor
  · intro h
    split at h
    next hopens =>
      split at h
      next hwords =>
        cases h
        exact ⟨hopens.1, hopens.2, hwords⟩
      next => cases h
    next => cases h
  · rintro ⟨hlast, hmem, hwords⟩
    rw [if_pos ⟨hlast, hmem⟩, hwords]

/-- The name that a line defines is the second word of its head, unless `return` is the first. -/
theorem definedName?_eq (line : List Char) :
    Template.definedName? line =
      (head? line).bind fun (type, name) => if type = "return".toList then none else some name := by
  unfold Template.definedName? head?
  dsimp only
  split
  · generalize words ((trim line).takeWhile (· != '(')) = found
    rcases found with _ | ⟨type, _ | ⟨name, _ | ⟨_, _⟩⟩⟩ <;> rfl
  · rfl

theorem lineDefines_iff_hasHead :
    Template.lineDefines name line = true ↔
      ∃ type, HasHead line type name ∧ type ≠ "return".toList := by
  simp only [Template.lineDefines_iff, definedName?_eq, Option.bind_eq_some_iff, Prod.exists,
    head?_eq_some_iff, Option.ite_none_left_eq_some, Option.some.injEq]
  constructor
  · rintro ⟨type, name, hhead, hreturn, rfl⟩
    exact ⟨type, hhead, hreturn⟩
  · rintro ⟨type, hhead, hreturn⟩
    exact ⟨type, name, hhead, hreturn, rfl⟩

end Heads

/-! ## Names -/

/-- The keywords of control flow. -/
def controlKeywords : List (List Char) :=
  ["return", "else", "if", "for", "while", "do", "switch"].map String.toList

/-- An identifier that is no keyword of control flow. -/
def IsName (w : List Char) : Prop := Expr.isIdentifier w = true ∧ w ∉ controlKeywords

instance : DecidablePred IsName := fun _ => inferInstanceAs (Decidable (_ ∧ _))

namespace Template

variable {t : Template} {name : String}

/-- A template defines a function if a line of its fragment is the head of it, with names for the
type and for the function. -/
def IsDefined (t : Template) (name : String) : Prop :=
  ∃ line ∈ lines t.fragment.toList, ∃ type, HasHead line type name.toList ∧ IsName type ∧
    IsName name.toList

def heads (t : Template) : List (List Char × List Char) :=
  (lines t.fragment.toList).filterMap head?

theorem mem_heads {type name : List Char} :
    (type, name) ∈ t.heads ↔ ∃ line ∈ lines t.fragment.toList, HasHead line type name := by
  unfold heads
  simp only [List.mem_filterMap, head?_eq_some_iff]

theorem exists_hasHead_iff {P : List Char → List Char → Prop} :
    (∃ line ∈ lines t.fragment.toList, ∃ type, HasHead line type name.toList ∧ P type name.toList) ↔
      ∃ h ∈ t.heads, h.2 = name.toList ∧ P h.1 h.2 := by
  constructor
  · rintro ⟨line, hline, type, hhead, hP⟩
    exact ⟨(type, name.toList), mem_heads.2 ⟨line, hline, hhead⟩, rfl, hP⟩
  · rintro ⟨⟨type, _⟩, hmem, rfl, hP⟩
    obtain ⟨line, hline, hhead⟩ := mem_heads.1 hmem
    exact ⟨line, hline, type, hhead, hP⟩

theorem definesFunction_iff_hasHead :
    t.definesFunction name = true ↔ ∃ line ∈ lines t.fragment.toList, ∃ type,
      HasHead line type name.toList ∧ type ≠ "return".toList := by
  unfold definesFunction
  simp only [List.any_eq_true, lineDefines_iff_hasHead]

theorem definesFunction_iff_heads :
    t.definesFunction name = true ↔
      ∃ h ∈ t.heads, h.2 = name.toList ∧ h.1 ≠ "return".toList :=
  definesFunction_iff_hasHead.trans (exists_hasHead_iff (P := fun type _ => type ≠ "return".toList))

theorem isDefined_iff_heads :
    t.IsDefined name ↔ ∃ h ∈ t.heads, h.2 = name.toList ∧ IsName h.1 ∧ IsName h.2 :=
  exists_hasHead_iff (P := fun type name => IsName type ∧ IsName name)

/-- A template reports a function exactly if one of its lines has the head of it, behind another
word than `return`. Every function that it defines is reported. And no other is, if on every line
with the head of the function, behind another word than `return`, both words are names. -/
theorem definesFunction_exact (t : Template) (name : String) :
    (t.definesFunction name = true ↔ ∃ line ∈ lines t.fragment.toList, ∃ type,
        HasHead line type name.toList ∧ type ≠ "return".toList) ∧
      (t.IsDefined name → t.definesFunction name = true) ∧
      ((∀ line ∈ lines t.fragment.toList, ∀ type, HasHead line type name.toList →
          type ≠ "return".toList → IsName type ∧ IsName name.toList) →
        t.definesFunction name = true → t.IsDefined name) := by
  refine ⟨definesFunction_iff_hasHead, ?_, ?_⟩
  · rintro ⟨line, hline, type, hhead, htype, -⟩
    refine definesFunction_iff_hasHead.2 ⟨line, hline, type, hhead, ?_⟩
    rintro rfl
    exact htype.2 List.mem_cons_self
  · intro hnames h
    obtain ⟨line, hline, type, hhead, hreturn⟩ := definesFunction_iff_hasHead.1 h
    exact ⟨line, hline, type, hhead, hnames line hline type hhead hreturn⟩

/-- A template with an `else if`, and with a function that is commented out. -/
def branching : Template where
  vertex := ""
  fragment := "\n".intercalate
    ["void main() \x7b", "    float v = 0.0;", "    if (gl_FragCoord.x < 8.0) \x7b",
      "        v = 0.25;", "    \x7d", "    else if (gl_FragCoord.y < 8.0) \x7b",
      "        v = 0.5;", "    \x7d", "    gl_FragColor = EXPR;", "\x7d",
      "//float noise(float a) \x7b", "//    return a;", "//\x7d"]
  placeholder := "EXPR"

theorem heads_branching :
    branching.heads = [("void".toList, "main".toList), ("else".toList, "if".toList),
      ("//float".toList, "noise".toList)] := by
  rw [heads, branching, String.toList_intercalate]
  conv_lhs => simp only [List.map_cons, List.map_nil]
  -- taken apart one by one here, since evaluation would decode their bytes
  repeat rw [String.toList_ofList]
  decide +kernel

theorem new_branching : new "" branching.fragment "EXPR" = .ok branching := by
  have hone : occurrences "EXPR".toList branching.fragment.toList = 1 := by
    rw [branching, String.toList_intercalate]
    conv_lhs => simp only [List.map_cons, List.map_nil]
    repeat rw [String.toList_ofList]
    decide +kernel
  exact new_eq_ok_iff.2 ⟨rfl, by decide, hone⟩

/-- Its main function is defined: no other line has the head of it. -/
theorem isDefined_branching_main :
    branching.definesFunction "main" = true ∧ branching.IsDefined "main" := by
  have hmain : branching.definesFunction "main" = true := by
    rw [definesFunction_iff_heads, heads_branching]
    decide
  have hnames : ∀ h ∈ branching.heads, h.2 = "main".toList → IsName h.1 ∧ IsName h.2 := by
    rw [heads_branching]
    decide
  refine ⟨hmain, (definesFunction_exact _ _).2.2 (fun line hline type hhead _ => ?_) hmain⟩
  exact hnames _ (mem_heads.2 ⟨line, hline, hhead⟩) rfl

/-- But its `else if` counts as a function, and so does what is commented out. -/
theorem definesFunction_else_if :
    new "" branching.fragment "EXPR" = .ok branching ∧
      branching.definesFunction "if" = true ∧ ¬branching.IsDefined "if" ∧
      branching.definesFunction "noise" = true ∧ ¬branching.IsDefined "noise" := by
  refine ⟨new_branching, ?_⟩
  simp only [definesFunction_iff_heads, isDefined_iff_heads, heads_branching]
  decide

end Template

end SeededArt
