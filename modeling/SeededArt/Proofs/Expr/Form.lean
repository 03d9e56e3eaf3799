import SeededArt.Proofs.Decimal.Numeral
import SeededArt.Proofs.Expr.Reading
/-!
# Forms of expressions

A form is a derivation of the grammar of expressions,

    expression = blanks (number | name blanks "(" arguments ")") blanks
    arguments  = blanks | expression ("," expression)*

with the characters of every number, name and run of blanks at its leaves. `Form.chars` is the text
that is derived and `Form.expr` the expression that it says. A form reads as its expression
(`parseChars_chars`), every text that reads has a form (`exists_form_of_parseChars`), and no text
has two (`chars_injective`).
-/

namespace SeededArt.Expr

open Decimal Text

/-- A run of blanks. -/
abbrev Blanks : Type := {cs : List Char // ∀ c ∈ cs, isBlank c = true}

/-- The text of a name. -/
abbrev NameText : Type := {cs : List Char // isIdentifier cs = true}

/-- A text that starts like a number and reads as one. -/
structure NumberText where
  chars : List Char
  value : Numeral
  starts : ∃ c ∈ chars.head?, startsNumber c = true
  reads : Numeral.readChars? chars = some value

/-- A derivation of an expression. -/
inductive Form where
  | number (before : Blanks) (number : NumberText) (after : Blanks)
  /-- A call with blanks for arguments. -/
  | bare (before : Blanks) (name : NameText) (gap inner after : Blanks)
  /-- A call with a first argument and others, each after a comma. -/
  | call (before : Blanks) (name : NameText) (gap : Blanks) (first : Form) (rest : List Form)
      (after : Blanks)

/-- The text of a call without the blanks around it. -/
def callChars (name : NameText) (gap : Blanks) (inner : List Char) : List Char :=
  name.1 ++ (gap.1 ++ '(' :: (inner ++ [')']))

namespace Form

/-- The text that is derived. -/
def chars : Form → List Char
  | number before text after => before.1 ++ (text.chars ++ after.1)
  | bare before name gap inner after => before.1 ++ (callChars name gap inner.1 ++ after.1)
  | call before name gap first rest after =>
    before.1 ++ (callChars name gap (listing first.chars (rest.map fun t => t.chars)) ++ after.1)

/-- The expression that is derived. -/
def expr : Form → Expr Numeral
  | number _ text _ => .number text.value
  | bare _ name _ _ _ => .call (String.ofList name.1) []
  | call _ name _ first rest _ =>
    .call (String.ofList name.1) (first.expr :: rest.map fun t => t.expr)

end Form

/-! ## Characters -/

section Characters

variable {c : Char}

theorem isPlain_of_isNumberChar (h : IsNumberChar c) : IsPlain c := by
  rcases h with h | rfl | rfl | rfl
  · exact isPlain_of_continuesName (by rw [continuesName, h, Bool.true_or])
  · simp [IsPlain]
  · simp [IsPlain]
  · simp [IsPlain]

theorem isBlank_of_isNumberChar (h : IsNumberChar c) : isBlank c = false := by
  rcases h with h | rfl | rfl | rfl
  · exact isBlank_of_continuesName (by rw [continuesName, h, Bool.true_or])
  · decide
  · decide
  · decide

theorem isPlain_of_isBlank (h : isBlank c = true) : IsPlain c := by
  refine ⟨?_, ?_, ?_⟩ <;>
  · rintro rfl
    revert h
    decide

theorem NumberText.isPlain (n : NumberText) : ∀ c ∈ n.chars, IsPlain c ∧ isBlank c = false := by
  intro c hc
  have hchar := isNumberChar_of_readChars? n.reads c hc
  exact ⟨isPlain_of_isNumberChar hchar, isBlank_of_isNumberChar hchar⟩

theorem NumberText.trimmed (n : NumberText) : Trimmed n.chars :=
  Trimmed.of_forall fun c hc => (n.isPlain c hc).2

theorem NumberText.exists_cons (n : NumberText) :
    ∃ c rest, n.chars = c :: rest ∧ startsNumber c = true := by
  obtain ⟨c, hc, hstart⟩ := n.starts
  obtain ⟨rest, hrest⟩ := List.head?_eq_some_iff.1 (Option.mem_def.1 hc)
  exact ⟨c, rest, hrest, hstart⟩

theorem NumberText.ext_chars {m n : NumberText} (h : m.chars = n.chars) : m = n := by
  obtain ⟨cs, v, hstart, hread⟩ := m
  obtain ⟨ds, w, hstart', hread'⟩ := n
  obtain rfl : cs = ds := h
  rw [hread, Option.some.injEq] at hread'
  subst hread'
  rfl

theorem Blanks.isPlain (b : Blanks) : ∀ c ∈ b.1, IsPlain c :=
  fun c hc => isPlain_of_isBlank (b.2 c hc)

theorem NameText.continues (n : NameText) : ∀ c ∈ n.1, continuesName c = true := by
  obtain ⟨-, -, -, -, hchars⟩ := exists_cons_of_isIdentifier n.2
  exact hchars

theorem NameText.exists_cons (n : NameText) : ∃ c rest, n.1 = c :: rest ∧ startsName c = true := by
  obtain ⟨c, rest, hcons, hstart, -⟩ := exists_cons_of_isIdentifier n.2
  exact ⟨c, rest, hcons, hstart⟩

theorem NameText.isPlain (n : NameText) : ∀ c ∈ n.1, IsPlain c :=
  fun c hc => isPlain_of_continuesName (n.continues c hc)

end Characters

/-! ## Calls -/

section Calls

variable {name name' : NameText} {gap gap' : Blanks} {inner inner' : List Char}

theorem exists_callChars_cons (name : NameText) (gap : Blanks) (inner : List Char) :
    ∃ c rest, callChars name gap inner = c :: rest ∧ startsName c = true := by
  obtain ⟨c, rest, hname, hstart⟩ := name.exists_cons
  refine ⟨c, rest ++ (gap.1 ++ '(' :: (inner ++ [')'])), ?_, hstart⟩
  rw [callChars, hname, List.cons_append]

theorem callChars_eq (name : NameText) (gap : Blanks) (inner : List Char) :
    callChars name gap inner = (name.1 ++ gap.1) ++ '(' :: (inner ++ [')']) := by
  rw [callChars, List.append_assoc]

theorem trimmed_callChars (name : NameText) (gap : Blanks) (inner : List Char) :
    Trimmed (callChars name gap inner) := by
  constructor
  · obtain ⟨c, rest, hcons, hstart⟩ := exists_callChars_cons name gap inner
    rw [hcons]
    intro d hd
    obtain rfl : c = d := Option.some.inj hd
    exact isBlank_of_continuesName (continuesName_of_startsName hstart)
  · rw [callChars_eq, ← List.cons_append, ← List.append_assoc, List.getLast?_concat]
    intro d hd
    obtain rfl : ')' = d := Option.some.inj hd
    decide

theorem closed_callChars (h : ClosedFrom 1 inner) : Closed (callChars name gap inner) := by
  refine (closed_of_isPlain name.isPlain).append ((closed_of_isPlain gap.isPlain).append ?_)
  exact closed_parentheses h

theorem readCall_callChars {es : List (Expr Numeral)} (h : readArguments inner = .ok es) :
    readCall (callChars name gap inner) = .ok (.call (String.ofList name.1) es) := by
  have htrimmed : Trimmed name.1 :=
    Trimmed.of_forall fun c hc => isBlank_of_continuesName (name.continues c hc)
  have htrim : trim (name.1 ++ gap.1) = name.1 :=
    trim_append (List.forall_mem_nil _) htrimmed gap.2
  rw [readCall_eq_ok_iff]
  refine ⟨name.1 ++ gap.1, inner, es, callChars_eq name gap inner, ?_, ?_, h, ?_⟩
  · rw [List.forall_mem_append]
    exact ⟨fun c hc => (name.isPlain c hc).1, fun c hc => (gap.isPlain c hc).1⟩
  · rw [htrim]
    exact name.2
  · rw [htrim]

/-- Two ways to cut a text after its longest start with a property are one. -/
theorem append_inj_of_head {p : Char → Bool} {xs xs' ys ys' : List Char}
    (hxs : ∀ c ∈ xs, p c = true) (hxs' : ∀ c ∈ xs', p c = true)
    (hys : ∀ c ∈ ys.head?, p c = false) (hys' : ∀ c ∈ ys'.head?, p c = false)
    (h : xs ++ ys = xs' ++ ys') : xs = xs' ∧ ys = ys' := by
  have htake {zs ws : List Char} (hzs : ∀ c ∈ zs, p c = true) (hws : ∀ c ∈ ws.head?, p c = false) :
      (zs ++ ws).takeWhile p = zs := by
    rw [List.takeWhile_append_of_pos hzs]
    cases ws with
    | nil => simp
    | cons w ws => rw [List.takeWhile_cons_of_neg (by simp [hws w rfl]), List.append_nil]
  have heq : xs = xs' := by rw [← htake hxs hys, h, htake hxs' hys']
  subst heq
  exact ⟨rfl, List.append_cancel_left h⟩

theorem callChars_inj (h : callChars name gap inner = callChars name' gap' inner') :
    name = name' ∧ gap = gap' ∧ inner = inner' := by
  have hparenthesis {ds : List Char} : ∀ c ∈ ('(' :: ds).head?, isBlank c = false := by
    intro c hc
    obtain rfl : '(' = c := Option.some.inj hc
    decide
  -- neither a blank nor a parenthesis continues a name
  have hgap (b : Blanks) (ds : List Char) :
      ∀ c ∈ (b.1 ++ '(' :: ds).head?, continuesName c = false := by
    intro c hc
    rw [List.head?_append] at hc
    by_contra hcontinues
    rw [Bool.not_eq_false] at hcontinues
    cases hb : b.1.head? with
    | none =>
      rw [hb] at hc
      obtain rfl : '(' = c := Option.some.inj hc
      exact absurd hcontinues (by decide)
    | some d =>
      rw [hb] at hc
      obtain rfl : d = c := Option.some.inj hc
      have hblank := b.2 d (List.mem_of_mem_head? hb)
      rw [isBlank_of_continuesName hcontinues] at hblank
      exact Bool.false_ne_true hblank
  obtain ⟨hname, hrest⟩ := append_inj_of_head name.continues name'.continues (hgap gap _)
    (hgap gap' _) h
  obtain ⟨hgap, hinner⟩ := append_inj_of_head gap.2 gap'.2 hparenthesis hparenthesis hrest
  refine ⟨Subtype.ext hname, Subtype.ext hgap, ?_⟩
  exact List.append_cancel_right (List.cons.inj hinner).2

end Calls

/-! ## Forms read as their expressions -/

namespace Form

theorem closed_between {cs : List Char} (h : Closed cs) (before after : Blanks) :
    Closed (before.1 ++ (cs ++ after.1)) :=
  (closed_of_isPlain before.isPlain).append (h.append (closed_of_isPlain after.isPlain))

theorem closed (t : Form) : Closed t.chars := by
  induction t using Form.chars.induct with
  | case1 before text after =>
    rw [chars]
    exact closed_between (closed_of_isPlain fun c hc => (text.isPlain c hc).1) before after
  | case2 before name gap inner after =>
    rw [chars]
    exact closed_between
      (closed_callChars ((closed_of_isPlain inner.isPlain).mono (Nat.zero_le 1))) before after
  | case3 before name gap first rest after ihfirst ihrest =>
    rw [chars]
    refine closed_between (closed_callChars (closedFrom_listing ?_)) before after
    rw [List.forall_mem_cons, List.forall_mem_map]
    exact ⟨ihfirst, ihrest⟩

theorem closed_all (first : Form) (rest : List Form) :
    ∀ cs ∈ first.chars :: rest.map fun t => t.chars, Closed cs := by
  rw [List.forall_mem_cons, List.forall_mem_map]
  exact ⟨first.closed, fun t _ => t.closed⟩

theorem trim_chars_ne_nil (t : Form) : trim t.chars ≠ [] := by
  cases t with
  | number before text after =>
    obtain ⟨c, rest, hcons, -⟩ := text.exists_cons
    rw [chars, trim_append before.2 text.trimmed after.2, hcons]
    exact List.cons_ne_nil c rest
  | bare before name gap inner after =>
    obtain ⟨c, rest, hcons, -⟩ := exists_callChars_cons name gap inner.1
    rw [chars, trim_append before.2 (trimmed_callChars name gap inner.1) after.2, hcons]
    exact List.cons_ne_nil c rest
  | call before name gap first rest after =>
    rw [chars, trim_append before.2 (trimmed_callChars name gap _) after.2]
    obtain ⟨c, tail, hcons, -⟩ := exists_callChars_cons name gap
      (listing first.chars (rest.map fun t => t.chars))
    rw [hcons]
    exact List.cons_ne_nil c tail

theorem trim_listing_ne_nil (first : Form) (parts : List (List Char)) :
    trim (listing first.chars parts) ≠ [] := by
  intro hnil
  rw [trim_eq_nil_iff, listing, List.forall_mem_append] at hnil
  exact first.trim_chars_ne_nil (trim_eq_nil_iff.2 hnil.1)

/-- A text reads as a call if it is one, blanks around it not counting. -/
theorem parseChars_between {name : NameText} {gap : Blanks} {inner : List Char}
    {es : List (Expr Numeral)} (h : readArguments inner = .ok es) (before after : Blanks) :
    parseChars (before.1 ++ (callChars name gap inner ++ after.1)) =
      .ok (.call (String.ofList name.1) es) := by
  have htrim : trim (before.1 ++ (callChars name gap inner ++ after.1)) =
      callChars name gap inner :=
    trim_append before.2 (trimmed_callChars name gap inner) after.2
  obtain ⟨c, rest, hcons, hstart⟩ := exists_callChars_cons name gap inner
  refine parseChars_eq_ok_iff.2 ⟨c, rest, htrim.trans hcons, .inr ⟨?_, ?_⟩⟩
  · exact startsNumber_of_startsName hstart
  · rw [htrim]
    exact readCall_callChars h

/-- A form reads as its expression. -/
theorem parseChars_chars (t : Form) : parseChars t.chars = .ok t.expr := by
  induction t using Form.chars.induct with
  | case1 before text after =>
    have htrim := trim_append before.2 text.trimmed after.2
    obtain ⟨c, rest, hcons, hstart⟩ := text.exists_cons
    rw [chars, expr]
    refine parseChars_eq_ok_iff.2 ⟨c, rest, htrim.trans hcons, .inl ⟨hstart, text.value, ?_, rfl⟩⟩
    rw [htrim]
    exact text.reads
  | case2 before name gap inner after =>
    rw [chars, expr]
    refine parseChars_between (readArguments_eq_ok_iff.2 (.inl ⟨?_, rfl⟩)) before after
    exact trim_eq_nil_iff.2 inner.2
  | case3 before name gap first rest after ihfirst ihrest =>
    rw [chars, expr]
    refine parseChars_between (readArguments_eq_ok_iff.2 (.inr ⟨?_, ?_⟩)) before after
    · exact trim_listing_ne_nil first _
    · obtain ⟨ended, last, hcut, hparts⟩ := cutFrom_listing (closed_all first rest) []
      unfold cut
      rw [hcut]
      refine ⟨last, rfl, ?_⟩
      show (ended ++ [last]).mapM parseChars = _
      rw [hparts, List.reverse_nil, List.nil_append]
      have hread : ∀ t ∈ first :: rest, parseChars t.chars = .ok t.expr :=
        List.forall_mem_cons.2 ⟨ihfirst, ihrest⟩
      exact mapM_map_eq_ok hread

/-- A form of a call with arguments has a form for each of them. -/
theorem exists_call_of_expr {t : Form} {name : String} {e : Expr Numeral} {es : List (Expr Numeral)}
    (h : t.expr = .call name (e :: es)) :
    ∃ before text gap first rest after, t = .call before text gap first rest after ∧
      text.1 = name.toList ∧ first.expr = e ∧ (rest.map fun t => t.expr) = es := by
  cases t with
  | number =>
    rw [expr] at h
    cases h
  | bare =>
    rw [expr] at h
    cases h
  | call before text gap first rest after =>
    rw [expr] at h
    obtain ⟨hname, harguments⟩ := Expr.call.inj h
    obtain ⟨hfirst, hrest⟩ := List.cons.inj harguments
    exact ⟨before, text, gap, first, rest, after, rfl, hname ▸ String.toList_ofList.symm, hfirst,
      hrest⟩

end Form

/-! ## What reads has a form -/

theorem exists_forms_of_mapM {parts : List (List Char)} {es : List (Expr Numeral)}
    (h : parts.mapM parseChars = .ok es)
    (ih : ∀ cs ∈ parts, ∀ e, parseChars cs = .ok e → ∃ t : Form, t.chars = cs ∧ t.expr = e) :
    ∃ ts : List Form, ts.map (fun t => t.chars) = parts ∧ ts.map (fun t => t.expr) = es := by
  induction parts generalizing es with
  | nil =>
    cases h
    exact ⟨[], rfl, rfl⟩
  | cons cs parts ihparts =>
    obtain ⟨ihfirst, ihrest⟩ := List.forall_mem_cons.1 ih
    rw [List.mapM_cons] at h
    obtain ⟨e, hfirst, h⟩ := exists_of_bind_eq_ok h
    obtain ⟨read, hrest, h⟩ := exists_of_bind_eq_ok h
    cases h
    obtain ⟨t, rfl, rfl⟩ := ihfirst e hfirst
    obtain ⟨ts, rfl, rfl⟩ := ihparts hrest ihrest
    exact ⟨t :: ts, rfl, rfl⟩

/-- Arguments that read have forms, with commas between them, if every text that is no longer and
reads has one. -/
theorem exists_forms_of_arguments {inner last : List Char} {es : List (Expr Numeral)}
    (hlast : (cut inner).last? = some last)
    (hparts : ((cut inner).ended ++ [last]).mapM parseChars = .ok es)
    (ih : ∀ part : List Char, part.length ≤ inner.length → ∀ e, parseChars part = .ok e →
      ∃ t : Form, t.chars = part ∧ t.expr = e) :
    ∃ (t : Form) (ts : List Form), listing t.chars (ts.map fun t => t.chars) = inner ∧
      (t :: ts).map (fun t => t.expr) = es := by
  have hcut : cutFrom 0 [] inner = ⟨(cut inner).ended, some last⟩ := by
    rw [← hlast]
    rfl
  have hpieces : (cut inner).toList = (cut inner).ended ++ [last] := by
    rw [Pieces.toList, hlast]
    rfl
  obtain ⟨part, parts, hcons, hlisting⟩ := exists_listing_of_cutFrom hcut
  obtain ⟨ts, hts, rfl⟩ := exists_forms_of_mapM hparts fun part hpart e he => by
    rw [← hpieces] at hpart
    exact ih part (length_le_of_mem_cut hpart) e he
  rw [hcons] at hts
  cases ts with
  | nil => cases hts
  | cons t ts =>
    obtain ⟨rfl, rfl⟩ := List.cons.inj hts
    exact ⟨t, ts, hlisting.symm, rfl⟩

/-- The name of a call that is read starts with the first character of the call. -/
theorem exists_name_of_trimmed {name tail : List Char} (htrimmed : Trimmed (name ++ tail))
    (hname : isIdentifier (trim name) = true) :
    ∃ (text : NameText) (gap : Blanks), trim name = text.1 ∧ name = text.1 ++ gap.1 := by
  obtain ⟨before, after, heq, hbefore, hafter⟩ := exists_eq_append_trim name
  obtain rfl : before = [] := by
    cases before with
    | nil => rfl
    | cons c before =>
      have hhead : c ∈ (name ++ tail).head? := by
        rw [heq]
        rfl
      have hblank := hbefore c List.mem_cons_self
      rw [htrimmed.1 c hhead] at hblank
      exact absurd hblank Bool.false_ne_true
  exact ⟨⟨trim name, hname⟩, ⟨after, hafter⟩, rfl, heq⟩

/-- Every text that reads has a form, whose expression is what is read. -/
theorem exists_form_of_parseChars {cs : List Char} {e : Expr Numeral}
    (h : parseChars cs = .ok e) : ∃ t : Form, t.chars = cs ∧ t.expr = e := by
  induction hn : cs.length using Nat.strong_induction_on generalizing cs e with
  | _ n ih =>
    subst hn
    obtain ⟨before, after, hcs, hbefore, hafter⟩ := exists_eq_append_trim cs
    obtain ⟨first, others, htrim, hread⟩ := parseChars_eq_ok_iff.1 h
    rcases hread with ⟨hstart, value, hvalue, rfl⟩ | ⟨-, hcall⟩
    · have hstarts : ∃ c ∈ (trim cs).head?, startsNumber c = true := by
        rw [htrim]
        exact ⟨first, rfl, hstart⟩
      refine ⟨.number ⟨before, hbefore⟩ ⟨trim cs, value, hstarts, hvalue⟩ ⟨after, hafter⟩, ?_, ?_⟩
      · rw [Form.chars]
        exact hcs.symm
      · rw [Form.expr]
    · obtain ⟨name, inner, es, hsplit, -, hname, hargs, rfl⟩ := readCall_eq_ok_iff.1 hcall
      have htrimmed := trimmed_trim cs
      rw [hsplit] at htrimmed
      obtain ⟨text, gap, htext, hgap⟩ := exists_name_of_trimmed htrimmed hname
      have hchars : cs = before ++ (callChars text gap inner ++ after) := by
        rw [callChars_eq, ← hgap, ← hsplit]
        exact hcs
      have hinner : inner.length < cs.length := by
        rw [hchars, callChars_eq]
        simp only [List.length_append, List.length_cons]
        omega
      rw [htext]
      rcases readArguments_eq_ok_iff.1 hargs with ⟨hnil, rfl⟩ | ⟨-, last, hlast, hparts⟩
      · refine ⟨.bare ⟨before, hbefore⟩ text gap ⟨inner, trim_eq_nil_iff.1 hnil⟩ ⟨after, hafter⟩,
          ?_, ?_⟩
        · rw [Form.chars]
          exact hchars.symm
        · rw [Form.expr]
      · obtain ⟨t, ts, hlisting, rfl⟩ := exists_forms_of_arguments hlast hparts
          fun part hlength e he => ih part.length (by omega) he rfl
        refine ⟨.call ⟨before, hbefore⟩ text gap t ts ⟨after, hafter⟩, ?_, ?_⟩
        · rw [Form.chars, hlisting]
          exact hchars.symm
        · rw [Form.expr]
          rfl

/-! ## No text has two forms -/

theorem between_inj {before before' after after' : Blanks} {cs ds : List Char}
    (hcs : Trimmed cs) (hds : Trimmed ds) (hne : cs ≠ [])
    (h : before.1 ++ (cs ++ after.1) = before'.1 ++ (ds ++ after'.1)) :
    before = before' ∧ cs = ds ∧ after = after' := by
  obtain rfl : cs = ds := by
    rw [← trim_append before.2 hcs after.2, h, trim_append before'.2 hds after'.2]
  have hhead (b : Blanks) : ∀ c ∈ (cs ++ b.1).head?, isBlank c = false := by
    intro c hc
    rw [List.head?_append_of_ne_nil _ hne] at hc
    exact hcs.1 c hc
  obtain ⟨hbefore, hrest⟩ := append_inj_of_head before.2 before'.2 (hhead after) (hhead after') h
  exact ⟨Subtype.ext hbefore, rfl, Subtype.ext (List.append_cancel_left hrest)⟩

theorem NumberText.ne_nil (n : NumberText) : n.chars ≠ [] := by
  obtain ⟨c, rest, hcons, -⟩ := n.exists_cons
  rw [hcons]
  exact List.cons_ne_nil c rest

theorem number_between_inj {before before' after after' : Blanks} {m n : NumberText}
    (h : before.1 ++ (m.chars ++ after.1) = before'.1 ++ (n.chars ++ after'.1)) :
    before = before' ∧ m = n ∧ after = after' := by
  obtain ⟨rfl, hchars, rfl⟩ := between_inj m.trimmed n.trimmed m.ne_nil h
  exact ⟨rfl, NumberText.ext_chars hchars, rfl⟩

section Between

variable {before before' after after' : Blanks} {name name' : NameText} {gap gap' : Blanks}
  {inner inner' : List Char}

theorem call_between_inj
    (h : before.1 ++ (callChars name gap inner ++ after.1) =
      before'.1 ++ (callChars name' gap' inner' ++ after'.1)) :
    before = before' ∧ name = name' ∧ gap = gap' ∧ inner = inner' ∧ after = after' := by
  have hne : callChars name gap inner ≠ [] := by
    obtain ⟨c, rest, hcons, -⟩ := exists_callChars_cons name gap inner
    rw [hcons]
    exact List.cons_ne_nil c rest
  obtain ⟨rfl, hcore, rfl⟩ := between_inj (trimmed_callChars name gap inner)
    (trimmed_callChars name' gap' inner') hne h
  obtain ⟨rfl, rfl, rfl⟩ := callChars_inj hcore
  exact ⟨rfl, rfl, rfl, rfl, rfl⟩

/-- No number is a call: their first characters differ. -/
theorem number_between_ne (n : NumberText) :
    before.1 ++ (n.chars ++ after.1) ≠ before'.1 ++ (callChars name gap inner ++ after'.1) := by
  intro h
  have hcore := (between_inj n.trimmed (trimmed_callChars name gap inner) n.ne_nil h).2.1
  obtain ⟨c, rest, hcons, hnumber⟩ := n.exists_cons
  obtain ⟨d, tail, hcall, hname⟩ := exists_callChars_cons name gap inner
  rw [hcons, hcall] at hcore
  obtain ⟨rfl, -⟩ := List.cons.inj hcore
  rw [startsNumber_of_startsName hname] at hnumber
  exact Bool.false_ne_true hnumber

end Between

theorem eq_of_map_eq {β γ : Type} {f : β → γ} {xs ys : List β}
    (hf : ∀ x ∈ xs, ∀ y, f x = f y → x = y) (h : xs.map f = ys.map f) : xs = ys := by
  induction xs generalizing ys with
  | nil => exact (List.map_eq_nil_iff.1 h.symm).symm
  | cons x xs ih =>
    obtain ⟨hx, hxs⟩ := List.forall_mem_cons.1 hf
    cases ys with
    | nil => cases h
    | cons y ys =>
      obtain ⟨hxy, hrest⟩ := List.cons.inj h
      rw [hx y hxy, ih hxs hrest]

theorem listing_inj {cs ds : List Char} {parts parts' : List (List Char)}
    (h : ∀ xs ∈ cs :: parts, Closed xs) (h' : ∀ xs ∈ ds :: parts', Closed xs)
    (heq : listing cs parts = listing ds parts') : cs :: parts = ds :: parts' := by
  obtain ⟨ended, last, hcut, hparts⟩ := cutFrom_listing h []
  obtain ⟨ended', last', hcut', hparts'⟩ := cutFrom_listing h' []
  rw [← heq, hcut, Pieces.mk.injEq, Option.some.injEq] at hcut'
  obtain ⟨rfl, rfl⟩ := hcut'
  rw [hparts] at hparts'
  exact hparts'

namespace Form

theorem chars_injective {t u : Form} (h : t.chars = u.chars) : t = u := by
  induction t using Form.chars.induct generalizing u with
  | case1 before text after =>
    cases u with
    | number before' text' after' =>
      rw [chars, chars] at h
      obtain ⟨rfl, rfl, rfl⟩ := number_between_inj h
      rfl
    | bare =>
      rw [chars, chars] at h
      exact absurd h (number_between_ne text)
    | call =>
      rw [chars, chars] at h
      exact absurd h (number_between_ne text)
  | case2 before name gap inner after =>
    cases u with
    | number before' text' after' =>
      rw [chars, chars] at h
      exact absurd h.symm (number_between_ne text')
    | bare before' name' gap' inner' after' =>
      rw [chars, chars] at h
      obtain ⟨rfl, rfl, rfl, hinner, rfl⟩ := call_between_inj h
      rw [Subtype.ext hinner]
    | call before' name' gap' first rest after' =>
      rw [chars, chars] at h
      obtain ⟨-, -, -, hinner, -⟩ := call_between_inj h
      have hnil := trim_eq_nil_iff.2 inner.2
      rw [hinner] at hnil
      exact absurd hnil (trim_listing_ne_nil first _)
  | case3 before name gap first rest after ihfirst ihrest =>
    cases u with
    | number before' text' after' =>
      rw [chars, chars] at h
      exact absurd h.symm (number_between_ne text')
    | bare before' name' gap' inner' after' =>
      rw [chars, chars] at h
      obtain ⟨-, -, -, hinner, -⟩ := call_between_inj h
      have hnil := trim_eq_nil_iff.2 inner'.2
      rw [← hinner] at hnil
      exact absurd hnil (trim_listing_ne_nil first _)
    | call before' name' gap' first' rest' after' =>
      rw [chars, chars] at h
      obtain ⟨rfl, rfl, rfl, hinner, rfl⟩ := call_between_inj h
      -- cutting tells the arguments apart, and each argument is a smaller form
      obtain ⟨hfirst, hrest⟩ := List.cons.inj
        (listing_inj (closed_all first rest) (closed_all first' rest') hinner)
      rw [ihfirst hfirst, eq_of_map_eq (fun t ht u => ihrest t ht) hrest]

end Form

end SeededArt.Expr
