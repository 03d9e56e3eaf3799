import SeededArt.Proofs.Except
import SeededArt.Proofs.Expr.Cut
/-!
# Reading back what was written

The text of an expression reads as that expression, if its functions have identifiers for names
and its numbers are written as texts that read as numbers (`parse_text`). The argument texts are
closed, so reading cuts them apart where writing put them together.
-/

namespace SeededArt.Expr

open Decimal Text

/-! ## One level of reading -/

/-- Reads the arguments that cutting has told apart: those that a comma ends, then the last. -/
def readPieces (p : Pieces) (inner : List Char) : Except ParseFault (List (Expr Numeral)) := do
  let ended ← p.ended.mapM parseChars
  match p.last? with
  | none => .error (.unbalanced (String.ofList inner))
  | some last => return ended ++ [← parseChars last]

/-- Reads what stands between the parentheses of a call. -/
def readArguments (inner : List Char) : Except ParseFault (List (Expr Numeral)) :=
  if trim inner = [] then .ok [] else readPieces (cut inner) inner

/-- Reads a trimmed text that does not start like a number. -/
def readCall (cs : List Char) : Except ParseFault (Expr Numeral) :=
  match splitCall? cs with
  | none => .error (.noCall (String.ofList cs))
  | some (name, rest) =>
    if cs.getLast? ≠ some ')' then .error (.unclosedCall (String.ofList cs))
    else if !isIdentifier (trim name) then .error (.badName (String.ofList (trim name)))
    else (readArguments rest.dropLast).map (.call (String.ofList (trim name)))

theorem parseChars_eq (cs : List Char) :
    parseChars cs =
      match trim cs with
      | [] => .error .empty
      | first :: others =>
        if startsNumber first then
          match Numeral.readChars? (first :: others) with
          | some value => .ok (.number value)
          | none => .error (.badNumber (String.ofList (first :: others)))
        else readCall (first :: others) := by
  unfold parseChars
  split
  next hnil => conv => rhs; rw [hnil]
  next first others htrim =>
    conv => rhs; rw [htrim]
    simp only
    split
    next => rfl
    next =>
      unfold readCall
      split
      next hnone => rw [hnone]
      next name rest hsplit =>
        rw [hsplit]
        simp only
        split
        next => rfl
        next =>
          split
          next => rfl
          next =>
            unfold readArguments readPieces
            split
            next => rfl
            next =>
              rw [List.mapM_subtype (g := parseChars) fun _ _ => rfl, List.unattach_attach]
              cases (cut rest.dropLast).ended.mapM parseChars with
              | error fault => rfl
              | ok read =>
                simp only [bind, Except.bind]
                cases (cut rest.dropLast).last? with
                | none => rfl
                | some last =>
                  simp only
                  cases parseChars last <;> rfl

section Reading

variable {cs name rest inner : List Char} {e : Expr Numeral} {es : List (Expr Numeral)}

theorem readPieces_eq_ok_iff {p : Pieces} :
    readPieces p inner = .ok es ↔
      ∃ last, p.last? = some last ∧ (p.ended ++ [last]).mapM parseChars = .ok es := by
  unfold readPieces
  cases hended : p.ended.mapM parseChars with
  | error fault => simp [List.mapM_append, hended, bind, Except.bind]
  | ok read =>
    cases p.last? with
    | none => simp [bind, Except.bind]
    | some last =>
      cases hlast : parseChars last with
      | error fault => simp [List.mapM_append, hended, hlast, bind, Except.bind]
      | ok e => simp [List.mapM_append, hended, hlast, bind, Except.bind, pure, Except.pure]

/-- The arguments of a call are blanks, or what is read piece by piece. -/
theorem readArguments_eq_ok_iff :
    readArguments inner = .ok es ↔
      (trim inner = [] ∧ es = []) ∨
        (trim inner ≠ [] ∧ ∃ last, (cut inner).last? = some last ∧
          ((cut inner).ended ++ [last]).mapM parseChars = .ok es) := by
  unfold readArguments
  by_cases hnil : trim inner = []
  · rw [if_pos hnil, Except.ok.injEq]
    simp [hnil, eq_comm]
  · rw [if_neg hnil, readPieces_eq_ok_iff]
    simp [hnil]

theorem splitCall?_append (h : ∀ c ∈ name, c ≠ '(') (rest : List Char) :
    splitCall? (name ++ '(' :: rest) = some (name, rest) := by
  have hall : ∀ c ∈ name, (c != '(') = true := by
    intro c hc
    simpa using h c hc
  unfold splitCall?
  rw [List.dropWhile_append_of_pos hall, List.takeWhile_append_of_pos hall]
  simp

theorem splitCall?_eq_some_iff :
    splitCall? cs = some (name, rest) ↔ cs = name ++ '(' :: rest ∧ ∀ c ∈ name, c ≠ '(' := by
  constructor
  · intro h
    unfold splitCall? at h
    split at h
    next => cases h
    next c tail hdrop =>
      cases h
      have hc : c = '(' := by
        have hhead := List.head?_dropWhile_not (· != '(') cs
        rw [hdrop] at hhead
        simpa using hhead
      subst hc
      refine ⟨?_, fun d hd => by simpa using List.mem_takeWhile_imp hd⟩
      rw [← hdrop, List.takeWhile_append_dropWhile]
  · rintro ⟨rfl, h⟩
    exact splitCall?_append h rest

theorem exists_inner_of_getLast? (h : (name ++ '(' :: rest).getLast? = some ')') :
    ∃ inner, rest = inner ++ [')'] := by
  rcases List.eq_nil_or_concat rest with rfl | ⟨inner, c, rfl⟩
  · simp at h
  · rw [List.concat_eq_append, ← List.cons_append, ← List.append_assoc, List.getLast?_concat,
      Option.some.injEq] at h
    exact ⟨inner, by rw [List.concat_eq_append, h]⟩

/-- A call is read from a name, the first parenthesis and the one at the end of the text. -/
theorem readCall_eq_ok_iff :
    readCall cs = .ok e ↔
      ∃ name inner es, cs = name ++ '(' :: (inner ++ [')']) ∧ (∀ c ∈ name, c ≠ '(') ∧
        isIdentifier (trim name) = true ∧ readArguments inner = .ok es ∧
        e = .call (String.ofList (trim name)) es := by
  constructor
  · intro h
    unfold readCall at h
    split at h
    next => cases h
    next name rest hsplit =>
      obtain ⟨rfl, hname⟩ := splitCall?_eq_some_iff.1 hsplit
      split at h
      next => cases h
      next hlast =>
        split at h
        next => cases h
        next hidentifier =>
          obtain ⟨inner, rfl⟩ := exists_inner_of_getLast? (not_not.1 hlast)
          rw [List.dropLast_concat] at h
          cases hargs : readArguments inner with
          | error fault => rw [hargs] at h; cases h
          | ok es =>
            rw [hargs] at h
            cases h
            exact ⟨name, inner, es, rfl, hname, by simpa using hidentifier, hargs, rfl⟩
  · rintro ⟨name, inner, es, rfl, hname, hidentifier, hargs, rfl⟩
    have hlast : (name ++ '(' :: (inner ++ [')'])).getLast? = some ')' := by
      rw [← List.cons_append, ← List.append_assoc, List.getLast?_concat]
    unfold readCall
    rw [splitCall?_append hname]
    simp only [hlast, hidentifier, List.dropLast_concat, hargs]
    rfl

/-- What is read is a number or a call, as its first character tells. -/
theorem parseChars_eq_ok_iff :
    parseChars cs = .ok e ↔
      ∃ first others, trim cs = first :: others ∧
        ((startsNumber first = true ∧ ∃ value,
            Numeral.readChars? (trim cs) = some value ∧ e = .number value) ∨
          (startsNumber first = false ∧ readCall (trim cs) = .ok e)) := by
  rw [parseChars_eq]
  cases htrim : trim cs with
  | nil => simp
  | cons first others =>
    cases hstart : startsNumber first with
    | false => simp [hstart]
    | true =>
      cases hread : Numeral.readChars? (first :: others) with
      | none => simp [hstart, hread]
      | some value =>
        have hcomm : number value = e ↔ e = number value := eq_comm
        simp [hstart, hread, hcomm]

end Reading

/-! ## Characters of names and numbers -/

/-- Whether a character can stand in a name after its first. -/
def continuesName (c : Char) : Bool := c.isAlphanum || c == '_'

theorem toNat_of_startsName {c : Char} (h : startsName c = true) :
    65 ≤ c.toNat ∧ c.toNat ≤ 122 := by
  have halpha : c.isAlpha = true ↔
      (65 ≤ c.toNat ∧ c.toNat ≤ 90) ∨ 97 ≤ c.toNat ∧ c.toNat ≤ 122 := by
    show (decide (65 ≤ c.val ∧ c.val ≤ 90) || decide (97 ≤ c.val) && decide (c.val ≤ 122)) =
      true ↔ _
    simp only [Bool.or_eq_true, Bool.and_eq_true, decide_eq_true_eq, UInt32.le_iff_toNat_le]
    rfl
  unfold startsName at h
  rw [Bool.or_eq_true, halpha, beq_iff_eq] at h
  rcases h with (h | h) | rfl
  · omega
  · omega
  · simp

theorem toNat_of_isDigit {c : Char} (h : c.isDigit = true) : 48 ≤ c.toNat ∧ c.toNat ≤ 57 := by
  simp only [Char.isDigit, Bool.and_eq_true, decide_eq_true_eq, ge_iff_le,
    UInt32.le_iff_toNat_le] at h
  simpa using h

theorem toNat_of_continuesName {c : Char} (h : continuesName c = true) :
    48 ≤ c.toNat ∧ c.toNat ≤ 122 := by
  unfold continuesName at h
  rw [Char.isAlphanum, Bool.or_right_comm, Bool.or_eq_true] at h
  rcases h with h | h
  · have := toNat_of_startsName h
    omega
  · have := toNat_of_isDigit h
    omega

/-- No name starts like a number. -/
theorem startsNumber_of_startsName {c : Char} (h : startsName c = true) :
    startsNumber c = false := by
  have hc := toNat_of_startsName h
  rw [← Bool.not_eq_true]
  intro hnum
  unfold startsNumber at hnum
  rw [Bool.or_eq_true, Bool.or_eq_true, beq_iff_eq, beq_iff_eq] at hnum
  rcases hnum with (hdigit | rfl) | rfl
  · have := toNat_of_isDigit hdigit
    omega
  · simp at hc
  · simp at hc

theorem continuesName_of_startsName {c : Char} (h : startsName c = true) :
    continuesName c = true := by
  unfold continuesName
  rw [Char.isAlphanum, Bool.or_right_comm, Bool.or_eq_true]
  exact .inl h

theorem isPlain_of_continuesName {c : Char} (h : continuesName c = true) : IsPlain c := by
  have := toNat_of_continuesName h
  refine ⟨?_, ?_, ?_⟩ <;>
  · rintro rfl
    simp at this

theorem isBlank_of_continuesName {c : Char} (h : continuesName c = true) : isBlank c = false := by
  have := toNat_of_continuesName h
  exact isBlank_of_range (by omega) (by omega)

theorem exists_cons_of_isIdentifier {cs : List Char} (h : isIdentifier cs = true) :
    ∃ c rest, cs = c :: rest ∧ startsName c = true ∧ ∀ d ∈ cs, continuesName d = true := by
  cases cs with
  | nil => cases h
  | cons c rest =>
    unfold isIdentifier at h
    rw [Bool.and_eq_true, List.all_eq_true] at h
    exact ⟨c, rest, rfl, h.1, List.forall_mem_cons.2 ⟨continuesName_of_startsName h.1, h.2⟩⟩

/-! ## Texts that read back -/

/-- A text reads as a number: it starts like one, and is nothing but that number. -/
def ReadsNumber (text : String) (value : Numeral) : Prop :=
  (∃ c rest, text.toList = c :: rest ∧ startsNumber c = true) ∧
    (∀ c ∈ text.toList, IsPlain c ∧ isBlank c = false) ∧
    Numeral.readChars? text.toList = some value

/-- Every number of an expression is written as a text that reads as a number, and every function
has an identifier for a name. -/
inductive Readable {ν : Type} (literal : ν → String) (read : ν → Numeral) : Expr ν → Prop
  | number {value : ν} : ReadsNumber (literal value) (read value) →
      Readable literal read (.number value)
  | call {function : String} {arguments : List (Expr ν)} :
      isIdentifier function.toList = true → (∀ e ∈ arguments, Readable literal read e) →
      Readable literal read (.call function arguments)

namespace Readable

variable {ν : Type} {literal : ν → String} {read : ν → Numeral} {e : Expr ν} {f : String}
  {args : List (Expr ν)}

theorem toList_text_call (literal : ν → String) (f : String) (args : List (Expr ν)) :
    ((Expr.call f args).text literal).toList =
      f.toList ++ '(' :: (join (args.map fun e => (e.text literal).toList) ++ [')']) := by
  rw [text_call, String.toList_append, String.toList_append, String.toList_append,
    toList_intercalate_separator, List.map_map]
  simp [Function.comp_def]

theorem closed (h : Readable literal read e) : Closed (e.text literal).toList := by
  induction h with
  | number h =>
    rw [text_number]
    exact closed_of_isPlain fun c hc => (h.2.1 c hc).1
  | call hname _ ih =>
    obtain ⟨c, rest, -, -, hchars⟩ := exists_cons_of_isIdentifier hname
    rw [toList_text_call]
    refine (closed_of_isPlain fun c hc => isPlain_of_continuesName (hchars c hc)).append
      (closed_parentheses (closedFrom_join ?_))
    rw [List.forall_mem_map]
    exact ih

theorem exists_cons (h : Readable literal read e) :
    ∃ c rest, (e.text literal).toList = c :: rest ∧ isBlank c = false := by
  cases h with
  | number h =>
    obtain ⟨c, rest, htext, -⟩ := h.1
    rw [text_number]
    exact ⟨c, rest, htext, (h.2.1 c (by simp [htext])).2⟩
  | call hname =>
    obtain ⟨c, rest, hcons, hstart, -⟩ := exists_cons_of_isIdentifier hname
    rw [toList_text_call, hcons]
    exact ⟨c, _, rfl, isBlank_of_continuesName (continuesName_of_startsName hstart)⟩

theorem trimmed (h : Readable literal read e) : Trimmed (e.text literal).toList := by
  obtain ⟨c, rest, htext, hblank⟩ := h.exists_cons
  refine ⟨by simpa [htext] using hblank, ?_⟩
  cases h with
  | number h =>
    rw [text_number]
    exact (Trimmed.of_forall fun c hc => (h.2.1 c hc).2).2
  | call =>
    rw [toList_text_call, ← List.cons_append, ← List.append_assoc, List.getLast?_concat]
    intro c hc
    cases hc
    rfl

end Readable

/-- Reading the arguments of a call, if reading each of them is understood. -/
theorem readArguments_join {ν : Type} {literal : ν → String} {read : ν → Numeral} {e : Expr ν}
    {es : List (Expr ν)} (h : ∀ x ∈ e :: es, Readable literal read x)
    (ih : ∀ x ∈ e :: es, ∀ {cs : List Char}, trim cs = (x.text literal).toList →
      parseChars cs = .ok (x.map read)) :
    readArguments (join ((e :: es).map fun x => (x.text literal).toList)) =
      .ok ((e :: es).map (map read)) := by
  have hclosed : ∀ ds ∈ (e :: es).map fun x => (x.text literal).toList, Closed ds :=
    List.forall_mem_map.2 fun x hx => (h x hx).closed
  refine readArguments_eq_ok_iff.2 (.inr ⟨?_, ?_⟩)
  · obtain ⟨c, rest, htext, hblank⟩ := (h e List.mem_cons_self).exists_cons
    rw [List.map_cons, htext]
    obtain ⟨tail, htail⟩ := exists_join_cons (c :: rest) (es.map fun x => (x.text literal).toList)
    rw [htail]
    exact trim_ne_nil hblank _
  · obtain ⟨ended, last, hcut, hparts⟩ := cutFrom_join hclosed []
    unfold cut
    rw [List.map_cons, hcut]
    refine ⟨last, rfl, ?_⟩
    obtain ⟨hfirst, hrest⟩ := List.forall_mem_cons.1 h
    obtain ⟨ihfirst, ihrest⟩ := List.forall_mem_cons.1 ih
    have hspaced : (es.map fun x => ' ' :: (x.text literal).toList).mapM parseChars =
        .ok (es.map (map read)) := by
      refine mapM_map_eq_ok fun x hx => ihrest x hx ?_
      rw [trim_cons_blank isBlank_space, trim_eq_self (hrest x hx).trimmed]
    rw [hparts, List.reverse_nil, List.nil_append, List.map_map, List.mapM_cons,
      ihfirst (trim_eq_self hfirst.trimmed)]
    show (do
      let rest ← (es.map fun x : Expr ν => ' ' :: (x.text literal).toList).mapM parseChars
      return e.map read :: rest) = _
    rw [hspaced]
    rfl

/-- What is written reads back, blanks around it not counting. -/
theorem Readable.parseChars_eq {ν : Type} {literal : ν → String} {read : ν → Numeral} {e : Expr ν}
    (h : Readable literal read e) {cs : List Char} (hcs : trim cs = (e.text literal).toList) :
    parseChars cs = .ok (e.map read) := by
  induction h generalizing cs with
  | number h =>
    obtain ⟨⟨c, rest, htext, hstart⟩, -, hread⟩ := h
    rw [text_number] at hcs
    rw [map]
    refine parseChars_eq_ok_iff.2 ⟨c, rest, hcs.trans htext, .inl ⟨hstart, _, ?_, rfl⟩⟩
    rw [hcs, hread]
  | @call f args hname hargs ih =>
    obtain ⟨c, rest, hcons, hstart, hchars⟩ := exists_cons_of_isIdentifier hname
    have hplain : ∀ d ∈ f.toList, d ≠ '(' := by
      intro d hd
      exact (isPlain_of_continuesName (hchars d hd)).1
    have htrim : trim f.toList = f.toList :=
      trim_eq_self (Trimmed.of_forall fun d hd => isBlank_of_continuesName (hchars d hd))
    have hread : readArguments (join (args.map fun e => (e.text literal).toList)) =
        .ok (args.map (map read)) := by
      cases args with
      | nil => rfl
      | cons e es => exact readArguments_join hargs ih
    rw [toList_text_call] at hcs
    have hfirst : trim cs = c ::
        (rest ++ '(' :: (join (args.map fun e => (e.text literal).toList) ++ [')'])) := by
      rw [hcs, hcons, List.cons_append]
    refine parseChars_eq_ok_iff.2
      ⟨c, _, hfirst, .inr ⟨startsNumber_of_startsName hstart, readCall_eq_ok_iff.2 ?_⟩⟩
    refine ⟨f.toList, _, _, hcs, hplain, by rwa [htrim], hread, ?_⟩
    rw [htrim, String.ofList_toList, map]

theorem Readable.parse_text {ν : Type} {literal : ν → String} {read : ν → Numeral} {e : Expr ν}
    (h : Readable literal read e) : parse (e.text literal) = .ok (e.map read) :=
  h.parseChars_eq (trim_eq_self h.trimmed)

end SeededArt.Expr
