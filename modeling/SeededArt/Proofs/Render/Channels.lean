import SeededArt.Proofs.Engine.Software
import SeededArt.Proofs.Expr.Form
import SeededArt.Proofs.Render.Compiling
/-!
# Channels and axes

A tree reads the coordinate along an axis if one of its functions does. Its values at two fragments
are equal if the fragments have the same coordinates along all axes that it reads
(`Node.eval_congr`), so a channel of an image is constant along every axis that its tree does not
read (`Program.constantAlong_draw`).

A text that compiles is a call of `E` on three texts, one for each channel
(`exists_colourText`). Whatever the texts of the other channels are, a channel of the image stays
the same (`render_separates`).
-/

namespace SeededArt.Render

open Decimal SeededArt.Expr

variable {ν : Type}

/-! ## Axes -/

/-- The directions of a canvas. -/
inductive Axis where
  | horizontal | vertical
deriving DecidableEq, Repr

/-- The names of the functions whose values depend on the coordinate along an axis. -/
def Axis.readers : Axis → List String
  | horizontal => ["get_x", "get_abs_x", "get_distance"]
  | vertical => ["get_y", "get_abs_y", "get_distance"]

def Fragment.along (at_ : Fragment ν) : Axis → ν
  | .horizontal => at_.x
  | .vertical => at_.y

/-- Whether the value of a function depends on the coordinate along an axis. -/
def Function.reads : Function → Axis → Bool
  | x, .horizontal | absX, .horizontal | y, .vertical | absY, .vertical | distance, _ => true
  | _, _ => false

theorem Function.mem_readers {name : String} {f : Function} {axis : Axis}
    (hname : ofName? name = some f) (h : f.reads axis = true) : name ∈ axis.readers := by
  have hall : ∀ p ∈ table, p.2.reads axis = true → p.1 ∈ axis.readers := by
    cases axis <;> decide
  exact hall _ (mem_table_of_ofName? hname) h

section Evaluating

variable [Scalar ν] {here there : Fragment ν} {n : Node ν} {axis : Axis}

theorem Function.apply_congr {f : Function}
    (h : ∀ axis, f.reads axis = true → here.along axis = there.along axis) (arguments : List ν) :
    f.apply here arguments = f.apply there arguments := by
  have hx (hreads : f.reads .horizontal = true) : here.x = there.x := h .horizontal hreads
  have hy (hreads : f.reads .vertical = true) : here.y = there.y := h .vertical hreads
  cases f
  case x => exact hx rfl
  case y => exact hy rfl
  case absX => exact congrArg Scalar.magnitude (hx rfl)
  case absY => exact congrArg Scalar.magnitude (hy rfl)
  case distance => exact congrArg₂ Scalar.hypotenuse (hx rfl) (hy rfl)
  all_goals rfl

/-- The value of a tree depends only on the coordinates that its functions read. -/
theorem Node.eval_congr (h : ∀ f ∈ n.functions, ∀ axis, f.reads axis = true →
    here.along axis = there.along axis) : n.eval here = n.eval there := by
  induction n using Node.functions.induct with
  | case1 value => rw [eval, eval]
  | case2 f arguments ih =>
    have hvalues : arguments.map (fun n => n.eval here) = arguments.map fun n => n.eval there :=
      List.map_congr_left fun n hn =>
        ih n hn fun g hg => h g (mem_functions_call.2 (.inr ⟨n, hn, hg⟩))
    rw [eval, eval, hvalues]
    exact Function.apply_congr (h f (mem_functions_call.2 (.inl rfl))) _

/-- Fragments apart along one axis only are the same to a tree that does not read it. -/
theorem Node.eval_eq_of_not_reads (h : ∀ f ∈ n.functions, f.reads axis = false)
    (hother : ∀ other ≠ axis, here.along other = there.along other) :
    n.eval here = n.eval there := by
  refine eval_congr fun f hf other hreads => hother other ?_
  rintro rfl
  rw [h f hf] at hreads
  cases hreads

end Evaluating

/-! ## Channels of an image -/

/-- The channels of a colour. -/
inductive Channel where
  | red | green | blue
deriving DecidableEq, Repr

def Channel.level : Channel → Pixel → UInt8
  | red, p => p.red
  | green, p => p.green
  | blue, p => p.blue

def Program.channel (p : Program ν) : Channel → Node ν
  | .red => p.red
  | .green => p.green
  | .blue => p.blue

namespace Image

/-- The levels of a channel: its rows from the top, each from the left. -/
def levels (image : Image) (c : Channel) : List (List UInt8) :=
  image.rows.map fun row => row.map c.level

/-- A channel has one level in every row, or one in every column. -/
def ConstantAlong (image : Image) (c : Channel) : Axis → Prop
  | .horizontal => ∀ row ∈ image.levels c, ∀ left ∈ row, ∀ right ∈ row, left = right
  | .vertical => ∀ upper ∈ image.levels c, ∀ lower ∈ image.levels c, upper = lower

end Image

namespace Program

variable [Scalar ν] {p q : Program ν} {c : Channel} {axis : Axis}

theorem level_shade (p : Program ν) (c : Channel) (at_ : Fragment ν) :
    c.level (p.shade at_) = Scalar.level ((p.channel c).eval at_) := by
  cases c <;> rfl

theorem levels_draw (p : Program ν) (c : Channel) (scale : ν) (width height : Nat) :
    (p.draw scale width height).levels c = (List.range height).map fun row =>
      (List.range width).map fun column =>
        Scalar.level ((p.channel c).eval (.ofPixel scale width height column row)) := by
  simp only [Image.levels, draw, List.map_map, Function.comp_def, level_shade]

theorem alpha_draw (p : Program ν) (scale : ν) (width height : Nat) :
    ∀ row ∈ (p.draw scale width height).rows, ∀ pixel ∈ row, pixel.alpha = 255 := by
  unfold draw
  rw [List.forall_mem_map]
  intro row _
  rw [List.forall_mem_map]
  intro column _
  rfl

theorem constantAlong_draw (h : ∀ f ∈ (p.channel c).functions, f.reads axis = false) (scale : ν)
    (width height : Nat) : (p.draw scale width height).ConstantAlong c axis := by
  unfold Image.ConstantAlong
  rw [levels_draw]
  cases axis with
  | horizontal =>
    -- pixels of one row are apart horizontally only
    simp only [List.forall_mem_map]
    intro row _ left _ right _
    refine congrArg _ (Node.eval_eq_of_not_reads h fun other hother => ?_)
    cases other with
    | horizontal => exact absurd rfl hother
    | vertical => rfl
  | vertical =>
    simp only [List.forall_mem_map]
    intro upper _ lower _
    refine List.map_congr_left fun column _ => ?_
    refine congrArg _ (Node.eval_eq_of_not_reads h fun other hother => ?_)
    cases other with
    | horizontal => rfl
    | vertical => exact absurd rfl hother

end Program

/-! ## Texts of channels -/

/-- A text that reads as a scalar expression, with the tree of that expression. -/
structure ChannelText (ν : Type) [Scalar ν] where
  chars : List Char
  expr : Expr Numeral
  node : Node ν
  reads : parseChars chars = .ok expr
  compiles : Node.ofExpr expr = .ok node

/-- A call of `E` on the texts of three channels, with blanks around it and before the
parenthesis. -/
structure ColourText (ν : Type) [Scalar ν] where
  before : Blanks
  gap : Blanks
  channel : Channel → ChannelText ν
  after : Blanks

variable [Scalar ν]

theorem ChannelText.exists_form (t : ChannelText ν) :
    ∃ form : Form, form.chars = t.chars ∧ form.expr = t.expr :=
  exists_form_of_parseChars t.reads

namespace ColourText

def text (t : ColourText ν) : String :=
  String.ofList (t.before.1 ++ (callChars ⟨"E".toList, by decide⟩ t.gap
    (Expr.listing (t.channel .red).chars [(t.channel .green).chars, (t.channel .blue).chars]) ++
      t.after.1))

def program (t : ColourText ν) : Program ν :=
  ⟨(t.channel .red).node, (t.channel .green).node, (t.channel .blue).node⟩

theorem channel_program (t : ColourText ν) (c : Channel) :
    t.program.channel c = (t.channel c).node := by
  cases c <;> rfl

theorem parse_text (t : ColourText ν) :
    Expr.parse t.text = .ok (.call "E" [(t.channel .red).expr, (t.channel .green).expr,
      (t.channel .blue).expr]) := by
  obtain ⟨red, hred, hredExpr⟩ := (t.channel .red).exists_form
  obtain ⟨green, hgreen, hgreenExpr⟩ := (t.channel .green).exists_form
  obtain ⟨blue, hblue, hblueExpr⟩ := (t.channel .blue).exists_form
  have hform := (Form.call t.before ⟨"E".toList, by decide⟩ t.gap red [green, blue]
    t.after).parseChars_chars
  rw [Form.chars, Form.expr, String.ofList_toList] at hform
  simp only [List.map_cons, List.map_nil, hred, hgreen, hblue, hredExpr, hgreenExpr,
    hblueExpr] at hform
  rw [Expr.parse, text, String.toList_ofList]
  exact hform

theorem expr_eq {t : ColourText ν} {red green blue : Expr Numeral}
    (h : Expr.parse t.text = .ok (.call "E" [red, green, blue])) :
    (t.channel .red).expr = red ∧ (t.channel .green).expr = green ∧
      (t.channel .blue).expr = blue := by
  rw [parse_text] at h
  obtain ⟨hred, hrest⟩ := List.cons.inj (Expr.call.inj (Except.ok.inj h)).2
  obtain ⟨hgreen, hrest⟩ := List.cons.inj hrest
  exact ⟨hred, hgreen, (List.cons.inj hrest).1⟩

theorem compile_text (t : ColourText ν) : Program.compile t.text = .ok t.program :=
  Program.compile_eq_ok_iff.2 ⟨_, _, _, t.parse_text, (t.channel .red).compiles,
    (t.channel .green).compiles, (t.channel .blue).compiles⟩

end ColourText

/-- Every text that compiles is a call of `E` on three texts. -/
theorem exists_colourText {text : String} {p : Program ν} (h : Program.compile text = .ok p) :
    ∃ t : ColourText ν, t.text = text := by
  obtain ⟨red, green, blue, hparse, hred, hgreen, hblue⟩ := Program.compile_eq_ok_iff.1 h
  obtain ⟨form, hchars, hexpr⟩ := exists_form_of_parseChars hparse
  obtain ⟨before, name, gap, first, rest, after, rfl, hname, rfl, hrest⟩ :=
    Form.exists_call_of_expr hexpr
  match rest, hrest with
  | [second, third], hrest =>
    simp only [List.map_cons, List.map_nil, List.cons.injEq, and_true] at hrest
    obtain ⟨rfl, rfl⟩ := hrest
    refine ⟨⟨before, gap, fun
      | .red => ⟨first.chars, first.expr, p.red, first.parseChars_chars, hred⟩
      | .green => ⟨second.chars, second.expr, p.green, second.parseChars_chars, hgreen⟩
      | .blue => ⟨third.chars, third.expr, p.blue, third.parseChars_chars, hblue⟩, after⟩, ?_⟩
    obtain rfl : name = ⟨"E".toList, by decide⟩ := Subtype.ext hname
    rw [Form.chars] at hchars
    rw [← String.ofList_toList (s := text), ← hchars]
    rfl

/-! ## Separation -/

/-- An image of a text keeps channels and coordinates apart. -/
structure ColourText.Separates (t : ColourText ν) (scale : ν) (size : Size) (image : Image) :
    Prop where
  hasSize : image.HasSize size
  alpha : ∀ row ∈ image.rows, ∀ pixel ∈ row, pixel.alpha = 255
  /-- Where another text has the expression of a channel, its image has the levels. -/
  own : ∀ (c d : Channel) (u : ColourText ν), (u.channel d).expr = (t.channel c).expr →
    ∃ other, render u.text scale size.width size.height = .ok other ∧
      other.levels d = image.levels c
  /-- A channel that calls no function of a coordinate is constant along its axis. -/
  constant : ∀ (c : Channel) (axis : Axis),
    (∀ name ∈ (t.channel c).expr.calls, name ∉ axis.readers) → image.ConstantAlong c axis

theorem ColourText.render_text (t : ColourText ν) {size : Size} (h : size.HasPixels) (scale : ν) :
    render t.text scale size.width size.height =
      .ok (t.program.draw scale size.width size.height) := by
  rw [render_of_hasPixels h, t.compile_text]
  rfl

theorem ChannelText.reads_eq_false {t : ChannelText ν} {axis : Axis}
    (h : ∀ name ∈ t.expr.calls, name ∉ axis.readers) :
    ∀ f ∈ t.node.functions, f.reads axis = false := by
  intro f hf
  obtain ⟨name, hcalls, hname⟩ := Node.exists_call_of_mem_functions t.compiles hf
  by_contra hreads
  exact h name hcalls (Function.mem_readers hname (Bool.not_eq_false _ ▸ hreads))

theorem ColourText.separates_draw (t : ColourText ν) {size : Size} (h : size.HasPixels)
    (scale : ν) : t.Separates scale size (t.program.draw scale size.width size.height) where
  hasSize := t.program.hasSize_draw scale size
  alpha := t.program.alpha_draw scale size.width size.height
  own c d u hexpr := by
    have hnode : (u.channel d).node = (t.channel c).node := by
      have hcompiles := (u.channel d).compiles
      rw [hexpr, (t.channel c).compiles] at hcompiles
      exact (Except.ok.inj hcompiles).symm
    refine ⟨_, u.render_text h scale, ?_⟩
    rw [Program.levels_draw, Program.levels_draw, channel_program, channel_program, hnode]
  constant c axis hcalls := by
    refine Program.constantAlong_draw ?_ scale size.width size.height
    rw [channel_program]
    exact ChannelText.reads_eq_false hcalls

/-- Every text that compiles is drawn at its size, without transparency. A channel of its image
depends on the text of that channel only, and it is constant along an axis if that text calls none
of the functions of its coordinate. -/
theorem render_separates {text : String} {p : Program ν} {size : Size}
    (hcompile : Program.compile text = .ok p) (hpixels : size.HasPixels) (scale : ν) :
    (∃ t : ColourText ν, t.text = text) ∧
      ∀ t : ColourText ν, t.text = text →
        ∃ image, render text scale size.width size.height = .ok image ∧
          t.Separates scale size image := by
  refine ⟨exists_colourText hcompile, ?_⟩
  rintro t rfl
  exact ⟨_, t.render_text hpixels scale, t.separates_draw hpixels scale⟩

/-- A gradient from the left to the right and one from the bottom to the top, and the first again
beside other channels. -/
theorem render_separates_gradients :
    (∃ p : Program Float32, Program.compile "E(get_x(), get_y(), 0.5)" = .ok p) ∧
      (⟨3, 2⟩ : Size).HasPixels ∧
      ∃ image other, render "E(get_x(), get_y(), 0.5)" (2.0 : Float32) 3 2 = .ok image ∧
        render "E(get_x(), 0.5, get_distance())" (2.0 : Float32) 3 2 = .ok other ∧
        image.HasSize ⟨3, 2⟩ ∧ image.ConstantAlong .red .vertical ∧
        image.ConstantAlong .green .horizontal ∧ other.levels .red = image.levels .red := by
  have hleaf {name : String} {f : Function} (hname : Function.ofName? name = some f)
      (hne : f ≠ .colour) (harity : 0 = f.arity) :
      Node.ofExpr (.call name []) = .ok (Node.call (ν := Float32) f []) :=
    Node.ofExpr_call hname hne harity rfl
  have hx : Node.ofExpr (.call "get_x" []) = .ok _ := hleaf rfl (by decide) rfl
  have hy : Node.ofExpr (.call "get_y" []) = .ok _ := hleaf rfl (by decide) rfl
  have hdistance : Node.ofExpr (.call "get_distance" []) = .ok _ := hleaf rfl (by decide) rfl
  have hhalf : Node.ofExpr (.number (.finite false 5 (-1))) =
      .ok (Node.constant (ν := Float32) (Scalar.ofNumeral (.finite false 5 (-1)))) := by
    rw [Node.ofExpr]
  have hparse : Expr.parse "E(get_x(), get_y(), 0.5)" = .ok (.call "E"
      [.call "get_x" [], .call "get_y" [], .number (.finite false 5 (-1))]) := by
    decide +kernel
  have hparse' : Expr.parse "E(get_x(), 0.5, get_distance())" = .ok (.call "E"
      [.call "get_x" [], .number (.finite false 5 (-1)), .call "get_distance" []]) := by
    decide +kernel
  have hcompile : Program.compile (ν := Float32) "E(get_x(), get_y(), 0.5)" =
      .ok ⟨_, _, _⟩ := Program.compile_eq_ok_iff.2 ⟨_, _, _, hparse, hx, hy, hhalf⟩
  have hcompile' : Program.compile (ν := Float32) "E(get_x(), 0.5, get_distance())" =
      .ok ⟨_, _, _⟩ := Program.compile_eq_ok_iff.2 ⟨_, _, _, hparse', hx, hhalf, hdistance⟩
  have hpixels : (⟨3, 2⟩ : Size).HasPixels := ⟨by decide, by decide⟩
  obtain ⟨⟨t, ht⟩, hdrawn⟩ := render_separates hcompile hpixels 2.0
  obtain ⟨image, himage, hseparates⟩ := hdrawn t ht
  obtain ⟨u, hu⟩ := exists_colourText hcompile'
  obtain ⟨hred, hgreen, -⟩ := ColourText.expr_eq (ht ▸ hparse)
  obtain ⟨hred', -, -⟩ := ColourText.expr_eq (hu ▸ hparse')
  obtain ⟨other, hother, hlevels⟩ := hseparates.own .red .red u (hred'.trans hred.symm)
  rw [hu] at hother
  refine ⟨⟨_, hcompile⟩, hpixels, image, other, himage, hother, hseparates.hasSize,
    hseparates.constant .red .vertical ?_, hseparates.constant .green .horizontal ?_, hlevels⟩
  · rw [hred, Expr.calls]
    decide
  · rw [hgreen, Expr.calls]
    decide

end SeededArt.Render
