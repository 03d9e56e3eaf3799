import SeededArt.Engine
import SeededArt.Proofs.Registry.Standard
import SeededArt.Proofs.Render.Pool
/-!
# What is asked of a backend

A picture is drawn if the canvas has pixels, the scale is positive and finite and the grammar is
registered (`Engine.Accepts`); otherwise the first of these that does not hold tells the error
(`Engine.Refuses`). Nothing else is refused before the backend draws, since a seed synthesizes an
expression with every grammar (`Grammar.exists_synthesizeFromSeed`). So an accepted picture makes
one request and a refused one makes none (`Engine.generate_of_accepts`,
`Engine.generate_of_refuses`), which a backend that keeps its requests can tell
(`Backend.recording`), and a picture is the same whoever keeps the backend
(`Engine.generatePooled_of_accepts`).
-/

namespace SeededArt

open Arithmetic SeededArt.Random Render

/-! ## Checks -/

section Checks

variable {size : Size} {o : Options}

def Render.Size.HasPixels (size : Size) : Prop := 0 < size.width ∧ 0 < size.height

/-- A scale is finite and positive. -/
def Options.HasScale (o : Options) : Prop := o.scale.isFinite = true ∧ 0.0 < o.scale

theorem checkSize_of_hasPixels (h : size.HasPixels) : checkSize size = .ok () := by
  unfold checkSize
  rw [if_neg (not_or.2 ⟨h.1.ne', h.2.ne'⟩)]

theorem checkSize_of_not_hasPixels (h : ¬size.HasPixels) :
    checkSize size = .error (.emptyCanvas size.width size.height) := by
  have hempty : size.width = 0 ∨ size.height = 0 := by
    by_contra hne
    obtain ⟨hwidth, hheight⟩ := not_or.1 hne
    exact h ⟨Nat.pos_of_ne_zero hwidth, Nat.pos_of_ne_zero hheight⟩
  unfold checkSize
  rw [if_pos hempty]

theorem Options.check_of_hasScale (h : o.HasScale) : o.check = .ok () := by
  unfold check
  rw [if_pos (Bool.and_eq_true_iff.2 ⟨h.1, decide_eq_true h.2⟩)]

theorem Options.check_of_not_hasScale (h : ¬o.HasScale) : o.check = .error (.badScale o.scale) := by
  have hbad : ¬(o.scale.isFinite && decide (0.0 < o.scale)) = true := by
    rw [Bool.and_eq_true_iff, decide_eq_true_iff]
    exact h
  unfold check
  rw [if_neg hbad]

theorem Options.hasScale_of_check (h : o.check = .ok ()) : o.HasScale := by
  by_contra hbad
  rw [check_of_not_hasScale hbad] at h
  cases h

end Checks

/-! ## Looking up and synthesizing -/

section Synthesizing

variable {α ε : Type} [Arithmetic α]

theorem Grammar.exists_synthesizeFromSeed [RoundedArithmetic α] (g : Grammar α) (depth : Nat)
    (seed : String) :
    ∃ t s', g.Expands [g.start] depth (Mulberry.ofSeed seed) [t] s' ∧
      g.synthesizeFromSeed depth seed = .ok (t.expr.text literal) := by
  have hP := g.picksPositive_of_isWordFraction
  have hwords : AllDraws (IsWordFraction (α := α)) (Mulberry.ofSeed seed) := allDraws_mulberry _
  obtain ⟨t, s', ht⟩ := exists_expands_singleton hP hwords g.has_start depth
  refine ⟨t, s', ht, ?_⟩
  unfold synthesizeFromSeed
  rw [ht.synthesize hP hwords]

namespace Engine

variable {e : Engine α} {size : Size} {o : Options} {error : Error α ε}

/-- What a picture needs to be drawn. -/
structure Accepts (e : Engine α) (size : Size) (o : Options) : Prop where
  pixels : size.HasPixels
  scale : o.HasScale
  registered : e.registry.contains o.grammar = true

/-- The error of the first check that a picture does not pass. -/
inductive Refuses (e : Engine α) (size : Size) (o : Options) : Error α ε → Prop where
  | canvas : ¬size.HasPixels → Refuses e size o (.input (.emptyCanvas size.width size.height))
  | scale : size.HasPixels → ¬o.HasScale → Refuses e size o (.input (.badScale o.scale))
  | grammar : size.HasPixels → o.HasScale → e.registry.contains o.grammar = false →
      Refuses e size o (.unknownGrammar o.grammar e.registry.names)

theorem exists_refuses (h : ¬e.Accepts size o) : ∃ error : Error α ε, e.Refuses size o error := by
  by_cases hpixels : size.HasPixels
  · by_cases hscale : o.HasScale
    · cases hgrammar : e.registry.contains o.grammar with
      | true => exact absurd ⟨hpixels, hscale, hgrammar⟩ h
      | false => exact ⟨_, .grammar hpixels hscale hgrammar⟩
    · exact ⟨_, .scale hpixels hscale⟩
  · exact ⟨_, .canvas hpixels⟩

theorem shader_of_get {g : Grammar α} {text : String}
    (hget : e.registry.get (ε := ε) o.grammar = .ok g)
    (htext : g.synthesizeFromSeed o.depth o.seed = .ok text) :
    ∃ notices, e.shader (ε := ε) o = .ok (e.template.emit text, notices) := by
  unfold shader expression
  rw [hget]
  simp only [bind, Except.bind, htext]
  exact ⟨_, rfl⟩

theorem exists_shader [RoundedArithmetic α] (h : e.registry.contains o.grammar = true) :
    ∃ shader notices, e.shader (ε := ε) o = .ok (shader, notices) := by
  obtain ⟨g, -, -, hget⟩ := Registry.exists_get (ε := ε) h
  obtain ⟨t, -, -, htext⟩ := g.exists_synthesizeFromSeed o.depth o.seed
  exact ⟨_, shader_of_get hget htext⟩

theorem prepare_of_accepts (h : e.Accepts size o) :
    e.prepare (ε := ε) size o = e.shader o := by
  unfold prepare
  rw [checkSize_of_hasPixels h.pixels, Options.check_of_hasScale h.scale]

theorem prepare_of_refuses (h : e.Refuses size o error) : e.prepare size o = .error error := by
  unfold prepare
  cases h with
  | canvas hpixels => rw [checkSize_of_not_hasPixels hpixels]; rfl
  | scale hpixels hscale =>
    rw [checkSize_of_hasPixels hpixels, Options.check_of_not_hasScale hscale]
    rfl
  | grammar hpixels hscale hgrammar =>
    rw [checkSize_of_hasPixels hpixels, Options.check_of_hasScale hscale]
    simp only [shader, expression, Registry.get_of_not_contains hgrammar]
    rfl

end Engine

end Synthesizing

/-! ## Requests -/

section Requests

variable {α β δ ε ι τ : Type}

/-- A backend that keeps its requests, the newest first. -/
def Backend.recording (b : Backend β ι ε) : Backend (β × List Request) ι ε where
  draw request state :=
    ((b.draw request state.1).1, (b.draw request state.1).2, request :: state.2)

/-- The one request of a picture, and what comes of it. -/
theorem Engine.drawWith_eq (b : Backend β ι ε) (shader : Shader) (size : Size) (o : Options)
    (state : β) :
    drawWith (α := α) b shader size o state =
      ((b.draw ⟨shader, size, o.scale⟩ state).1.mapError .backend,
        (b.draw ⟨shader, size, o.scale⟩ state).2) := by
  unfold drawWith
  rcases b.draw ⟨shader, size, o.scale⟩ state with ⟨_ | _, _⟩ <;> rfl

namespace Engine

variable [Arithmetic α] {e : Engine α} {b : Backend β ι ε} {state : β} {size : Size} {o : Options}
  {error : Error α ε} {shader : Shader} {notices : List Notice}

theorem generate_of_accepts (h : e.Accepts size o)
    (hshader : e.shader (ε := ε) o = .ok (shader, notices)) :
    e.generate b state size o =
      ⟨(b.draw ⟨shader, size, o.scale⟩ state).1.mapError .backend,
        (b.draw ⟨shader, size, o.scale⟩ state).2, notices⟩ := by
  unfold generate
  rw [prepare_of_accepts h, hshader]
  simp only [drawWith_eq]

theorem generate_of_refuses (h : e.Refuses size o error) :
    e.generate b state size o = ⟨.error error, state, []⟩ := by
  unfold generate
  rw [prepare_of_refuses h]

theorem generate_debug [RoundedArithmetic α] (e : Engine α) (b : Backend β ι ε) (state : β)
    (size : Size) (o : Options) (debug : Bool) :
    (e.generate b state size { o with debug }).result = (e.generate b state size o).result ∧
      (e.generate b state size { o with debug }).backend =
        (e.generate b state size o).backend := by
  by_cases h : e.Accepts size o
  · obtain ⟨g, -, -, hget⟩ := Registry.exists_get (ε := ε) h.registered
    obtain ⟨t, -, -, htext⟩ := g.exists_synthesizeFromSeed o.depth o.seed
    obtain ⟨_, hshader⟩ := shader_of_get hget htext
    obtain ⟨_, hother⟩ := shader_of_get (o := { o with debug }) hget htext
    have haccepts : e.Accepts size { o with debug } := ⟨h.pixels, h.scale, h.registered⟩
    rw [generate_of_accepts h hshader, generate_of_accepts haccepts hother]
    exact ⟨rfl, rfl⟩
  · obtain ⟨error, hrefuses⟩ := exists_refuses (ε := ε) h
    -- no check looks at the flag
    have hother : e.Refuses size { o with debug } error := by
      cases hrefuses with
      | canvas hpixels => exact .canvas hpixels
      | scale hpixels hscale => exact .scale hpixels hscale
      | grammar hpixels hscale hgrammar => exact .grammar hpixels hscale hgrammar
    rw [generate_of_refuses hrefuses, generate_of_refuses hother]
    exact ⟨rfl, rfl⟩

section Pooled

variable {create : Size → τ → Except δ β × τ} {pool : Pool β} {creator creator' : τ} {box : δ → ε}

/-- With a new context an accepted picture is the same, and the context goes to the pool. -/
theorem generatePooled_of_accepts [RoundedArithmetic α] (h : e.Accepts size o)
    (hidle : pool.idle size = []) (hcreate : create size creator = (.ok state, creator')) :
    (e.generatePooled b create pool creator size o box).result =
        (e.generate b state size o).result ∧
      (e.generatePooled b create pool creator size o box).pool =
        pool.release size (e.generate b state size o).backend ∧
      (e.generatePooled b create pool creator size o box).creator = creator' := by
  obtain ⟨shader, notices, hshader⟩ := exists_shader (ε := ε) h.registered
  have hprepare : e.prepare size o = .ok (shader, notices) :=
    (prepare_of_accepts h).trans hshader
  unfold generatePooled generate
  rw [hprepare, Pool.acquire_of_empty hidle, hcreate]
  exact ⟨rfl, rfl, rfl⟩

/-- A refused picture takes nothing from a pool, and asks for no context. -/
theorem generatePooled_of_refuses (h : e.Refuses size o error) :
    e.generatePooled b create pool creator size o box = ⟨.error error, pool, creator, []⟩ := by
  unfold generatePooled
  rw [prepare_of_refuses h]

end Pooled

end Engine

end Requests

theorem drawStandard_of_standard {α β ε ι : Type} [Arithmetic α] {registry : Registry α}
    (h : Registry.standard (ε := ε) = .ok registry) (b : Backend β ι ε) (state : β) (size : Size)
    (o : Options) :
    drawStandard b state size o =
      (⟨registry, Glsl.template⟩ : Engine α).generate b state size o := by
  unfold drawStandard Engine.standard
  rw [h]
  rfl

/-! ## Pictures -/

section Pictures

variable {β δ ε ι τ : Type}

/-- What a picture comes to, who asks for it aside. -/
structure Engine.Draws (e : Engine Float) (b : Backend β ι ε) (state : β) (size : Size)
    (o : Options) (requests : List Request) (outcome : Outcome Float β ε ι) : Prop where
  /-- An accepted picture makes one request. -/
  accepted : e.Accepts size o → ∃ shader notices, e.shader (ε := ε) o = .ok (shader, notices) ∧
    requests = [⟨shader, size, o.scale⟩] ∧
    outcome.result = (b.draw ⟨shader, size, o.scale⟩ state).1.mapError .backend ∧
    outcome.backend = (b.draw ⟨shader, size, o.scale⟩ state).2
  /-- Any other picture makes none, and tells the first check that it does not pass. -/
  refused : ¬e.Accepts size o → requests = [] ∧ (∃ error, e.Refuses size o error ∧
    outcome.result = .error error) ∧ outcome.backend = state

namespace Engine

/-- A backend that keeps its requests tells how many a picture makes. -/
theorem exists_draws_generate (e : Engine Float) (b : Backend β ι ε) (state : β) (size : Size)
    (o : Options) :
    ∃ requests, e.Draws b state size o requests (e.generate b state size o) ∧
      ∀ log, e.generate b.recording (state, log) size o =
        ⟨(e.generate b state size o).result,
          ((e.generate b state size o).backend, requests ++ log),
          (e.generate b state size o).notices⟩ := by
  by_cases h : e.Accepts size o
  · obtain ⟨shader, notices, hshader⟩ := exists_shader (ε := ε) h.registered
    refine ⟨[⟨shader, size, o.scale⟩], ⟨fun _ => ?_, absurd h⟩, fun log => ?_⟩
    · rw [generate_of_accepts h hshader]
      exact ⟨shader, notices, hshader, rfl, rfl, rfl⟩
    · rw [generate_of_accepts h hshader, generate_of_accepts h hshader]
      rfl
  · obtain ⟨error, hrefuses⟩ := exists_refuses (ε := ε) h
    refine ⟨[], ⟨fun haccepts => absurd haccepts h, fun _ => ?_⟩, fun log => ?_⟩
    · rw [generate_of_refuses hrefuses]
      exact ⟨rfl, ⟨error, hrefuses, rfl⟩, rfl⟩
    · rw [generate_of_refuses hrefuses, generate_of_refuses hrefuses]
      rfl

/-- A picture that a pool has to create the backend for. -/
structure PoolsAlike (e : Engine Float) (pool : Pool β) (creator creator' : τ) (size : Size)
    (o : Options) (outcome : Outcome Float β ε ι) (pooled : PooledOutcome Float β ε ι τ) :
    Prop where
  result_eq : pooled.result = outcome.result
  /-- The backend of an accepted picture goes to the pool. -/
  accepted : e.Accepts size o →
    pooled.pool = pool.release size outcome.backend ∧ pooled.creator = creator'
  /-- For any other picture no backend is created. -/
  refused : ¬e.Accepts size o → pooled.pool = pool ∧ pooled.creator = creator

theorem poolsAlike_generatePooled (e : Engine Float) (b : Backend β ι ε) {state : β} {size : Size}
    {o : Options} {create : Size → τ → Except δ β × τ} {box : δ → ε} {pool : Pool β}
    {creator creator' : τ}
    (hidle : pool.idle size = []) (hcreate : create size creator = (.ok state, creator')) :
    e.PoolsAlike pool creator creator' size o (e.generate b state size o)
      (e.generatePooled b create pool creator size o box) := by
  by_cases h : e.Accepts size o
  · obtain ⟨hresult, hpool⟩ := generatePooled_of_accepts (b := b) h hidle hcreate
    exact ⟨hresult, fun _ => hpool, absurd h⟩
  · obtain ⟨error, hrefuses⟩ := exists_refuses (ε := ε) h
    rw [generatePooled_of_refuses hrefuses, generate_of_refuses hrefuses]
    exact ⟨rfl, fun haccepts => absurd haccepts h, fun _ => ⟨rfl, rfl⟩⟩

/-- The backend is asked for an accepted picture, once, and for no other. A pool that has to create
the backend and the library itself come to the same result, and leave the same backend, with its
requests if it keeps them. The result does not depend on whether the expression is announced. -/
theorem generate_agrees (e : Engine Float) (b : Backend β ι ε) (state : β) (size : Size)
    (o : Options) :
    (∃ requests, e.Draws b state size o requests (e.generate b state size o) ∧
        ∀ log, e.generate b.recording (state, log) size o =
          ⟨(e.generate b state size o).result,
            ((e.generate b state size o).backend, requests ++ log),
            (e.generate b state size o).notices⟩) ∧
      (∀ {δ τ : Type} (create : Size → τ → Except δ β × τ) (box : δ → ε) (pool : Pool β)
        (creator creator' : τ),
        pool.idle size = [] → create size creator = (.ok state, creator') →
          e.PoolsAlike pool creator creator' size o (e.generate b state size o)
            (e.generatePooled b create pool creator size o box)) ∧
      (∃ registry, Registry.standard (ε := ε) = .ok registry ∧
        drawStandard b state size o =
          (⟨registry, Glsl.template⟩ : Engine Float).generate b state size o) ∧
      ∀ debug, (e.generate b state size { o with debug }).result =
          (e.generate b state size o).result ∧
        (e.generate b state size { o with debug }).backend =
          (e.generate b state size o).backend := by
  obtain ⟨registry, hstandard, -⟩ := Registry.exists_standard
  refine ⟨e.exists_draws_generate b state size o, ?_, ?_, e.generate_debug b state size o⟩
  · intro δ τ create box pool creator creator' hidle hcreate
    exact e.poolsAlike_generatePooled b hidle hcreate
  · exact ⟨registry, hstandard ε, drawStandard_of_standard (hstandard ε) b state size o⟩

end Engine

/-- A backend that counts its requests and loses every picture. -/
def losing : Backend Nat Unit String := ⟨fun _ count => (.error "lost", count + 1)⟩

/-- A picture is lost after one request, in a pool too. A picture that fails every check makes no
request, and the canvas is the reason. -/
theorem generate_agrees_losing :
    ∃ registry : Registry Float, Registry.standard (ε := String) = .ok registry ∧
      (⟨registry, Glsl.template⟩ : Engine Float).Accepts ⟨8, 6⟩ { seed := "art" } ∧
      (drawStandard (α := Float) losing 0 ⟨8, 6⟩ { seed := "art" }).result =
        .error (.backend "lost") ∧
      (drawStandard (α := Float) losing 0 ⟨8, 6⟩ { seed := "art" }).backend = 1 ∧
      ((⟨registry, Glsl.template⟩ : Engine Float).generatePooled losing
        (fun _ made => (.ok 0, made + 1)) { limit := 1 } 0 ⟨8, 6⟩ { seed := "art" }).pool.slots =
        [(⟨8, 6⟩, [1])] ∧
      (drawStandard (α := Float) losing 0 ⟨0, 6⟩
        { grammar := "none", scale := -1.0 }).result = .error (.input (.emptyCanvas 0 6)) := by
  obtain ⟨registry, hstandard, -, hnames, -⟩ := Registry.exists_standard
  have haccepts : (⟨registry, Glsl.template⟩ : Engine Float).Accepts ⟨8, 6⟩ { seed := "art" } := by
    refine ⟨⟨by decide, by decide⟩, ⟨by decide +kernel, by decide +kernel⟩, ?_⟩
    rw [Registry.contains_iff, hnames]
    decide
  have hrefuses : (⟨registry, Glsl.template⟩ : Engine Float).Refuses (ε := String) ⟨0, 6⟩
      { grammar := "none", scale := -1.0 } (.input (.emptyCanvas 0 6)) :=
    .canvas fun hpixels => Nat.lt_irrefl 0 hpixels.1
  obtain ⟨⟨_, hdraws, -⟩, hpooled, -⟩ := Engine.generate_agrees
    (⟨registry, Glsl.template⟩ : Engine Float) losing 0 ⟨8, 6⟩ { seed := "art" }
  obtain ⟨_, _, -, -, hresult, hbackend⟩ := hdraws.accepted haccepts
  have halike := hpooled (fun _ made => (.ok 0, made + 1)) id { limit := 1 } 0 1 rfl rfl
  refine ⟨registry, hstandard String, haccepts, ?_, ?_, ?_, ?_⟩
  · rw [drawStandard_of_standard (hstandard String), hresult]
    rfl
  · rw [drawStandard_of_standard (hstandard String), hbackend]
    rfl
  · rw [(halike.accepted haccepts).1, hbackend]
    rfl
  · rw [drawStandard_of_standard (hstandard String), Engine.generate_of_refuses hrefuses]

end Pictures

end SeededArt
