import SeededArt.Proofs.Engine.Generation
import SeededArt.Proofs.Grammar.Reordering
/-!
# Pools in use

Engines ask a pool for one picture after another, each with a factory of its own. A picture ends
before it needs a context if a check fails or nothing is synthesized (`Engine.Stops`). Any other one
takes the first idle context of its size or one that the factory makes (`Stock.Takes`), and gives it
back after the draw. `Stock.served` says once what an order can come to.

A pool that keeps at least one context for each size, and no size more than that to begin with, has
room for every context that comes back. So no context is lost and none piles up: the idle contexts
of a size are those that it had and those that were made for it (`Stock.IsSound.conserved`), and one
is made only for a size that has none. What any orders come to is `Stock.run_keeps`.
-/

namespace SeededArt

open Arithmetic Render

/-! ## Pictures that end early -/

namespace Engine

section Stopping

variable {α ε : Type} [Arithmetic α] {e : Engine α} {size : Size} {o : Options} {error : Error α ε}

/-- The error of a picture that needs no context: a check fails, or the grammar has no expression
for the seed. -/
inductive Stops (e : Engine α) (size : Size) (o : Options) : Error α ε → Prop where
  | refused {error : Error α ε} : e.Refuses size o error → Stops e size o error
  | unsynthesized {g : Grammar α} {cause : SynthesisFault α} : e.Accepts size o →
      e.registry.find? o.grammar = some g → g.synthesizeFromSeed o.depth o.seed = .error cause →
      Stops e size o (.synthesis cause)

theorem shader_of_unsynthesized {g : Grammar α} {cause : SynthesisFault α}
    (hfind : e.registry.find? o.grammar = some g)
    (hcause : g.synthesizeFromSeed o.depth o.seed = .error cause) :
    e.shader (ε := ε) o = .error (.synthesis cause) := by
  unfold shader expression
  rw [Registry.get_eq_ok_iff.2 hfind]
  simp only [bind, Except.bind, hcause]
  rfl

/-- A picture that stops needs nothing but its error. -/
theorem prepare_eq_error_iff : e.prepare size o = .error error ↔ e.Stops size o error := by
  constructor
  · intro hprepare
    by_cases h : e.Accepts size o
    · rw [prepare_of_accepts h] at hprepare
      obtain ⟨g, hfind⟩ := Option.isSome_iff_exists.1 h.registered
      cases hsynthesize : g.synthesizeFromSeed o.depth o.seed with
      | error cause =>
        rw [shader_of_unsynthesized hfind hsynthesize] at hprepare
        cases hprepare
        exact .unsynthesized h hfind hsynthesize
      | ok text =>
        obtain ⟨_, hshader⟩ := shader_of_get (Registry.get_eq_ok_iff.2 hfind) hsynthesize
        rw [hshader] at hprepare
        cases hprepare
    · obtain ⟨other, hrefuses⟩ := exists_refuses (ε := ε) h
      rw [prepare_of_refuses hrefuses] at hprepare
      cases hprepare
      exact .refused hrefuses
  · rintro (hrefuses | ⟨haccepts, hfind, hcause⟩)
    · exact prepare_of_refuses hrefuses
    · rw [prepare_of_accepts haccepts, shader_of_unsynthesized hfind hcause]

theorem exists_prepare (h : ∀ error : Error α ε, ¬e.Stops size o error) :
    ∃ shader notices, e.prepare (ε := ε) size o = .ok (shader, notices) ∧
      e.shader (ε := ε) o = .ok (shader, notices) := by
  cases hprepare : e.prepare (ε := ε) size o with
  | error error => exact absurd (prepare_eq_error_iff.1 hprepare) (h error)
  | ok answer =>
    have haccepts : e.Accepts size o := by
      by_contra hrefused
      obtain ⟨error, hrefuses⟩ := exists_refuses (ε := ε) hrefused
      exact h error (.refused hrefuses)
    exact ⟨answer.1, answer.2, rfl, prepare_of_accepts haccepts ▸ hprepare⟩

/-- With rounded arithmetic an accepted picture does not stop, as every seed has an expression. -/
theorem not_stops_of_accepts [RoundedArithmetic α] (h : e.Accepts size o) (error : Error α ε) :
    ¬e.Stops size o error := by
  obtain ⟨shader, notices, hshader⟩ := exists_shader (ε := ε) h.registered
  rw [← prepare_eq_error_iff, prepare_of_accepts h, hshader]
  exact nofun

theorem isWarning_of_shader {shader : Shader} {notices : List Notice}
    (hshader : e.shader (ε := ε) o = .ok (shader, notices)) :
    ∀ notice ∈ notices, notice.isWarning = false := by
  obtain ⟨answer, hexpression, hanswer⟩ := exists_of_bind_eq_ok hshader
  obtain ⟨g, -, hexpression⟩ := exists_of_bind_eq_ok hexpression
  cases hanswer
  split at hexpression
  next => cases hexpression
  next =>
    cases hexpression
    cases o.debug <;> simp [Notice.isWarning]

end Stopping

end Engine

/-! ## Pools -/

namespace Render.Pool

variable {γ : Type}

/-- Every size has room for a context that it hands out and that comes back. -/
structure HasRoom (p : Pool γ) : Prop where
  positive : 1 ≤ p.limit
  bounded : ∀ size, (p.idle size).length ≤ p.limit

@[simp] theorem setIdle_setIdle (p : Pool γ) (size : Size) (contexts others : List γ) :
    (p.setIdle size contexts).setIdle size others = p.setIdle size others := by
  simp [setIdle]

end Render.Pool

/-! ## Orders -/

/-- A picture that an engine asks a pool for, with what makes a context if none is idle. -/
structure Order (α β δ ε : Type) [Arithmetic α] where
  engine : Engine α
  size : Size
  options : Options
  create : Size → Except δ β
  /-- How an error of the factory is told. -/
  box : δ → ε

/-- A pool, and the sizes for which factories were called, with what they made, the newest first. -/
structure Stock (β δ : Type) where
  pool : Pool β
  calls : List (Size × Except δ β) := []

namespace Stock

variable {α β δ ε ι : Type}

/-- The contexts that factories made for a size, the newest first. -/
def made (s : Stock β δ) (size : Size) : List β :=
  (s.calls.filter (·.1 = size)).filterMap fun call => call.2.toOption

theorem made_of_ok (s : Stock β δ) (pool : Pool β) (size other : Size) (c : β) :
    made ⟨pool, (size, .ok c) :: s.calls⟩ other =
      if other = size then c :: s.made size else s.made other := by
  unfold made
  by_cases h : other = size
  · subst h
    simp [Except.toOption]
  · simp [h, Ne.symm h]

theorem made_of_error (s : Stock β δ) (pool : Pool β) (size other : Size) (cause : δ) :
    made ⟨pool, (size, .error cause) :: s.calls⟩ other = s.made other := by
  unfold made
  by_cases h : other = size
  · subst h
    simp [Except.toOption]
  · simp [Ne.symm h]

variable [Arithmetic α]

/-- What an order comes to. -/
def serve (b : Backend β ι ε) (s : Stock β δ) (o : Order α β δ ε) :
    PooledOutcome α β ε ι (List (Size × Except δ β)) :=
  o.engine.generatePooled b (recorded o.create) s.pool s.calls o.size o.options o.box

def after (b : Backend β ι ε) (s : Stock β δ) (o : Order α β δ ε) : Stock β δ :=
  ⟨(s.serve b o).pool, (s.serve b o).creator⟩

def run (b : Backend β ι ε) (s : Stock β δ) (orders : List (Order α β δ ε)) : Stock β δ :=
  orders.foldl (after b) s

/-! ## One order -/

/-- The context that an order draws with, the contexts of the size that stay idle meanwhile, and
the calls of factories by then. -/
inductive Takes (s : Stock β δ) (o : Order α β δ ε) :
    β → List β → List (Size × Except δ β) → Prop where
  | idle {c : β} {rest : List β} : s.pool.idle o.size = c :: rest → Takes s o c rest s.calls
  | made {c : β} : s.pool.idle o.size = [] → o.create o.size = .ok c →
      Takes s o c [] ((o.size, .ok c) :: s.calls)

/-- What an order can come to. -/
inductive Served (b : Backend β ι ε) (s : Stock β δ) (o : Order α β δ ε) :
    PooledOutcome α β ε ι (List (Size × Except δ β)) → Prop where
  /-- It needs no context. -/
  | stopped {error : Error α ε} : o.engine.Stops o.size o.options error →
      Served b s o ⟨.error error, s.pool, s.calls, []⟩
  /-- No context is idle, and the factory fails. -/
  | unmade {notices : List Notice} {cause : δ} :
      (∀ error : Error α ε, ¬o.engine.Stops o.size o.options error) → s.pool.idle o.size = [] →
      o.create o.size = .error cause →
      Served b s o
        ⟨.error (.backend (o.box cause)), s.pool, (o.size, .error cause) :: s.calls, notices⟩
  /-- It is drawn, and the context comes back first. -/
  | drawn {shader : Shader} {notices : List Notice} {c : β} {rest : List β}
      {calls : List (Size × Except δ β)} :
      (∀ error : Error α ε, ¬o.engine.Stops o.size o.options error) →
      o.engine.shader (ε := ε) o.options = .ok (shader, notices) → s.Takes o c rest calls →
      Served b s o
        ⟨(b.draw ⟨shader, o.size, o.options.scale⟩ c).1.mapError .backend,
          s.pool.setIdle o.size ((b.draw ⟨shader, o.size, o.options.scale⟩ c).2 :: rest), calls,
          notices⟩

variable {b : Backend β ι ε} {s : Stock β δ} {o : Order α β δ ε}

theorem Takes.length_lt {c : β} {rest : List β} {calls : List (Size × Except δ β)}
    (hroom : s.pool.HasRoom) (htakes : s.Takes o c rest calls) : rest.length < s.pool.limit := by
  cases htakes with
  | idle hidle =>
    have hbounded := hroom.bounded o.size
    rw [hidle, List.length_cons] at hbounded
    exact hbounded
  | made => exact hroom.positive

theorem served (b : Backend β ι ε) (o : Order α β δ ε) (hroom : s.pool.HasRoom) :
    Served b s o (s.serve b o) := by
  by_cases hstops : ∃ error : Error α ε, o.engine.Stops o.size o.options error
  · obtain ⟨error, hstops⟩ := hstops
    unfold serve Engine.generatePooled
    rw [Engine.prepare_eq_error_iff.2 hstops]
    exact .stopped hstops
  · rw [not_exists] at hstops
    obtain ⟨shader, notices, hprepare, hshader⟩ := Engine.exists_prepare hstops
    unfold serve Engine.generatePooled
    rw [hprepare]
    -- whatever is left idle has room for the context
    have hdrawn {c : β} {rest : List β} {calls : List (Size × Except δ β)}
        (htakes : s.Takes o c rest calls) {pool : Pool β} (hlimit : pool.limit = s.pool.limit)
        (hidle : pool.idle o.size = rest) :
        pool.isFull o.size = false ∧
          ∀ d, pool.release o.size d = pool.setIdle o.size (d :: rest) := by
      have hlt : (pool.idle o.size).length < pool.limit := by
        rw [hidle, hlimit]
        exact htakes.length_lt hroom
      refine ⟨by simpa [Pool.isFull] using hlt, fun d => ?_⟩
      rw [Pool.release_of_room hlt, hidle]
    cases hidle : s.pool.idle o.size with
    | cons c rest =>
      obtain ⟨hfull, hrelease⟩ := hdrawn (.idle hidle) (s.pool.limit_setIdle o.size rest) (by simp)
      rw [Pool.acquire_of_idle hidle]
      simp only [Engine.drawWith_eq, hfull, hrelease, Pool.setIdle_setIdle]
      rw [if_neg Bool.false_ne_true, List.append_nil]
      exact .drawn hstops hshader (.idle hidle)
    | nil =>
      rw [Pool.acquire_of_empty hidle]
      unfold recorded
      cases hcreate : o.create o.size with
      | error cause => exact .unmade hstops hidle hcreate
      | ok c =>
        obtain ⟨hfull, hrelease⟩ := hdrawn (.made hidle hcreate) rfl hidle
        simp only [Engine.drawWith_eq, hfull, hrelease]
        rw [if_neg Bool.false_ne_true, List.append_nil]
        exact .drawn hstops hshader (.made hidle hcreate)

/-! ## Any orders -/

/-- What any orders keep, for a pool to begin with: each size has room for one context that comes
back, no context is lost, and one is made only for a size that has none. A backend may change a
context while it draws, so contexts are told apart by a mark that no draw changes. -/
structure IsSound (b : Backend β ι ε) (start : Pool β) (s : Stock β δ) : Prop where
  limit_eq : s.pool.limit = start.limit
  room : s.pool.HasRoom
  conserved : ∀ {κ : Type} (mark : β → κ), (∀ request c, mark (b.draw request c).2 = mark c) →
    ∀ size, (s.pool.idle size).map mark = (s.made size ++ start.idle size).map mark
  scarce : ∀ size, (s.made size).length + (start.idle size).length ≤
    max (start.idle size).length 1

theorem isSound_start {start : Pool β} (hlimit : 1 ≤ start.limit)
    (hbounded : ∀ size, (start.idle size).length ≤ start.limit) :
    IsSound b start (⟨start, []⟩ : Stock β δ) where
  limit_eq := rfl
  room := ⟨hlimit, hbounded⟩
  conserved _ _ _ := rfl
  scarce size := by
    show 0 + (start.idle size).length ≤ _
    omega

variable {start : Pool β}

/-- A size without idle contexts had none to begin with, and none was made for it. -/
theorem IsSound.eq_nil (h : IsSound b start s) {size : Size} (hidle : s.pool.idle size = []) :
    s.made size = [] ∧ start.idle size = [] := by
  have hmarks := h.conserved (fun _ => ()) (fun _ _ => rfl) size
  rw [hidle, List.map_nil, eq_comm, List.map_eq_nil_iff] at hmarks
  exact List.append_eq_nil_iff.1 hmarks

theorem IsSound.drawn (h : IsSound b start s) {request : Request} {c : β} {rest : List β}
    {calls : List (Size × Except δ β)} (htakes : s.Takes o c rest calls) :
    IsSound b start ⟨s.pool.setIdle o.size ((b.draw request c).2 :: rest), calls⟩ := by
  have hlength := htakes.length_lt h.room
  have hroom : ∀ size, ((s.pool.setIdle o.size ((b.draw request c).2 :: rest)).idle size).length ≤
      s.pool.limit := by
    intro size
    rw [Pool.idle_setIdle]
    split
    next => exact hlength
    next => exact h.room.bounded size
  refine ⟨h.limit_eq, ⟨h.room.positive, hroom⟩, ?_, ?_⟩
  · intro κ mark hmark size
    have hold := h.conserved mark hmark size
    rw [Pool.idle_setIdle]
    cases htakes with
    | idle hidle =>
      split
      next heq =>
        subst heq
        rw [hidle] at hold
        rw [List.map_cons, hmark, ← List.map_cons]
        exact hold
      next => exact hold
    | made hidle =>
      rw [made_of_ok]
      split
      next heq =>
        subst heq
        obtain ⟨hmade, hstart⟩ := h.eq_nil hidle
        rw [hmade, hstart, List.map_cons, hmark]
        rfl
      next => exact hold
  · intro size
    cases htakes with
    | idle => exact h.scarce size
    | made hidle =>
      rw [made_of_ok]
      split
      next heq =>
        subst heq
        obtain ⟨hmade, hstart⟩ := h.eq_nil hidle
        rw [hmade, hstart]
        exact Nat.le_refl 1
      next => exact h.scarce size

theorem IsSound.after (h : IsSound b start s) (o : Order α β δ ε) :
    IsSound b start (s.after b o) := by
  have hserved := served b o h.room
  unfold Stock.after
  generalize s.serve b o = outcome at hserved ⊢
  cases hserved with
  | stopped => exact h
  | @unmade notices cause =>
    have hmade : ∀ size, made ⟨s.pool, (o.size, .error cause) :: s.calls⟩ size = s.made size :=
      fun size => s.made_of_error s.pool o.size size cause
    refine ⟨h.limit_eq, h.room, fun mark hmark size => ?_, fun size => ?_⟩
    · rw [hmade]
      exact h.conserved mark hmark size
    · rw [hmade]
      exact h.scarce size
  | drawn _ _ htakes => exact h.drawn htakes

theorem IsSound.run (h : IsSound b start s) (orders : List (Order α β δ ε)) :
    IsSound b start (s.run b orders) := by
  induction orders generalizing s with
  | nil => exact h
  | cons o orders ih => exact ih (h.after o)

/-! ## Keeping contexts -/

/-- An order is drawn with one context, which comes back. -/
structure Draws (b : Backend β ι ε) (s : Stock β δ) (o : Order α β δ ε) : Prop where
  length_eq :
    ((s.after b o).pool.idle o.size).length = max (s.pool.idle o.size).length 1
  others : ∀ size ≠ o.size, (s.after b o).pool.idle size = s.pool.idle size
  /-- The first idle context of the size, or a new one, goes back to the top of the others. -/
  context : ∃ shader notices c rest, o.engine.shader (ε := ε) o.options = .ok (shader, notices) ∧
    s.Takes o c rest (s.after b o).calls ∧
    (s.after b o).pool.idle o.size = (b.draw ⟨shader, o.size, o.options.scale⟩ c).2 :: rest ∧
    (s.serve b o).result = (b.draw ⟨shader, o.size, o.options.scale⟩ c).1.mapError .backend
  /-- No dropped context is announced. -/
  isWarning_eq : ∀ notice ∈ (s.serve b o).notices, notice.isWarning = false

/-- What a stock comes to after any orders, and what one more does with it. -/
structure Keeps (α : Type) [Arithmetic α] (b : Backend β ι ε) (start : Pool β) (s : Stock β δ) :
    Prop where
  limit_eq : s.pool.limit = start.limit
  bounded : ∀ size, (s.pool.idle size).length ≤ start.limit
  /-- What is idle was idle at first or has been made, told by a mark that no draw changes. -/
  conserved : ∀ {κ : Type} (mark : β → κ), (∀ request c, mark (b.draw request c).2 = mark c) →
    ∀ size, (s.pool.idle size).map mark = (s.made size ++ start.idle size).map mark
  /-- If nothing was idle at first, a factory succeeded at most once for each size. -/
  once : (∀ size, start.idle size = []) → ∀ size, (s.made size).length ≤ 1
  /-- A picture that stops calls no factory and leaves the pool alone. -/
  stopped : ∀ (o : Order α β δ ε) error, o.engine.Stops o.size o.options error →
    s.serve b o = ⟨.error error, s.pool, s.calls, []⟩
  /-- A factory that fails leaves the pool alone. -/
  unmade : ∀ (o : Order α β δ ε) cause,
    (∀ error : Error α ε, ¬o.engine.Stops o.size o.options error) →
    s.pool.idle o.size = [] → o.create o.size = .error cause →
    (s.serve b o).result = .error (.backend (o.box cause)) ∧
      s.after b o = ⟨s.pool, (o.size, .error cause) :: s.calls⟩
  /-- Any other picture is drawn, whether the backend fails or not. -/
  drawn : ∀ o : Order α β δ ε, (∀ error : Error α ε, ¬o.engine.Stops o.size o.options error) →
    (s.pool.idle o.size = [] → ∃ c, o.create o.size = .ok c) → s.Draws b o

theorem IsSound.draws (h : IsSound b start s)
    (hstops : ∀ error : Error α ε, ¬o.engine.Stops o.size o.options error)
    (hcreate : s.pool.idle o.size = [] → ∃ c, o.create o.size = .ok c) : s.Draws b o := by
  have hserved := served b o h.room
  generalize houtcome : s.serve b o = outcome at hserved
  have hafter : s.after b o = ⟨outcome.pool, outcome.creator⟩ := by rw [Stock.after, houtcome]
  cases hserved with
  | stopped hstop => exact absurd hstop (hstops _)
  | unmade _ hidle hcause =>
    obtain ⟨c, hc⟩ := hcreate hidle
    rw [hcause] at hc
    cases hc
  | @drawn shader notices c rest calls _ hshader htakes =>
    have hlength : rest.length + 1 = max (s.pool.idle o.size).length 1 := by
      cases htakes with
      | idle hidle =>
        rw [hidle, List.length_cons]
        omega
      | made hidle =>
        rw [hidle]
        rfl
    constructor
    case length_eq =>
      rw [hafter, Pool.idle_setIdle, if_pos rfl, List.length_cons]
      exact hlength
    case others =>
      intro size hne
      rw [hafter, Pool.idle_setIdle, if_neg hne]
    case context =>
      rw [hafter, houtcome]
      refine ⟨shader, notices, c, rest, hshader, htakes, ?_, rfl⟩
      rw [Pool.idle_setIdle, if_pos rfl]
    case isWarning_eq =>
      rw [houtcome]
      exact Engine.isWarning_of_shader hshader

theorem IsSound.keeps (h : IsSound b start s) : s.Keeps α b start where
  limit_eq := h.limit_eq
  bounded := h.limit_eq ▸ h.room.bounded
  conserved := h.conserved
  once hempty size := by
    have hscarce := h.scarce size
    rw [hempty size] at hscarce
    exact hscarce
  stopped o error hstop := by
    unfold serve Engine.generatePooled
    rw [Engine.prepare_eq_error_iff.2 hstop]
  unmade o cause hstops hidle hcause := by
    have hserved := served b o h.room
    unfold Stock.after
    generalize s.serve b o = outcome at hserved ⊢
    cases hserved with
    | stopped hstop => exact absurd hstop (hstops _)
    | unmade _ _ hother =>
      rw [hcause] at hother
      cases hother
      exact ⟨rfl, rfl⟩
    | drawn _ _ htakes =>
      cases htakes with
      | idle hother =>
        rw [hidle] at hother
        cases hother
      | made _ hc =>
        rw [hcause] at hc
        cases hc
  drawn _ := h.draws

/-- Orders neither lose contexts nor pile them up, whatever fails. From an empty pool, a context is
made at most once for each size. -/
theorem run_keeps (b : Backend β ι ε) {start : Pool β} (hlimit : 1 ≤ start.limit)
    (hbounded : ∀ size, (start.idle size).length ≤ start.limit) (orders : List (Order α β δ ε)) :
    (run b ⟨start, []⟩ orders).Keeps α b start :=
  ((isSound_start hlimit hbounded).run orders).keeps

/-- A canvas without pixels, a factory that fails, and two pictures that factories could make
contexts for. -/
def artOrders (e : Engine Float) : List (Order Float Nat Unit String) :=
  [⟨e, ⟨0, 6⟩, {}, fun _ => .ok 7, fun _ => "no device"⟩,
    ⟨e, ⟨8, 6⟩, { seed := "art" }, fun _ => .error (), fun _ => "no device"⟩,
    ⟨e, ⟨8, 6⟩, { seed := "art" }, fun _ => .ok 0, fun _ => "no device"⟩,
    ⟨e, ⟨8, 6⟩, { seed := "art" }, fun _ => .ok 9, fun _ => "no device"⟩]

/-- Both pictures are lost with one context, and it stays. -/
theorem run_keeps_artOrders :
    ∃ registry : Registry Float, Registry.standard (ε := String) = .ok registry ∧
      ∃ s : Stock Nat Unit,
        s = run losing ⟨{ limit := 1 }, []⟩ (artOrders ⟨registry, Glsl.template⟩) ∧
        s.Keeps Float losing { limit := 1 } ∧ (s.made ⟨8, 6⟩).length = 1 ∧
        (s.pool.idle ⟨8, 6⟩).length = 1 := by
  obtain ⟨registry, hstandard, -, hnames, -⟩ := Registry.exists_standard
  have haccepts : (⟨registry, Glsl.template⟩ : Engine Float).Accepts ⟨8, 6⟩ { seed := "art" } := by
    refine ⟨⟨by decide, by decide⟩, ⟨by decide +kernel, by decide +kernel⟩, ?_⟩
    rw [Registry.contains_iff, hnames]
    decide
  have hkeeps (orders : List (Order Float Nat Unit String)) :
      (run losing ⟨{ limit := 1 }, []⟩ orders).Keeps Float losing { limit := 1 } := by
    refine run_keeps losing (Nat.le_refl 1) (fun size => ?_) orders
    exact Nat.zero_le 1
  have hall := hkeeps (artOrders ⟨registry, Glsl.template⟩)
  have hlast := ((hkeeps ((artOrders ⟨registry, Glsl.template⟩).take 3)).drawn
    ⟨⟨registry, Glsl.template⟩, ⟨8, 6⟩, { seed := "art" }, fun _ => .ok 9, fun _ => "no device"⟩
    (Engine.not_stops_of_accepts haccepts) fun _ => ⟨9, rfl⟩).length_eq
  refine ⟨registry, hstandard String, _, rfl, hall, ?_⟩
  have honce := hall.once (fun _ => rfl) ⟨8, 6⟩
  have hmarks := congrArg List.length (hall.conserved (fun _ => ()) (fun _ _ => rfl) ⟨8, 6⟩)
  rw [List.length_map, List.length_map, List.length_append] at hmarks
  change _ = (_ : Nat) + 0 at hmarks
  change ((run losing ⟨{ limit := 1 }, []⟩ (artOrders ⟨registry, Glsl.template⟩)).pool.idle
    ⟨8, 6⟩).length = _ at hlast
  omega

end Stock

end SeededArt
