import Mathlib.Data.List.Nodup
import SeededArt.Render.Pool
/-!
# Where the contexts of a pool are

A context comes from a factory. From then on a caller holds it, it is idle under a size, or it is
dropped. `Custody` is a pool together with the contexts that its callers hold and a record of what
happened: the calls of factories and the contexts that were given back. A use of the pool is one of
six steps (`Step`), and each of them moves contexts from one place to another.

In whatever order a pool is used, each context is in one place only, no size keeps more contexts
than the limit, and what is handed out is the idle context of the size that was given back last
(`Reached.conserved`). That the record of contexts given back orders the idle ones is what carries
the last point (`ByRecency`).
-/

namespace SeededArt.Render

/-! ## One operation -/

namespace Pool

variable {γ τ ε : Type} {p : Pool γ} {size : Size} {c : γ} {rest : List γ}

theorem acquire_of_idle (h : p.idle size = c :: rest) (create : Size → τ → Except ε γ × τ)
    (state : τ) : p.acquire create size state = (.ok c, p.setIdle size rest, state) := by
  unfold acquire
  rw [h]

theorem acquire_of_empty (h : p.idle size = []) (create : Size → τ → Except ε γ × τ) (state : τ) :
    p.acquire create size state = ((create size state).1, p, (create size state).2) := by
  unfold acquire
  rw [h]

theorem release_of_full (h : p.limit ≤ (p.idle size).length) : p.release size c = p := by
  unfold release isFull
  rw [if_pos (by simpa using h)]

theorem release_of_room (h : (p.idle size).length < p.limit) :
    p.release size c = p.setIdle size (c :: p.idle size) := by
  unfold release isFull
  rw [if_neg (by simpa using h)]

end Pool

/-! ## Contexts by recency -/

section Recency

variable {γ : Type}

/-- The idle contexts of a size, in the order in which each was last given back, the newest
first. -/
inductive ByRecency : List γ → List γ → Prop where
  | nil {returned : List γ} : ByRecency returned []
  | kept {c : γ} {returned idle : List γ} : c ∉ idle → ByRecency returned idle →
      ByRecency (c :: returned) (c :: idle)
  | gone {c : γ} {returned idle : List γ} : c ∉ idle → ByRecency returned idle →
      ByRecency (c :: returned) idle

namespace ByRecency

variable {c : γ} {returned idle : List γ}

theorem tail (h : ByRecency returned (c :: idle)) : ByRecency returned idle := by
  generalize hall : c :: idle = all at h
  induction h with
  | nil => cases hall
  | kept hc h _ =>
    cases hall
    exact .gone hc h
  | gone hd _ ih =>
    subst hall
    exact .gone (fun hidle => hd (List.mem_cons_of_mem c hidle)) (ih rfl)

/-- The first idle context is the one that was given back last. -/
theorem find?_mem [DecidableEq γ] (h : ByRecency returned idle) :
    returned.find? (· ∈ idle) = idle.head? := by
  induction h with
  | nil => simp
  | kept => simp
  | gone hc _ ih =>
    rw [List.find?_cons_of_neg (by simpa using hc)]
    exact ih

end ByRecency

end Recency

/-! ## Uses of a pool -/

/-- A use of a pool. -/
inductive Use (γ ε : Type) where
  /-- Takes an idle context of a size, or one that the factory makes. -/
  | acquire (size : Size) (create : Size → Except ε γ)
  /-- Gives a context back under a size. -/
  | release (size : Size) (context : γ)
  | clear

def Use.size? {γ ε : Type} : Use γ ε → Option Size
  | acquire size _ | release size _ => some size
  | clear => none

/-- A pool, the contexts that callers hold, and what happened so far, the newest first. -/
structure Custody (γ ε : Type) where
  pool : Pool γ
  held : List γ := []
  /-- The sizes for which a factory was called, with what it made. -/
  calls : List (Size × Except ε γ) := []
  /-- The contexts that were given back, with the sizes. -/
  returns : List (Size × γ) := []

/-- Where a context can be. -/
inductive Place where
  | held
  | idle (size : Size)
  | dropped
deriving DecidableEq, Repr

/-- A factory with a record of its calls. -/
def recorded {γ ε : Type} (create : Size → Except ε γ) (size : Size)
    (calls : List (Size × Except ε γ)) : Except ε γ × List (Size × Except ε γ) :=
  (create size, (size, create size) :: calls)

namespace Custody

variable {γ ε : Type}

def start (limit : Nat) : Custody γ ε := { pool := { limit } }

/-- The contexts that factories made. -/
def created (w : Custody γ ε) : List γ := w.calls.filterMap fun call => call.2.toOption

/-- The contexts that were given back under a size, the newest first. -/
def returned (w : Custody γ ε) (size : Size) : List γ :=
  (w.returns.filter (·.1 = size)).map (·.2)

/-- Whether a context is at a place. A context that was made is dropped if nobody has it. -/
def IsAt (w : Custody γ ε) (c : γ) : Place → Prop
  | .held => c ∈ w.held
  | .idle size => c ∈ w.pool.idle size
  | .dropped => c ∈ w.created ∧ c ∉ w.held ∧ ∀ size, c ∉ w.pool.idle size

/-- Factories make new contexts, and a caller gives back only what it holds. -/
def Allows (w : Custody γ ε) : Use γ ε → Prop
  | .acquire size create => ∀ c, create size = .ok c → c ∉ w.created
  | .release _ c => c ∈ w.held
  | .clear => True

/-! ## Orderly custody -/

@[simp] theorem created_made (w : Custody γ ε) (pool : Pool γ) (held : List γ) (size : Size)
    (c : γ) (returns : List (Size × γ)) :
    created ⟨pool, held, (size, .ok c) :: w.calls, returns⟩ = c :: w.created := rfl

@[simp] theorem created_failed (w : Custody γ ε) (pool : Pool γ) (held : List γ) (size : Size)
    (e : ε) (returns : List (Size × γ)) :
    created ⟨pool, held, (size, .error e) :: w.calls, returns⟩ = w.created := rfl

@[simp] theorem created_moved (w : Custody γ ε) (pool : Pool γ) (held : List γ)
    (returns : List (Size × γ)) : created ⟨pool, held, w.calls, returns⟩ = w.created := rfl

theorem returned_cons (w : Custody γ ε) (pool : Pool γ) (held : List γ) (size other : Size)
    (c : γ) :
    returned ⟨pool, held, w.calls, (size, c) :: w.returns⟩ other =
      if other = size then c :: w.returned size else w.returned other := by
  unfold returned
  by_cases h : other = size
  · subst h
    simp
  · simp [h, Ne.symm h]

/-- Callers hold contexts that were made, each once. The idle contexts were made too, nobody holds
them, and each is idle under one size, once. Their number is bounded, and they are in the order in
which they were given back. -/
structure IsOrderly (limit : Nat) (w : Custody γ ε) : Prop where
  limit_eq : w.pool.limit = limit
  held_created : ∀ c ∈ w.held, c ∈ w.created
  idle_created : ∀ size, ∀ c ∈ w.pool.idle size, c ∈ w.created
  held_nodup : w.held.Nodup
  idle_nodup : ∀ size, (w.pool.idle size).Nodup
  apart : ∀ c ∈ w.held, ∀ size, c ∉ w.pool.idle size
  single : ∀ c size other, c ∈ w.pool.idle size → c ∈ w.pool.idle other → size = other
  bounded : ∀ size, (w.pool.idle size).length ≤ limit
  recent : ∀ size, ByRecency (w.returned size) (w.pool.idle size)

theorem isOrderly_start (limit : Nat) : (start limit : Custody γ ε).IsOrderly limit := by
  constructor
  case recent => exact fun _ => .nil
  all_goals simp [start, Pool.idle]

variable {limit : Nat} {w next : Custody γ ε}

/-- A step after which no size has a further idle context. -/
theorem IsOrderly.of_sublist (h : w.IsOrderly limit) (hlimit : next.pool.limit = w.pool.limit)
    (hcreated : w.created ⊆ next.created)
    (hidle : ∀ size, (next.pool.idle size).Sublist (w.pool.idle size))
    (hheld : ∀ c ∈ next.held, c ∈ next.created ∧ ∀ size, c ∉ next.pool.idle size)
    (hnodup : next.held.Nodup)
    (hrecent : ∀ size, ByRecency (next.returned size) (next.pool.idle size)) :
    next.IsOrderly limit where
  limit_eq := hlimit.trans h.limit_eq
  held_created c hc := (hheld c hc).1
  idle_created size c hc := hcreated (h.idle_created size c ((hidle size).subset hc))
  held_nodup := hnodup
  idle_nodup size := (hidle size).nodup (h.idle_nodup size)
  apart c hc := (hheld c hc).2
  single c size other hc hc' :=
    h.single c size other ((hidle size).subset hc) ((hidle other).subset hc')
  bounded size := Nat.le_trans (hidle size).length_le (h.bounded size)
  recent := hrecent

theorem IsOrderly.step_reused {size : Size} {c : γ} {rest : List γ} (h : w.IsOrderly limit)
    (hidle : w.pool.idle size = c :: rest) :
    IsOrderly limit { w with pool := w.pool.setIdle size rest, held := c :: w.held } := by
  have hc : c ∈ w.pool.idle size := hidle ▸ List.mem_cons_self
  have hnew : c ∉ w.held := fun hheld => h.apart c hheld size hc
  have hsub : ∀ other, ((w.pool.setIdle size rest).idle other).Sublist (w.pool.idle other) := by
    intro other
    rw [Pool.idle_setIdle]
    split
    next heq =>
      rw [heq, hidle]
      exact List.sublist_cons_self c rest
    next => exact List.Sublist.refl _
  refine h.of_sublist rfl (fun _ hx => hx) hsub ?_ (List.nodup_cons.2 ⟨hnew, h.held_nodup⟩) ?_
  · intro x hx
    rcases List.mem_cons.1 hx with rfl | hx
    · refine ⟨h.idle_created size x hc, fun other => ?_⟩
      rw [Pool.idle_setIdle]
      split
      next =>
        have hnodup := h.idle_nodup size
        rw [hidle] at hnodup
        exact (List.nodup_cons.1 hnodup).1
      next hne => exact fun hother => hne (h.single x other size hother hc)
    · refine ⟨h.held_created x hx, fun other hother => ?_⟩
      exact h.apart x hx other ((hsub other).subset hother)
  · intro other
    have hrecent := h.recent other
    rw [Pool.idle_setIdle]
    split
    next heq =>
      subst heq
      rw [hidle] at hrecent
      exact hrecent.tail
    next => exact hrecent

theorem IsOrderly.step_made {size : Size} {c : γ} (h : w.IsOrderly limit) (hnew : c ∉ w.created) :
    IsOrderly limit { w with held := c :: w.held, calls := (size, .ok c) :: w.calls } := by
  refine h.of_sublist rfl (List.subset_cons_self c _) (fun _ => List.Sublist.refl _) ?_ ?_ h.recent
  · intro x hx
    rw [created_made]
    rcases List.mem_cons.1 hx with rfl | hx
    · exact ⟨List.mem_cons_self, fun other hother => hnew (h.idle_created other x hother)⟩
    · exact ⟨List.mem_cons_of_mem c (h.held_created x hx), h.apart x hx⟩
  · exact List.nodup_cons.2 ⟨fun hheld => hnew (h.held_created c hheld), h.held_nodup⟩

theorem IsOrderly.created_of_isAt (h : w.IsOrderly limit) {c : γ} {place : Place}
    (hc : w.IsAt c place) : c ∈ w.created := by
  cases place with
  | held => exact h.held_created c hc
  | idle size => exact h.idle_created size c hc
  | dropped => exact hc.1

theorem IsOrderly.isAt_unique (h : w.IsOrderly limit) {c : γ} {place other : Place}
    (hplace : w.IsAt c place) (hother : w.IsAt c other) : place = other := by
  cases place with
  | held =>
    cases other with
    | held => rfl
    | idle size => exact absurd hother (h.apart c hplace size)
    | dropped => exact absurd hplace hother.2.1
  | idle size =>
    cases other with
    | held => exact absurd hplace (h.apart c hother size)
    | idle size' => rw [h.single c size size' hplace hother]
    | dropped => exact absurd hplace (hother.2.2 size)
  | dropped =>
    cases other with
    | held => exact absurd hother hplace.2.1
    | idle size => exact absurd hother (hplace.2.2 size)
    | dropped => rfl

theorem exists_isAt {c : γ} (hc : c ∈ w.created) : ∃ place, w.IsAt c place := by
  by_cases hheld : c ∈ w.held
  · exact ⟨.held, hheld⟩
  · by_cases hidle : ∃ size, c ∈ w.pool.idle size
    · obtain ⟨size, hsize⟩ := hidle
      exact ⟨.idle size, hsize⟩
    · exact ⟨.dropped, hc, hheld, fun size hsize => hidle ⟨size, hsize⟩⟩

/-! ## What follows a use -/

variable [DecidableEq γ]

/-- The context of a size that was given back last, of those that are still idle. -/
def latest? (w : Custody γ ε) (size : Size) : Option γ :=
  (w.returned size).find? (· ∈ w.pool.idle size)

/-- What follows a use. -/
def use (w : Custody γ ε) : Use γ ε → Custody γ ε
  | .acquire size create =>
    let (answer, pool, calls) := w.pool.acquire (recorded create) size w.calls
    match answer with
    | .ok c => { w with pool, calls, held := c :: w.held }
    | .error _ => { w with pool, calls }
  | .release size c =>
    { w with
      pool := w.pool.release size c
      held := w.held.erase c
      returns := (size, c) :: w.returns }
  | .clear => { w with pool := w.pool.clear }

/-- What uses of a new pool can lead to. -/
inductive Reached (limit : Nat) : Custody γ ε → Prop where
  | start : Reached limit (start limit)
  | use {w : Custody γ ε} {u : Use γ ε} : Reached limit w → w.Allows u → Reached limit (w.use u)

/-! ## Steps -/

/-- What a use can come to. -/
inductive Step (w : Custody γ ε) : Use γ ε → Custody γ ε → Prop where
  /-- An idle context is handed out. -/
  | reused {size : Size} {create : Size → Except ε γ} {c : γ} {rest : List γ} :
      w.pool.idle size = c :: rest →
      Step w (.acquire size create)
        { w with pool := w.pool.setIdle size rest, held := c :: w.held }
  /-- A new context is handed out. -/
  | made {size : Size} {create : Size → Except ε γ} {c : γ} :
      w.pool.idle size = [] → create size = .ok c → c ∉ w.created →
      Step w (.acquire size create)
        { w with held := c :: w.held, calls := (size, .ok c) :: w.calls }
  /-- A factory fails. -/
  | failed {size : Size} {create : Size → Except ε γ} {e : ε} :
      w.pool.idle size = [] → create size = .error e →
      Step w (.acquire size create) { w with calls := (size, .error e) :: w.calls }
  /-- A context becomes idle. -/
  | kept {size : Size} {c : γ} :
      c ∈ w.held → (w.pool.idle size).length < w.pool.limit →
      Step w (.release size c)
        { w with
          pool := w.pool.setIdle size (c :: w.pool.idle size)
          held := w.held.erase c
          returns := (size, c) :: w.returns }
  /-- A context is dropped, as its size keeps no more. -/
  | refused {size : Size} {c : γ} :
      c ∈ w.held → w.pool.limit ≤ (w.pool.idle size).length →
      Step w (.release size c)
        { w with held := w.held.erase c, returns := (size, c) :: w.returns }
  /-- All idle contexts are dropped. -/
  | cleared : Step w .clear { w with pool := w.pool.clear }

theorem step_use {w : Custody γ ε} {u : Use γ ε} (h : w.Allows u) : Step w u (w.use u) := by
  cases u with
  | acquire size create =>
    cases hidle : w.pool.idle size with
    | cons c rest =>
      simp only [use, Pool.acquire_of_idle hidle]
      exact .reused hidle
    | nil =>
      simp only [use, Pool.acquire_of_empty hidle, recorded]
      cases hmade : create size with
      | ok c => exact .made hidle hmade (h c hmade)
      | error e => exact .failed hidle hmade
  | release size c =>
    rcases Nat.lt_or_ge (w.pool.idle size).length w.pool.limit with hroom | hfull
    · simp only [use, Pool.release_of_room hroom]
      exact .kept h hroom
    · simp only [use, Pool.release_of_full hfull]
      exact .refused h hfull
  | clear => exact .cleared

theorem IsOrderly.step_kept {size : Size} {c : γ} (h : w.IsOrderly limit) (hheld : c ∈ w.held)
    (hroom : (w.pool.idle size).length < w.pool.limit) :
    IsOrderly limit
      { w with
        pool := w.pool.setIdle size (c :: w.pool.idle size)
        held := w.held.erase c
        returns := (size, c) :: w.returns } := by
  have hmem : ∀ x other, x ∈ (w.pool.setIdle size (c :: w.pool.idle size)).idle other ↔
      x = c ∧ other = size ∨ x ∈ w.pool.idle other := by
    intro x other
    rw [Pool.idle_setIdle]
    split
    next heq => simp [heq]
    next hne => simp [hne]
  have hout := h.apart c hheld
  constructor
  case limit_eq => exact h.limit_eq
  case held_created => exact fun x hx => h.held_created x (List.mem_of_mem_erase hx)
  case idle_created =>
    intro other x hx
    rcases (hmem x other).1 hx with ⟨rfl, -⟩ | hx
    · exact h.held_created x hheld
    · exact h.idle_created other x hx
  case held_nodup => exact h.held_nodup.erase c
  case idle_nodup =>
    intro other
    rw [Pool.idle_setIdle]
    split
    next => exact List.nodup_cons.2 ⟨hout size, h.idle_nodup size⟩
    next => exact h.idle_nodup other
  case apart =>
    intro x hx other hother
    rw [h.held_nodup.mem_erase_iff] at hx
    rcases (hmem x other).1 hother with ⟨heq, -⟩ | hother
    · exact hx.1 heq
    · exact h.apart x hx.2 other hother
  case single =>
    intro x a b ha hb
    rcases (hmem x a).1 ha with ⟨hx, ha⟩ | ha'
    · rcases (hmem x b).1 hb with ⟨-, hb⟩ | hb'
      · rw [ha, hb]
      · exact absurd (hx ▸ hb') (hout b)
    · rcases (hmem x b).1 hb with ⟨hx, -⟩ | hb'
      · exact absurd (hx ▸ ha') (hout a)
      · exact h.single x a b ha' hb'
  case bounded =>
    intro other
    rw [Pool.idle_setIdle]
    split
    next => exact h.limit_eq ▸ hroom
    next => exact h.bounded other
  case recent =>
    intro other
    rw [returned_cons, Pool.idle_setIdle]
    split
    next => exact .kept (hout size) (h.recent size)
    next => exact h.recent other

theorem IsOrderly.step_refused {size : Size} {c : γ} (h : w.IsOrderly limit) (hheld : c ∈ w.held) :
    IsOrderly limit { w with held := w.held.erase c, returns := (size, c) :: w.returns } := by
  refine h.of_sublist rfl (fun _ hx => hx) (fun _ => List.Sublist.refl _) ?_
    (h.held_nodup.erase c) ?_
  · intro x hx
    have hx := List.mem_of_mem_erase hx
    exact ⟨h.held_created x hx, h.apart x hx⟩
  · intro other
    rw [returned_cons]
    split
    next heq =>
      subst heq
      exact .gone (h.apart c hheld other) (h.recent other)
    next => exact h.recent other

theorem IsOrderly.step {u : Use γ ε} (h : w.IsOrderly limit) (hstep : Step w u next) :
    next.IsOrderly limit := by
  cases hstep with
  | reused hidle => exact h.step_reused hidle
  | made _ _ hnew => exact h.step_made hnew
  | failed =>
    exact h.of_sublist rfl (fun _ hx => hx) (fun _ => List.Sublist.refl _)
      (fun x hx => ⟨h.held_created x hx, h.apart x hx⟩) h.held_nodup h.recent
  | kept hheld hroom => exact h.step_kept hheld hroom
  | refused hheld => exact h.step_refused hheld
  | cleared =>
    exact h.of_sublist rfl (fun _ hx => hx) (fun _ => List.nil_sublist _)
      (fun x hx => ⟨h.held_created x hx, fun _ => List.not_mem_nil⟩) h.held_nodup (fun _ => .nil)

theorem Reached.isOrderly (h : w.Reached limit) : w.IsOrderly limit := by
  induction h with
  | start => exact isOrderly_start limit
  | use _ hu ih => exact ih.step (step_use hu)

/-! ## Places after a step -/

/-- A step drops the idle contexts if it clears the pool, and a context that it gives back to a full
size. -/
theorem IsOrderly.isAt_dropped_iff {u : Use γ ε} (h : w.IsOrderly limit) (hstep : Step w u next)
    (c : γ) :
    next.IsAt c .dropped ↔ w.IsAt c .dropped ∨ u = .clear ∧ (∃ size, w.IsAt c (.idle size)) ∨
      ∃ size, u = .release size c ∧ (w.pool.idle size).length = limit := by
  have hheld := h.held_created c
  have hapart := h.apart c
  cases hstep with
  | @reused size create d rest hidle =>
    have hd : ∀ other, d ∈ w.pool.idle other → other = size :=
      fun other hother => h.single d other size hother (hidle ▸ List.mem_cons_self)
    simp only [IsAt, Pool.idle_setIdle, created_moved]
    grind
  | @made size create d hidle hmade hnew =>
    have hd : ∀ other, d ∉ w.pool.idle other := fun other hd => hnew (h.idle_created other d hd)
    simp only [IsAt, created_made]
    grind
  | failed => simp [IsAt]
  | @kept size d hd hroom =>
    have hd : ∀ x, x ∈ w.held.erase d ↔ x ≠ d ∧ x ∈ w.held := fun x => h.held_nodup.mem_erase_iff
    have hlimit := h.limit_eq
    simp only [IsAt, Pool.idle_setIdle, created_moved]
    grind
  | @refused size d hd hfull =>
    have hd : ∀ x, x ∈ w.held.erase d ↔ x ≠ d ∧ x ∈ w.held := fun x => h.held_nodup.mem_erase_iff
    have hlength : (w.pool.idle size).length = limit :=
      Nat.le_antisymm (h.bounded size) (h.limit_eq ▸ hfull)
    simp only [IsAt, created_moved]
    grind
  | cleared =>
    have hidle := h.idle_created
    simp only [IsAt, created_moved]
    grind [Pool.idle_clear]

/-- The idle contexts are in the order in which they were given back. -/
theorem IsOrderly.latest?_eq (h : w.IsOrderly limit) (size : Size) :
    w.latest? size = (w.pool.idle size).head? := (h.recent size).find?_mem

theorem idle_step {u : Use γ ε} {size other : Size} (hstep : Step w u next)
    (hu : u.size? = some size) (hother : other ≠ size) :
    next.pool.idle other = w.pool.idle other := by
  cases hstep with
  | reused =>
    cases hu
    rw [Pool.idle_setIdle, if_neg hother]
  | kept =>
    cases hu
    rw [Pool.idle_setIdle, if_neg hother]
  | made | failed | refused => rfl
  | cleared => cases hu

/-! ## Conservation -/

/-- Where the contexts of a pool are, and what a further use does with them. -/
structure Conserved (limit : Nat) (w : Custody γ ε) : Prop where
  /-- A context that was made is in one place. -/
  place : ∀ c ∈ w.created, ∃! place, w.IsAt c place
  created_of_isAt : ∀ c place, w.IsAt c place → c ∈ w.created
  held_nodup : w.held.Nodup
  idle_nodup : ∀ size, (w.pool.idle size).Nodup
  bounded : ∀ size, (w.pool.idle size).length ≤ limit
  latest?_eq_none_iff : ∀ size, w.latest? size = none ↔ w.pool.idle size = []
  /-- The idle context of the size that was given back last is handed out, and the factory is left
  alone. -/
  acquire_of_latest : ∀ size c, w.latest? size = some c → ∀ {τ : Type}
    (create : Size → τ → Except ε γ × τ) (state : τ),
    w.pool.acquire create size state =
      (.ok c, w.pool.setIdle size ((w.pool.idle size).erase c), state)
  /-- Without an idle context of the size the factory is called, once, and the pool stays as it is,
  whether the factory fails or not. -/
  acquire_of_none : ∀ size, w.latest? size = none → ∀ {τ : Type}
    (create : Size → τ → Except ε γ × τ) (state : τ),
    w.pool.acquire create size state = ((create size state).1, w.pool, (create size state).2)
  dropped_iff : ∀ u, w.Allows u → ∀ c,
    (w.use u).IsAt c .dropped ↔ w.IsAt c .dropped ∨ u = .clear ∧ (∃ size, w.IsAt c (.idle size)) ∨
      ∃ size, u = .release size c ∧ (w.pool.idle size).length = limit
  other_idle : ∀ u, w.Allows u → ∀ size, u.size? = some size → ∀ other ≠ size,
    (w.use u).pool.idle other = w.pool.idle other

/-- Contexts are conserved, in whatever order a pool is used. -/
theorem Reached.conserved (h : w.Reached limit) : w.Conserved limit where
  place c hc := by
    obtain ⟨place, hplace⟩ := exists_isAt hc
    exact ⟨place, hplace, fun _ hother => h.isOrderly.isAt_unique hother hplace⟩
  created_of_isAt _ _ := h.isOrderly.created_of_isAt
  held_nodup := h.isOrderly.held_nodup
  idle_nodup := h.isOrderly.idle_nodup
  bounded := h.isOrderly.bounded
  latest?_eq_none_iff size := by
    rw [h.isOrderly.latest?_eq, List.head?_eq_none_iff]
  acquire_of_latest size c hc τ create state := by
    rw [h.isOrderly.latest?_eq, List.head?_eq_some_iff] at hc
    obtain ⟨rest, hrest⟩ := hc
    rw [Pool.acquire_of_idle hrest, hrest, List.erase_cons_head]
  acquire_of_none size hnone τ create state := by
    rw [h.isOrderly.latest?_eq, List.head?_eq_none_iff] at hnone
    exact Pool.acquire_of_empty hnone create state
  dropped_iff _ hu := h.isOrderly.isAt_dropped_iff (step_use hu)
  other_idle _ hu _ hsize _ hother := idle_step (step_use hu) hsize hother

/-- Two contexts of a size are given back to a pool that keeps one, and the other is dropped. -/
theorem conserved_square :
    ∃ w : Custody Nat String, w.Reached 1 ∧ w.Conserved 1 ∧ w.created = [1, 0] ∧ w.held = [] ∧
      w.pool.slots = [(⟨8, 8⟩, [0])] ∧ w.latest? ⟨8, 8⟩ = some 0 := by
  have hfirst : Reached 1 ((start 1 : Custody Nat String).use (.acquire ⟨8, 8⟩ fun _ => .ok 0)) :=
    .use .start fun _ _ => List.not_mem_nil
  have hsecond := hfirst.use (u := .acquire ⟨8, 8⟩ fun _ => .ok 1) (by
    intro c hc
    cases hc
    decide)
  have hkept := hsecond.use (u := .release ⟨8, 8⟩ 0) (show 0 ∈ [1, 0] by decide)
  have hfull := hkept.use (u := .release ⟨8, 8⟩ 1) (show 1 ∈ [1] by decide)
  exact ⟨_, hfull, Reached.conserved hfull, by decide, by decide, by decide, by decide⟩

end Custody

end SeededArt.Render
