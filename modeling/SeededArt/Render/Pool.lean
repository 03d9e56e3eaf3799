/-!
# Pools of contexts

A pool keeps contexts that are idle, by the size of their canvas, and hands out the one that was
given back last. Each size keeps at most `limit` contexts; one that is given back beyond that is
dropped.

The extents of a canvas are natural numbers, without the bound of a 32-bit word. They are only
compared with each other and with zero, counted through, and rounded to numbers of a format, and
none of this depends on a bound: what holds of all natural numbers holds of all words.
-/

namespace SeededArt.Render

/-- The size of a canvas. -/
structure Size where
  width : Nat
  height : Nat
deriving DecidableEq, Repr

/-- Idle contexts by size, the one given back last first. -/
structure Pool (γ : Type) where
  /-- How many contexts a size keeps. -/
  limit : Nat := 4
  slots : List (Size × List γ) := []

namespace Pool

variable {γ τ ε : Type}

/-- The idle contexts of a size. -/
def idle (p : Pool γ) (size : Size) : List γ := (p.slots.lookup size).getD []

/-- Replaces the idle contexts of a size. -/
def setIdle (p : Pool γ) (size : Size) (contexts : List γ) : Pool γ :=
  { p with slots := (size, contexts) :: p.slots.filter (·.1 != size) }

@[simp] theorem limit_setIdle (p : Pool γ) (size : Size) (contexts : List γ) :
    (p.setIdle size contexts).limit = p.limit := rfl

theorem lookup_filter_ne {slots : List (Size × List γ)} {size other : Size} (h : other ≠ size) :
    (slots.filter (·.1 != size)).lookup other = slots.lookup other := by
  induction slots with
  | nil => rfl
  | cons slot rest ih =>
    obtain ⟨first, contexts⟩ := slot
    by_cases hfirst : first = size
    · have skipped : (other == size) = false := by simpa using h
      simp only [List.filter_cons, hfirst, bne_self_eq_false, Bool.false_eq_true, if_false, ih,
        List.lookup_cons, skipped]
    · simp only [List.filter_cons, bne_iff_ne, ne_eq, hfirst, not_false_eq_true, if_true,
        List.lookup_cons, ih]

@[simp] theorem idle_setIdle (p : Pool γ) (size other : Size) (contexts : List γ) :
    (p.setIdle size contexts).idle other = if other = size then contexts else p.idle other := by
  split
  next heq => simp [setIdle, idle, heq]
  next hne =>
    have apart : (other == size) = false := by simpa using hne
    simp only [setIdle, idle, List.lookup_cons, apart, lookup_filter_ne hne]

/-- The number of idle contexts of all sizes. -/
def count (p : Pool γ) : Nat := p.slots.foldl (fun n slot => n + slot.2.length) 0

/-- Takes an idle context of the size, or creates one. `create` has a state of its own, which is
left alone if there is an idle context. -/
def acquire (p : Pool γ) (create : Size → τ → Except ε γ × τ) (size : Size) (state : τ) :
    Except ε γ × Pool γ × τ :=
  match p.idle size with
  | context :: rest => (.ok context, p.setIdle size rest, state)
  | [] =>
    let (context, state) := create size state
    (context, p, state)

/-- Whether a size keeps no further context. -/
def isFull (p : Pool γ) (size : Size) : Bool := p.limit ≤ (p.idle size).length

/-- Gives a context back; a size that keeps no further context drops it. -/
def release (p : Pool γ) (size : Size) (context : γ) : Pool γ :=
  if p.isFull size then p else p.setIdle size (context :: p.idle size)

def clear (p : Pool γ) : Pool γ := { p with slots := [] }

@[simp] theorem idle_clear (p : Pool γ) (size : Size) : p.clear.idle size = [] := rfl

end Pool

end SeededArt.Render
