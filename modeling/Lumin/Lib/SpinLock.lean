import Lumin.Lib.Transition
import Mathlib.Logic.Function.Basic
import Mathlib.Tactic

/-!
# A memory behind one spin lock

Several processors run calls whose code takes a spin lock, works on a memory and gives the lock
back.  Every access is one step, the steps of the processors interleave in any order, and an
interrupt that is not masked may start another call on top of the one that it interrupts.  The
memory is sequentially consistent.

* `Code` is what a call does, and `atomic` what it does when nothing comes between.
* `Sound` is the discipline of the code: interrupts are saved and masked, then the lock is
  taken, then the memory is used, then the lock and the interrupts are given back.
* `Inv` is the invariant.  One context at most is inside, its processor is not interrupted, and
  the memory is what the calls in the log make of it one after the other.
* `Numbered` is the invariant on the numbers of the calls, by which each of them has an entry of
  its own in the log.
* `lock_serializes` and `lock_released` are the results, and `stuck_forever` is about code
  that asks for a lock that it has.
-/

namespace Lumin.Lib.SpinLock

/-- The instructions of a call.  `pause` is the loop that waits until the lock is free. -/
inductive Code (σ α : Type) where
  | ret (a : α)
  | load (k : σ → Code σ α)
  | store (f : σ → σ) (k : Code σ α)
  | irqSave (k : Code σ α)
  | irqRestore (k : Code σ α)
  | bts (k : Code σ α)
  | pause (k : Code σ α)
  | unlock (k : Code σ α)

/-- How far a call has got. -/
inductive Phase where
  | start
  | ready
  | held
  | after
  | done
  deriving DecidableEq

/-- A call that is on its way: its number, its saved interrupt flags, and whether an interrupt
made it. -/
structure Ctx (ο σ α : Type) where
  id : Nat
  op : ο
  code : Code σ α
  flags : List Bool
  handler : Bool
  phase : Phase

/-- A processor: its interrupt flag and its calls, the running one first. -/
structure Cpu (ο σ α : Type) where
  interrupts : Bool
  stack : List (Ctx ο σ α)

/-- A call that took effect: its number, and what it returns. -/
structure Entry (ο α : Type) where
  call : Nat
  op : ο
  value : α

/-- The memory, the lock, the processors, the calls that took effect, and how many calls there
were. -/
structure Machine (ι ο σ α : Type) where
  mem : σ
  locked : Bool
  cpu : ι → Cpu ο σ α
  log : List (Entry ο α)
  calls : Nat

/-- What can happen next. -/
inductive Event (ι ο : Type) where
  | call (i : ι) (o : ο)
  | interrupt (i : ι) (o : ο)
  | mask (i : ι) (interrupts : Bool)
  | run (i : ι)

variable {ι ο σ α : Type} [DecidableEq ι]

/-! ## What code does on its own -/

/-- The value that code without the lock comes to. -/
def Code.value : Code σ α → Option α
  | .ret a => some a
  | .irqRestore k => k.value
  | _ => none

/-- Code that has the lock, up to the place where it gives it back. -/
def Code.critical : Code σ α → σ → Option (α × σ)
  | .load k, s => (k s).critical s
  | .store f k, s => k.critical (f s)
  | .irqSave k, s => k.critical s
  | .unlock k, s => k.value.map fun a => (a, s)
  | _, _ => none

/-- A call without anything in between.  `none` is a call that does not end. -/
def Code.atomic : Code σ α → σ → Option (α × σ)
  | .ret a, s => some (a, s)
  | .irqSave k, s => k.atomic s
  | .bts k, s => k.critical s
  | .pause k, s => k.critical s
  | _, _ => none

/-- Code that asks for the lock before it does anything else. -/
def Code.asks : Code σ α → Prop
  | .bts _ => True
  | .pause _ => True
  | .irqSave k => k.asks
  | _ => False

/-- The lock is taken and asked for again at once. -/
def Code.hangs : Code σ α → Prop
  | .irqSave k => k.hangs
  | .bts k => k.asks
  | .pause k => k.asks
  | _ => False

/-- Two codes that do the same when nothing comes between. -/
def Same (k k' : Code σ α) : Prop := (∀ s, k.atomic s = k'.atomic s) ∧ (k.hangs ↔ k'.hangs)

/-- The calls of a log, one after the other. -/
def Replays (prog : ο → Code σ α) : σ → List (Entry ο α) → σ → Prop
  | s, [], t => s = t
  | s, e :: log, t => ∃ u, (prog e.op).atomic s = some (e.value, u) ∧ Replays prog u log t

/-- The discipline of the code. -/
def Sound : Code σ α → Phase → Prop
  | .irqSave k, .start => Sound k .ready
  | .bts k, .ready => Sound k .held
  | .pause k, .ready => Sound k .held
  | .load k, .held => ∀ s, Sound (k s) .held
  | .store _ k, .held => Sound k .held
  | .unlock k, .held => Sound k .after
  | .irqRestore k, .after => Sound k .done
  | .ret _, .done => True
  -- the lock is asked for a second time
  | .irqSave k, .held => Sound k .held
  | .bts _, .held => True
  | .pause _, .held => True
  | _, _ => False

/-! ## Steps -/

/-- The calls and the interrupt flag of a processor. -/
def Machine.put (m : Machine ι ο σ α) (i : ι) (interrupts : Bool) (stack : List (Ctx ο σ α)) :
    Machine ι ο σ α :=
  { m with cpu := Function.update m.cpu i ⟨interrupts, stack⟩ }

/-- A new call.  One that does not need the lock takes effect at once. -/
def Machine.enter (prog : ο → Code σ α) (m : Machine ι ο σ α) (i : ι) (o : ο)
    (interrupts handler : Bool) : Machine ι ο σ α :=
  let x : Ctx ο σ α :=
    { id := m.calls, op := o, code := prog o, flags := [], handler := handler,
      phase := if (prog o).value.isSome then .done else .start }
  { m.put i interrupts (x :: (m.cpu i).stack) with
    log := m.log ++ (prog o).value.toList.map fun a => ⟨m.calls, o, a⟩
    calls := m.calls + 1 }

/-- The next instruction of the call `x` that runs on `i`. -/
def Machine.execute (m : Machine ι ο σ α) (i : ι) (x : Ctx ο σ α) (rest : List (Ctx ο σ α)) :
    Machine ι ο σ α :=
  let flag := (m.cpu i).interrupts
  match x.code with
  | .ret _ => m.put i (x.handler || flag) rest
  | .load k => m.put i flag ({ x with code := k m.mem } :: rest)
  | .store f k => { m.put i flag ({ x with code := k } :: rest) with mem := f m.mem }
  | .irqSave k =>
    m.put i false
      ({ x with code := k, flags := flag :: x.flags,
                phase := if x.phase = .start then .ready else x.phase } :: rest)
  | .irqRestore k => m.put i (x.flags.headD flag)
    ({ x with code := k, flags := x.flags.tail, phase := .done } :: rest)
  | .bts k =>
    if m.locked then m.put i flag ({ x with code := .pause k } :: rest)
    else { m.put i flag ({ x with code := k, phase := .held } :: rest) with locked := true }
  | .pause k => if m.locked then m else m.put i flag ({ x with code := .bts k } :: rest)
  | .unlock k =>
    { m.put i flag ({ x with code := k, phase := .after } :: rest) with
      locked := false, log := m.log ++ k.value.toList.map fun a => ⟨x.id, x.op, a⟩ }

/-- Threads call and mask interrupts when no call is on its way, and interrupts call when they
are not masked. -/
def step (prog : ο → Code σ α) (m : Machine ι ο σ α) : Event ι ο → Option (Machine ι ο σ α)
  | .call i o => if (m.cpu i).stack.isEmpty
    then some (m.enter prog i o (m.cpu i).interrupts false) else none
  | .interrupt i o => if (m.cpu i).interrupts then some (m.enter prog i o false true) else none
  | .mask i flag => if (m.cpu i).stack.isEmpty then some (m.put i flag []) else none
  | .run i =>
    match (m.cpu i).stack with
    | [] => none
    | x :: rest => some (m.execute i x rest)

/-- No call is on its way. -/
def Machine.idle (mem : σ) (interrupts : ι → Bool) : Machine ι ο σ α :=
  { mem := mem, locked := false, cpu := fun i => ⟨interrupts i, []⟩, log := [],
    calls := 0 }

/-! ## The invariant -/

/-- A call that keeps to the discipline, and whose value is in the log once it took effect. -/
structure Good (prog : ο → Code σ α) (log : List (Entry ο α)) (x : Ctx ο σ α) : Prop where
  sound : Sound x.code x.phase
  pending : x.phase = .start ∨ x.phase = .ready → Same x.code (prog x.op)
  stuck : x.phase = .held → (prog x.op).hangs → x.code.asks
  effective : x.phase = .after ∨ x.phase = .done → ∃ a, x.code.value = some a ∧ ⟨x.id, x.op, a⟩ ∈ log

/-- A call that may be interrupted. -/
def Open (x : Ctx ο σ α) : Prop := x.phase = .start ∨ x.phase = .done

/-- Nothing but the running call may be between the interrupt flags and the lock. -/
structure Tidy (prog : ο → Code σ α) (log : List (Entry ο α)) (c : Cpu ο σ α) : Prop where
  good : ∀ x ∈ c.stack, Good prog log x
  below : ∀ x ∈ c.stack.tail, Open x
  masked : ∀ x ∈ c.stack.head?, Open x ∨ c.interrupts = false ∧ x.flags ≠ []

/-- The running call has the lock. -/
def Inside (c : Cpu ο σ α) : Prop := ∃ x ∈ c.stack.head?, x.phase = .held

/-- The memory is what the calls of the log make of it.  The call of the owner goes on from
there. -/
def Serial (prog : ο → Code σ α) (mem₀ : σ) (m : Machine ι ο σ α) (owner : Option ι) : Prop :=
  ∃ s, Replays prog mem₀ m.log s ∧ (owner = none → m.mem = s) ∧
    ∀ i, owner = some i →
        ∀ x ∈ (m.cpu i).stack.head?, x.code.critical m.mem = (prog x.op).atomic s

structure Inv (prog : ο → Code σ α) (mem₀ : σ) (m : Machine ι ο σ α) (owner : Option ι) :
    Prop where
  tidy : ∀ i, Tidy prog m.log (m.cpu i)
  locked : m.locked = owner.isSome
  inside : ∀ i, Inside (m.cpu i) ↔ owner = some i
  serial : Serial prog mem₀ m owner

section Steps

omit [DecidableEq ι]

variable {prog : ο → Code σ α} {mem₀ s t u : σ} {log : List (Entry ο α)} {c : Cpu ο σ α}
  {x z : Ctx ο σ α}
  {rest : List (Ctx ο σ α)} {flag : Bool}

theorem replays_append (h : Replays prog s log u) {n : Nat} {o : ο} {a : α}
    (ho : (prog o).atomic u = some (a, t)) : Replays prog s (log ++ [⟨n, o, a⟩]) t := by
  induction log generalizing s with
  | nil =>
    cases h
    exact ⟨t, ho, rfl⟩
  | cons e log ih =>
    obtain ⟨v, hv, h⟩ := h
    exact ⟨v, hv, ih h⟩

theorem Good.mono (h : Good prog log x) (l : List (Entry ο α)) : Good prog (log ++ l) x where
  sound := h.sound
  pending := h.pending
  stuck := h.stuck
  effective := fun hp => (h.effective hp).imp fun _ ha => ⟨ha.1, List.mem_append_left l ha.2⟩

theorem Tidy.mono (h : Tidy prog log c) (l : List (Entry ο α)) : Tidy prog (log ++ l) c where
  good := fun x hx => (h.good x hx).mono l
  below := h.below
  masked := h.masked

/-- A step of the running call. -/
theorem Tidy.next (h : Tidy prog log ⟨flag, x :: rest⟩) (l : List (Entry ο α))
    (hx' : Good prog (log ++ l) z) {flag' : Bool}
    (hmasked : Open z ∨ flag' = false ∧ z.flags ≠ []) :
    Tidy prog (log ++ l) ⟨flag', z :: rest⟩ where
  good := List.forall_mem_cons.mpr
    ⟨hx', fun y hy => (h.good y (List.mem_cons_of_mem x hy)).mono l⟩
  below := h.below
  masked := by
    intro y hy
    rw [Option.mem_def, List.head?_cons, Option.some.injEq] at hy
    exact hy ▸ hmasked

/-- The end of the running call. -/
theorem Tidy.pop (h : Tidy prog log ⟨flag, x :: rest⟩) (flag' : Bool) :
    Tidy prog log ⟨flag', rest⟩ where
  good := fun y hy => h.good y (List.mem_cons_of_mem x hy)
  below := fun y hy => h.below y (List.mem_of_mem_tail hy)
  masked := fun y hy => .inl (h.below y (List.mem_of_mem_head? hy))

/-- A call on top of one that may be interrupted. -/
theorem Tidy.push (h : Tidy prog log c) (hopen : ∀ y ∈ c.stack.head?, Open y) (l : List (Entry ο α))
    (hx : Good prog (log ++ l) x) (hx' : Open x) (flag' : Bool) :
    Tidy prog (log ++ l) ⟨flag', x :: c.stack⟩ where
  good := List.forall_mem_cons.mpr ⟨hx, fun y hy => (h.good y hy).mono l⟩
  below := by
    intro y hy
    change y ∈ c.stack at hy
    rcases hstack : c.stack with _ | ⟨z, rest⟩
    · rw [hstack] at hy
      exact absurd hy List.not_mem_nil
    · rw [hstack] at hy hopen
      rcases List.mem_cons.mp hy with rfl | hy
      · exact hopen y rfl
      · exact h.below y (by rw [hstack]; exact hy)
  masked := by
    intro y hy
    rw [Option.mem_def, List.head?_cons, Option.some.injEq] at hy
    exact hy ▸ .inl hx'

theorem inside_cons : Inside (⟨flag, x :: rest⟩ : Cpu ο σ α) ↔ x.phase = .held := by
  constructor
  · rintro ⟨y, hy, hheld⟩
    rw [Option.mem_def, List.head?_cons, Option.some.injEq] at hy
    exact hy ▸ hheld
  · exact fun hheld => ⟨x, rfl, hheld⟩

/-- Where every call may be interrupted, none is inside. -/
theorem not_inside_of_open (h : ∀ y ∈ c.stack.head?, Open y) : ¬ Inside c := by
  rintro ⟨y, hy, hheld⟩
  rcases h y hy with hp | hp
  · rw [hheld] at hp
    cases hp
  · rw [hheld] at hp
    cases hp

/-! What the discipline says about an instruction. -/

theorem sound_ret {a : α} {p : Phase} (h : Sound (σ := σ) (.ret a) p) : p = .done := by
  cases p with
  | done => rfl
  | _ => exact False.elim h

theorem sound_load {k : σ → Code σ α} {p : Phase} (h : Sound (.load k) p) :
    p = .held ∧ ∀ s, Sound (k s) .held := by
  cases p with
  | held => exact ⟨rfl, h⟩
  | _ => exact False.elim h

theorem sound_store {f : σ → σ} {k : Code σ α} {p : Phase} (h : Sound (.store f k) p) :
    p = .held ∧ Sound k .held := by
  cases p with
  | held => exact ⟨rfl, h⟩
  | _ => exact False.elim h

theorem sound_irqSave {k : Code σ α} {p : Phase} (h : Sound (.irqSave k) p) :
    p = .start ∧ Sound k .ready ∨ p = .held ∧ Sound k .held := by
  cases p with
  | start => exact .inl ⟨rfl, h⟩
  | held => exact .inr ⟨rfl, h⟩
  | _ => exact False.elim h

theorem sound_irqRestore {k : Code σ α} {p : Phase} (h : Sound (.irqRestore k) p) :
    p = .after ∧ Sound k .done := by
  cases p with
  | after => exact ⟨rfl, h⟩
  | _ => exact False.elim h

theorem sound_bts {k : Code σ α} {p : Phase} (h : Sound (.bts k) p) :
    p = .ready ∧ Sound k .held ∨ p = .held := by
  cases p with
  | ready => exact .inl ⟨rfl, h⟩
  | held => exact .inr rfl
  | _ => exact False.elim h

theorem sound_pause {k : Code σ α} {p : Phase} (h : Sound (.pause k) p) :
    p = .ready ∧ Sound k .held ∨ p = .held := by
  cases p with
  | ready => exact .inl ⟨rfl, h⟩
  | held => exact .inr rfl
  | _ => exact False.elim h

theorem sound_unlock {k : Code σ α} {p : Phase} (h : Sound (.unlock k) p) :
    p = .held ∧ Sound k .after := by
  cases p with
  | held => exact ⟨rfl, h⟩
  | _ => exact False.elim h

theorem sound_after_value {k : Code σ α} (h : Sound k .after) : ∃ a, k.value = some a := by
  cases k with
  | irqRestore k =>
    cases k with
    | ret a => exact ⟨a, rfl⟩
    | _ => exact False.elim h
  | _ => exact False.elim h

/-- A call that has not taken effect. -/
theorem Good.of_ready {k : Code σ α} (hphase : x.phase = .ready) (hcode : x.code = k)
    (hsound : Sound k .ready)
    (hsame : Same k (prog x.op)) : Good prog log x where
  sound := by rwa [hcode, hphase]
  pending := fun _ => by rwa [hcode]
  stuck := by
    intro hp
    rw [hphase] at hp
    cases hp
  effective := by
    intro hp
    rw [hphase] at hp
    rcases hp with hp | hp
    · cases hp
    · cases hp

/-- A call that has the lock. -/
theorem Good.of_held {k : Code σ α} (hphase : x.phase = .held) (hcode : x.code = k)
    (hsound : Sound k .held)
    (hstuck : (prog x.op).hangs → k.asks) : Good prog log x where
  sound := by rwa [hcode, hphase]
  stuck := fun _ => by rwa [hcode]
  pending := by
    intro hp
    rw [hphase] at hp
    rcases hp with hp | hp
    · cases hp
    · cases hp
  effective := by
    intro hp
    rw [hphase] at hp
    rcases hp with hp | hp
    · cases hp
    · cases hp

/-- A call that took effect. -/
theorem Good.of_effect {k : Code σ α} {a : α} (hphase : x.phase = .after ∨ x.phase = .done)
    (hcode : x.code = k)
    (hsound : Sound k x.phase) (hvalue : k.value = some a) (hlog : ⟨x.id, x.op, a⟩ ∈ log) :
    Good prog log x where
  sound := by rwa [hcode]
  pending := by
    intro hp
    rcases hphase with hphase | hphase
    · rw [hphase] at hp
      rcases hp with hp | hp
      · cases hp
      · cases hp
    · rw [hphase] at hp
      rcases hp with hp | hp
      · cases hp
      · cases hp
  stuck := by
    intro hp
    rcases hphase with hphase | hphase
    · rw [hphase] at hp
      cases hp
    · rw [hphase] at hp
      cases hp
  effective := fun _ => ⟨a, by rwa [hcode], hlog⟩

end Steps

/-- Calls keep to the discipline, or end without the lock. -/
def Disciplined (prog : ο → Code σ α) : Prop := ∀ o, Sound (prog o) .start ∨ ∃ a, prog o = .ret a

variable {prog : ο → Code σ α} {mem₀ mem' : σ} {m : Machine ι ο σ α} {owner owner' : Option ι}
  {i : ι} {c : Cpu ο σ α}
  {x z : Ctx ο σ α} {rest : List (Ctx ο σ α)} {locked' : Bool} {o : ο}

/-- A step of one processor. -/
theorem Inv.step (h : Inv prog mem₀ m owner) (locked' : Bool) (owner' : Option ι) (mem' : σ)
    (l : List (Entry ο α)) (calls' : Nat)
    (htidy : Tidy prog (m.log ++ l) c)
    (hlocked : locked' = owner'.isSome) (hinside : Inside c ↔ owner' = some i)
    (hothers : ∀ j ≠ i, owner = some j ↔ owner' = some j)
    (hserial :
      Serial prog mem₀ ⟨mem', locked', Function.update m.cpu i c, m.log ++ l, calls'⟩ owner') :
    Inv prog mem₀ ⟨mem', locked', Function.update m.cpu i c, m.log ++ l, calls'⟩ owner' where
  tidy := by
    intro j
    by_cases hj : j = i
    · subst hj
      dsimp only
      rw [Function.update_self]
      exact htidy
    · dsimp only
      rw [Function.update_of_ne hj]
      exact (h.tidy j).mono l
  locked := hlocked
  inside := by
    intro j
    by_cases hj : j = i
    · subst hj
      dsimp only
      rw [Function.update_self]
      exact hinside
    · dsimp only
      rw [Function.update_of_ne hj, h.inside j]
      exact hothers j hj
  serial := hserial

/-- A step of a processor that is not inside and does not get inside. -/
theorem Inv.outside (h : Inv prog mem₀ m owner) (hout : ¬ Inside (m.cpu i)) (l : List (Entry ο α))
    (calls' : Nat)
    (htidy : Tidy prog (m.log ++ l) c) (hout' : ¬ Inside c)
    (hlog : ∀ s, Replays prog mem₀ m.log s → Replays prog mem₀ (m.log ++ l) s) :
    Inv prog mem₀ ⟨m.mem, m.locked, Function.update m.cpu i c, m.log ++ l, calls'⟩ owner := by
  have hne : owner ≠ some i := fun howner => hout ((h.inside i).mpr howner)
  refine h.step _ _ _ l calls' htidy h.locked (iff_of_false hout' hne) (fun _ _ => Iff.rfl) ?_
  obtain ⟨s, hreplay, hfree, hheld⟩ := h.serial
  refine ⟨s, hlog s hreplay, hfree, fun j hj => ?_⟩
  have hji : j ≠ i := fun hji => hne (hji ▸ hj)
  change ∀ x ∈ (Function.update m.cpu i c j).stack.head?, _
  rw [Function.update_of_ne hji]
  exact hheld j hj

/-- A step of the processor that is inside. -/
theorem Inv.within (h : Inv prog mem₀ m (some i)) (hcpu : m.cpu i = ⟨false, x :: rest⟩)
    (hx' : Good prog m.log z)
    (hheld : z.phase = .held) (hflags : z.flags ≠ []) (hop : z.op = x.op)
    (hcritical : z.code.critical mem' = x.code.critical m.mem) :
    Inv prog mem₀ ⟨mem', m.locked, Function.update m.cpu i ⟨false, z :: rest⟩, m.log, m.calls⟩
      (some i) := by
  have htidy := h.tidy i
  rw [hcpu] at htidy
  have hstep := h.step m.locked (some i) mem' [] m.calls
    (htidy.next [] (by rwa [List.append_nil]) (.inr ⟨rfl, hflags⟩)) h.locked
    (iff_of_true (inside_cons.mpr hheld) rfl) (fun _ _ => Iff.rfl)
  rw [List.append_nil] at hstep
  refine hstep ?_
  obtain ⟨s, hreplay, -, hserial⟩ := h.serial
  refine ⟨s, hreplay, fun hnone => absurd hnone (Option.some_ne_none i), fun j hj y hy => ?_⟩
  cases hj
  change y ∈ (Function.update m.cpu i ⟨false, z :: rest⟩ i).stack.head? at hy
  rw [Function.update_self, Option.mem_def, List.head?_cons, Option.some.injEq] at hy
  rw [← hy, hop]
  refine hcritical.trans (hserial i rfl x ?_)
  rw [hcpu]
  rfl

/-- Code that has the lock and interrupts masked. -/
theorem Tidy.masked_of_held {log : List (Entry ο α)} {flag : Bool}
    (h : Tidy prog log ⟨flag, x :: rest⟩)
    (hphase : x.phase ≠ .start ∧ x.phase ≠ .done) : flag = false ∧ x.flags ≠ [] :=
  (h.masked x rfl).resolve_left fun hopen => hopen.elim hphase.1 hphase.2

/-- An instruction that neither takes the lock nor gives it back nor uses the memory. -/
theorem Inv.keep (h : Inv prog mem₀ m owner) {flag₀ : Bool} (hcpu : m.cpu i = ⟨flag₀, x :: rest⟩)
    (hx : x.phase ≠ .held)
    (hx' : Good prog m.log z) (hheld : z.phase ≠ .held) {flag : Bool}
    (hmasked : Open z ∨ flag = false ∧ z.flags ≠ []) :
    Inv prog mem₀ (m.put i flag (z :: rest)) owner := by
  have htidy := h.tidy i
  rw [hcpu] at htidy
  have hout : ¬ Inside (m.cpu i) := by
    rw [hcpu, inside_cons]
    exact hx
  have hstep :=
    h.outside hout [] m.calls (htidy.next [] (by rwa [List.append_nil]) hmasked)
    (fun hin => hheld (inside_cons.mp hin))
    fun s hs => by rwa [List.append_nil]
  rwa [List.append_nil] at hstep

/-- An instruction of a call that has the lock. -/
theorem Inv.work (h : Inv prog mem₀ m owner) {flag : Bool} (hcpu : m.cpu i = ⟨flag, x :: rest⟩)
    (hphase : x.phase = .held)
    (hphase' : z.phase = .held) (hop : z.op = x.op) (hsound : Sound z.code .held)
    (hstuck : (prog z.op).hangs → z.code.asks) (hflags : z.flags ≠ [])
    (hcritical : z.code.critical mem' = x.code.critical m.mem) :
    flag = false ∧ owner = some i ∧
      Inv prog mem₀ ⟨mem', m.locked, Function.update m.cpu i ⟨flag, z :: rest⟩, m.log, m.calls⟩
        owner := by
  have htidy := h.tidy i
  rw [hcpu] at htidy
  have howner : owner = some i := by
    rw [← h.inside i, hcpu, inside_cons]
    exact hphase
  have hflag := (htidy.masked_of_held (by rw [hphase]; decide)).1
  subst hflag howner
  exact ⟨rfl, rfl,
    h.within hcpu (.of_held hphase' rfl hsound hstuck) hphase' hflags hop hcritical⟩

/-- The lock is taken. -/
theorem Inv.acquire (h : Inv prog mem₀ m owner) {flag : Bool} (hcpu : m.cpu i = ⟨flag, x :: rest⟩)
    (hready : x.phase = .ready)
    {k : Code σ α} (hcode : x.code = .bts k) (hk : Sound k .held) (hfree : m.locked = false) :
    Inv prog mem₀
      ⟨m.mem, true, Function.update m.cpu i ⟨flag, { x with code := k, phase := .held } :: rest⟩,
        m.log, m.calls⟩
      (some i) := by
  have htidy := h.tidy i
  rw [hcpu] at htidy
  have hgood := htidy.good x List.mem_cons_self
  have hpending := hgood.pending (.inr hready)
  have hasks := hpending.2.mpr
  rw [hcode] at hasks
  obtain ⟨hoff, hflags⟩ := htidy.masked_of_held (by rw [hready]; decide)
  have hnone : owner = none := by
    rw [← Option.not_isSome_iff_eq_none, ← h.locked, hfree]
    exact Bool.false_ne_true
  subst hnone
  have hstep := h.step true (some i) m.mem [] m.calls
    (htidy.next (z := { x with code := k, phase := .held }) [] (.of_held rfl rfl hk hasks)
      (.inr ⟨hoff, hflags⟩)) rfl
    (iff_of_true (inside_cons.mpr rfl) rfl) fun j hj =>
      iff_of_false (Option.some_ne_none j |>.symm) fun heq => hj (Option.some.inj heq).symm
  rw [List.append_nil] at hstep
  refine hstep ?_
  obtain ⟨s, hreplay, hmem, -⟩ := h.serial
  refine ⟨s, hreplay, fun hn => absurd hn (Option.some_ne_none i), fun j hj y hy => ?_⟩
  cases hj
  dsimp only at hy ⊢
  rw [Function.update_self, Option.mem_def, List.head?_cons, Option.some.injEq] at hy
  rw [← hy, hmem rfl, ← hpending.1 s, hcode]
  rfl

/-- The lock is given back, and the call takes effect. -/
theorem Inv.release (h : Inv prog mem₀ m owner) {flag : Bool} (hcpu : m.cpu i = ⟨flag, x :: rest⟩)
    (hheld : x.phase = .held)
    {k : Code σ α} (hcode : x.code = .unlock k) (hk : Sound k .after) :
    Inv prog mem₀
      ⟨m.mem, false,
        Function.update m.cpu i ⟨flag, { x with code := k, phase := .after } :: rest⟩,
        m.log ++ k.value.toList.map fun a => ⟨x.id, x.op, a⟩, m.calls⟩ none := by
  have htidy := h.tidy i
  rw [hcpu] at htidy
  obtain ⟨hoff, hflags⟩ := htidy.masked_of_held (by rw [hheld]; decide)
  obtain ⟨a, hvalue⟩ := sound_after_value hk
  have howner : owner = some i := by
    rw [← h.inside i, hcpu, inside_cons]
    exact hheld
  subst howner
  rw [hvalue]
  change Inv prog mem₀
    ⟨m.mem, false, Function.update m.cpu i ⟨flag, { x with code := k, phase := .after } :: rest⟩,
    m.log ++ [⟨x.id, x.op, a⟩], m.calls⟩ none
  refine h.step _ _ _ [⟨x.id, x.op, a⟩] _ (htidy.next (z := { x with code := k, phase := .after }) _
    (.of_effect (.inl rfl) rfl hk hvalue (List.mem_append_right _ List.mem_cons_self))
    (.inr ⟨hoff, hflags⟩)) rfl
    (iff_of_false (fun hin => Phase.noConfusion (inside_cons.mp hin))
      (Option.some_ne_none i |>.symm))
    (fun j hj => iff_of_false (fun heq => hj (Option.some.inj heq).symm)
      (Option.some_ne_none j |>.symm)) ?_
  obtain ⟨s, hreplay, -, hcritical⟩ := h.serial
  have heffect := hcritical i rfl x (by rw [hcpu]; rfl)
  rw [hcode, Code.critical, hvalue] at heffect
  exact ⟨m.mem, replays_append hreplay heffect.symm, fun _ => rfl,
    fun j hj => absurd hj (Option.some_ne_none j |>.symm)⟩

/-- An instruction keeps the invariant. -/
theorem Inv.execute (h : Inv prog mem₀ m owner) {flag : Bool}
    (hcpu : m.cpu i = ⟨flag, x :: rest⟩) :
    ∃ owner', Inv prog mem₀ (m.execute i x rest) owner' := by
  have htidy := h.tidy i
  rw [hcpu] at htidy
  have hgood := htidy.good x List.mem_cons_self
  have hsound := hgood.sound
  have hstuck := hgood.stuck
  have hflag : (m.cpu i).interrupts = flag := by rw [hcpu]
  unfold Machine.execute
  dsimp only
  rw [hflag]
  cases hcode : x.code with
  | ret a =>
    rw [hcode] at hsound
    have hdone := sound_ret hsound
    have hout : ¬ Inside (m.cpu i) := by
      rw [hcpu, inside_cons, hdone]
      exact Phase.noConfusion
    have hrest : ¬ Inside (⟨x.handler || flag, rest⟩ : Cpu ο σ α) :=
      not_inside_of_open fun y hy => htidy.below y (List.mem_of_mem_head? hy)
    have hstep :=
      h.outside hout [] m.calls ((htidy.pop _).mono []) hrest fun s hs => by
        rwa [List.append_nil]
    rw [List.append_nil] at hstep
    exact ⟨owner, hstep⟩
  | load k =>
    rw [hcode] at hsound hstuck
    obtain ⟨hheld, hk⟩ := sound_load hsound
    have hflags := (htidy.masked_of_held (by rw [hheld]; decide)).2
    exact ⟨owner, (h.work (z := { x with code := k m.mem }) hcpu hheld hheld rfl (hk m.mem)
      (fun hh => False.elim (hstuck hheld hh)) hflags (by rw [hcode]; rfl)).2.2⟩
  | store f k =>
    rw [hcode] at hsound hstuck
    obtain ⟨hheld, hk⟩ := sound_store hsound
    have hflags := (htidy.masked_of_held (by rw [hheld]; decide)).2
    exact ⟨owner,
      (h.work (z := { x with code := k }) hcpu hheld hheld rfl hk
      (fun hh => False.elim (hstuck hheld hh))
      hflags (by rw [hcode]; rfl)).2.2⟩
  | irqSave k =>
    rw [hcode] at hsound hstuck
    rcases sound_irqSave hsound with ⟨hstart, hk⟩ | ⟨hheld, hk⟩
    · rw [hstart, if_pos rfl]
      have hpending := hgood.pending (.inl hstart)
      rw [hcode] at hpending
      exact ⟨owner,
        h.keep hcpu (by rw [hstart]; exact Phase.noConfusion) (.of_ready rfl rfl hk hpending)
        Phase.noConfusion (.inr ⟨rfl, List.cons_ne_nil _ _⟩)⟩
    · rw [hheld, if_neg Phase.noConfusion]
      obtain ⟨rfl, -, hinv⟩ :=
        h.work (z := { x with code := k, flags := flag :: x.flags, phase := .held }) hcpu hheld
        rfl
        rfl hk (hstuck hheld) (List.cons_ne_nil _ _) (by rw [hcode]; rfl)
      exact ⟨owner, hinv⟩
  | irqRestore k =>
    rw [hcode] at hsound
    obtain ⟨hafter, hk⟩ := sound_irqRestore hsound
    obtain ⟨a, hvalue, hlog⟩ := hgood.effective (.inl hafter)
    rw [hcode] at hvalue
    exact ⟨owner, h.keep (z := { x with code := k, flags := x.flags.tail, phase := .done }) hcpu
      (by rw [hafter]; exact Phase.noConfusion) (.of_effect (.inr rfl) rfl hk hvalue hlog)
        Phase.noConfusion (.inl (.inr rfl))⟩
  | bts k =>
    rw [hcode] at hsound hstuck
    rcases sound_bts hsound with ⟨hready, hk⟩ | hheld
    · have hpending := hgood.pending (.inr hready)
      rw [hcode] at hpending
      obtain ⟨hoff, hflags⟩ := htidy.masked_of_held (by rw [hready]; decide)
      dsimp only
      split
      · exact ⟨owner,
          h.keep (z := { x with code := .pause k }) hcpu (by rw [hready]; exact Phase.noConfusion)
          (.of_ready hready rfl hk hpending) (by dsimp only; rw [hready]; exact Phase.noConfusion)
            (.inr ⟨hoff, hflags⟩)⟩
      · rename_i hfree
        exact ⟨some i, h.acquire hcpu hready hcode hk (Bool.eq_false_iff.mpr hfree)⟩
    · have howner : owner = some i := by
        rw [← h.inside i, hcpu, inside_cons]
        exact hheld
      have hlocked : m.locked = true := by
        rw [h.locked, howner]
        rfl
      have hflags := (htidy.masked_of_held (by rw [hheld]; decide)).2
      dsimp only
      rw [if_pos hlocked]
      exact ⟨owner,
        (h.work (z := { x with code := .pause k }) hcpu hheld hheld rfl trivial (fun _ => trivial)
        hflags (by rw [hcode]; rfl)).2.2⟩
  | pause k =>
    rw [hcode] at hsound
    dsimp only
    split
    · exact ⟨owner, h⟩
    · rename_i hfree
      rcases sound_pause hsound with ⟨hready, hk⟩ | hheld
      · have hpending := hgood.pending (.inr hready)
        rw [hcode] at hpending
        obtain ⟨hoff, hflags⟩ := htidy.masked_of_held (by rw [hready]; decide)
        exact ⟨owner,
          h.keep (z := { x with code := .bts k }) hcpu (by rw [hready]; exact Phase.noConfusion)
          (.of_ready hready rfl hk hpending) (by dsimp only; rw [hready]; exact Phase.noConfusion)
            (.inr ⟨hoff, hflags⟩)⟩
      · have howner : owner = some i := by
          rw [← h.inside i, hcpu, inside_cons]
          exact hheld
        rw [h.locked, howner] at hfree
        exact absurd rfl hfree
  | unlock k =>
    rw [hcode] at hsound
    obtain ⟨hheld, hk⟩ := sound_unlock hsound
    exact ⟨none, h.release hcpu hheld hcode hk⟩

omit [DecidableEq ι] in
theorem sound_start_value {k : Code σ α} (h : Sound k .start) : k.value = none := by
  cases k with
  | irqSave k => rfl
  | _ => exact False.elim h

/-- A new call keeps the invariant. -/
theorem Inv.enter (h : Inv prog mem₀ m owner) (hprog : Disciplined prog)
    (hopen : ∀ x ∈ (m.cpu i).stack.head?, Open x) (o : ο)
    (flag handler : Bool) : Inv prog mem₀ (m.enter prog i o flag handler) owner := by
  have hout := not_inside_of_open hopen
  unfold Machine.enter
  dsimp only
  rcases hprog o with hstart | ⟨a, ha⟩
  · rw [sound_start_value hstart]
    have hgood : Good prog (m.log ++ []) (⟨m.calls, o, prog o, [], handler, .start⟩ : Ctx ο σ α) :=
      ⟨hstart, fun _ => ⟨fun _ => rfl, Iff.rfl⟩, fun hp => Phase.noConfusion hp,
        fun hp => by rcases hp with hp | hp <;> cases hp⟩
    exact h.outside hout [] _ ((h.tidy i).push hopen [] hgood (.inl rfl) flag)
      (fun hin => Phase.noConfusion (inside_cons.mp hin)) fun s hs => by rwa [List.append_nil]
  · rw [ha]
    have hgood : Good prog (m.log ++ [⟨m.calls, o, a⟩])
        (⟨m.calls, o, .ret a, [], handler, .done⟩ : Ctx ο σ α) :=
      .of_effect (.inr rfl) rfl trivial rfl (List.mem_append_right _ List.mem_cons_self)
    exact h.outside hout [⟨m.calls, o, a⟩] _ ((h.tidy i).push hopen _ hgood (.inr rfl) flag)
      (fun hin => Phase.noConfusion (inside_cons.mp hin)) fun s hs =>
        replays_append hs (by rw [ha]; rfl)

omit [DecidableEq ι] in
theorem inv_idle (prog : ο → Code σ α) (mem₀ : σ) (flags : ι → Bool) :
    Inv prog mem₀ (Machine.idle mem₀ flags : Machine ι ο σ α) none where
  tidy := fun _ =>
    ⟨fun _ hx => absurd hx List.not_mem_nil, fun _ hx => absurd hx List.not_mem_nil,
    fun x hx => absurd hx (Option.not_mem_none x)⟩
  locked := rfl
  inside := fun i => iff_of_false (fun ⟨x, hx, _⟩ => absurd hx (Option.not_mem_none x))
    (Option.some_ne_none i).symm
  serial := ⟨mem₀, rfl, fun _ => rfl, fun i hi => absurd hi (Option.some_ne_none i).symm⟩

/-- A step keeps the invariant. -/
theorem Inv.event (h : Inv prog mem₀ m owner) (hprog : Disciplined prog) {e : Event ι ο}
    {m' : Machine ι ο σ α}
    (hstep : SpinLock.step prog m e = some m') : ∃ owner', Inv prog mem₀ m' owner' := by
  cases e with
  | call i o =>
    obtain ⟨hempty, hm⟩ := Option.ite_none_right_eq_some.mp hstep
    cases hm
    rw [List.isEmpty_iff] at hempty
    exact ⟨owner,
      h.enter hprog (by rw [hempty]; exact fun x hx => absurd hx (Option.not_mem_none x)) o _ _⟩
  | interrupt i o =>
    obtain ⟨hflag, hm⟩ := Option.ite_none_right_eq_some.mp hstep
    cases hm
    refine ⟨owner,
      h.enter hprog (fun x hx => ((h.tidy i).masked x hx).resolve_right fun hoff => ?_) o _ _⟩
    rw [hflag] at hoff
    cases hoff.1
  | mask i flag =>
    obtain ⟨hempty, hm⟩ := Option.ite_none_right_eq_some.mp hstep
    cases hm
    rw [List.isEmpty_iff] at hempty
    have hout : ¬ Inside (m.cpu i) := by
      rintro ⟨x, hx, -⟩
      rw [hempty] at hx
      exact absurd hx (Option.not_mem_none x)
    have htidy : Tidy prog (m.log ++ []) (⟨flag, []⟩ : Cpu ο σ α) :=
      ⟨fun x hx => absurd hx List.not_mem_nil,
      fun x hx => absurd hx List.not_mem_nil, fun x hx => absurd hx (Option.not_mem_none x)⟩
    have hinv :=
      h.outside hout [] m.calls htidy (fun ⟨x, hx, _⟩ => absurd hx (Option.not_mem_none x)) fun s hs =>
      by rwa [List.append_nil]
    rw [List.append_nil] at hinv
    exact ⟨owner, hinv⟩
  | run i =>
    unfold SpinLock.step at hstep
    dsimp only at hstep
    rcases hc : m.cpu i with ⟨flag, stack⟩
    rw [hc] at hstep
    cases stack with
    | nil => cases hstep
    | cons x rest =>
      cases hstep
      exact h.execute hc

/-! ## The numbers of the calls -/

/-- A call that has not taken effect. -/
def Waits (x : Ctx ο σ α) : Prop := x.phase ≠ .after ∧ x.phase ≠ .done

/-- Every call has a number of its own, and an entry of the log is of one call. -/
structure Numbered (m : Machine ι ο σ α) : Prop where
  entries : (m.log.map Entry.call).Nodup
  past : ∀ e ∈ m.log, e.call < m.calls
  known : ∀ i, ∀ x ∈ (m.cpu i).stack, x.id < m.calls
  distinct : ∀ i, ((m.cpu i).stack.map Ctx.id).Nodup
  apart : ∀ i j, ∀ x ∈ (m.cpu i).stack, ∀ y ∈ (m.cpu j).stack, x.id = y.id → i = j
  waiting : ∀ i, ∀ x ∈ (m.cpu i).stack, Waits x → ∀ e ∈ m.log, e.call ≠ x.id

/-- A step of one processor: its calls are those it had, or new, and the entries it adds are of
calls that waited or that are new. -/
theorem Numbered.step (h : Numbered m) {l : List (Entry ο α)} {calls' : Nat}
    (hcalls : m.calls ≤ calls') (hdistinct : (c.stack.map Ctx.id).Nodup)
    (hstack : ∀ z ∈ c.stack, z.id < calls' ∧
      (z.id < m.calls → ∃ x ∈ (m.cpu i).stack, x.id = z.id ∧ (Waits z → Waits x)))
    (hentries : (l.map Entry.call).Nodup)
    (hlog : ∀ e ∈ l, e.call < calls' ∧
      (e.call < m.calls → ∃ x ∈ (m.cpu i).stack, x.id = e.call ∧ Waits x))
    (hwaiting : ∀ e ∈ l, ∀ z ∈ c.stack, Waits z → e.call ≠ z.id) :
    Numbered ⟨mem', locked', Function.update m.cpu i c, m.log ++ l, calls'⟩ := by
  have hcpu : ∀ j, (j = i ∧ Function.update m.cpu i c j = c) ∨
      (j ≠ i ∧ Function.update m.cpu i c j = m.cpu j) := fun j =>
    (em (j = i)).imp (fun hj => ⟨hj, hj ▸ Function.update_self ..⟩)
      fun hj => ⟨hj, Function.update_of_ne hj ..⟩
  -- a call of another processor has another number
  have hother : ∀ j ≠ i, ∀ y ∈ (m.cpu j).stack, ∀ z ∈ c.stack, z.id ≠ y.id := by
    intro j hj y hy z hz heq
    obtain ⟨x, hx, hid, -⟩ := (hstack z hz).2 (heq ▸ h.known j y hy)
    exact hj (h.apart j i y hy x hx (heq.symm.trans hid.symm))
  refine ⟨?_, fun e he => ?_, fun j x hx => ?_, fun j => ?_, fun j k x hx y hy hid => ?_,
    fun j x hx hwaits e he => ?_⟩
  · rw [List.map_append]
    refine List.Nodup.append h.entries hentries fun n hn hn' => ?_
    obtain ⟨e, he, rfl⟩ := List.mem_map.mp hn
    obtain ⟨e', he', heq⟩ := List.mem_map.mp hn'
    obtain ⟨x, hx, hid, hwaits⟩ := (hlog e' he').2 (heq ▸ h.past e he)
    exact h.waiting i x hx hwaits e he (heq.symm.trans hid.symm)
  · rcases List.mem_append.mp he with he | he
    · exact Nat.lt_of_lt_of_le (h.past e he) hcalls
    · exact (hlog e he).1
  · rcases hcpu j with ⟨-, heq⟩ | ⟨-, heq⟩
    · exact (hstack x (heq ▸ hx)).1
    · exact Nat.lt_of_lt_of_le (h.known j x (heq ▸ hx)) hcalls
  · change ((Function.update m.cpu i c j).stack.map Ctx.id).Nodup
    rcases hcpu j with ⟨-, heq⟩ | ⟨-, heq⟩
    · rwa [heq]
    · rw [heq]
      exact h.distinct j
  · rcases hcpu j with ⟨rfl, heq⟩ | ⟨hj, heq⟩ <;> rcases hcpu k with ⟨rfl, heq'⟩ | ⟨hk, heq'⟩
    · rfl
    · exact absurd hid (hother k hk y (heq' ▸ hy) x (heq ▸ hx))
    · exact absurd hid.symm (hother j hj x (heq ▸ hx) y (heq' ▸ hy))
    · exact h.apart j k x (heq ▸ hx) y (heq' ▸ hy) hid
  · intro hcall
    rcases hcpu j with ⟨rfl, heq⟩ | ⟨hj, heq⟩ <;> rcases List.mem_append.mp he with he | he
    · obtain ⟨y, hy, hid, hwaits'⟩ := (hstack x (heq ▸ hx)).2 (hcall ▸ h.past e he)
      exact h.waiting j y hy (hwaits' hwaits) e he (hcall.trans hid.symm)
    · exact hwaiting e he x (heq ▸ hx) hwaits hcall
    · exact h.waiting j x (heq ▸ hx) hwaits e he hcall
    · obtain ⟨y, hy, hid, -⟩ := (hlog e he).2 (hcall ▸ h.known j x (heq ▸ hx))
      exact hj (h.apart j i x (heq ▸ hx) y hy (hcall.symm.trans hid.symm))

/-- A new call has the next number. -/
theorem Numbered.enter (h : Numbered m) (prog : ο → Code σ α) (i : ι) (o : ο)
    (flag handler : Bool) : Numbered (m.enter prog i o flag handler) := by
  unfold Machine.enter
  refine h.step (Nat.le_succ _) ?_ (fun z hz => ?_) ?_ (fun e he => ?_) fun e he z hz hwaits => ?_
  · refine List.nodup_cons.mpr ⟨fun hmem => ?_, h.distinct i⟩
    obtain ⟨x, hx, hid⟩ := List.mem_map.mp hmem
    exact Nat.ne_of_lt (h.known i x hx) hid
  · rcases List.mem_cons.mp hz with rfl | hz
    · exact ⟨Nat.lt_succ_self _, fun hlt => absurd hlt (Nat.lt_irrefl _)⟩
    · exact ⟨Nat.lt_succ_of_lt (h.known i z hz), fun _ => ⟨z, hz, rfl, id⟩⟩
  · cases (prog o).value with
    | none => exact List.nodup_nil
    | some a => exact List.nodup_singleton _
  · obtain ⟨a, -, rfl⟩ := List.mem_map.mp he
    exact ⟨Nat.lt_succ_self _, fun hlt => absurd hlt (Nat.lt_irrefl _)⟩
  · obtain ⟨a, ha, rfl⟩ := List.mem_map.mp he
    rcases List.mem_cons.mp hz with rfl | hz
    · -- it took effect at once
      rw [Option.mem_toList] at ha
      exact absurd (if_pos (by rw [ha]; rfl)) hwaits.2
    · exact Nat.ne_of_gt (h.known i z hz)

/-- A step of one processor that logs nothing. -/
theorem Numbered.keep (h : Numbered m) (hdistinct : (c.stack.map Ctx.id).Nodup)
    (hstack : ∀ z ∈ c.stack, ∃ x ∈ (m.cpu i).stack, x.id = z.id ∧ (Waits z → Waits x)) :
    Numbered ⟨mem', locked', Function.update m.cpu i c, m.log, m.calls⟩ := by
  rw [← List.append_nil m.log]
  refine h.step (le_refl _) hdistinct (fun z hz => ?_) List.nodup_nil
    (fun e he => absurd he List.not_mem_nil) fun e he => absurd he List.not_mem_nil
  obtain ⟨x, hx, hid, hwaits⟩ := hstack z hz
  exact ⟨hid ▸ h.known i x hx, fun _ => ⟨x, hx, hid, hwaits⟩⟩

/-- The running call goes on under its number. -/
theorem Numbered.next (h : Numbered m) {flag : Bool} (hcpu : m.cpu i = ⟨flag, x :: rest⟩)
    (hid : z.id = x.id) (hwaits : Waits z → Waits x) (flag' : Bool) :
    Numbered ⟨mem', locked', Function.update m.cpu i ⟨flag', z :: rest⟩, m.log, m.calls⟩ := by
  have hdistinct := h.distinct i
  rw [hcpu] at hdistinct
  refine h.keep ?_ fun w hw => ?_
  · rw [List.map_cons, hid]
    exact hdistinct
  · rw [hcpu]
    rcases List.mem_cons.mp hw with rfl | hw
    · exact ⟨x, List.mem_cons_self, hid.symm, hwaits⟩
    · exact ⟨w, List.mem_cons_of_mem x hw, rfl, id⟩

/-- The running call ends. -/
theorem Numbered.pop (h : Numbered m) {flag : Bool} (hcpu : m.cpu i = ⟨flag, x :: rest⟩)
    (flag' : Bool) : Numbered (m.put i flag' rest) := by
  have hdistinct := h.distinct i
  rw [hcpu] at hdistinct
  refine h.keep (List.nodup_cons.mp hdistinct).2 fun w hw => ?_
  rw [hcpu]
  exact ⟨w, List.mem_cons_of_mem x hw, rfl, id⟩

/-- The running call takes effect. -/
theorem Numbered.release (h : Numbered m) {flag : Bool} (hcpu : m.cpu i = ⟨flag, x :: rest⟩)
    (hwaits : Waits x) (hid : z.id = x.id) (hphase : z.phase = .after) (v : Option α) :
    Numbered ⟨mem', locked', Function.update m.cpu i ⟨flag, z :: rest⟩,
      m.log ++ v.toList.map fun a => ⟨x.id, x.op, a⟩, m.calls⟩ := by
  have hdistinct := h.distinct i
  have hknown := h.known i
  rw [hcpu] at hdistinct hknown
  have hx := hknown x List.mem_cons_self
  refine h.step (le_refl _) ?_ (fun w hw => ?_) ?_ (fun e he => ?_) fun e he w hw hw' => ?_
  · rw [List.map_cons, hid]
    exact hdistinct
  · rw [hcpu]
    rcases List.mem_cons.mp hw with rfl | hw
    · exact ⟨hid ▸ hx, fun _ => ⟨x, List.mem_cons_self, hid.symm, fun _ => hwaits⟩⟩
    · exact ⟨hknown w (List.mem_cons_of_mem x hw),
        fun _ => ⟨w, List.mem_cons_of_mem x hw, rfl, id⟩⟩
  · cases v with
    | none => exact List.nodup_nil
    | some a => exact List.nodup_singleton _
  · obtain ⟨a, -, rfl⟩ := List.mem_map.mp he
    rw [hcpu]
    exact ⟨hx, fun _ => ⟨x, List.mem_cons_self, rfl, hwaits⟩⟩
  · obtain ⟨a, -, rfl⟩ := List.mem_map.mp he
    rcases List.mem_cons.mp hw with rfl | hw
    · exact absurd hphase hw'.1
    · exact fun heq =>
        (List.nodup_cons.mp hdistinct).1 (List.mem_map.mpr ⟨w, hw, heq.symm⟩)

/-- An instruction keeps the numbers. -/
theorem Numbered.execute (h : Numbered m) (hinv : Inv prog mem₀ m owner) {flag : Bool}
    (hcpu : m.cpu i = ⟨flag, x :: rest⟩) : Numbered (m.execute i x rest) := by
  have htidy := hinv.tidy i
  rw [hcpu] at htidy
  have hsound := (htidy.good x List.mem_cons_self).sound
  have hready : ∀ {p : Phase}, p = .ready ∨ p = .held → p ≠ .after ∧ p ≠ .done := by
    rintro p (rfl | rfl)
    · decide
    · decide
  unfold Machine.execute
  dsimp only
  cases hcode : x.code with
  | ret a => exact h.pop hcpu _
  | load k => exact h.next (z := { x with code := k m.mem }) hcpu rfl id _
  | store f k => exact h.next (z := { x with code := k }) hcpu rfl id _
  | irqSave k =>
    refine h.next (z := { x with
      code := k, flags := (m.cpu i).interrupts :: x.flags,
      phase := if x.phase = .start then .ready else x.phase }) hcpu rfl (fun hz => ?_) _
    by_cases hstart : x.phase = .start
    · rw [Waits, hstart]
      decide
    · rwa [Waits, if_neg hstart] at hz
  | irqRestore k =>
    exact h.next (z := { x with code := k, flags := x.flags.tail, phase := .done }) hcpu rfl
      (fun hz => absurd rfl hz.2) _
  | bts k =>
    rw [hcode] at hsound
    have hx : Waits x := hready ((sound_bts hsound).imp And.left id)
    dsimp only
    split
    · exact h.next (z := { x with code := .pause k }) hcpu rfl id _
    · exact h.next (z := { x with code := k, phase := .held }) hcpu rfl (fun _ => hx) _
  | pause k =>
    dsimp only
    split
    · exact h
    · exact h.next (z := { x with code := .bts k }) hcpu rfl id _
  | unlock k =>
    rw [hcode] at hsound
    have hflag : (m.cpu i).interrupts = flag := by rw [hcpu]
    rw [hflag]
    exact h.release (z := { x with code := k, phase := .after }) hcpu
      (hready (.inr (sound_unlock hsound).1)) rfl rfl _

/-- A step keeps the numbers. -/
theorem Numbered.event (h : Numbered m) (hinv : Inv prog mem₀ m owner) {e : Event ι ο}
    {m' : Machine ι ο σ α} (hstep : SpinLock.step prog m e = some m') : Numbered m' := by
  cases e with
  | call i o =>
    cases (Option.ite_none_right_eq_some.mp hstep).2
    exact h.enter prog i o _ _
  | interrupt i o =>
    cases (Option.ite_none_right_eq_some.mp hstep).2
    exact h.enter prog i o _ _
  | mask i flag =>
    cases (Option.ite_none_right_eq_some.mp hstep).2
    exact h.keep List.nodup_nil fun z hz => absurd hz List.not_mem_nil
  | run i =>
    unfold SpinLock.step at hstep
    dsimp only at hstep
    rcases hc : m.cpu i with ⟨flag, stack⟩
    rw [hc] at hstep
    cases stack with
    | nil => cases hstep
    | cons x rest =>
      cases hstep
      exact h.execute hinv hc

omit [DecidableEq ι] in
theorem numbered_idle (mem₀ : σ) (flags : ι → Bool) :
    Numbered (Machine.idle mem₀ flags : Machine ι ο σ α) where
  entries := List.nodup_nil
  past := fun _ he => absurd he List.not_mem_nil
  known := fun _ _ hx => absurd hx List.not_mem_nil
  distinct := fun _ => List.nodup_nil
  apart := fun _ _ _ hx => absurd hx List.not_mem_nil
  waiting := fun _ _ hx => absurd hx List.not_mem_nil

/-- The states of all runs. -/
def Reachable (prog : ο → Code σ α) (mem₀ : σ) (m : Machine ι ο σ α) : Prop :=
  ∃ flags : ι → Bool, Reach (step prog) (fun _ _ => True) (Machine.idle mem₀ flags) m

theorem Reachable.keeps (hprog : Disciplined prog) (h : Reachable prog mem₀ m) :
    (∃ owner, Inv prog mem₀ m owner) ∧ Numbered m := by
  obtain ⟨flags, h⟩ := h
  refine h.invariant (fun m => (∃ owner, Inv prog mem₀ m owner) ∧ Numbered m)
    ⟨⟨none, inv_idle prog mem₀ flags⟩, numbered_idle mem₀ flags⟩ ?_
  rintro m e m' ⟨⟨owner, hinv⟩, hnumbered⟩ - hstep
  exact ⟨hinv.event hprog hstep, hnumbered.event hinv hstep⟩

theorem Reachable.inv (hprog : Disciplined prog) (h : Reachable prog mem₀ m) :
    ∃ owner, Inv prog mem₀ m owner :=
  (h.keeps hprog).1

/-! ## Results -/

/-- What every interleaving leaves: one call at most is inside, on a processor that is not
interrupted; every call that returns has an entry of its own in the log, with its value; and the
memory is what the calls of the log make of it one after the other, but for a call that is
inside. -/
structure Serialized (prog : ο → Code σ α) (mem₀ : σ) (m : Machine ι ο σ α) : Prop where
  exclusive : ∀ i j, Inside (m.cpu i) → Inside (m.cpu j) → i = j
  masked : ∀ i, Inside (m.cpu i) → (m.cpu i).interrupts = false
  locked : m.locked = true ↔ ∃ i, Inside (m.cpu i)
  returned : ∀ i, ∀ x ∈ (m.cpu i).stack, ∀ a, x.code = .ret a → ⟨x.id, x.op, a⟩ ∈ m.log
  numbered : Numbered m
  serial : ∃ s, Replays prog mem₀ m.log s ∧ (m.locked = false → m.mem = s)

theorem lock_serializes (hprog : Disciplined prog) (h : Reachable prog mem₀ m) :
    Serialized prog mem₀ m := by
  obtain ⟨owner, hinv⟩ := h.inv hprog
  refine ⟨fun i j hi hj => ?_, fun i hi => ?_, ?_, fun i x hx a hcode => ?_,
    (h.keeps hprog).2, ?_⟩
  · rw [hinv.inside] at hi hj
    exact Option.some.inj (hi.symm.trans hj)
  · obtain ⟨x, hx, hheld⟩ := hi
    refine (((hinv.tidy i).masked x hx).resolve_left fun hopen => ?_).1
    rcases hopen with hp | hp
    · rw [hheld] at hp
      cases hp
    · rw [hheld] at hp
      cases hp
  · rw [hinv.locked, Option.isSome_iff_exists]
    exact exists_congr fun i => (hinv.inside i).symm
  · have hgood := (hinv.tidy i).good x hx
    have hsound := hgood.sound
    rw [hcode] at hsound
    obtain ⟨b, hb, hlog⟩ := hgood.effective (.inr (sound_ret hsound))
    rw [hcode, Code.value, Option.some.injEq] at hb
    exact hb ▸ hlog
  · obtain ⟨s, hreplay, hmem, -⟩ := hinv.serial
    refine ⟨s, hreplay, fun hfree => hmem ?_⟩
    rw [hinv.locked] at hfree
    exact Option.isSome_eq_false_iff.mp hfree |> Option.isNone_iff_eq_none.mp

theorem step_run (prog : ο → Code σ α) {flag : Bool} (hcpu : m.cpu i = ⟨flag, x :: rest⟩) :
    step prog m (.run i) = some (m.execute i x rest) := by
  unfold step
  dsimp only
  rw [hcpu]

/-- Code that comes to an end gives the lock back. -/
theorem run_critical (prog : ο → Code σ α) {k : Code σ α} {flag : Bool} {r : α × σ}
    (hcpu : m.cpu i = ⟨flag, x :: rest⟩)
    (hcode : x.code = k) (hend : k.critical m.mem = some r) :
    ∃ n m', run (step prog) m (List.replicate n (.run i)) = some m' ∧ m'.locked = false := by
  induction k generalizing m x flag with
  | load k ih =>
    have hnext : m.execute i x rest = m.put i flag ({ x with code := k m.mem } :: rest) := by
      unfold Machine.execute
      rw [hcode, hcpu]
    obtain ⟨n, m', hrun, hfree⟩ :=
      ih m.mem (m := m.execute i x rest) (by rw [hnext]; exact Function.update_self _ _ _) rfl
      (by rw [hnext]; exact hend)
    exact ⟨n + 1, m', by rw [List.replicate_succ, run, step_run prog hcpu]; exact hrun, hfree⟩
  | store f k ih =>
    have hnext :
        m.execute i x rest =
        { m.put i flag ({ x with code := k } :: rest) with mem := f m.mem } := by
      unfold Machine.execute
      rw [hcode, hcpu]
    obtain ⟨n, m', hrun, hfree⟩ :=
      ih (m := m.execute i x rest) (by rw [hnext]; exact Function.update_self _ _ _) rfl
      (by rw [hnext]; exact hend)
    exact ⟨n + 1, m', by rw [List.replicate_succ, run, step_run prog hcpu]; exact hrun, hfree⟩
  | irqSave k ih =>
    have hnext : m.execute i x rest = m.put i false
        ({ x with code := k, flags := flag :: x.flags,
                  phase := if x.phase = .start then .ready else x.phase } :: rest) := by
      unfold Machine.execute
      rw [hcode, hcpu]
    obtain ⟨n, m', hrun, hfree⟩ :=
      ih (m := m.execute i x rest) (by rw [hnext]; exact Function.update_self _ _ _) rfl
      (by rw [hnext]; exact hend)
    exact ⟨n + 1, m', by rw [List.replicate_succ, run, step_run prog hcpu]; exact hrun, hfree⟩
  | unlock k _ =>
    refine ⟨1, _, by rw [List.replicate_one, run, step_run prog hcpu]; rfl, ?_⟩
    unfold Machine.execute
    rw [hcode]
  | _ => cases hend

/-- A call that comes to an end on its own gives the lock back, when its processor goes on. -/
theorem lock_released (hprog : Disciplined prog) (h : Reachable prog mem₀ m)
    (hin : Inside (m.cpu i))
    (hend : ∀ x ∈ (m.cpu i).stack.head?, ∀ s, ((prog x.op).atomic s).isSome) :
    ∃ n m', run (step prog) m (List.replicate n (.run i)) = some m' ∧ m'.locked = false := by
  obtain ⟨owner, hinv⟩ := h.inv hprog
  obtain ⟨s, -, -, hcritical⟩ := hinv.serial
  rw [hinv.inside] at hin
  rcases hc : m.cpu i with ⟨flag, stack⟩
  cases stack with
  | nil =>
    obtain ⟨x, hx, -⟩ := (hinv.inside i).mpr hin
    rw [hc] at hx
    exact absurd hx (Option.not_mem_none x)
  | cons x rest =>
    have hx : x ∈ (m.cpu i).stack.head? := by
      rw [hc]
      rfl
    obtain ⟨r, hr⟩ := Option.isSome_iff_exists.mp (hend x hx s)
    exact run_critical prog hc rfl ((hcritical i hin x hx).trans hr)

/-- The call that runs on `i` has the lock and asks for it. -/
def Stuck (m : Machine ι ο σ α) (i : ι) : Prop :=
  ∃ x ∈ (m.cpu i).stack.head?, x.phase = .held ∧ x.code.asks

/-- The processors that are not inside leave the lock and the memory to the one that is. -/
theorem Inv.execute_other (h : Inv prog mem₀ m (some i)) {j : ι} (hj : j ≠ i) {flag : Bool}
    (hcpu : m.cpu j = ⟨flag, x :: rest⟩) :
    (m.execute j x rest).mem = m.mem ∧ (m.execute j x rest).locked = true ∧
      (m.execute j x rest).cpu i = m.cpu i := by
  have htidy := h.tidy j
  rw [hcpu] at htidy
  have hsound := (htidy.good x List.mem_cons_self).sound
  have hlocked : m.locked = true := h.locked
  have hout : x.phase ≠ .held := by
    intro hheld
    have hinside : Inside (m.cpu j) := by
      rw [hcpu]
      exact inside_cons.mpr hheld
    exact hj (Option.some.inj ((h.inside j).mp hinside)).symm
  have hput : ∀ flag stack, (m.put j flag stack).cpu i = m.cpu i :=
    fun _ _ => Function.update_of_ne (Ne.symm hj) _ _
  unfold Machine.execute
  dsimp only
  cases hcode : x.code with
  | ret a => exact ⟨rfl, hlocked, hput _ _⟩
  | load k => exact ⟨rfl, hlocked, hput _ _⟩
  | store f k =>
    rw [hcode] at hsound
    exact absurd (sound_store hsound).1 hout
  | irqSave k => exact ⟨rfl, hlocked, hput _ _⟩
  | irqRestore k => exact ⟨rfl, hlocked, hput _ _⟩
  | bts k =>
    dsimp only
    rw [if_pos hlocked]
    exact ⟨rfl, hlocked, hput _ _⟩
  | pause k =>
    dsimp only
    rw [if_pos hlocked]
    exact ⟨rfl, hlocked, rfl⟩
  | unlock k =>
    rw [hcode] at hsound
    exact absurd (sound_unlock hsound).1 hout

/-- A call that asks for the lock that it has goes on asking. -/
theorem Stuck.execute (h : Stuck m i) {flag : Bool} (hcpu : m.cpu i = ⟨flag, x :: rest⟩)
    (hlocked : m.locked = true) :
    Stuck (m.execute i x rest) i ∧ (m.execute i x rest).mem = m.mem := by
  obtain ⟨y, hy, hheld, hasks⟩ := h
  rw [hcpu, Option.mem_def, List.head?_cons, Option.some.injEq] at hy
  subst hy
  have hput : ∀ {flag : Bool} {z : Ctx ο σ α}, z.phase = .held → z.code.asks →
      Stuck (m.put i flag (z :: rest)) i := by
    intro flag z hz hasks
    refine ⟨z, ?_, hz, hasks⟩
    change z ∈ (Function.update m.cpu i ⟨flag, z :: rest⟩ i).stack.head?
    rw [Function.update_self]
    rfl
  unfold Machine.execute
  dsimp only
  cases hcode : x.code with
  | irqSave k =>
    rw [hcode] at hasks
    dsimp only
    rw [hheld, if_neg Phase.noConfusion]
    exact ⟨hput rfl hasks, rfl⟩
  | bts k =>
    dsimp only
    rw [if_pos hlocked]
    exact ⟨hput hheld trivial, rfl⟩
  | pause k =>
    dsimp only
    rw [if_pos hlocked]
    refine ⟨⟨x, ?_, hheld, hasks⟩, rfl⟩
    rw [hcpu]
    rfl
  | _ =>
    rw [hcode] at hasks
    exact False.elim hasks

/-- No step helps it. -/
theorem Stuck.event (h : Stuck m i) (hinv : Inv prog mem₀ m (some i)) (hprog : Disciplined prog)
    {e : Event ι ο}
    {m' : Machine ι ο σ α} (hstep : step prog m e = some m') :
    Stuck m' i ∧ Inv prog mem₀ m' (some i) ∧ m'.mem = m.mem := by
  have hlocked : m.locked = true := hinv.locked
  have hsame : (m'.cpu i = m.cpu i ∨ Stuck m' i) ∧ m'.mem = m.mem := by
    have hother : ∀ {j : ι} {c : Cpu ο σ α}, j ≠ i → Function.update m.cpu j c i = m.cpu i :=
      fun hj => Function.update_of_ne (Ne.symm hj) _ _
    have hne : ∀ {j : ι}, (m.cpu j).stack = [] → j ≠ i := by
      rintro j hempty rfl
      obtain ⟨x, hx, -⟩ := h
      rw [hempty] at hx
      exact absurd hx (Option.not_mem_none x)
    cases e with
    | call j o =>
      obtain ⟨hempty, hm⟩ := Option.ite_none_right_eq_some.mp hstep
      cases hm
      exact ⟨.inl (hother (hne (List.isEmpty_iff.mp hempty))), rfl⟩
    | mask j flag =>
      obtain ⟨hempty, hm⟩ := Option.ite_none_right_eq_some.mp hstep
      cases hm
      exact ⟨.inl (hother (hne (List.isEmpty_iff.mp hempty))), rfl⟩
    | interrupt j o =>
      obtain ⟨hflag, hm⟩ := Option.ite_none_right_eq_some.mp hstep
      cases hm
      refine ⟨.inl (hother ?_), rfl⟩
      rintro rfl
      obtain ⟨x, hx, hheld, -⟩ := h
      rcases (hinv.tidy j).masked x hx with hopen | hoff
      · rcases hopen with hp | hp
        · rw [hheld] at hp
          cases hp
        · rw [hheld] at hp
          cases hp
      · rw [hflag] at hoff
        cases hoff.1
    | run j =>
      unfold step at hstep
      dsimp only at hstep
      rcases hc : m.cpu j with ⟨flag, stack⟩
      rw [hc] at hstep
      cases stack with
      | nil => cases hstep
      | cons x rest =>
        cases hstep
        by_cases hj : j = i
        · subst hj
          obtain ⟨hstuck, hmem⟩ := h.execute hc hlocked
          exact ⟨.inr hstuck, hmem⟩
        · obtain ⟨hmem, -, hcpu⟩ := hinv.execute_other hj hc
          exact ⟨.inl hcpu, hmem⟩
  have hstuck : Stuck m' i := by
    rcases hsame.1 with hcpu | hstuck
    · obtain ⟨x, hx, hx'⟩ := h
      exact ⟨x, by rwa [hcpu], hx'⟩
    · exact hstuck
  obtain ⟨owner', hinv'⟩ := hinv.event hprog hstep
  have howner : owner' = some i := by
    rw [← hinv'.inside i]
    obtain ⟨x, hx, hheld, -⟩ := hstuck
    exact ⟨x, hx, hheld⟩
  exact ⟨hstuck, howner ▸ hinv', hsame.2⟩

/-- A call that asks for the lock that it has keeps the lock for ever, and no call uses the memory
any more. -/
theorem stuck_forever (hprog : Disciplined prog) (h : Reachable prog mem₀ m) (hstuck : Stuck m i)
    {m' : Machine ι ο σ α}
    (hrun : Reach (step prog) (fun _ _ => True) m m') :
    Stuck m' i ∧ m'.locked = true ∧ m'.mem = m.mem := by
  obtain ⟨owner, hinv⟩ := h.inv hprog
  have howner : owner = some i := by
    rw [← hinv.inside i]
    obtain ⟨x, hx, hheld, -⟩ := hstuck
    exact ⟨x, hx, hheld⟩
  subst howner
  have hkeep :=
    hrun.invariant (fun m' => Stuck m' i ∧ Inv prog mem₀ m' (some i) ∧ m'.mem = m.mem)
    ⟨hstuck, hinv, rfl⟩
    fun s e s' hs _ hstep => by
      obtain ⟨hstuck', hinv', hmem⟩ := hs.1.event hs.2.1 hprog hstep
      exact ⟨hstuck', hinv', hmem.trans hs.2.2⟩
  exact ⟨hkeep.1, hkeep.2.1.locked, hkeep.2.2⟩

end Lumin.Lib.SpinLock
