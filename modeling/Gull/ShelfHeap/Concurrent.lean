import Gull.ShelfHeap.Layout

/-! `NvHeapLayout::Alloc` run by any number of threads on one layout made by `Create`,
one shared-memory access at a time: `GetNextFree` (with the local computation and the
capacity check that follow it), `CASNextFree`, and `return`. The `goto retry` of a failed
compare-and-store sends the thread back to `GetNextFree`.

The state carries a ghost history. Each call is numbered when it starts; its invocation,
its linearization point and its response are recorded with their position in the history.
The linearization point of a call that returns `0` is its last `GetNextFree`; that of a call
that returns an offset is its successful `CASNextFree`. `Invariant` is what every reachable
state satisfies; `alloc_linearizable` reads the linearization off it, and
`returned_offset_aligned` the shape of every offset handed out. -/
namespace Gull.ShelfHeap.Concurrent

open Gull.ShelfHeap

/-- Where a thread is in `NvHeapLayout::Alloc`. A call carries its ghost number. -/
inductive Pc where
  /-- Not inside `Alloc`. -/
  | idle
  /-- At `retry:`; the next step is `GetNextFree`. -/
  | retry (call : Nat) (size : Word)
  /-- The check passed on `expected_next_free`; the next step is `CASNextFree`. -/
  | cas (call : Nat) (size expected desired : Word)
  /-- At `return ret`. -/
  | ret (call : Nat) (result : Word)
  deriving DecidableEq

/-- The call a thread is running. -/
def Pc.call? : Pc → Option Nat
  | .idle => none
  | .retry c _ | .cas c _ _ _ | .ret c _ => some c

/-- The ghost history: a call's invocation, its linearization point (with the `next_free`
it acted on) and its response, each stamped with its position in the history. -/
inductive Event where
  | invoke (call : Nat) (size : Word) (stamp : Nat)
  | lin (call : Nat) (size seen result : Word) (stamp : Nat)
  | respond (call : Nat) (result : Word) (stamp : Nat)
  deriving DecidableEq

def Event.call : Event → Nat
  | .invoke c _ _ | .lin c _ _ _ _ | .respond c _ _ => c

def Event.stamp : Event → Nat
  | .invoke _ _ t | .lin _ _ _ _ t | .respond _ _ t => t

/-- One call of the atomic `Alloc`: its request, the `next_free` it acted on, its result,
and when it took effect. -/
structure LinOp where
  call : Nat
  size : Word
  seen : Word
  result : Word
  stamp : Nat
  deriving DecidableEq

def Event.linOp? : Event → Option LinOp
  | .lin c size seen r t => some ⟨c, size, seen, r, t⟩
  | _ => none

/-- The linearization: the linearization points of the history, in history order. -/
def linearization (h : List Event) : List LinOp := h.filterMap Event.linOp?

/-- The events of one call, in history order. -/
def callEvents (h : List Event) (c : Nat) : List Event := h.filter fun e => e.call = c

/-- Running the atomic `Alloc` over `ops` from `next_free = n`: each op must act on the
`next_free` the atomic run has reached and return what the atomic step returns; the final
`next_free` is the result. -/
def replay (heapSize : Word) : Word → List LinOp → Option Word
  | n, [] => some n
  | n, op :: ops =>
    if op.seen = n ∧ (alloc heapSize n op.size).1 = op.result then
      replay heapSize (alloc heapSize n op.size).2 ops
    else none

/-- The shared `next_free`, every thread's place in `Alloc`, and the ghost call counter and
history. `heap_size` is fixed by `Create` and is a parameter of `step`. -/
structure State where
  nextFree : Word
  threads : Nat → Pc
  calls : Nat
  history : List Event

/-- One atomic step of one thread. -/
inductive Action where
  /-- A thread calls `Alloc(size)`. -/
  | alloc (thread : Nat) (size : Word)
  | getNextFree (thread : Nat)
  | casNextFree (thread : Nat)
  | ret (thread : Nat)

def State.setPc (s : State) (t : Nat) (p : Pc) : State :=
  { s with threads := Function.update s.threads t p }

/-- Appends an event stamped with the current length of the history. -/
def State.emit (s : State) (e : Nat → Event) : State :=
  { s with history := s.history ++ [e s.history.length] }

/-- `NvHeapLayout::Alloc`, one shared-memory access of thread `t`; `none` when `t` is not
at a point where it can take that step. -/
def step (heapSize : Word) (s : State) : Action → Option State
  | .alloc t size =>
    match s.threads t with
    | .idle =>
      some { (s.setPc t (.retry s.calls size)).emit (.invoke s.calls size) with calls := s.calls + 1 }
    | _ => none
  | .getNextFree t =>
    match s.threads t with
    | .retry c size =>
      if Exceeds heapSize (desiredNextFree s.nextFree size) then
        some ((s.setPc t (.ret c 0)).emit (.lin c size s.nextFree 0))
      else some (s.setPc t (.cas c size s.nextFree (desiredNextFree s.nextFree size)))
    | _ => none
  | .casNextFree t =>
    match s.threads t with
    | .cas c size expected desired =>
      if s.nextFree = expected then
        some { (s.setPc t (.ret c expected)).emit (.lin c size expected expected) with
          nextFree := desired }
      else some (s.setPc t (.retry c size))
    | _ => none
  | .ret t =>
    match s.threads t with
    | .ret c r => some ((s.setPc t .idle).emit (.respond c r))
    | _ => none

def run (heapSize : Word) (s : State) : List Action → Option State
  | [] => some s
  | a :: as => (step heapSize s a).bind fun s' => run heapSize s' as

/-- The layout as `Create` leaves it, with no thread inside `Alloc`. -/
def init : State where
  nextFree := kMetadataSize
  threads := fun _ => .idle
  calls := 0
  history := []

def Reachable (heap : HeapSize) (s : State) : Prop := ∃ acts, run heap init acts = some s

@[simp] theorem setPc_history (s : State) (t : Nat) (p : Pc) : (s.setPc t p).history = s.history := rfl
@[simp] theorem setPc_nextFree (s : State) (t : Nat) (p : Pc) : (s.setPc t p).nextFree = s.nextFree := rfl
@[simp] theorem setPc_calls (s : State) (t : Nat) (p : Pc) : (s.setPc t p).calls = s.calls := rfl
@[simp] theorem setPc_threads (s : State) (t : Nat) (p : Pc) :
    (s.setPc t p).threads = Function.update s.threads t p := rfl
@[simp] theorem emit_history (s : State) (e : Nat → Event) :
    (s.emit e).history = s.history ++ [e s.history.length] := rfl
@[simp] theorem emit_nextFree (s : State) (e : Nat → Event) : (s.emit e).nextFree = s.nextFree := rfl
@[simp] theorem emit_calls (s : State) (e : Nat → Event) : (s.emit e).calls = s.calls := rfl
@[simp] theorem emit_threads (s : State) (e : Nat → Event) : (s.emit e).threads = s.threads := rfl

/-- What one atomic step can do: the four statements of `Alloc`, each with the branch it
takes and the point of `Alloc` it needs. -/
theorem step_cases {heapSize : Word} {s s' : State} {a : Action}
    (stepped : step heapSize s a = some s') :
    (∃ t size, a = .alloc t size ∧ s.threads t = .idle ∧
      s' = { (s.setPc t (.retry s.calls size)).emit (.invoke s.calls size) with
        calls := s.calls + 1 }) ∨
    (∃ t c size, a = .getNextFree t ∧ s.threads t = .retry c size ∧
      Exceeds heapSize (desiredNextFree s.nextFree size) ∧
      s' = (s.setPc t (.ret c 0)).emit (.lin c size s.nextFree 0)) ∨
    (∃ t c size, a = .getNextFree t ∧ s.threads t = .retry c size ∧
      ¬ Exceeds heapSize (desiredNextFree s.nextFree size) ∧
      s' = s.setPc t (.cas c size s.nextFree (desiredNextFree s.nextFree size))) ∨
    (∃ t c size expected desired, a = .casNextFree t ∧
      s.threads t = .cas c size expected desired ∧ s.nextFree = expected ∧
      s' = { (s.setPc t (.ret c expected)).emit (.lin c size expected expected) with
        nextFree := desired }) ∨
    (∃ t c size expected desired, a = .casNextFree t ∧
      s.threads t = .cas c size expected desired ∧ s.nextFree ≠ expected ∧
      s' = s.setPc t (.retry c size)) ∨
    (∃ t c r, a = .ret t ∧ s.threads t = .ret c r ∧ s' = (s.setPc t .idle).emit (.respond c r)) := by
  cases a with
  | alloc t size =>
    simp only [step] at stepped
    split at stepped
    · cases stepped; exact .inl ⟨t, size, rfl, ‹_›, rfl⟩
    · cases stepped
  | getNextFree t =>
    simp only [step] at stepped
    split at stepped
    · rename_i c size retrying
      split at stepped <;> cases stepped
      · exact .inr (.inl ⟨t, c, size, rfl, retrying, ‹_›, rfl⟩)
      · exact .inr (.inr (.inl ⟨t, c, size, rfl, retrying, ‹_›, rfl⟩))
    · cases stepped
  | casNextFree t =>
    simp only [step] at stepped
    split at stepped
    · rename_i c size expected desired comparing
      split at stepped <;> cases stepped
      · exact .inr (.inr (.inr (.inl ⟨t, c, size, expected, desired, rfl, comparing, ‹_›, rfl⟩)))
      · exact .inr (.inr (.inr (.inr (.inl ⟨t, c, size, expected, desired, rfl, comparing, ‹_›,
          rfl⟩))))
    · cases stepped
  | ret t =>
    simp only [step] at stepped
    split at stepped
    · rename_i c r returning
      cases stepped
      exact .inr (.inr (.inr (.inr (.inr ⟨t, c, r, rfl, returning, rfl⟩))))
    · cases stepped

private theorem callEvents_append (h : List Event) (e : Event) (c : Nat) :
    callEvents (h ++ [e]) c = if e.call = c then callEvents h c ++ [e] else callEvents h c := by
  unfold callEvents
  split <;> simp_all

theorem linearization_append (h : List Event) (e : Event) :
    linearization (h ++ [e]) = linearization h ++ (e.linOp?).toList := by
  unfold linearization
  cases e <;> simp [Event.linOp?]

private theorem replay_append (heapSize n : Word) (ops : List LinOp) (op : LinOp) :
    replay heapSize n (ops ++ [op]) = (replay heapSize n ops).bind fun m => replay heapSize m [op] := by
  induction ops generalizing n with
  | nil => rfl
  | cons head rest ih =>
    simp only [List.cons_append, replay.eq_2]
    split
    · exact ih _
    · rfl

/-- A replay from a cursor in range stays in range and on a cache line, and every op acted
on such a cursor and returned `0` or that cursor. -/
theorem replay_cursor (heap : HeapSize) {n m : Word} {ops : List LinOp}
    (range : CursorInRange heap n) (aligned : 64 ∣ n.toNat) (done : replay heap n ops = some m) :
    CursorInRange heap m ∧ 64 ∣ m.toNat ∧
      ∀ op ∈ ops, CursorInRange heap op.seen ∧ 64 ∣ op.seen.toNat ∧
        (op.result = 0 ∨ op.result = op.seen) := by
  induction ops generalizing n with
  | nil => cases done; simp [range, aligned]
  | cons op rest ih =>
    simp only [replay] at done
    split at done
    · rename_i acts
      obtain ⟨seen, result⟩ := acts
      obtain ⟨range', aligned', returned⟩ := alloc_cursor heap op.size range aligned
      obtain ⟨last, lastAligned, later⟩ := ih range' aligned' done
      refine ⟨last, lastAligned, ?_⟩
      intro o member
      rcases List.mem_cons.mp member with rfl | member
      · rw [seen, ← result]
        exact ⟨range, aligned, returned⟩
      · exact later o member
    · cases done

/-! ## The invariant -/

/-- What the history holds of the call a thread is running, at each point of `Alloc`. -/
def PcOk (heapSize : Word) (h : List Event) : Pc → Prop
  | .idle => True
  | .retry c size => ∃ ti, callEvents h c = [.invoke c size ti]
  | .cas c size expected desired =>
    (∃ ti, callEvents h c = [.invoke c size ti]) ∧ desired = desiredNextFree expected size ∧
      ¬ Exceeds heapSize desired ∧ 64 ∣ expected.toNat
  | .ret c r => ∃ size ti seen tl, callEvents h c = [.invoke c size ti, .lin c size seen r tl]

/-- A call that returned: invoked, linearized and answered, in that order. -/
def Finished (h : List Event) (c : Nat) : Prop :=
  ∃ size ti seen r tl tr, callEvents h c = [.invoke c size ti, .lin c size seen r tl, .respond c r tr]

/-- What every reachable state satisfies. -/
structure Invariant (heap : HeapSize) (s : State) : Prop where
  stamped : ∀ e ∈ s.history, e.stamp < s.history.length
  ordered : s.history.Pairwise fun a b => a.stamp < b.stamp
  numbered : ∀ e ∈ s.history, e.call < s.calls
  running : ∀ t c, (s.threads t).call? = some c → c < s.calls
  exclusive : ∀ t t' c, (s.threads t).call? = some c → (s.threads t').call? = some c → t = t'
  threads : ∀ t, PcOk heap s.history (s.threads t)
  finished : ∀ c < s.calls, (∀ t, (s.threads t).call? ≠ some c) → Finished s.history c
  distinct : ((linearization s.history).map LinOp.call).Nodup
  replayed : replay heap kMetadataSize (linearization s.history) = some s.nextFree

theorem mem_linearization {h : List Event} {op : LinOp} :
    op ∈ linearization h ↔ .lin op.call op.size op.seen op.result op.stamp ∈ h := by
  unfold linearization
  rw [List.mem_filterMap]
  constructor
  · rintro ⟨e, member, found⟩
    cases e <;> simp only [Event.linOp?, Option.some.injEq, reduceCtorEq] at found
    subst found
    exact member
  · intro member
    exact ⟨_, member, rfl⟩

theorem mem_callEvents {h : List Event} {c : Nat} {e : Event} :
    e ∈ callEvents h c ↔ e ∈ h ∧ e.call = c := by
  simp [callEvents]

private theorem pcOk_append {heapSize : Word} {h : List Event} {p : Pc} {e : Event}
    (ok : PcOk heapSize h p) (other : ∀ c, p.call? = some c → e.call ≠ c) :
    PcOk heapSize (h ++ [e]) p := by
  cases p with
  | idle => trivial
  | retry c size => simpa [PcOk, callEvents_append, other c rfl] using ok
  | cas c size expected desired => simpa [PcOk, callEvents_append, other c rfl] using ok
  | ret c r => simpa [PcOk, callEvents_append, other c rfl] using ok

private theorem finished_append {h : List Event} {c : Nat} {e : Event} (done : Finished h c)
    (other : e.call ≠ c) : Finished (h ++ [e]) c := by
  simpa [Finished, callEvents_append, other] using done

private theorem call?_update (f : Nat → Pc) (t t' : Nat) (p : Pc) :
    (Function.update f t p t').call? = if t' = t then p.call? else (f t').call? := by
  by_cases same : t' = t
  · subst same; simp
  · simp [Function.update_noteq same, same]

private theorem stamps_append {h : List Event} (stamped : ∀ e ∈ h, e.stamp < h.length)
    (ordered : h.Pairwise fun a b => a.stamp < b.stamp) {e : Event} (now : e.stamp = h.length) :
    (∀ x ∈ h ++ [e], x.stamp < (h ++ [e]).length) ∧
      (h ++ [e]).Pairwise fun a b => a.stamp < b.stamp := by
  refine ⟨fun x member => ?_, List.pairwise_append.mpr ⟨ordered, by simp, ?_⟩⟩
  · rcases List.mem_append.mp member with old | new
    · have := stamped x old; simp; omega
    · rw [List.mem_singleton.mp new]; simp [now]
  · intro a old b new
    rw [List.mem_singleton.mp new, now]
    exact stamped a old

section Preservation

variable {heap : HeapSize} {s : State} {t : Nat}

/-- Calling `Alloc` starts a fresh call at `retry:`. -/
private theorem invariant_alloc (inv : Invariant heap s) (idle : s.threads t = .idle) (size : Word) :
    Invariant heap
      { (s.setPc t (.retry s.calls size)).emit (.invoke s.calls size) with calls := s.calls + 1 } := by
  obtain ⟨stamped, ordered⟩ :=
    stamps_append inv.stamped inv.ordered (e := .invoke s.calls size s.history.length) rfl
  have fresh : callEvents s.history s.calls = [] := List.filter_eq_nil_iff.mpr fun e member => by
    have := inv.numbered e member; simp only [decide_eq_true_eq]; omega
  have older : ∀ t' c, t' ≠ t → (s.threads t').call? = some c → c < s.calls :=
    fun t' c _ held => inv.running t' c held
  refine ⟨stamped, ordered, ?_, ?_, ?_, ?_, ?_, ?_, ?_⟩
  · intro e member
    rcases List.mem_append.mp member with old | new
    · have := inv.numbered e old; simp only; omega
    · rw [List.mem_singleton.mp new]; simp [Event.call]
  · intro t' c held
    simp only [setPc_threads, emit_threads, call?_update] at held
    split at held
    · cases held; simp
    · have := inv.running t' c held; simp only; omega
  · intro t1 t2 c held1 held2
    simp only [setPc_threads, emit_threads, call?_update] at held1 held2
    split at held1 <;> split at held2
    · rename_i same1 same2; rw [same1, same2]
    · cases held1; have := older _ _ (by assumption) held2; omega
    · cases held2; have := older _ _ (by assumption) held1; omega
    · exact inv.exclusive t1 t2 c held1 held2
  · intro t'
    simp only [setPc_threads, emit_threads, emit_history, setPc_history]
    by_cases same : t' = t
    · subst same
      simp only [Function.update_same, PcOk, callEvents_append, Event.call, if_true, fresh]
      exact ⟨_, rfl⟩
    · rw [Function.update_noteq same]
      apply pcOk_append (inv.threads t')
      intro c held
      have := older t' c same held
      simp only [Event.call]; omega
  · intro c bound free
    have other : c ≠ s.calls := by
      intro same
      have := free t
      simp [same, Pc.call?] at this
    have before : ∀ t', (s.threads t').call? ≠ some c := by
      intro t' held
      by_cases same : t' = t
      · subst same; rw [idle] at held; cases held
      · have := free t'
        simp only [setPc_threads, emit_threads, call?_update, same, if_false] at this
        exact this held
    exact finished_append (inv.finished c (by simp only at bound; omega) before)
      (by simp only [Event.call]; exact Ne.symm other)
  · simpa [linearization_append, Event.linOp?] using inv.distinct
  · simpa [linearization_append, Event.linOp?] using inv.replayed

/-- A thread that moves to another point of the same call, without touching the history,
keeps the invariant once its new point is described by the history. -/
private theorem invariant_setPc {c : Nat} (inv : Invariant heap s) (held : (s.threads t).call? = some c)
    {p : Pc} (same : p.call? = some c) (ok : PcOk heap s.history p) :
    Invariant heap (s.setPc t p) := by
  have holders : ∀ t', (Function.update s.threads t p t').call? = (s.threads t').call? := by
    intro t'
    rw [call?_update]
    split
    · rename_i now; rw [now, same, held]
    · rfl
  refine ⟨inv.stamped, inv.ordered, inv.numbered, ?_, ?_, ?_, ?_, inv.distinct, inv.replayed⟩
  · intro t' c' h; rw [setPc_threads, holders] at h; exact inv.running t' c' h
  · intro t1 t2 c' h1 h2
    rw [setPc_threads, holders] at h1 h2
    exact inv.exclusive t1 t2 c' h1 h2
  · intro t'
    by_cases now : t' = t
    · subst now; simpa using ok
    · simpa [Function.update_noteq now] using inv.threads t'
  · intro c' bound free
    exact inv.finished c' bound fun t' h => free t' (by rw [setPc_threads, holders]; exact h)

/-- The linearization point of a call at `retry:` or `cas`: the thread moves to `return` with
the atomic step's result, and the history records the point. -/
private theorem invariant_lin {c : Nat} {size seen result next : Word} {ti : Nat}
    (inv : Invariant heap s) (held : (s.threads t).call? = some c)
    (started : callEvents s.history c = [.invoke c size ti]) (now : seen = s.nextFree)
    (atomic : alloc heap seen size = (result, next)) :
    Invariant heap
      { (s.setPc t (.ret c result)).emit (.lin c size seen result) with nextFree := next } := by
  subst now
  obtain ⟨stamped, ordered⟩ :=
    stamps_append inv.stamped inv.ordered (e := .lin c size s.nextFree result s.history.length) rfl
  have holders : ∀ t', (Function.update s.threads t (.ret c result) t').call? =
      (s.threads t').call? := by
    intro t'
    rw [call?_update]
    split
    · rename_i now; rw [now, held]; rfl
    · rfl
  have unlinearized : c ∉ (linearization s.history).map LinOp.call := by
    intro member
    obtain ⟨op, inLin, rfl⟩ := List.mem_map.mp member
    have inCall : Event.lin op.call op.size op.seen op.result op.stamp ∈ callEvents s.history op.call :=
      mem_callEvents.mpr ⟨mem_linearization.mp inLin, rfl⟩
    rw [started] at inCall
    simp at inCall
  refine ⟨stamped, ordered, ?_, ?_, ?_, ?_, ?_, ?_, ?_⟩
  · intro e member
    rcases List.mem_append.mp member with old | new
    · exact inv.numbered e old
    · rw [List.mem_singleton.mp new]; exact inv.running t c held
  · intro t' c' h; simp only [setPc_threads, emit_threads, holders] at h; exact inv.running t' c' h
  · intro t1 t2 c' h1 h2
    simp only [setPc_threads, emit_threads, holders] at h1 h2
    exact inv.exclusive t1 t2 c' h1 h2
  · intro t'
    simp only [setPc_threads, emit_threads, emit_history, setPc_history]
    by_cases same : t' = t
    · subst same
      simp only [Function.update_same, PcOk, callEvents_append, Event.call, if_true, started]
      exact ⟨size, ti, s.nextFree, s.history.length, rfl⟩
    · rw [Function.update_noteq same]
      apply pcOk_append (inv.threads t')
      intro c' h' same'
      exact same (inv.exclusive t' t c' h' (same' ▸ held))
  · intro c' bound free
    have before : ∀ t', (s.threads t').call? ≠ some c' := fun t' h =>
      free t' (by simp only [setPc_threads, emit_threads, holders]; exact h)
    have other : c ≠ c' := fun same => before t (same ▸ held)
    exact finished_append (inv.finished c' bound before) other
  · simp only [emit_history, setPc_history, linearization_append, Event.linOp?, Option.toList,
      List.map_append, List.map_cons, List.map_nil]
    exact List.nodup_append.mpr ⟨inv.distinct, List.nodup_singleton _,
      fun a member other => by
        rw [List.mem_singleton.mp other] at member; exact unlinearized member⟩
  · simp only [emit_history, setPc_history, linearization_append, Event.linOp?, Option.toList,
      replay_append, inv.replayed, Option.some_bind, replay, atomic, and_self, if_true]

/-- `return ret`: the call is answered with the result fixed at its linearization point. -/
private theorem invariant_respond {c : Nat} {result : Word} (inv : Invariant heap s)
    (returning : s.threads t = .ret c result) :
    Invariant heap ((s.setPc t .idle).emit (.respond c result)) := by
  obtain ⟨stamped, ordered⟩ :=
    stamps_append inv.stamped inv.ordered (e := .respond c result s.history.length) rfl
  have held : (s.threads t).call? = some c := by rw [returning]; rfl
  have ok := inv.threads t
  rw [returning] at ok
  obtain ⟨size, ti, seen, tl, linearized⟩ := ok
  have holders : ∀ t', (Function.update s.threads t .idle t').call? =
      if t' = t then none else (s.threads t').call? := fun t' => call?_update _ _ _ _
  refine ⟨stamped, ordered, ?_, ?_, ?_, ?_, ?_, ?_, ?_⟩
  · intro e member
    rcases List.mem_append.mp member with old | new
    · exact inv.numbered e old
    · rw [List.mem_singleton.mp new]; exact inv.running t c held
  · intro t' c' h
    simp only [setPc_threads, emit_threads, holders] at h
    split at h
    · cases h
    · exact inv.running t' c' h
  · intro t1 t2 c' h1 h2
    simp only [setPc_threads, emit_threads, holders] at h1 h2
    split at h1
    · cases h1
    · split at h2
      · cases h2
      · exact inv.exclusive t1 t2 c' h1 h2
  · intro t'
    simp only [setPc_threads, emit_threads, emit_history, setPc_history]
    by_cases same : t' = t
    · subst same; simp [PcOk]
    · rw [Function.update_noteq same]
      apply pcOk_append (inv.threads t')
      intro c' h' same'
      exact same (inv.exclusive t' t c' h' (same' ▸ held))
  · intro c' bound free
    simp only [emit_history, setPc_history]
    by_cases mine : c' = c
    · subst mine
      exact ⟨size, ti, seen, result, tl, s.history.length,
        by simp [callEvents_append, Event.call, linearized]⟩
    · have before : ∀ t', (s.threads t').call? ≠ some c' := by
        intro t' h
        by_cases same : t' = t
        · subst same; rw [held] at h; exact mine (Option.some.inj h).symm
        · have := free t'
          simp only [emit_threads, setPc_threads, holders, same, if_false] at this
          exact this h
      exact finished_append (inv.finished c' bound before) (Ne.symm mine)
  · simpa [linearization_append, Event.linOp?] using inv.distinct
  · simpa [linearization_append, Event.linOp?] using inv.replayed

end Preservation

/-- The cursor of a reachable state, and every linearization point, lie in range and on a
cache line, wrap or not. -/
theorem Invariant.cursor {heap : HeapSize} {s : State} (inv : Invariant heap s) :
    CursorInRange heap s.nextFree ∧ 64 ∣ s.nextFree.toNat ∧
      ∀ op ∈ linearization s.history, CursorInRange heap op.seen ∧ 64 ∣ op.seen.toNat ∧
        (op.result = 0 ∨ op.result = op.seen) :=
  replay_cursor heap ⟨le_refl _, Nat.le_add_right _ _⟩ (by decide) inv.replayed

theorem invariant_init (heap : HeapSize) : Invariant heap init := by
  refine ⟨?_, ?_, ?_, ?_, ?_, ?_, ?_, ?_, ?_⟩ <;> simp [init, Pc.call?, PcOk, linearization, replay]

theorem Invariant.pcOk {heap : HeapSize} {s : State} (inv : Invariant heap s) {t : Nat} {p : Pc}
    (at_t : s.threads t = p) : PcOk heap s.history p :=
  at_t ▸ inv.threads t

/-- Every atomic step keeps the invariant. -/
theorem step_invariant {heap : HeapSize} {s s' : State} {a : Action} (inv : Invariant heap s)
    (stepped : step heap s a = some s') : Invariant heap s' := by
  rcases step_cases stepped with
    ⟨t, size, -, idle, rfl⟩ | ⟨t, c, size, -, retrying, over, rfl⟩ |
    ⟨t, c, size, -, retrying, within, rfl⟩ |
    ⟨t, c, size, expected, desired, -, comparing, found, rfl⟩ |
    ⟨t, c, size, expected, desired, -, comparing, -, rfl⟩ | ⟨t, c, r, -, returning, rfl⟩
  · exact invariant_alloc inv idle size
  · obtain ⟨ti, started⟩ := inv.pcOk retrying
    exact invariant_lin inv (congrArg Pc.call? retrying) started rfl (by simp [alloc, over])
  · obtain ⟨ti, started⟩ := inv.pcOk retrying
    exact invariant_setPc inv (congrArg Pc.call? retrying) rfl
      ⟨⟨ti, started⟩, rfl, within, inv.cursor.2.1⟩
  · obtain ⟨⟨ti, started⟩, rfl, within, -⟩ := inv.pcOk comparing
    exact invariant_lin inv (congrArg Pc.call? comparing) started found.symm
      (by simp [alloc, within])
  · obtain ⟨⟨ti, started⟩, -⟩ := inv.pcOk comparing
    exact invariant_setPc inv (congrArg Pc.call? comparing) rfl ⟨ti, started⟩
  · exact invariant_respond inv returning

theorem run_invariant {heap : HeapSize} {s s' : State} {acts : List Action}
    (inv : Invariant heap s) (done : run heap s acts = some s') : Invariant heap s' := by
  induction acts generalizing s with
  | nil => cases done; exact inv
  | cons a rest ih =>
    obtain ⟨mid, stepped, done⟩ := Option.bind_eq_some.mp done
    exact ih (step_invariant inv stepped) done

theorem reachable_invariant {heap : HeapSize} {s : State} (reach : Reachable heap s) :
    Invariant heap s :=
  let ⟨_, done⟩ := reach
  run_invariant (invariant_init heap) done

/-! ## Linearizability -/

private theorem replay_results {heapSize n m : Word} {ops : List LinOp}
    (done : replay heapSize n ops = some m) :
    ∀ op ∈ ops, (alloc heapSize op.seen op.size).1 = op.result := by
  induction ops generalizing n with
  | nil => simp
  | cons op rest ih =>
    simp only [replay] at done
    split at done
    · rename_i acts
      intro o member
      rcases List.mem_cons.mp member with rfl | member
      · rw [acts.1]; exact acts.2
      · exact ih done o member
    · cases done

variable {heap : HeapSize} {s : State}

/-- A call with an event in the history is running, or has finished. -/
private theorem Invariant.running_or_finished (inv : Invariant heap s) (c : Nat) {e : Event}
    (member : e ∈ s.history) (mine : e.call = c) :
    (∃ t, (s.threads t).call? = some c) ∨ Finished s.history c := by
  by_cases held : ∃ t, (s.threads t).call? = some c
  · exact .inl held
  · exact .inr (inv.finished _ (mine ▸ inv.numbered e member) fun t h => held ⟨t, h⟩)

/-- The history of a call that is running: invoked, and linearized once it is returning. -/
private theorem Invariant.running_events (inv : Invariant heap s) {t c : Nat}
    (held : (s.threads t).call? = some c) :
    ∃ size ti, callEvents s.history c = [.invoke c size ti] ∨
      ∃ seen r tl, callEvents s.history c = [.invoke c size ti, .lin c size seen r tl] ∧
        s.threads t = .ret c r := by
  have ok := inv.threads t
  revert held ok
  cases s.threads t with
  | idle => intro held; cases held
  | retry c' size =>
    rintro ⟨⟩ ⟨ti, started⟩; exact ⟨size, ti, .inl started⟩
  | cas c' size expected desired =>
    rintro ⟨⟩ ⟨⟨ti, started⟩, -⟩; exact ⟨size, ti, .inl started⟩
  | ret c' r =>
    rintro ⟨⟩ ⟨size, ti, seen, tl, linearized⟩
    exact ⟨size, ti, .inr ⟨seen, r, tl, linearized, rfl⟩⟩

private theorem Invariant.callEvents_ordered (inv : Invariant heap s) (c : Nat) :
    (callEvents s.history c).Pairwise fun a b => a.stamp < b.stamp :=
  inv.ordered.sublist (List.filter_sublist _)

/-- A call that was answered went through its invocation and its linearization point, in
that order, and was answered with the result fixed there. -/
theorem Invariant.responded (inv : Invariant heap s) {c : Nat} {r : Word} {tr : Nat}
    (answered : .respond c r tr ∈ s.history) :
    ∃ size ti seen tl,
      callEvents s.history c = [.invoke c size ti, .lin c size seen r tl, .respond c r tr] ∧
        ti < tl ∧ tl < tr := by
  have mine : Event.respond c r tr ∈ callEvents s.history c := mem_callEvents.mpr ⟨answered, rfl⟩
  have ordered := inv.callEvents_ordered c
  rcases inv.running_or_finished c answered rfl with
    ⟨t, held⟩ | ⟨size, ti, seen, r', tl, tr', events⟩
  · obtain ⟨size, ti, events⟩ := inv.running_events held
    rcases events with events | ⟨seen, r', tl, events, -⟩ <;> rw [events] at mine <;> simp at mine
  · rw [events] at mine ordered
    simp only [List.mem_cons, reduceCtorEq, Event.respond.injEq, List.mem_singleton,
      false_or, List.not_mem_nil, or_false] at mine
    obtain ⟨-, rfl, rfl⟩ := mine
    simp [Event.stamp] at ordered
    exact ⟨size, ti, seen, tl, events, ordered.1.1, ordered.2⟩

/-- A linearization point belongs to a call that is returning its result or has returned
it, and comes after the call's invocation. -/
theorem Invariant.linearized (inv : Invariant heap s) {op : LinOp}
    (member : op ∈ linearization s.history) :
    ∃ size ti, ti < op.stamp ∧ .invoke op.call size ti ∈ s.history ∧
      ((∃ tr, op.stamp < tr ∧ .respond op.call op.result tr ∈ s.history) ∨
        ∃ t, s.threads t = .ret op.call op.result) := by
  have event := mem_linearization.mp member
  have mine : Event.lin op.call op.size op.seen op.result op.stamp ∈ callEvents s.history op.call :=
    mem_callEvents.mpr ⟨event, rfl⟩
  have ordered := inv.callEvents_ordered op.call
  have recorded {e : Event} (inCall : e ∈ callEvents s.history op.call) : e ∈ s.history :=
    (mem_callEvents.mp inCall).1
  rcases inv.running_or_finished op.call event rfl with
    ⟨t, held⟩ | ⟨size, ti, seen, r, tl, tr, events⟩
  · obtain ⟨size, ti, events⟩ := inv.running_events held
    rcases events with events | ⟨seen, r, tl, events, returning⟩
    · rw [events] at mine; simp at mine
    · rw [events] at mine ordered recorded
      simp only [List.mem_cons, reduceCtorEq, Event.lin.injEq, List.mem_singleton, false_or,
        List.not_mem_nil, or_false] at mine
      obtain ⟨-, rfl, rfl, rfl, rfl⟩ := mine
      simp [Event.stamp] at ordered
      exact ⟨op.size, ti, ordered, recorded (by simp), .inr ⟨t, returning⟩⟩
  · rw [events] at mine ordered recorded
    simp only [List.mem_cons, reduceCtorEq, Event.lin.injEq, List.mem_singleton, false_or,
      List.not_mem_nil, or_false] at mine
    obtain ⟨-, rfl, rfl, rfl, rfl⟩ := mine
    simp [Event.stamp] at ordered
    exact ⟨op.size, ti, ordered.1.1, recorded (by simp), .inl ⟨tr, ordered.2, recorded (by simp)⟩⟩

/-- The events of a call with an event in the history: its invocation, then its
linearization point once it has one, then its response once it has one. -/
private theorem Invariant.shape (inv : Invariant heap s) (c : Nat) {e : Event} (member : e ∈ s.history)
    (mine : e.call = c) :
    ∃ size ti, callEvents s.history c = [.invoke c size ti] ∨
      (∃ seen r tl, callEvents s.history c = [.invoke c size ti, .lin c size seen r tl]) ∨
      ∃ seen r tl tr, callEvents s.history c =
        [.invoke c size ti, .lin c size seen r tl, .respond c r tr] := by
  rcases inv.running_or_finished c member mine with ⟨t, held⟩ | ⟨size, ti, seen, r, tl, tr, events⟩
  · obtain ⟨size, ti, events | ⟨seen, r, tl, events, -⟩⟩ := inv.running_events held
    · exact ⟨size, ti, .inl events⟩
    · exact ⟨size, ti, .inr (.inl ⟨seen, r, tl, events⟩)⟩
  · exact ⟨size, ti, .inr (.inr ⟨seen, r, tl, tr, events⟩)⟩

private theorem Invariant.invoke_before_lin (inv : Invariant heap s) {c ti tl : Nat} {size size' seen r : Word}
    (invoked : .invoke c size ti ∈ s.history) (linearized : .lin c size' seen r tl ∈ s.history) :
    ti < tl := by
  have ordered := inv.callEvents_ordered c
  have first : Event.invoke c size ti ∈ callEvents s.history c := mem_callEvents.mpr ⟨invoked, rfl⟩
  have second : Event.lin c size' seen r tl ∈ callEvents s.history c :=
    mem_callEvents.mpr ⟨linearized, rfl⟩
  obtain ⟨size, ti, events | ⟨seen, r, tl, events⟩ | ⟨seen, r, tl, tr, events⟩⟩ :=
    inv.shape c invoked rfl
  all_goals
    rw [events] at ordered first second
    simp [Event.stamp] at ordered first second
  all_goals omega

private theorem Invariant.lin_before_respond (inv : Invariant heap s) {c tl tr : Nat} {size seen r r' : Word}
    (linearized : .lin c size seen r tl ∈ s.history) (answered : .respond c r' tr ∈ s.history) :
    tl < tr := by
  have ordered := inv.callEvents_ordered c
  have first : Event.lin c size seen r tl ∈ callEvents s.history c :=
    mem_callEvents.mpr ⟨linearized, rfl⟩
  have second : Event.respond c r' tr ∈ callEvents s.history c := mem_callEvents.mpr ⟨answered, rfl⟩
  obtain ⟨size, ti, events | ⟨seen, r, tl, events⟩ | ⟨seen, r, tl, tr, events⟩⟩ :=
    inv.shape c answered rfl
  all_goals
    rw [events] at ordered first second
    simp [Event.stamp] at ordered first second
  all_goals omega

/-- The order of linearization points explains the state by the atomic `Alloc`:
`replay`ed from the `next_free` `Create` leaves it acts on the `next_free` each op saw,
returns what each call returned, and ends at the current `next_free`. -/
structure Linearizable (heap : HeapSize) (s : State) : Prop where
  /-- The order is the order of time and names each call once. -/
  ordered : (linearization s.history).Pairwise fun a b => a.stamp < b.stamp ∧ a.call ≠ b.call
  /-- Running the atomic `Alloc` in that order reproduces every result and `next_free`. -/
  legal : replay heap kMetadataSize (linearization s.history) = some s.nextFree
  /-- Every call that returned is in the order with the result it returned, between its
  invocation and its response. -/
  complete : ∀ c r tr, .respond c r tr ∈ s.history → ∃ size ti seen tl,
    .invoke c size ti ∈ s.history ∧ ⟨c, size, seen, r, tl⟩ ∈ linearization s.history ∧
      ti < tl ∧ tl < tr
  /-- Every other call in the order is at `return ret` with the result it will return. -/
  pending : ∀ op ∈ linearization s.history,
    (∃ tr, .respond op.call op.result tr ∈ s.history) ∨ ∃ t, s.threads t = .ret op.call op.result
  /-- A call answered before another was invoked comes first. -/
  realTime : ∀ a ∈ linearization s.history, ∀ b ∈ linearization s.history,
    ∀ r tr size ti, .respond a.call r tr ∈ s.history → .invoke b.call size ti ∈ s.history →
      tr < ti → a.stamp < b.stamp
  /-- A call returns `0` only when its last `GetNextFree` left too little space. -/
  refusals : ∀ op ∈ linearization s.history, op.result = 0 →
    Exceeds heap (desiredNextFree op.seen op.size)

theorem Invariant.linearizable {heap : HeapSize} {s : State} (inv : Invariant heap s) :
    Linearizable heap s := by
  have stampsOrdered : (linearization s.history).Pairwise fun a b => a.stamp < b.stamp :=
    List.Pairwise.filterMap _ (fun a b order x xa y yb => by
      cases a <;> cases b <;> simp only [Event.linOp?, Option.mem_def, reduceCtorEq,
        Option.some.injEq] at xa yb
      subst xa yb
      exact order) inv.ordered
  refine ⟨?_, inv.replayed, ?_, ?_, ?_, ?_⟩
  · refine (stampsOrdered.and (List.pairwise_map.mp inv.distinct)).imp fun order => order
  · intro c r tr answered
    obtain ⟨size, ti, seen, tl, events, early, late⟩ := inv.responded answered
    have recorded {e : Event} (inCall : e ∈ callEvents s.history c) : e ∈ s.history :=
      (mem_callEvents.mp inCall).1
    rw [events] at recorded
    exact ⟨size, ti, seen, tl, recorded (by simp),
      mem_linearization.mpr (recorded (by simp)), early, late⟩
  · intro op member
    obtain ⟨-, -, -, -, answered | returning⟩ := inv.linearized member
    · obtain ⟨tr, -, answered⟩ := answered; exact .inl ⟨tr, answered⟩
    · exact .inr returning
  · intro a inA b inB r tr size ti answered invoked early
    have first := inv.lin_before_respond (mem_linearization.mp inA) answered
    have last := inv.invoke_before_lin invoked (mem_linearization.mp inB)
    omega
  · intro op member zero
    obtain ⟨-, -, cursors⟩ := inv.cursor
    obtain ⟨range, -, -⟩ := cursors op member
    have returned := replay_results inv.replayed op member
    rw [zero] at returned
    unfold alloc at returned
    split at returned
    · assumption
    · rename_i within
      rw [word_eq_zero_iff] at returned
      unfold CursorInRange at range
      simp only [kMetadataSize_toNat] at range returned
      omega

/-- Every offset a call returned is `0`, or a cursor in range on a cache line. -/
theorem Invariant.returned (inv : Invariant heap s) {c tr : Nat} {o : Word}
    (answered : .respond c o tr ∈ s.history) :
    o = 0 ∨ (CursorInRange heap o ∧ 64 ∣ o.toNat) := by
  obtain ⟨size, ti, seen, tl, events, -⟩ := inv.responded answered
  have linearized : Event.lin c size seen o tl ∈ s.history :=
    (mem_callEvents.mp (by rw [events]; simp)).1
  obtain ⟨range, aligned, zero | same⟩ :=
    inv.cursor.2.2 ⟨c, size, seen, o, tl⟩ (mem_linearization.mpr linearized)
  · exact .inl zero
  · dsimp only at same range aligned
    subst same
    exact .inr ⟨range, aligned⟩

/-- **`Alloc` is linearizable.** In every state that any interleaving of any number of
threads' `Alloc` steps reaches from `Create`, the order of the linearization points is an
order of the calls, consistent with real time, in which the atomic `Alloc` of the 64-bit
code returns what every call returned and ends at the current `next_free`. -/
theorem alloc_linearizable {heap : HeapSize} {s : State} (reach : Reachable heap s) :
    Linearizable heap s :=
  (reachable_invariant reach).linearizable

/-- A heap of 1 MiB. -/
def oneMiB : HeapSize := ⟨1048576, by decide, by decide⟩

/-- Two threads race for the first line: thread 1 loads, thread 0 takes the line, and
thread 1's compare-and-store fails, so it goes back to `retry:` and takes the next line. -/
def raced : List Action :=
  [.alloc 0 64, .alloc 1 64, .getNextFree 1, .getNextFree 0, .casNextFree 0, .casNextFree 1,
    .getNextFree 1, .casNextFree 1, .ret 1, .ret 0]

theorem alloc_linearizable_after_race :
    Reachable oneMiB ((run oneMiB init raced).getD init) ∧
      Linearizable oneMiB ((run oneMiB init raced).getD init) :=
  ⟨⟨raced, rfl⟩, alloc_linearizable ⟨raced, rfl⟩⟩

/-- The wrap of `alloc_wraps_below_cursor` in a run of one thread: after `Alloc(64)`,
`Alloc(2^64 - 64)` is handed `256` and moves `next_free` back to `192`, and the next
`Alloc(64)` is handed `192`, the block of the first call. -/
theorem alloc_hands_out_block_twice :
    (run oneMiB init [.alloc 0 64, .getNextFree 0, .casNextFree 0, .ret 0,
        .alloc 0 (-64), .getNextFree 0, .casNextFree 0, .ret 0,
        .alloc 0 64, .getNextFree 0, .casNextFree 0, .ret 0]).map (fun s => (s.nextFree, s.history)) =
      some (256, [.invoke 0 64 0, .lin 0 64 192 192 1, .respond 0 192 2,
        .invoke 1 (-64) 3, .lin 1 (-64) 256 256 4, .respond 1 256 5,
        .invoke 2 64 6, .lin 2 64 192 192 7, .respond 2 192 8]) := by
  decide

end Gull.ShelfHeap.Concurrent
