import Gull.ShelfHeap.Concurrent

/-! How often a call of `NvHeapLayout::Alloc` passes `retry:`. `Counted` runs the interleaving
model of `Concurrent` with a ghost counter per call: how many times the call has run
`GetNextFree`, the first statement of its retry loop, and the `next_free` its last one loaded.
`countedRun_state` says the counters change nothing else.

A failed `CASNextFree` needs another call's successful one since the load, and without a wrap
a successful one only raises `next_free`, by whole cache lines. Each pass after the first then
starts at least a line higher, inside `[kMetadataSize, kMetadataSize + heap_size]`, so a call
passes `retry:` at most `heap_size / kCacheLineSize + 1` times (`retries_bounded`). The 64-bit
check lets a request wrap `desired_next_free` and move `next_free` down
(`alloc_wraps_below_cursor`); then another thread can alternate two requests and make a call
fail its compare-and-store any number of times (`overtaken`, `alloc_retries_unbounded`). -/
namespace Gull.ShelfHeap.Concurrent

/-- The interleaving state with, for every call, the number of `GetNextFree`s it has run and
the `next_free` its last one returned. -/
structure Counted where
  state : State
  loads : Nat → Nat
  last : Nat → Word

/-- The call whose `GetNextFree` the action is, in state `s`. -/
def loadingCall (s : State) : Action → Option Nat
  | .getNextFree t =>
    match s.threads t with
    | .retry c _ => some c
    | _ => none
  | _ => none

/-- The counters after a step to `s'`: when the step is a call's `GetNextFree`, that call has
one more load, and its last load is the current `next_free`. -/
def Counted.record (k : Counted) (s' : State) : Option Nat → Counted
  | some c => ⟨s', Function.update k.loads c (k.loads c + 1),
      Function.update k.last c k.state.nextFree⟩
  | none => ⟨s', k.loads, k.last⟩

/-- One atomic step of `step`, counting the loads of `next_free`. -/
def countedStep (heapSize : Word) (k : Counted) (a : Action) : Option Counted :=
  (step heapSize k.state a).map fun s' => k.record s' (loadingCall k.state a)

def countedRun (heapSize : Word) (k : Counted) : List Action → Option Counted
  | [] => some k
  | a :: as => (countedStep heapSize k a).bind fun k' => countedRun heapSize k' as

/-- `Create`'s layout, before any call has loaded anything. -/
def Counted.init : Counted := ⟨Concurrent.init, fun _ => 0, fun _ => 0⟩

@[simp] theorem record_state (k : Counted) (s' : State) (loader : Option Nat) :
    (k.record s' loader).state = s' := by
  cases loader <;> rfl

private theorem countedStep_state (heapSize : Word) (k : Counted) (a : Action) :
    (countedStep heapSize k a).map Counted.state = step heapSize k.state a := by
  simp [countedStep, Option.map_map, Function.comp_def]

/-- The counters are ghost state: a counted run is a run of the model. -/
theorem countedRun_state (heapSize : Word) (k : Counted) (acts : List Action) :
    (countedRun heapSize k acts).map Counted.state = run heapSize k.state acts := by
  induction acts generalizing k with
  | nil => rfl
  | cons a as ih =>
    rw [countedRun, run, ← countedStep_state, Option.map_bind, Option.bind_map]
    exact congrArg _ (funext ih)

private theorem countedRun_append (heapSize : Word) (k : Counted) (xs ys : List Action) :
    countedRun heapSize k (xs ++ ys) =
      (countedRun heapSize k xs).bind fun k' => countedRun heapSize k' ys := by
  induction xs generalizing k with
  | nil => rfl
  | cons a as ih =>
    simp only [List.cons_append, countedRun, Option.bind_assoc]
    exact congrArg _ (funext ih)

private theorem loadingCall_getNextFree {s : State} {t c : Nat} {size : Word}
    (retrying : s.threads t = .retry c size) : loadingCall s (.getNextFree t) = some c := by
  simp [loadingCall, retrying]

/-! ## The bound without a wrap -/

/-- A request whose cache-line ceiling, added to any cursor in range, stays below `2^64`: no
`desired_next_free` it computes wraps. -/
def Unwrapped (heap : HeapSize) (size : Word) : Prop :=
  kMetadataSize.toNat + heap.val.toNat + lineCeil size.toNat < 2 ^ 64

instance (heap : HeapSize) (size : Word) : Decidable (Unwrapped heap size) :=
  inferInstanceAs (Decidable (_ < _))

/-- Call `c`'s last load is at least a cache line above the header per load before it. -/
def Climbed (k : Counted) (c : Nat) : Prop :=
  kMetadataSize.toNat + 64 * (k.loads c - 1) ≤ (k.last c).toNat

/-- What the counters say of the call a thread is running, at each point of `Alloc`: its
request does not wrap; back at `retry:` after a failed compare-and-store, `next_free` is at
least a line above the call's last load; at `CASNextFree` the call compares against its last
load, and `next_free` is not below it. -/
def Climbing (heap : HeapSize) (k : Counted) : Pc → Prop
  | .idle | .ret _ _ => True
  | .retry c size => Unwrapped heap size ∧
      (k.loads c = 0 ∨ (k.last c).toNat + 64 ≤ k.state.nextFree.toNat ∧ Climbed k c)
  | .cas c size expected _ => Unwrapped heap size ∧ expected = k.last c ∧
      expected.toNat ≤ k.state.nextFree.toNat ∧ 0 < k.loads c ∧ Climbed k c

/-- What a counted run satisfies while no request wraps. -/
structure Bounded (heap : HeapSize) (k : Counted) : Prop where
  inv : Invariant heap k.state
  fresh : ∀ c, k.state.calls ≤ c → k.loads c = 0
  loads_le : ∀ c, k.loads c ≤ heap.val.toNat / 64 + 1
  threads : ∀ t, Climbing heap k (k.state.threads t)

private theorem Bounded.climbing {heap : HeapSize} {k : Counted} (b : Bounded heap k) {t : Nat} {p : Pc}
    (at_t : k.state.threads t = p) : Climbing heap k p :=
  at_t ▸ b.threads t

/-- `Climbing` survives other threads' steps: they leave the call's counters alone and, without
a wrap, do not lower `next_free`. -/
theorem Climbing.frame {heap : HeapSize} {k k' : Counted} {p : Pc} (ok : Climbing heap k p)
    (counters : ∀ c, p.call? = some c → k'.loads c = k.loads c ∧ k'.last c = k.last c)
    (rises : k.state.nextFree.toNat ≤ k'.state.nextFree.toNat) : Climbing heap k' p := by
  cases p with
  | idle | ret => trivial
  | retry c size =>
    obtain ⟨loads, last⟩ := counters c rfl
    simp only [Climbing, Climbed, loads, last] at ok ⊢
    exact ⟨ok.1, ok.2.imp_right fun ⟨above, climbed⟩ => ⟨above.trans rises, climbed⟩⟩
  | cas c size expected desired =>
    obtain ⟨loads, last⟩ := counters c rfl
    simp only [Climbing, Climbed, loads, last] at ok ⊢
    exact ⟨ok.1, ok.2.1, ok.2.2.1.trans rises, ok.2.2.2⟩

section Steps

variable {heap : HeapSize} {k : Counted} {s' : State} {t : Nat} {p : Pc}

/-- A step that loads nothing: thread `t` moves to `p`, `next_free` does not fall, and calls
only start. -/
private theorem bounded_quiet (b : Bounded heap k) (inv : Invariant heap s')
    (threads : s'.threads = Function.update k.state.threads t p)
    (rises : k.state.nextFree.toNat ≤ s'.nextFree.toNat) (calls : k.state.calls ≤ s'.calls)
    (moved : Climbing heap (k.record s' none) p) : Bounded heap (k.record s' none) := by
  refine ⟨inv, fun c late => b.fresh c (calls.trans late), b.loads_le, fun t' => ?_⟩
  rw [record_state, threads]
  by_cases same : t' = t
  · subst same; rwa [Function.update_same]
  · rw [Function.update_noteq same]
    exact (b.threads t').frame (fun _ _ => ⟨rfl, rfl⟩) rises

/-- The load of thread `t`, at `retry:` in call `c`: the thread moves to `p`, and only `c`'s
counters change. -/
private theorem bounded_load {c : Nat} {size : Word} (b : Bounded heap k) (inv : Invariant heap s')
    (retrying : k.state.threads t = .retry c size)
    (threads : s'.threads = Function.update k.state.threads t p)
    (same : s'.nextFree = k.state.nextFree) (calls : s'.calls = k.state.calls)
    (moved : Climbing heap (k.record s' (some c)) p) : Bounded heap (k.record s' (some c)) := by
  have held : (k.state.threads t).call? = some c := by rw [retrying]; rfl
  have started := b.inv.running t c held
  have ok := b.climbing retrying
  obtain ⟨⟨low, high⟩, -⟩ := b.inv.cursor
  refine ⟨inv, fun c' late => ?_, fun c' => ?_, fun t' => ?_⟩
  · have other : c' ≠ c := by rw [record_state, calls] at late; omega
    simp [Counted.record, other, b.fresh c' (by rw [record_state, calls] at late; exact late)]
  · by_cases mine : c' = c
    · subst mine
      simp only [Counted.record, Function.update_same]
      obtain ⟨-, first | ⟨above, climbed⟩⟩ := ok
      · omega
      · unfold Climbed at climbed; omega
    · simp [Counted.record, mine, b.loads_le c']
  · rw [record_state, threads]
    by_cases now : t' = t
    · subst now; rwa [Function.update_same]
    · rw [Function.update_noteq now]
      refine (b.threads t').frame (fun c' held' => ?_) (by rw [record_state, same])
      have other : c' ≠ c := fun e => now (b.inv.exclusive t' t c' held' (e ▸ held))
      simp [Counted.record, other]

/-- Every atomic step of a request that does not wrap keeps the counters `Bounded`. -/
theorem bounded_step {a : Action} {k' : Counted} (b : Bounded heap k)
    (unwrapped : ∀ t size, a = .alloc t size → Unwrapped heap size)
    (stepped : countedStep heap k a = some k') : Bounded heap k' := by
  obtain ⟨s', moved, rfl⟩ := Option.map_eq_some'.mp stepped
  have inv := step_invariant b.inv moved
  obtain ⟨⟨low, high⟩, aligned, -⟩ := b.inv.cursor
  rcases step_cases moved with
    ⟨t, size, rfl, -, rfl⟩ | ⟨t, c, size, rfl, retrying, -, rfl⟩ |
    ⟨t, c, size, rfl, retrying, -, rfl⟩ |
    ⟨t, c, size, expected, desired, rfl, comparing, rfl, rfl⟩ |
    ⟨t, c, size, expected, desired, rfl, comparing, missed, rfl⟩ | ⟨t, c, r, rfl, -, rfl⟩
  · exact bounded_quiet b inv rfl le_rfl (Nat.le_succ _)
      ⟨unwrapped t size rfl, .inl (b.fresh _ le_rfl)⟩
  · rw [loadingCall_getNextFree retrying]
    exact bounded_load b inv retrying rfl rfl rfl trivial
  · have ok := b.climbing retrying
    have climbed : kMetadataSize.toNat + 64 * k.loads c ≤ k.state.nextFree.toNat := by
      obtain ⟨-, first | ⟨above, earlier⟩⟩ := ok
      · omega
      · unfold Climbed at earlier; omega
    rw [loadingCall_getNextFree retrying]
    refine bounded_load b inv retrying rfl rfl rfl ⟨ok.1, ?_⟩
    simp only [Counted.record, Function.update_same, Climbed, setPc_nextFree, true_and, le_refl]
    omega
  · obtain ⟨-, rfl, -, -⟩ := b.inv.pcOk comparing
    obtain ⟨small, -⟩ := b.climbing comparing
    unfold Unwrapped at small
    have grows : (desiredNextFree k.state.nextFree size).toNat =
        k.state.nextFree.toNat + lineCeil size.toNat := desiredNextFree_toNat (by omega)
    exact bounded_quiet b inv rfl (by dsimp only; omega) le_rfl trivial
  · obtain ⟨small, rfl, below, -, climbed⟩ := b.climbing comparing
    obtain ⟨-, -, -, lastAligned⟩ := b.inv.pcOk comparing
    have apart := BitVec.toNat_ne.mp missed
    exact bounded_quiet b inv rfl le_rfl le_rfl
      ⟨small, .inr ⟨by simp only [Counted.record, setPc_nextFree]; omega, climbed⟩⟩
  · exact bounded_quiet b inv rfl le_rfl le_rfl trivial

theorem bounded_run {acts : List Action} {k' : Counted} (b : Bounded heap k)
    (unwrapped : ∀ t size, .alloc t size ∈ acts → Unwrapped heap size)
    (ran : countedRun heap k acts = some k') : Bounded heap k' := by
  induction acts generalizing k with
  | nil => cases ran; exact b
  | cons a as ih =>
    obtain ⟨k₁, stepped, ran⟩ := Option.bind_eq_some.mp ran
    exact ih (bounded_step b (fun t size now => unwrapped t size (now ▸ List.mem_cons_self _ _))
      stepped) (fun t size member => unwrapped t size (List.mem_cons_of_mem _ member)) ran

end Steps

theorem bounded_init (heap : HeapSize) : Bounded heap Counted.init :=
  ⟨invariant_init heap, fun _ _ => rfl, fun _ => Nat.zero_le _, fun _ => trivial⟩

/-- **Without a wrap, a call passes `retry:` at most `heap_size / kCacheLineSize + 1` times.**
In every interleaving of any number of threads' `Alloc` calls on `Create`'s layout whose
requests do not wrap `desired_next_free`, every call has run `GetNextFree` at most that
often. -/
theorem retries_bounded {heap : HeapSize} {acts : List Action} {k : Counted}
    (unwrapped : ∀ t size, .alloc t size ∈ acts → Unwrapped heap size)
    (ran : countedRun heap Counted.init acts = some k) (c : Nat) :
    k.loads c ≤ heap.val.toNat / kCacheLineSize.toNat + 1 :=
  (bounded_run (bounded_init heap) unwrapped ran).loads_le c

theorem raced_unwrapped : ∀ t size, .alloc t size ∈ raced → Unwrapped oneMiB size := by
  intro t size member
  simp only [raced, List.mem_cons, Action.alloc.injEq, reduceCtorEq, List.not_mem_nil,
    or_false, false_or] at member
  rcases member with ⟨-, rfl⟩ | ⟨-, rfl⟩ <;> decide

theorem retries_bounded_after_race :
    ((countedRun oneMiB Counted.init raced).getD Counted.init).loads 1 = 2 ∧
      ((countedRun oneMiB Counted.init raced).getD Counted.init).loads 1 ≤
        oneMiB.val.toNat / kCacheLineSize.toNat + 1 :=
  ⟨by decide, @retries_bounded oneMiB raced _ raced_unwrapped rfl 1⟩

/-! ## A call that passes `retry:` more often than the heap has lines -/

/-- Thread `u` runs a whole `Alloc(size)` between thread `t`'s `GetNextFree` and its
`CASNextFree`. -/
def overtake (t u : Nat) (size : Word) : List Action :=
  [.getNextFree t, .alloc u size, .getNextFree u, .casNextFree u, .ret u, .casNextFree t]

/-- When the overtaking `Alloc` moves `next_free`, the overtaken call's compare-and-store fails
and it is back at `retry:`, with one more load counted and every thread where it was. -/
private theorem overtaken {heapSize : Word} {k : Counted} {t u c : Nat} {size size' : Word}
    (apart : u ≠ t) (retrying : k.state.threads t = .retry c size)
    (idle : k.state.threads u = .idle) (other : c ≠ k.state.calls)
    (mine : ¬ Exceeds heapSize (desiredNextFree k.state.nextFree size))
    (theirs : ¬ Exceeds heapSize (desiredNextFree k.state.nextFree size'))
    (moves : desiredNextFree k.state.nextFree size' ≠ k.state.nextFree) :
    ∃ k', countedRun heapSize k (overtake t u size') = some k' ∧
      k'.state.nextFree = desiredNextFree k.state.nextFree size' ∧
      k'.state.threads = k.state.threads ∧ k'.state.calls = k.state.calls + 1 ∧
      k'.loads c = k.loads c + 1 := by
  simp only [overtake, countedRun, countedStep, Counted.record, loadingCall, retrying, step, mine,
    ↓reduceIte, State.setPc, Option.map_some', State.emit, Option.some_bind, ne_eq, apart,
    not_false_eq_true, Function.update_noteq, idle, Function.update_same, theirs, apart.symm,
    moves, Option.some.injEq, exists_eq_left', other, and_self, and_true, true_and]
  funext v
  by_cases vt : v = t
  · subst vt; simp [retrying]
  · by_cases vu : v = u
    · subst vu; simp [vt, idle]
    · simp [vt, vu]

/-- A heap of two cache lines. -/
def twoLines : HeapSize := ⟨128, by decide, by decide⟩

/-- Thread 1 overtakes thread 0 twice: `Alloc(64)` moves `next_free` from `192` to `256`, and
`Alloc(2^64 - 64)` wraps it from `256` back to `192`. -/
def starvingCycle : List Action := overtake 0 1 64 ++ overtake 0 1 (-64)

/-- Thread 0 runs one `Alloc(64)`, is overtaken four times, and is then left alone to take
`192`. -/
def starved : List Action :=
  .alloc 0 64 :: starvingCycle ++ starvingCycle ++ [.getNextFree 0, .casNextFree 0, .ret 0]

theorem alloc_retry_loop_exceeds_bound :
    (countedRun twoLines Counted.init starved).map (fun k => (k.loads 0, k.state.history.getLast?)) =
        some (5, some (.respond 0 192 14)) ∧
      twoLines.val.toNat / kCacheLineSize.toNat + 1 = 3 := by
  decide

/-- One `starvingCycle` from `next_free = 192`: two more loads of thread 0's call, and every
thread and `next_free` back where they were. -/
private theorem starvingCycle_run {k : Counted} (low : k.state.nextFree = 192)
    (retrying : k.state.threads 0 = .retry 0 64) (idle : k.state.threads 1 = .idle)
    (started : 0 < k.state.calls) :
    ∃ k', countedRun twoLines k starvingCycle = some k' ∧ k'.state.nextFree = 192 ∧
      k'.state.threads = k.state.threads ∧ 0 < k'.state.calls ∧ k'.loads 0 = k.loads 0 + 2 := by
  obtain ⟨k₁, up, high, threads₁, calls₁, loads₁⟩ := @overtaken twoLines k 0 1 0 64 64
    one_ne_zero retrying idle (by omega) (by rw [low]; decide) (by rw [low]; decide)
    (by rw [low]; decide)
  rw [low] at high
  obtain ⟨k₂, down, back, threads₂, calls₂, loads₂⟩ := @overtaken twoLines k₁ 0 1 0 64 (-64)
    one_ne_zero (threads₁ ▸ retrying) (threads₁ ▸ idle) (by omega) (by rw [high]; decide)
    (by rw [high]; decide) (by rw [high]; decide)
  refine ⟨k₂, ?_, by rw [back, high]; decide, threads₂.trans threads₁, by omega, by omega⟩
  rw [starvingCycle, countedRun_append, up, Option.some_bind, down]

theorem starvingCycles_run (n : Nat) {k : Counted} (low : k.state.nextFree = 192)
    (retrying : k.state.threads 0 = .retry 0 64) (idle : k.state.threads 1 = .idle)
    (started : 0 < k.state.calls) :
    ∃ k', countedRun twoLines k (List.replicate n starvingCycle).flatten = some k' ∧
      k'.loads 0 = k.loads 0 + 2 * n := by
  induction n generalizing k with
  | zero => exact ⟨k, rfl, rfl⟩
  | succ n ih =>
    obtain ⟨k₁, cycled, low₁, threads₁, started₁, loads₁⟩ :=
      starvingCycle_run low retrying idle started
    obtain ⟨k', rest, loads'⟩ := ih low₁ (threads₁ ▸ retrying) (threads₁ ▸ idle) started₁
    refine ⟨k', ?_, by omega⟩
    rw [List.replicate_succ, List.flatten_cons, countedRun_append, cycled, Option.some_bind, rest]

/-- **`Alloc` is not wait-free.** For every `n`, an interleaving on a heap of two cache lines
makes thread 0's `Alloc(64)` run `GetNextFree` `2 * n` times: thread 1 alternates `Alloc(64)`
and the wrapping `Alloc(2^64 - 64)` between each of its loads and its compare-and-store. -/
theorem alloc_retries_unbounded (n : Nat) :
    ∃ k, countedRun twoLines Counted.init
        (.alloc 0 64 :: (List.replicate n starvingCycle).flatten) = some k ∧ k.loads 0 = 2 * n := by
  obtain ⟨k, ran, loads⟩ := starvingCycles_run n
    (k := ⟨{ (Concurrent.init.setPc 0 (.retry 0 64)).emit (.invoke 0 64) with calls := 1 },
      fun _ => 0, fun _ => 0⟩) (by decide) rfl rfl Nat.one_pos
  exact ⟨k, ran, by simpa using loads⟩

end Gull.ShelfHeap.Concurrent
