import Gull.EpochZoneHeap.Cleaner

/-! The owner of the heap and its cleaner thread wait for each other twice. `Open` waits on
`running_cv_` until the thread `StartWorker` spawned has set `cleaner_running_`, and `Close`'s
`StopWorker` joins that thread once it has set `cleaner_stop_`. Neither wait can hang for
good: from every reachable state of the model in `Cleaner`, some schedule of the owner's and
the spawned threads' steps lets `Close` return, and some lets `Open` return
(`handshake_completes`).

1. **A thread that has not returned reaches its next flag check** (`run_to_check`): it ends
   its pass, wakes, and takes `cleaner_mutex_`, setting `cleaner_running_`. It returns if
   `cleaner_stop_` is set, and otherwise starts a pass.
2. **Each of the owner's places leads to `closed`.** `Open`'s wait returns once that check
   has run (`reaches_opened_of_waiting`). `StopWorker` finds `cleaner_running_` set, so it
   sets `cleaner_stop_` and joins, and the join returns once the thread's next check has run
   (`reaches_closed_of_stopping`). The invariant of `Cleaner` says which thread that is: the
   last one spawned, not yet joined.

This proves that a schedule exists. It does not prove that the threads are scheduled: that is
the operating system's fairness, and the `usleep` of `BackgroundWorker` ends. -/
namespace Gull.EpochZoneHeap.Cleaner

/-- Some schedule from `s` brings the owner to `o`. -/
def Reaches (s : State) (o : Owner) : Prop := ∃ acts s', run s acts = some s' ∧ s'.owner = o

theorem run_append (s : State) (xs ys : List Action) :
    run s (xs ++ ys) = (run s xs).bind fun s' => run s' ys := by
  induction xs generalizing s with
  | nil => rfl
  | cons a as ih =>
    simp only [List.cons_append, run, Option.bind_assoc]
    exact congrArg _ (funext ih)

section Schedules

variable {s s₁ : State} {o o' : Owner}

theorem Reachable.after_run (reach : Reachable s) {acts : List Action}
    (ran : run s acts = some s₁) : Reachable s₁ := by
  obtain ⟨before, ran₀⟩ := reach
  exact ⟨before ++ acts, by rw [run_append, ran₀, Option.some_bind, ran]⟩

private theorem Reachable.after_step (reach : Reachable s) {a : Action} (stepped : step s a = some s₁) :
    Reachable s₁ :=
  reach.after_run (by simp [run, stepped] : run s [a] = some s₁)

private theorem Reaches.of_run {acts : List Action} (ran : run s acts = some s₁) (next : Reaches s₁ o) :
    Reaches s o := by
  obtain ⟨rest, s', ran', at_o⟩ := next
  exact ⟨acts ++ rest, s', by rw [run_append, ran, Option.some_bind, ran'], at_o⟩

private theorem Reaches.of_step {a : Action} (stepped : step s a = some s₁) (next : Reaches s₁ o) :
    Reaches s o :=
  Reaches.of_run (by simp [run, stepped] : run s [a] = some s₁) next

/-- A schedule to `o` from a reachable state, followed by one to `o'` from wherever it ends. -/
theorem Reaches.bind (reach : Reachable s) (first : Reaches s o)
    (next : ∀ {s₁}, Reachable s₁ → s₁.owner = o → Reaches s₁ o') : Reaches s o' := by
  obtain ⟨acts, s₁, ran, at_o⟩ := first
  exact Reaches.of_run ran (next (reach.after_run ran) at_o)

/-- **A thread that has not returned reaches its next flag check.** From any phase but
`exited`, thread `t` ends its pass, wakes and checks the flags: it has set
`cleaner_running_`, and it has returned if `cleaner_stop_` is set and is in a pass
otherwise. -/
theorem run_to_check {t : Nat} {c : Thread} (at_t : s.threads[t]? = some c)
    (alive : c.phase ≠ .exited) :
    ∃ acts, run s acts = some { s.setThread t { c with
        phase := if s.stop then .exited else .passing
        announced := true } with running := true } := by
  have bound := (List.getElem?_eq_some_iff.mp at_t).1
  obtain ⟨phase, announced, joined⟩ := c
  cases phase
  case sleeping =>
    exact ⟨[.sleep t, .check t], by
      simp [run, step, at_t, State.setThread, List.getElem?_set_self bound, List.set_set]⟩
  case awake => exact ⟨[.check t], by simp [run, step, at_t, State.setThread]⟩
  case passing =>
    exact ⟨[.finishPass t, .sleep t, .check t], by
      simp [run, step, at_t, State.setThread, List.getElem?_set_self bound, List.set_set]⟩
  case exited => exact absurd rfl alive

end Schedules

section Owner

variable {s : State}

/-- `Open`'s wait on `running_cv_` returns: the thread `StartWorker` spawned reaches its flag
check, which sets `cleaner_running_` with `cleaner_stop_` still unset. -/
theorem reaches_opened_of_waiting (reach : Reachable s) (waiting : s.owner = .waiting) :
    Reaches s .opened := by
  have ok := (reachable_invariant reach).owner
  simp only [OwnerOk, waiting] at ok
  obtain ⟨-, -, -, c, last, -, alive, -⟩ := ok
  obtain ⟨t, at_t⟩ := List.mem_iff_getElem?.mp (List.mem_of_getLast?_eq_some last)
  obtain ⟨acts, ran⟩ := run_to_check at_t alive
  exact Reaches.of_run ran ⟨[.waitRunning], by simp [run, step, State.setThread, waiting]⟩

/-- `Open` returns once `StartWorker` has run: `Quiet` says no thread is running, so
`StartWorker` spawns one. -/
theorem reaches_opened_of_acquired (reach : Reachable s) (acquired : s.owner = .acquired) :
    Reaches s .opened := by
  have ok := (reachable_invariant reach).owner
  simp only [OwnerOk, acquired] at ok
  have started : step s .startWorker = some { s with
      owner := .waiting
      start := true
      stop := false
      running := false
      threads := s.threads ++ [⟨.sleeping, false, false⟩] } := by
    simp [step, acquired, ok.2.1]
  exact Reaches.of_step started (reaches_opened_of_waiting (reach.after_step started) rfl)

/-- `StopWorker`'s join returns once the last thread has returned. -/
private theorem step_join_of_exited {c : Thread} (stopping : s.owner = .stopping)
    (last : s.threads.getLast? = some c) (exited : c.phase = .exited) :
    ∃ s₁, step s .join = some s₁ ∧ s₁.owner = .joined := by
  cases joined : c.joined <;> simp [step, stopping, last, exited, joined]

/-- `Close` returns from `StopWorker`'s join: the thread not joined reaches its flag check,
finds `cleaner_stop_` set and returns; then `StopWorker` resets the flags and `Close` releases
the fields. -/
theorem reaches_closed_of_stopping (reach : Reachable s) (stopping : s.owner = .stopping) :
    Reaches s .closed := by
  have inv := reachable_invariant reach
  have ok := inv.owner
  simp only [OwnerOk, stopping] at ok
  obtain ⟨-, -, stop, -, c, last, live, -⟩ := ok
  have finish {s₁ : State} (joined : s₁.owner = .joined) : Reaches s₁ .closed :=
    ⟨[.resetFlags, .release], by simp [run, step, joined]⟩
  by_cases exited : c.phase = .exited
  · obtain ⟨s₁, stepped, joined⟩ := step_join_of_exited stopping last exited
    exact Reaches.of_step stepped (finish joined)
  · obtain ⟨t, at_t⟩ := List.mem_iff_getElem?.mp (List.mem_of_getLast?_eq_some last)
    obtain ⟨acts, ran⟩ := run_to_check at_t exited
    rw [if_pos stop] at ran
    have moved := (set_live { c with phase := .exited, announced := true } at_t inv.older live).2
    obtain ⟨s₁, stepped, joined⟩ := step_join_of_exited (s := { s.setThread t
      { c with phase := .exited, announced := true } with running := true })
      (c := { c with phase := .exited, announced := true }) stopping
      (by simp [State.setThread, moved]) rfl
    exact Reaches.of_run ran (Reaches.of_step stepped (finish joined))

/-- `Close` returns from `StopWorker`: `Open` has returned, so `cleaner_running_` and
`cleaner_start_` are set and `StopWorker` signals the thread and joins it. -/
theorem reaches_closed_of_opened (reach : Reachable s) (opened : s.owner = .opened) :
    Reaches s .closed := by
  have ok := (reachable_invariant reach).owner
  simp only [OwnerOk, opened] at ok
  have signalled : step s .stopWorker = some { s with owner := .stopping, stop := true } := by
    simp [step, opened, ok.2.1, ok.2.2.2.1]
  exact Reaches.of_step signalled (reaches_closed_of_stopping (reach.after_step signalled) rfl)

/-- `Close` can return from every place of the owner. -/
theorem reaches_closed (reach : Reachable s) : Reaches s .closed := by
  cases owner : s.owner
  case closed => exact ⟨[], s, rfl, owner⟩
  case acquired => exact (reaches_opened_of_acquired reach owner).bind reach reaches_closed_of_opened
  case waiting => exact (reaches_opened_of_waiting reach owner).bind reach reaches_closed_of_opened
  case opened => exact reaches_closed_of_opened reach owner
  case stopping => exact reaches_closed_of_stopping reach owner
  case joined => exact ⟨[.resetFlags, .release], by simp [run, step, owner]⟩
  case stopped => exact ⟨[.release], by simp [run, step, owner]⟩

/-- `Open` returns when started from `closed`: it sets the fields and runs `StartWorker`. -/
theorem reaches_opened_of_closed (reach : Reachable s) (closed : s.owner = .closed) :
    Reaches s .opened := by
  have acquired : step s .acquire = some { s with owner := .acquired, fields := true } := by
    simp [step, closed]
  exact Reaches.of_step acquired (reaches_opened_of_acquired (reach.after_step acquired) rfl)

/-- **Open and Close never deadlock.** From every reachable state, some schedule of the
owner's steps and the spawned threads' steps lets `Close` return, through `StopWorker`'s join,
and some lets `Open` return, through its wait on `running_cv_`. -/
theorem handshake_completes (reach : Reachable s) : Reaches s .closed ∧ Reaches s .opened :=
  ⟨reaches_closed reach, (reaches_closed reach).bind reach reaches_opened_of_closed⟩

end Owner

/-- Midway through `openCloseOpen`'s second `Open`, before its wait has returned, `Close` and
`Open` can both still return. -/
theorem handshake_completes_mid_open :
    ((run init (openCloseOpen.take 16)).getD init).owner = .waiting ∧
    Reaches ((run init (openCloseOpen.take 16)).getD init) .closed ∧
      Reaches ((run init (openCloseOpen.take 16)).getD init) .opened :=
  ⟨by decide, handshake_completes ⟨openCloseOpen.take 16, rfl⟩⟩

end Gull.EpochZoneHeap.Cleaner
