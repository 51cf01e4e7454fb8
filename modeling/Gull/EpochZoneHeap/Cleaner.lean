import Mathlib.Tactic.SplitIfs

/-! The cleaner thread of `allocator/epoch_zone_heap.cc`: `StartWorker`, `StopWorker`,
`BackgroundWorker`, and the parts of a successful `Open` and `Close` around them.

The owner of the heap runs `Open` and `Close` one after the other; every thread `StartWorker`
spawns runs `BackgroundWorker`. A step of the owner or of one of those threads is atomic
where the code holds `cleaner_mutex_`: the flag updates of `StartWorker` and `StopWorker`, the
cleaner's flag check, and the wait on `running_cv_`, which returns once `cleaner_running_`
is set. A reclamation pass is the time between a check that finds `cleaner_stop_` unset
and the next sleep; it reads `global_list_`, `header_` and `min_obj_size_` and calls
`rmb_->Free`.

`cleaner_safe` says that at most one spawned thread is not joined, that `Open` returns only
once that thread has set `cleaner_running_`, and that a pass runs only between the moment
`Open` has set the fields a pass reads and the moment `StopWorker` returns.
-/
namespace Gull.EpochZoneHeap.Cleaner

/-- Where a `BackgroundWorker` thread is in its loop. -/
inductive Phase where
  /-- In `usleep(kWorkerSleepMicroSeconds)`. -/
  | sleeping
  /-- Awake, about to take `cleaner_mutex_`. -/
  | awake
  /-- In a reclamation pass. -/
  | passing
  /-- Returned after finding `cleaner_stop_` set. -/
  | exited
  deriving DecidableEq

/-- A spawned thread. -/
structure Thread where
  phase : Phase
  /-- Ghost: the thread has set `cleaner_running_`. -/
  announced : Bool
  /-- The owner has joined it. -/
  joined : Bool
  deriving DecidableEq

/-- Where the owner is in `Open` and `Close`. -/
inductive Owner where
  | closed
  /-- `Open` has set `is_open_`, `global_list_`, `header_`, `rmb_` and `min_obj_size_`. -/
  | acquired
  /-- `StartWorker` has returned; `Open` waits on `running_cv_`. -/
  | waiting
  /-- `Open` has returned. -/
  | opened
  /-- `StopWorker` has set `cleaner_stop_` and is about to join. -/
  | stopping
  /-- `StopWorker` has joined the thread and is about to reset the flags. -/
  | joined
  /-- `StopWorker` has returned; `Close` is about to release `rmb_` and the region. -/
  | stopped
  deriving DecidableEq

structure State where
  owner : Owner
  /-- `global_list_`, `header_`, `min_obj_size_` and `rmb_` are set and usable. -/
  fields : Bool
  /-- `cleaner_start_`. -/
  start : Bool
  /-- `cleaner_stop_`. -/
  stop : Bool
  /-- `cleaner_running_`. -/
  running : Bool
  /-- Every thread `StartWorker` spawned, oldest first; `cleaner_thread_` is the last. -/
  threads : List Thread
  deriving DecidableEq

inductive Action where
  | acquire
  | startWorker
  | waitRunning
  | stopWorker
  | join
  | resetFlags
  | release
  /-- Thread `t` wakes up. -/
  | sleep (t : Nat)
  /-- Thread `t` checks the flags under `cleaner_mutex_`. -/
  | check (t : Nat)
  /-- Thread `t` ends its pass and goes back to sleep. -/
  | finishPass (t : Nat)

def State.setThread (s : State) (t : Nat) (c : Thread) : State :=
  { s with threads := s.threads.set t c }

def step (s : State) : Action → Option State
  | .acquire => if s.owner = .closed then some { s with owner := .acquired, fields := true } else none
  | .startWorker =>
    if s.owner = .acquired then
      if s.start then some { s with owner := .waiting }
      else some { s with
        owner := .waiting, start := true, stop := false, running := false,
        threads := s.threads ++ [⟨.sleeping, false, false⟩] }
    else none
  | .waitRunning => if s.owner = .waiting ∧ s.running then some { s with owner := .opened } else none
  | .stopWorker =>
    if s.owner = .opened then
      if !s.running || !s.start then some { s with owner := .stopped }
      else some { s with owner := .stopping, stop := true }
    else none
  | .join =>
    if s.owner = .stopping then
      match s.threads.getLast? with
      | some c =>
        -- `cleaner_thread_.joinable()`, then `join()`, which waits for the thread to return
        if c.joined then some { s with owner := .joined }
        else if c.phase = .exited then
          some { s with owner := .joined, threads := s.threads.dropLast ++ [{ c with joined := true }] }
        else none
      | none => some { s with owner := .joined }
    else none
  | .resetFlags =>
    if s.owner = .joined then some { s with owner := .stopped, start := false, stop := false, running := false }
    else none
  | .release => if s.owner = .stopped then some { s with owner := .closed, fields := false } else none
  | .sleep t =>
    match s.threads[t]? with
    | some c => if c.phase = .sleeping then some (s.setThread t { c with phase := .awake }) else none
    | none => none
  | .check t =>
    match s.threads[t]? with
    | some c =>
      if c.phase = .awake then
        some { s.setThread t { c with phase := if s.stop then .exited else .passing, announced := true } with
          running := true }
      else none
    | none => none
  | .finishPass t =>
    match s.threads[t]? with
    | some c => if c.phase = .passing then some (s.setThread t { c with phase := .sleeping }) else none
    | none => none

def run (s : State) : List Action → Option State
  | [] => some s
  | a :: as => (step s a).bind fun s' => run s' as

/-- A heap just constructed: closed, no flag set, no thread spawned. -/
def init : State := ⟨.closed, false, false, false, false, []⟩

def Reachable (s : State) : Prop := ∃ acts, run init acts = some s

/-! ## The invariant -/

/-- No flag set and every thread joined. -/
def Quiet (s : State) : Prop :=
  s.start = false ∧ s.stop = false ∧ s.running = false ∧ ∀ c ∈ s.threads, c.joined = true

/-- `cleaner_thread_` is not joined, and satisfies `P`. -/
def Live (s : State) (P : Thread → Prop) : Prop :=
  ∃ c, s.threads.getLast? = some c ∧ c.joined = false ∧ P c

/-- What each place of the owner says about the flags and the threads. -/
def OwnerOk (s : State) : Prop :=
  match s.owner with
  | .closed => s.fields = false ∧ Quiet s
  | .acquired => s.fields = true ∧ Quiet s
  | .waiting => s.fields = true ∧ s.start = true ∧ s.stop = false ∧
      Live s fun c => c.phase ≠ .exited ∧ (s.running = true → c.announced = true)
  | .opened => s.fields = true ∧ s.start = true ∧ s.stop = false ∧ s.running = true ∧
      Live s fun c => c.phase ≠ .exited ∧ c.announced = true
  | .stopping => s.fields = true ∧ s.start = true ∧ s.stop = true ∧ s.running = true ∧ Live s fun _ => True
  | .joined => s.fields = true ∧ s.start = true ∧ s.stop = true ∧ s.running = true ∧
      ∀ c ∈ s.threads, c.joined = true
  | .stopped => s.fields = true ∧ Quiet s

structure Invariant (s : State) : Prop where
  /-- A joined thread has returned. -/
  retired : ∀ c ∈ s.threads, c.joined = true → c.phase = .exited
  /-- Every thread but `cleaner_thread_` is joined. -/
  older : ∀ c ∈ s.threads.dropLast, c.joined = true
  owner : OwnerOk s

/-- A thread not joined is `cleaner_thread_`, the last one, when all the others are. -/
theorem set_live {l : List Thread} {t : Nat} {c : Thread} (v : Thread) (at_t : l[t]? = some c)
    (older : ∀ d ∈ l.dropLast, d.joined = true) (live : c.joined = false) :
    l.getLast? = some c ∧ l.set t v = l.dropLast ++ [v] := by
  induction l generalizing t with
  | nil => cases at_t
  | cons a rest ih =>
    cases t with
    | zero =>
      simp only [List.getElem?_cons_zero, Option.some.injEq] at at_t
      subst at_t
      cases rest with
      | nil => exact ⟨rfl, rfl⟩
      | cons b rest' =>
        rw [older a (by simp)] at live
        cases live
    | succ t =>
      simp only [List.getElem?_cons_succ] at at_t
      cases rest with
      | nil => cases at_t
      | cons b rest' =>
        obtain ⟨last, set⟩ := ih at_t fun d mem => older d (by simp [mem])
        exact ⟨by simpa using last, by simp [set]⟩

/-- In the places where some thread is not joined, its steps keep the owner's facts as long as
they keep its phase off `exited` and its announcement. -/
private theorem Invariant.live_step {s : State} (inv : Invariant s) {t : Nat} {c : Thread}
    (at_t : s.threads[t]? = some c) (alive : c.phase ≠ .exited) :
    s.threads.getLast? = some c ∧ c.joined = false ∧
      (s.owner = .waiting ∨ s.owner = .opened ∨ s.owner = .stopping) := by
  have member := List.getElem?_mem at_t
  have live : c.joined = false := by
    cases joined : c.joined
    · rfl
    · exact absurd (inv.retired c member joined) alive
  obtain ⟨last, -⟩ := set_live c at_t inv.older live
  refine ⟨last, live, ?_⟩
  have quiet (all : ∀ d ∈ s.threads, d.joined = true) : False := by
    rw [all c member] at live; cases live
  have ok := inv.owner
  unfold OwnerOk at ok
  split at ok
  · exact (quiet ok.2.2.2.2).elim
  · exact (quiet ok.2.2.2.2).elim
  · exact .inl (by assumption)
  · exact .inr (.inl (by assumption))
  · exact .inr (.inr (by assumption))
  · exact (quiet ok.2.2.2.2).elim
  · exact (quiet ok.2.2.2.2).elim

/-! ## Preservation -/

section Preservation

variable {s : State}

theorem invariant_init : Invariant init :=
  ⟨by simp [init], by simp [init], by simp [init, OwnerOk, Quiet]⟩

/-- A step of thread `t`, which has not returned: it replaces `cleaner_thread_` by `v`, still
unjoined, and may set `cleaner_running_`. -/
theorem Invariant.thread (inv : Invariant s) {t : Nat} {c v : Thread} (r : Bool)
    (at_t : s.threads[t]? = some c) (alive : c.phase ≠ .exited) (keeps : v.joined = c.joined)
    (phase : s.stop = false → v.phase ≠ .exited)
    (announced : (s.running = true → c.announced = true) → (r || s.running) = true →
      v.announced = true) :
    Invariant { s.setThread t v with running := r || s.running } := by
  obtain ⟨last, live, owner⟩ := inv.live_step at_t alive
  have unjoined : v.joined = false := keeps.trans live
  have threads : s.threads.set t v = s.threads.dropLast ++ [v] := (set_live v at_t inv.older live).2
  have last' : (s.threads.dropLast ++ [v]).getLast? = some v := List.getLast?_concat _
  refine ⟨fun d mem joined => ?_, by simpa [State.setThread, threads] using inv.older, ?_⟩
  · simp only [State.setThread, threads, List.mem_append, List.mem_singleton] at mem
    rcases mem with mem | rfl
    · exact inv.retired d (List.dropLast_subset _ mem) joined
    · rw [unjoined] at joined; cases joined
  · have ok := inv.owner
    unfold OwnerOk at ok ⊢
    simp only [State.setThread, threads] at ok ⊢
    rcases owner with o | o | o <;> simp only [o] at ok ⊢
    · obtain ⟨fields, start, stop, c', last'', -, -, early⟩ := ok
      cases last.symm.trans last''
      exact ⟨fields, start, stop, v, last', unjoined, phase stop, announced early⟩
    · obtain ⟨fields, start, stop, running, c', last'', -, -, early⟩ := ok
      cases last.symm.trans last''
      exact ⟨fields, start, stop, by simp [running], v, last', unjoined, phase stop,
        announced (fun _ => early) (by simp [running])⟩
    · obtain ⟨fields, start, stop, running, -⟩ := ok
      exact ⟨fields, start, stop, by simp [running], v, last', unjoined, trivial⟩

private theorem Invariant.owner_step (inv : Invariant s) {a : Action} {s' : State}
    (owner : ∀ t, a ≠ .sleep t ∧ a ≠ .check t ∧ a ≠ .finishPass t)
    (stepped : step s a = some s') : Invariant s' := by
  have ok := inv.owner
  unfold OwnerOk at ok
  cases a with
  | acquire =>
    simp only [step] at stepped
    split_ifs at stepped with closed
    cases stepped
    rw [closed] at ok
    exact ⟨inv.retired, inv.older, by simpa [OwnerOk, Quiet] using ok.2⟩
  | startWorker =>
    simp only [step] at stepped
    split_ifs at stepped with acquired started <;> rw [acquired] at ok
    · rw [ok.2.1] at started; cases started
    cases stepped
    obtain ⟨fields, -, -, -, joined⟩ := ok
    refine ⟨fun c mem held => ?_, by simpa using joined, ?_⟩
    · rcases List.mem_append.mp mem with mem | mem
      · exact inv.retired c mem held
      · rw [List.mem_singleton.mp mem] at held; cases held
    · simp [OwnerOk, Live, fields]
  | waitRunning =>
    simp only [step] at stepped
    split_ifs at stepped with waiting
    cases stepped
    rw [waiting.1] at ok
    obtain ⟨fields, start, stop, c, last, live, alive, early⟩ := ok
    refine ⟨inv.retired, inv.older, ?_⟩
    unfold OwnerOk
    exact ⟨fields, start, stop, waiting.2, c, last, live, alive, early waiting.2⟩
  | stopWorker =>
    simp only [step] at stepped
    split_ifs at stepped with opened early <;> rw [opened] at ok
    · obtain ⟨-, start, -, running, -⟩ := ok
      simp [running, start] at early
    cases stepped
    obtain ⟨fields, start, -, running, c, last, live, -⟩ := ok
    refine ⟨inv.retired, inv.older, ?_⟩
    unfold OwnerOk
    exact ⟨fields, start, rfl, running, c, last, live, trivial⟩
  | join =>
    simp only [step] at stepped
    split_ifs at stepped with stopping
    rw [stopping] at ok
    obtain ⟨fields, start, stop, running, c, last, live, -⟩ := ok
    rw [last] at stepped
    simp only [live, Bool.false_eq_true, if_false] at stepped
    split_ifs at stepped with exited
    cases stepped
    have older := inv.older
    refine ⟨fun d mem _ => ?_, by simpa using older, ?_⟩
    · rcases List.mem_append.mp mem with mem | mem
      · exact inv.retired d (List.dropLast_subset _ mem) (older d mem)
      · rw [List.mem_singleton.mp mem]; exact exited
    · unfold OwnerOk
      refine ⟨fields, start, stop, running, fun d mem => ?_⟩
      rcases List.mem_append.mp mem with mem | mem
      · exact older d mem
      · rw [List.mem_singleton.mp mem]
  | resetFlags =>
    simp only [step] at stepped
    split_ifs at stepped with joined
    cases stepped
    rw [joined] at ok
    refine ⟨inv.retired, inv.older, ?_⟩
    unfold OwnerOk
    exact ⟨ok.1, rfl, rfl, rfl, ok.2.2.2.2⟩
  | release =>
    simp only [step] at stepped
    split_ifs at stepped with stopped
    cases stepped
    rw [stopped] at ok
    refine ⟨inv.retired, inv.older, ?_⟩
    unfold OwnerOk
    exact ⟨rfl, ok.2⟩
  | sleep t => exact absurd rfl (owner t).1
  | check t => exact absurd rfl (owner t).2.1
  | finishPass t => exact absurd rfl (owner t).2.2

theorem step_invariant (inv : Invariant s) {a : Action} {s' : State}
    (stepped : step s a = some s') : Invariant s' := by
  cases a with
  | sleep t =>
    simp only [step] at stepped
    split at stepped
    · rename_i c at_t
      split_ifs at stepped with sleeping
      cases stepped
      exact inv.thread false at_t (by simp [sleeping]) rfl (fun _ => by simp) fun early => early
    · cases stepped
  | check t =>
    simp only [step] at stepped
    split at stepped
    · rename_i c at_t
      by_cases awake : c.phase = .awake
      · rw [if_pos awake] at stepped
        cases stepped
        exact inv.thread true at_t (by simp [awake]) rfl (fun stop => by simp [stop])
          fun _ _ => rfl
      · rw [if_neg awake] at stepped; cases stepped
    · cases stepped
  | finishPass t =>
    simp only [step] at stepped
    split at stepped
    · rename_i c at_t
      split_ifs at stepped with passing
      cases stepped
      exact inv.thread false at_t (by simp [passing]) rfl (fun _ => by simp) fun early => early
    · cases stepped
  | _ => exact inv.owner_step (fun _ => ⟨by simp, by simp, by simp⟩) stepped

theorem run_invariant {acts : List Action} {s' : State} (inv : Invariant s)
    (ran : run s acts = some s') : Invariant s' := by
  induction acts generalizing s with
  | nil => cases ran; exact inv
  | cons a as ih =>
    obtain ⟨s₁, stepped, ran⟩ := Option.bind_eq_some.mp ran
    exact ih (step_invariant inv stepped) ran

theorem reachable_invariant (reach : Reachable s) : Invariant s :=
  let ⟨_, ran⟩ := reach
  run_invariant invariant_init ran

end Preservation

/-! ## Safety -/

private theorem unjoined_le_one {l : List Thread} (older : ∀ c ∈ l.dropLast, c.joined = true) :
    (l.filter fun c => !c.joined).length ≤ 1 := by
  rcases List.eq_nil_or_concat l with rfl | ⟨rest, last, rfl⟩
  · simp
  · simp only [List.concat_eq_append, List.dropLast_concat] at older ⊢
    rw [List.filter_append, List.filter_eq_nil_iff.mpr (by simpa using older)]
    simp only [List.nil_append, List.length_filter_le, List.filter_cons, List.filter_nil]
    split <;> simp

/-- **The cleaner's lifecycle is safe.** In every reachable state at most one spawned thread is
not joined; once `Open` has returned, `cleaner_running_` is set and the thread not joined has
set it; and a thread in a reclamation pass runs while the fields it reads are set, after
`StartWorker` and before `StopWorker` has joined it. -/
theorem cleaner_safe {s : State} (reach : Reachable s) :
    (s.threads.filter fun c => !c.joined).length ≤ 1 ∧
    (s.owner = .opened → s.running = true ∧ ∃ c ∈ s.threads, c.joined = false ∧ c.announced = true) ∧
    ∀ c ∈ s.threads, c.phase = .passing →
      s.fields = true ∧ (s.owner = .waiting ∨ s.owner = .opened ∨ s.owner = .stopping) := by
  have inv := reachable_invariant reach
  refine ⟨unjoined_le_one inv.older, fun opened => ?_, fun c mem passing => ?_⟩
  · have ok := inv.owner
    simp only [OwnerOk, opened] at ok
    obtain ⟨-, -, -, running, c, last, live, -, announced⟩ := ok
    exact ⟨running, c, List.mem_of_getLast?_eq_some last, live, announced⟩
  · obtain ⟨t, at_t⟩ := List.mem_iff_getElem?.mp mem
    obtain ⟨-, -, owner⟩ := inv.live_step at_t (by simp [passing])
    have ok := inv.owner
    unfold OwnerOk at ok
    rcases owner with o | o | o <;> simp only [o] at ok <;> exact ⟨ok.1, by simp [o]⟩

/-- Open, one pass, close, and open again: thread `0` is joined and thread `1` runs. -/
def openCloseOpen : List Action :=
  [.acquire, .startWorker, .sleep 0, .check 0, .waitRunning, .finishPass 0, .stopWorker,
    .sleep 0, .check 0, .join, .resetFlags, .release, .acquire, .startWorker, .sleep 1, .check 1,
    .waitRunning]

theorem cleaner_safe_after_reopen :
    ((run init openCloseOpen).getD init).owner = .opened ∧
    (((run init openCloseOpen).getD init).threads.filter fun c => !c.joined).length ≤ 1 ∧
    (((run init openCloseOpen).getD init).owner = .opened →
      ((run init openCloseOpen).getD init).running = true ∧
        ∃ c ∈ ((run init openCloseOpen).getD init).threads, c.joined = false ∧ c.announced = true) ∧
    ∀ c ∈ ((run init openCloseOpen).getD init).threads, c.phase = .passing →
      ((run init openCloseOpen).getD init).fields = true ∧
        (((run init openCloseOpen).getD init).owner = .waiting ∨
          ((run init openCloseOpen).getD init).owner = .opened ∨
          ((run init openCloseOpen).getD init).owner = .stopping) :=
  ⟨by decide, cleaner_safe ⟨openCloseOpen, rfl⟩⟩

end Gull.EpochZoneHeap.Cleaner
