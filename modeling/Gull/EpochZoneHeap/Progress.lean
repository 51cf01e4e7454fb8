import Gull.EpochZoneHeap.Conservation

/-! Reclamation makes progress. Once no `EpochOp` is alive, the cleaner thread alone, with
epoch moves the epoch manager's contract allows, frees every block `Free(op, ptr)` deferred
(`reclamation_drains`). A pass of `BackgroundWorker` at reported epoch `R` pops
`min kFreeCnt length` blocks from list `R % kListCnt` and hands each to `rmb_->Free`
(`run_cleanerPass`). Passes at one epoch therefore empty its list (`drain_list`, by induction on
the list's length), and five consecutive epochs reach every list.

This proves that a finite schedule exists. It does not prove that the cleaner or the epoch
manager follows it: that is the scheduling of the worker thread and the contract's "often
enough". The precondition that no `EpochOp` is alive is real: a critical section that stays
open keeps `R` below the epoch it entered at, and the blocks pushed to later lists wait. -/
namespace Gull.EpochZoneHeap.Reclaim

open Gull.ShelfHeap

/-- The actions the cleaner thread `t` and the epoch manager take: `BackgroundWorker`'s
`EpochOp`, pops and frees, and epoch moves. -/
def Action.OfCleaner (t : Nat) : Action → Prop
  | .enter u cleaner => u = t ∧ cleaner = true
  | .pin u | .pop u | .release u | .exit u => u = t
  | .free _ _ => False
  | .advance _ _ => True

/-- One pass of `BackgroundWorker` on thread `t` that frees `n` blocks: `EpochOp op(em)`, `n`
pops each followed by `rmb_->Free`, the pop that ends the loop, and `~EpochOp`. -/
def cleanerPass (t n : Nat) : List Action :=
  [.enter t true, .pin t] ++ (List.replicate n [.pop t, .release t]).flatten ++ [.pop t, .exit t]

private theorem cleanerPass_ofCleaner (t n : Nat) : ∀ a ∈ cleanerPass t n, a.OfCleaner t := by
  intro a member
  simp only [cleanerPass, List.mem_append, List.mem_cons, List.mem_flatten, List.mem_replicate,
    List.not_mem_nil, or_false] at member
  rcases member with ((rfl | rfl) | ⟨l, ⟨-, rfl⟩, member⟩) | rfl | rfl
  · exact ⟨rfl, rfl⟩
  all_goals try rfl
  simp only [List.mem_cons, List.not_mem_nil, or_false] at member
  rcases member with rfl | rfl <;> rfl

theorem run_append {heap : HeapSize} {kFreeCnt : Nat} (s : State) (xs ys : List Action) :
    run heap kFreeCnt s (xs ++ ys) = (run heap kFreeCnt s xs).bind fun s' => run heap kFreeCnt s' ys := by
  induction xs generalizing s with
  | nil => rfl
  | cons a as ih =>
    simp only [List.cons_append, run, Option.bind_assoc]
    exact congrArg _ (funext ih)

private theorem set_of_getElem? {α : Type} {l : List α} {t : Nat} {w : α} (at_t : l[t]? = some w) :
    l.set t w = l := by
  apply List.ext_getElem?
  intro i
  by_cases same : t = i
  · subst same
    rw [List.getElem?_set_self (List.getElem?_eq_some_iff.mp at_t).1, at_t]
  · rw [List.getElem?_set_ne same]

section Pass

variable {heap : HeapSize} {kFreeCnt : Nat} {s : State} {t : Nat}

/-- A pop and its `rmb_->Free`, by a pass that has popped fewer than `kFreeCnt` blocks, from a
list headed by a block that decodes to an offset. -/
private theorem run_pop_release {sec : Section} {e k : Nat} {block : Pushed} {rest : List Pushed}
    (cleaning : s.threads[t]? = some (.cleaning sec e k)) (below : k < kFreeCnt)
    (head : s.lists (popList e) = block :: rest) (decodes : blockOffset block.index ≠ 0) :
    run heap kFreeCnt s [.pop t, .release t] =
      some { s with
        lists := Function.update s.lists (popList e) rest
        threads := s.threads.set t (.cleaning sec e (k + 1))
        freed := s.freed ++ [⟨block, e⟩] } := by
  have bound := (List.getElem?_eq_some_iff.mp cleaning).1
  simp only [run, step, cleaning, if_pos below, head, if_neg decodes, Option.some_bind,
    State.setThread, List.getElem?_set_self bound, List.set_set]

/-- `n` pops, each with its `rmb_->Free`, take the first `n` blocks of the pass's list and free
them in order. -/
private theorem run_pops (sec : Section) (e : Nat) {k : Nat} (n : Nat)
    (cleaning : s.threads[t]? = some (.cleaning sec e k)) (room : k + n ≤ kFreeCnt)
    (enough : n ≤ (s.lists (popList e)).length)
    (decodes : ∀ b ∈ s.lists (popList e), blockOffset b.index ≠ 0) :
    run heap kFreeCnt s (List.replicate n [.pop t, .release t]).flatten =
      some { s with
        lists := Function.update s.lists (popList e) ((s.lists (popList e)).drop n)
        threads := s.threads.set t (.cleaning sec e (k + n))
        freed := s.freed ++ ((s.lists (popList e)).take n).map fun b => ⟨b, e⟩ } := by
  induction n generalizing s k with
  | zero =>
    simp only [List.replicate_zero, List.flatten_nil, List.drop_zero, Function.update_eq_self,
      Nat.add_zero, set_of_getElem? cleaning, List.take_zero, List.map_nil, List.append_nil]
    rfl
  | succ n ih =>
    obtain ⟨block, rest, head⟩ : ∃ block rest, s.lists (popList e) = block :: rest := by
      cases found : s.lists (popList e) with
      | nil => rw [found] at enough; simp at enough
      | cons block rest => exact ⟨block, rest, rfl⟩
    have bound := (List.getElem?_eq_some_iff.mp cleaning).1
    rw [head] at enough decodes
    rw [List.replicate_succ, List.flatten_cons, run_append,
      run_pop_release cleaning (by omega) head (decodes block (List.mem_cons_self _ _)),
      Option.some_bind]
    refine (ih (k := k + 1) (by simp [List.getElem?_set_self bound]) (by omega)
      (by simpa using enough)
      (by simpa using fun b member => decodes b (List.mem_cons_of_mem _ member))).trans ?_
    simp [head, List.set_set, Nat.add_assoc, Nat.add_comm 1 n]

/-- `EpochOp op(em)` of a cleaner pass: enter at the frontier, then pin `R`. -/
private theorem run_enter_pin (idle : s.threads[t]? = some .idle) (entering : s.reported < s.frontier) :
    run heap kFreeCnt s [.enter t true, .pin t] =
      some { s with
        threads := s.threads.set t (.cleaning ⟨s.sections, s.frontier⟩ s.reported 0)
        sections := s.sections + 1 } := by
  have bound := (List.getElem?_eq_some_iff.mp idle).1
  simp only [run, step, idle, if_pos entering, Option.some_bind, State.setThread,
    List.getElem?_set_self bound, List.length_set, if_true, List.set_set]

/-- The pop that ends the loop, on `kFreeCnt` blocks popped or an empty list, and `~EpochOp`. -/
private theorem run_pop_exit (sec : Section) (e k : Nat) (cleaning : s.threads[t]? = some (.cleaning sec e k))
    (finished : kFreeCnt ≤ k ∨ s.lists (popList e) = []) :
    run heap kFreeCnt s [.pop t, .exit t] = some { s with threads := s.threads.set t .idle } := by
  have bound := (List.getElem?_eq_some_iff.mp cleaning).1
  by_cases below : k < kFreeCnt
  · have empty := finished.resolve_left (by omega)
    simp only [run, step, cleaning, if_pos below, empty, Option.some_bind, State.setThread,
      List.getElem?_set_self bound, List.set_set]
  · simp only [run, step, cleaning, if_neg below, Option.some_bind, State.setThread,
      List.getElem?_set_self bound, List.set_set]

/-- **A pass of `BackgroundWorker`.** With thread `t` idle and `R < F`, a pass pins `R`, frees
the first `min kFreeCnt length` blocks of list `R % kListCnt` in order, and leaves every thread
as it was. -/
theorem run_cleanerPass (idle : s.threads[t]? = some .idle) (entering : s.reported < s.frontier)
    (decodes : ∀ b ∈ s.lists (popList s.reported), blockOffset b.index ≠ 0) :
    run heap kFreeCnt s (cleanerPass t (min kFreeCnt (s.lists (popList s.reported)).length)) =
      some { s with
        lists := Function.update s.lists (popList s.reported)
          ((s.lists (popList s.reported)).drop (min kFreeCnt (s.lists (popList s.reported)).length))
        sections := s.sections + 1
        freed := s.freed ++ ((s.lists (popList s.reported)).take
          (min kFreeCnt (s.lists (popList s.reported)).length)).map fun b => ⟨b, s.reported⟩ } := by
  have bound := (List.getElem?_eq_some_iff.mp idle).1
  rw [cleanerPass, run_append, run_append, run_enter_pin idle entering, Option.some_bind,
    run_pops ⟨s.sections, s.frontier⟩ s.reported (k := 0) _ ?popping ?room ?enough ?listed,
    Option.some_bind,
    run_pop_exit ⟨s.sections, s.frontier⟩ s.reported
      (min kFreeCnt (s.lists (popList s.reported)).length) ?ending ?finished]
  · simp [List.set_set, set_of_getElem? idle]
  case popping | ending => simp [List.getElem?_set_self bound]
  case room => simp
  case enough => simp
  case listed => exact decodes
  case finished =>
    by_cases fewer : kFreeCnt ≤ (s.lists (popList s.reported)).length
    · exact .inl (by simp [fewer])
    · exact .inr (by simp; omega)

/-- **Passes at one epoch empty its list.** Each pass frees at least one block, so by strong
induction on the list's length some run of passes by an idle cleaner thread `t`, at `R < F`,
drains list `R % kListCnt`; the other lists, the threads, the epochs and the pushes are as they
were. -/
theorem drain_list (positive : 0 < kFreeCnt) (idle : s.threads[t]? = some .idle)
    (entering : s.reported < s.frontier)
    (decodes : ∀ b ∈ s.lists (popList s.reported), blockOffset b.index ≠ 0) :
    ∃ acts s', (∀ a ∈ acts, a.OfCleaner t) ∧ run heap kFreeCnt s acts = some s' ∧
      s'.lists = Function.update s.lists (popList s.reported) [] ∧ s'.reported = s.reported ∧
      s'.frontier = s.frontier ∧ s'.threads = s.threads ∧ s'.pushes = s.pushes := by
  generalize size : (s.lists (popList s.reported)).length = count
  induction count using Nat.strong_induction_on generalizing s with
  | h count ih =>
    cases count with
    | zero =>
      refine ⟨[], s, by simp, rfl, ?_, rfl, rfl, rfl, rfl⟩
      rw [← List.length_eq_zero.mp size, Function.update_eq_self]
    | succ count =>
      obtain ⟨s₁, pass, same⟩ : ∃ s₁, run heap kFreeCnt s (cleanerPass t _) = some s₁ ∧ s₁ = _ :=
        ⟨_, run_cleanerPass idle entering decodes, rfl⟩
      rw [size] at pass same
      have smaller : count + 1 - min kFreeCnt (count + 1) < count + 1 := by omega
      obtain ⟨acts, s', only, ran, lists', reported', frontier', threads', pushes'⟩ :=
        ih _ smaller (s := s₁) (by subst same; exact idle) (by subst same; exact entering)
          (by subst same; exact fun b member => decodes b (List.mem_of_mem_drop (by simpa using member)))
          (by subst same; simp [size])
      subst same
      refine ⟨cleanerPass t (min kFreeCnt (count + 1)) ++ acts, s', ?_, ?_, ?_, reported', frontier',
        threads', pushes'⟩
      · simpa [or_imp, forall_and] using ⟨cleanerPass_ofCleaner t _, only⟩
      · rw [run_append, pass, Option.some_bind, ran]
      · rw [lists']
        exact Function.update_idem _ _ _

/-- An epoch move to `(r, r + 1)` while no thread is in a section: the contract's condition
on sections holds vacuously. -/
private theorem run_advance (quiet : ∀ w ∈ s.threads, w = .idle) {r : Nat} (reported : s.reported ≤ r)
    (frontier : s.frontier ≤ r + 1) (room : r + 3 < 2 ^ 63) :
    run heap kFreeCnt s [.advance r (r + 1)] =
      some { s with reported := r, frontier := r + 1 } := by
  have advances : Advances s.reported s.frontier s.threads r (r + 1) :=
    ⟨reported, frontier, by omega, by omega, room,
      fun w member sec inside => by rw [quiet w member] at inside; cases inside⟩
  simp only [run, step, if_pos advances, Option.some_bind]

end Pass

section Rounds

variable {heap : HeapSize} {kFreeCnt : Nat} {s s' : State} {t : Nat}

theorem Reachable.after_run (reach : Reachable heap kFreeCnt s) {acts : List Action}
    (ran : run heap kFreeCnt s acts = some s') : Reachable heap kFreeCnt s' := by
  obtain ⟨n, before, ran₀⟩ := reach
  exact ⟨n, before ++ acts, by rw [run_append, ran₀, Option.some_bind, ran]⟩

/-- Every block on a list of a reachable state decodes to a non-zero offset. -/
theorem Reachable.decodes (reach : Reachable heap kFreeCnt s) (j : Fin kListCnt) :
    ∀ b ∈ s.lists j, blockOffset b.index ≠ 0 :=
  fun b member => (conserved_of_reachable reach).decodes b ((reachable_invariant reach).queued j b member).1

/-- **Rounds of epoch moves and passes.** From a reachable state with no thread in a section,
`k` rounds, the `i`-th moving the epochs to `(r + i, r + i + 1)` and draining list
`(r + i) % kListCnt`, leave those `k` lists empty. -/
theorem drain_rounds (positive : 0 < kFreeCnt) (reach : Reachable heap kFreeCnt s)
    (quiet : ∀ w ∈ s.threads, w = .idle) (cleaner : t < s.threads.length) {r : Nat}
    (reported : s.reported ≤ r) (frontier : s.frontier ≤ r + 1) (k : Nat)
    (room : r + k + 2 < 2 ^ 63) :
    ∃ acts s', (∀ a ∈ acts, a.OfCleaner t) ∧ run heap kFreeCnt s acts = some s' ∧
      (∀ i < k, s'.lists (popList (r + i)) = []) ∧ s'.reported ≤ r + k ∧
      s'.frontier ≤ r + k + 1 ∧ s'.threads = s.threads ∧ s'.pushes = s.pushes := by
  induction k with
  | zero => exact ⟨[], s, by simp, rfl, by simp, reported, frontier, rfl, rfl⟩
  | succ k ih =>
    obtain ⟨acts, s₁, only, ran, drained, reported₁, frontier₁, threads₁, pushes₁⟩ := ih (by omega)
    have advanced : run heap kFreeCnt s₁ _ = _ :=
      run_advance (threads₁ ▸ quiet) reported₁ frontier₁ (by omega)
    have idle : s₁.threads[t]? = some .idle := by
      rw [threads₁, List.getElem?_eq_getElem cleaner, quiet _ (List.getElem_mem cleaner)]
    obtain ⟨acts₂, s₂, only₂, ran₂, lists₂, reported₂, frontier₂, threads₂, pushes₂⟩ :=
      drain_list (s := { s₁ with reported := r + k, frontier := r + k + 1 }) positive idle
        (by show r + k < r + k + 1; omega)
        (((reach.after_run ran).after_run advanced).decodes _)
    refine ⟨acts ++ [.advance (r + k) (r + k + 1)] ++ acts₂, s₂, ?_, ?_, ?_, by simp [reported₂],
      by simp [frontier₂], by rw [threads₂, threads₁], by rw [pushes₂, pushes₁]⟩
    · simpa [or_imp, forall_and, Action.OfCleaner] using ⟨only, only₂⟩
    · rw [run_append, run_append, ran, Option.some_bind, advanced, Option.some_bind, ran₂]
    · intro i below
      rw [lists₂, Function.update_apply]
      split_ifs with same
      · rfl
      · exact drained i (Nat.lt_of_le_of_ne (Nat.lt_succ_iff.mp below) fun at_k => same (by rw [at_k]))

/-- **Every deferred block can be freed.** From a reachable state in which no thread has an
`EpochOp`, the cleaner thread `t` alone, with epoch moves the epoch manager's contract allows,
frees every block `Free(op, ptr)` ever pushed: the lists end empty, and what was handed to
`rmb_->Free` is, counted with multiplicity, exactly what was pushed. Five rounds from
`R + 1` reach every list, and `nothing_lost` accounts for each block. -/
theorem reclamation_drains (reach : Reachable heap kFreeCnt s)
    (quiet : ∀ w ∈ s.threads, w = .idle) (cleaner : t < s.threads.length)
    (positive : 0 < kFreeCnt) (room : s.reported + 8 < 2 ^ 63) :
    ∃ acts s', (∀ a ∈ acts, a.OfCleaner t) ∧ run heap kFreeCnt s acts = some s' ∧
      (∀ j, s'.lists j = []) ∧ (s'.freed.map Freed.block : Multiset Pushed) = s.pushes := by
  have contract := (reachable_invariant reach).contract
  obtain ⟨acts, s', only, ran, drained, -, -, threads', pushes'⟩ :=
    drain_rounds positive reach quiet cleaner (r := s.reported + 1) (by omega) (by omega) 5
      (by omega)
  have empty (j : Fin kListCnt) : s'.lists j = [] := by
    have reached : popList (s.reported + 1 + (j.val + 5 - (s.reported + 1) % 5) % 5) = j :=
      Fin.ext (by have := j.isLt; simp only [popList, kListCnt] at *; omega)
    rw [← reached]
    exact drained _ (Nat.mod_lt _ (by decide))
  have none_popped : s'.threads.filterMap Worker.popped? = [] :=
    List.filterMap_eq_nil_iff.mpr fun w member => by rw [quiet w (threads' ▸ member)]; rfl
  refine ⟨acts, s', only, ran, empty, ?_⟩
  simpa [State.accounted, empty, none_popped, pushes'] using nothing_lost (reach.after_run ran)

end Rounds

end Gull.EpochZoneHeap.Reclaim
