import Gull.EpochZoneHeap.Reclaim
import Mathlib.Algebra.BigOperators.Group.Finset
import Mathlib.Data.Multiset.OrderedMonoid
import Mathlib.Tactic.Abel

/-! The reclamation of `allocator/epoch_zone_heap.cc` loses no block and frees no block twice:
a block `Free(op, ptr)` pushed is, at every moment, on a delayed-free list, popped by a cleaner
pass that is about to hand it to `rmb_->Free`, or handed over. Counted as a multiset, what is
on the lists, popped and freed is exactly what was pushed (`nothing_lost`): a pushed offset is
valid, so its index never decodes to the `0` at which the cleaner's loop stops. Hence
`freed_at_most_once`: the blocks the cleaner frees are among the pushed ones, each at most as
often as it was pushed. A pushed offset decodes to itself rounded down to a cache line, which
`IsValid` still accepts, so every offset handed to `rmb_->Free` lies in the data area
(`freed_offsets_valid`). -/
namespace Gull.EpochZoneHeap.Reclaim

open Gull.ShelfHeap

/-- The block a cleaner pass has popped and not yet handed to `rmb_->Free`. -/
def Worker.popped? {β : Type} : Worker β → Option β
  | .freeing _ _ _ block => some block
  | _ => none

/-- Every block pushed and not dropped: on a list, popped, or handed to `rmb_->Free`. -/
def State.accounted (s : State) : Multiset Pushed :=
  ∑ i, (s.lists i : Multiset Pushed) + (s.threads.filterMap Worker.popped? : Multiset Pushed) +
    (s.freed.map Freed.block : Multiset Pushed)

private theorem popped_cons (w : Worker Pushed) (l : List (Worker Pushed)) :
    ((w :: l).filterMap Worker.popped? : Multiset Pushed) =
      (w.popped?.toList : Multiset Pushed) + (l.filterMap Worker.popped? : Multiset Pushed) := by
  cases found : w.popped? <;> simp [List.filterMap_cons, found]

/-- Replacing one worker changes the popped blocks by the two workers' own. -/
private theorem popped_set {l : List (Worker Pushed)} {t : Nat} {old : Worker Pushed}
    (at_t : l[t]? = some old) (new : Worker Pushed) :
    ((l.set t new).filterMap Worker.popped? : Multiset Pushed) + (old.popped?.toList : Multiset Pushed) =
      (l.filterMap Worker.popped? : Multiset Pushed) + (new.popped?.toList : Multiset Pushed) := by
  induction l generalizing t with
  | nil => cases at_t
  | cons w rest ih =>
    cases t with
    | zero =>
      simp only [List.getElem?_cons_zero, Option.some.injEq] at at_t
      subst at_t
      simp only [List.set_cons_zero, popped_cons]
      abel
    | succ t =>
      simp only [List.set_cons_succ, popped_cons]
      rw [add_assoc, ih (by simpa using at_t), ← add_assoc]

/-- Replacing one list changes what the lists hold by the two lists. -/
private theorem lists_update (lists : Fin kListCnt → List Pushed) (j : Fin kListCnt) (v : List Pushed) :
    ∑ i, (Function.update lists j v i : Multiset Pushed) + (lists j : Multiset Pushed) =
      ∑ i, (lists i : Multiset Pushed) + (v : Multiset Pushed) := by
  have coerced : (fun i => (Function.update lists j v i : Multiset Pushed)) =
      Function.update (fun i => (lists i : Multiset Pushed)) j (v : Multiset Pushed) := by
    funext i
    exact Function.apply_update (fun _ (l : List Pushed) => (l : Multiset Pushed)) lists j v i
  rw [coerced, Finset.sum_update_of_mem (Finset.mem_univ j),
    Finset.sum_eq_add_sum_diff_singleton (Finset.mem_univ j)]
  abel

private theorem accounted_setThread {s : State} {t : Nat} {old : Worker Pushed}
    (at_t : s.threads[t]? = some old) (new : Worker Pushed) :
    (s.setThread t new).accounted + (old.popped?.toList : Multiset Pushed) =
      s.accounted + (new.popped?.toList : Multiset Pushed) := by
  have := popped_set at_t new
  simp only [State.accounted, State.setThread_lists, State.setThread_threads,
    State.setThread_freed]
  rw [add_right_comm, add_assoc _ _ (old.popped?.toList : Multiset Pushed), this]
  abel

private theorem accounted_setThread_quiet {s : State} {t : Nat} {old : Worker Pushed}
    (at_t : s.threads[t]? = some old) (none_old : old.popped? = none) (new : Worker Pushed)
    (none_new : new.popped? = none) : (s.setThread t new).accounted = s.accounted := by
  simpa [none_old, none_new] using accounted_setThread at_t new

private theorem accounted_updateLists (s : State) (j : Fin kListCnt) (v : List Pushed) :
    { s with lists := Function.update s.lists j v }.accounted + (s.lists j : Multiset Pushed) =
      s.accounted + (v : Multiset Pushed) := by
  have := lists_update s.lists j v
  simp only [State.accounted]
  rw [add_right_comm, add_right_comm _ _ (s.lists j : Multiset Pushed), this]
  abel

/-- A valid offset goes onto a stack as an index the cleaner decodes to the offset rounded down
to a cache line, which is still valid: `kMetadataSize` is a whole number of lines. -/
private theorem blockOffset_blockIndex_valid {heap : HeapSize} {offset : Word}
    (valid : isValid heap offset = true) : isValid heap (blockOffset (blockIndex offset)) = true := by
  rw [isValid_iff, kMetadataSize_toNat] at valid ⊢
  rw [blockOffset_blockIndex_toNat]
  omega

/-- A valid offset is not the `0` at which the cleaner's loop stops. -/
private theorem ne_zero_of_isValid {heap : HeapSize} {offset : Word} (valid : isValid heap offset = true) :
    offset ≠ 0 := by
  rw [isValid_iff, kMetadataSize_toNat] at valid
  rw [Ne, word_eq_zero_iff]
  omega

/-- What every reachable state satisfies: what is on the lists, popped or freed is exactly
what was pushed, and every pushed block is the encoding of an offset `IsValidOffset`
accepted. -/
structure Conserved (heap : HeapSize) (s : State) : Prop where
  accounted : s.accounted = s.pushes
  valid : ∀ b ∈ s.pushes, b.index = blockIndex b.offset ∧ isValid heap b.offset = true

/-- Every pushed block decodes to an offset `IsValidOffset` accepts. -/
private theorem Conserved.decodes_valid {heap : HeapSize} {s : State} (kept : Conserved heap s) :
    ∀ b ∈ s.pushes, isValid heap (blockOffset b.index) = true := fun b member => by
  rw [(kept.valid b member).1]
  exact blockOffset_blockIndex_valid (kept.valid b member).2

theorem Conserved.decodes {heap : HeapSize} {s : State} (kept : Conserved heap s) :
    ∀ b ∈ s.pushes, blockOffset b.index ≠ 0 :=
  fun b member => ne_zero_of_isValid (kept.decodes_valid b member)

section Preservation

variable {heap : HeapSize} {kFreeCnt : Nat} {s s' : State}

theorem Conserved.quiet (kept : Conserved heap s) (same : s'.accounted = s.accounted)
    (pushes : s'.pushes = s.pushes) : Conserved heap s' :=
  ⟨by rw [same, pushes, kept.accounted], pushes ▸ kept.valid⟩

/-- Every atomic step keeps what was pushed accounted for. -/
theorem conserved_step (kept : Conserved heap s) {a : Action}
    (stepped : step heap kFreeCnt s a = some s') : Conserved heap s' := by
  cases a with
  | enter t cleaner =>
    simp only [step] at stepped
    split at stepped
    · rename_i at_t
      split at stepped
      · cases stepped
        exact kept.quiet (accounted_setThread_quiet at_t rfl (.entered cleaner ⟨s.sections, s.frontier⟩)
          rfl) rfl
      · cases stepped
    · cases stepped
  | pin t =>
    simp only [step] at stepped
    split at stepped
    · rename_i cleaner sec at_t
      cases stepped
      cases cleaner
      · exact kept.quiet (accounted_setThread_quiet at_t rfl (.holding sec s.reported) rfl) rfl
      · exact kept.quiet (accounted_setThread_quiet at_t rfl (.cleaning sec s.reported 0) rfl) rfl
    · cases stepped
  | free t offset =>
    simp only [step] at stepped
    split at stepped
    · rename_i sec e at_t
      split at stepped
      · rename_i valid
        cases stepped
        have grown := accounted_updateLists s (pushList e)
          (⟨blockIndex offset, offset, e, s.activeIds⟩ :: s.lists (pushList e))
        rw [← Multiset.cons_coe, Multiset.add_cons, ← Multiset.cons_add] at grown
        refine ⟨?_, fun b member => ?_⟩
        · calc _ = _ ::ₘ s.accounted := add_right_cancel grown
            _ = _ := by
              dsimp only
              rw [kept.accounted, ← Multiset.coe_add, Multiset.coe_singleton, add_comm,
                Multiset.singleton_add]
        · rcases List.mem_append.mp member with old | new
          · exact kept.valid b old
          · rw [List.mem_singleton.mp new]; exact ⟨rfl, valid⟩
      · cases stepped; exact kept
    · cases stepped
  | pop t =>
    simp only [step] at stepped
    split at stepped
    · rename_i sec e count at_t
      split at stepped
      · split at stepped
        · cases stepped
          exact kept.quiet (accounted_setThread_quiet at_t rfl (.passDone sec) rfl) rfl
        · rename_i block rest head
          have shrunk := accounted_updateLists s (popList e) rest
          rw [head, ← Multiset.cons_coe, Multiset.add_cons, ← Multiset.cons_add] at shrunk
          have taken := add_right_cancel shrunk
          have pushed : block ∈ s.pushes := by
            rw [← Multiset.mem_coe, ← kept.accounted, ← taken]
            exact Multiset.mem_cons_self _ _
          split at stepped
          · rename_i dropped
            exact absurd dropped (kept.decodes block pushed)
          · cases stepped
            have handed := accounted_setThread
              (s := { s with lists := Function.update s.lists (popList e) rest }) at_t
              (.freeing sec e count block)
            simp only [Worker.popped?, Option.toList, Multiset.coe_singleton, Multiset.coe_nil,
              add_zero, add_comm _ ({block} : Multiset Pushed), Multiset.singleton_add] at handed
            exact kept.quiet (handed.trans taken) rfl
      · cases stepped
        exact kept.quiet (accounted_setThread_quiet at_t rfl (.passDone sec) rfl) rfl
    · cases stepped
  | release t =>
    simp only [step] at stepped
    split at stepped
    · rename_i sec e count block at_t
      cases stepped
      have handed := accounted_setThread at_t (.cleaning sec e (count + 1))
      simp only [Worker.popped?, Option.toList, Multiset.coe_singleton, Multiset.coe_nil,
        add_zero] at handed
      have freed : ({ s.setThread t (.cleaning sec e (count + 1)) with
          freed := s.freed ++ [⟨block, e⟩] } : State).accounted =
          (s.setThread t (.cleaning sec e (count + 1))).accounted + {block} := by
        simp [State.accounted, ← Multiset.coe_add, add_assoc]
      exact kept.quiet (freed.trans handed) rfl
    · cases stepped
  | exit t =>
    simp only [step] at stepped
    split at stepped <;> cases stepped
    all_goals
      rename_i at_t
      exact kept.quiet (accounted_setThread_quiet at_t rfl .idle rfl) rfl
  | advance r f =>
    simp only [step] at stepped
    split at stepped
    · cases stepped; exact kept.quiet rfl rfl
    · cases stepped

theorem conserved_run {acts : List Action} (kept : Conserved heap s)
    (ran : run heap kFreeCnt s acts = some s') : Conserved heap s' := by
  induction acts generalizing s with
  | nil => cases ran; exact kept
  | cons a as ih =>
    obtain ⟨s₁, stepped, ran⟩ := Option.bind_eq_some.mp ran
    exact ih (conserved_step kept stepped) ran

theorem conserved_of_reachable (reach : Reachable heap kFreeCnt s) : Conserved heap s := by
  obtain ⟨n, _, ran⟩ := reach
  have idle : (List.replicate n (Worker.idle : Worker Pushed)).filterMap Worker.popped? = [] := by
    induction n <;> simp [List.replicate_succ, Worker.popped?, *]
  exact conserved_run ⟨by simp [State.accounted, init, idle], by simp [init]⟩ ran

/-- **No deferred block is lost.** In every reachable state, what is on the delayed-free
lists, popped by a cleaner pass and not yet handed over, and handed to `rmb_->Free` is, counted
with multiplicity, exactly what `Free(op, ptr)` pushed. A pushed offset is valid, so it decodes
to at least `kMetadataSize`, and the cleaner's `offset==0` break never discards a pushed
block. -/
theorem nothing_lost (reach : Reachable heap kFreeCnt s) : s.accounted = s.pushes :=
  (conserved_of_reachable reach).accounted

/-- In every reachable state, what is on the lists, popped or freed is, counted with
multiplicity, within what `Free(op, ptr)` pushed. -/
theorem accounted_le_pushes (reach : Reachable heap kFreeCnt s) : s.accounted ≤ s.pushes :=
  (nothing_lost reach).le

/-- **The cleaner frees each deferred block at most once.** In every reachable state, the blocks
handed to `rmb_->Free` are among the blocks `Free(op, ptr)` pushed, each at most as often as
it was pushed. -/
theorem freed_at_most_once (reach : Reachable heap kFreeCnt s) :
    (s.freed.map Freed.block).Subperm s.pushes :=
  Multiset.coe_le.mp ((Multiset.le_add_left _ _).trans (accounted_le_pushes reach))

/-- **The cleaner frees only valid offsets.** In every reachable state, every offset handed to
`rmb_->Free` is one `IsValid` accepts: it is an offset `Free(op, ptr)` accepted, rounded down to
a cache line, and `kMetadataSize` is a whole number of lines. -/
theorem freed_offsets_valid (reach : Reachable heap kFreeCnt s) :
    ∀ r ∈ s.freed, isValid heap (blockOffset r.block.index) = true :=
  fun r member =>
    (conserved_of_reachable reach).decodes_valid r.block ((reachable_invariant reach).released r member).1

end Preservation

end Gull.EpochZoneHeap.Reclaim
