import Gull.EpochZoneHeap.IndexStack
import Gull.EpochZoneHeap.Progress

/-! The stacks of `IndexStack` behave as the lists of `Reclaim` as long as no cache line is
freed twice and every index fits the 32 bits of a stack head, which holds when the heap ends
by `2^38` (`Fits`).

`Chain links head l` says that following the first-word links from `head` lists the indices
`l` and ends at the empty marker `0`. `Refines` relates a state of the stacks to one of the
lists: the same epochs, sections and threads, each list's indices as the chain from its head,
and the same offsets pushed and freed. Each step of one model is matched by the same step of
the other (`refines_step`), so every run is (`refines_run`). The results of `Conservation` and
`Progress` then hold of the stacks themselves:

* `stack_frees_at_most_once`: the cleaner frees only lines some `Free` pushed, each at most
  as often as it was pushed;
* `stack_loses_nothing`: every stack is a finite chain, and what the chains, the passes and
  `rmb_->Free` hold is exactly what was pushed;
* `stack_frees_valid_offsets`: every offset handed to `rmb_->Free` is one `IsValid` accepts;
* `stacks_drain`: a cleaner schedule empties every stack and frees every pushed line.

That no line is freed twice is the spec's "duplicates forbidden", and the model has no
`Alloc` that could hand a freed line out again. A line pushed twice onto a stack points at
itself, and the cleaner then frees it on every pop. -/
namespace Gull.EpochZoneHeap.Reclaim

open Gull.ShelfHeap

/-- The index `Free(op, ptr)` pushes in a step, if it pushes one. -/
def Action.pushed? (heap : HeapSize) : Action → Option Word
  | .free _ offset => if isValid heap offset then some (blockIndex offset) else none
  | _ => none

private theorem step_pushes {heap : HeapSize} {kFreeCnt : Nat} {s s' : State} {a : Action}
    (stepped : step heap kFreeCnt s a = some s') :
    s'.pushes.map Pushed.index = s.pushes.map Pushed.index ++ (a.pushed? heap).toList := by
  cases a <;> simp only [step] at stepped <;> (repeat' split at stepped) <;> cases stepped <;>
    simp [Action.pushed?, *]

private theorem run_pushes {heap : HeapSize} {kFreeCnt : Nat} {s s' : State} {acts : List Action}
    (ran : run heap kFreeCnt s acts = some s') :
    s'.pushes.map Pushed.index = s.pushes.map Pushed.index ++ acts.filterMap (Action.pushed? heap) := by
  induction acts generalizing s with
  | nil => cases ran; simp
  | cons a as ih =>
    obtain ⟨s₁, stepped, ran⟩ := Option.bind_eq_some.mp ran
    rw [ih ran, step_pushes stepped, List.append_assoc]
    cases pushed : a.pushed? heap <;> simp [List.filterMap_cons, pushed]

@[simp] theorem Worker.popped?_map {β γ : Type} (f : β → γ) (w : Worker β) :
    (w.map f).popped? = w.popped?.map f := by
  cases w <;> rfl

end Gull.EpochZoneHeap.Reclaim

namespace Gull.EpochZoneHeap.IndexStack

open Gull.ShelfHeap
open Gull.EpochZoneHeap.Reclaim (kListCnt blockIndex blockOffset pushList popList Worker Action
  Advances Pushed Freed)

/-! ## Chains of links -/

/-- Following first-word links from `head` lists `l` and ends at the empty marker `0`. -/
inductive Chain (links : Word → Word) : Index → List Index → Prop
  | nil : Chain links 0 []
  | cons {i : Index} {l : List Index} : i ≠ 0 → Chain links ((links (slot i)).setWidth 32) l →
      Chain links i (i :: l)

section Chains

variable {links : Word → Word} {head i : Index} {l : List Index}

private theorem Chain.eq_zero (chain : Chain links head []) : head = 0 := by
  cases chain; rfl

private theorem Chain.cons_inv (chain : Chain links head (i :: l)) :
    head = i ∧ i ≠ 0 ∧ Chain links ((links (slot i)).setWidth 32) l := by
  cases chain with
  | cons nonzero rest => exact ⟨rfl, nonzero, rest⟩

/-- A write to a word that is the first word of no block on a chain keeps the chain. -/
theorem Chain.frame (chain : Chain links head l) {a : Word} (v : Word)
    (away : ∀ k ∈ l, slot k ≠ a) : Chain (Function.update links a v) head l := by
  induction chain with
  | nil => exact .nil
  | cons nonzero _ ih =>
    simp only [List.mem_cons, forall_eq_or_imp] at away
    exact .cons nonzero (by rw [Function.update_noteq away.1]; exact ih away.2)

end Chains

private theorem slot_toNat (i : Index) : (slot i).toNat = i.toNat * 64 := by
  have bound := i.isLt
  simp only [slot, blockOffset, Reclaim.minObjSize, BitVec.toNat_mul, BitVec.toNat_setWidth,
    kCacheLineSize_toNat]
  omega

/-- Distinct indices name distinct blocks: a 32-bit index times `64` does not wrap 64 bits. -/
private theorem slot_injective : Function.Injective slot := fun i k same => by
  have := congrArg BitVec.toNat same
  rw [slot_toNat, slot_toNat] at this
  exact BitVec.eq_of_toNat_eq (by omega)

section Stacks

variable {z : Stacks} {j : Fin kListCnt} {l : List Index}

private theorem Stacks.pop_empty (chain : Chain z.links (z.heads j) []) : z.pop j = (0, z) := by
  rw [Stacks.pop, if_pos chain.eq_zero]

private theorem Stacks.pop_top {i : Index} (chain : Chain z.links (z.heads j) (i :: l)) :
    z.pop j = (i.setWidth 64,
      { z with heads := Function.update z.heads j ((z.links (slot i)).setWidth 32) }) := by
  obtain ⟨head, nonzero, -⟩ := chain.cons_inv
  rw [Stacks.pop, head, if_neg nonzero]

/-- A push makes the pushed block the head of its stack, over the old chain. -/
private theorem Stacks.push_self (chain : Chain z.links (z.heads j) l) {index : Word}
    (nonzero : index.setWidth 32 ≠ 0) (fresh : index.setWidth 32 ∉ l) :
    Chain (z.push j index).links ((z.push j index).heads j) (index.setWidth 32 :: l) := by
  simp only [Stacks.push, Function.update_same]
  refine .cons nonzero ?_
  rw [Function.update_same, BitVec.setWidth_setWidth_of_le _ (by decide), BitVec.setWidth_eq]
  exact chain.frame _ fun k member same => fresh (slot_injective same ▸ member)

/-- A push keeps every other stack whose chain the pushed block is not on. -/
private theorem Stacks.push_other {j' : Fin kListCnt} (chain : Chain z.links (z.heads j') l) (other : j' ≠ j)
    {index : Word} (fresh : index.setWidth 32 ∉ l) :
    Chain (z.push j index).links ((z.push j index).heads j') l := by
  simp only [Stacks.push, Function.update_noteq other]
  exact chain.frame _ fun k member same => fresh (slot_injective same ▸ member)

end Stacks

/-! ## Indices that fit -/

/-- Every offset `IsValid` accepts has an index that fits the 32 bits of a stack head: the heap
ends by `2^32` cache lines. -/
def Fits (heap : HeapSize) : Prop := kMetadataSize.toNat + heap.val.toNat ≤ 2 ^ 38

/-- An index in `[1, 2^32)`: non-zero, and kept whole by the stack head's 32 bits. -/
def Narrow (index : Word) : Prop := 0 < index.toNat ∧ index.toNat < 2 ^ 32

private theorem narrow_blockIndex {heap : HeapSize} (fits : Fits heap) {offset : Word}
    (valid : isValid heap offset = true) : Narrow (blockIndex offset) := by
  rw [isValid_iff, kMetadataSize_toNat] at valid
  rw [Fits, kMetadataSize_toNat] at fits
  rw [Narrow, Reclaim.blockIndex_toNat]
  omega

section Narrow

variable {index other : Word}

private theorem Narrow.setWidth_setWidth (narrow : Narrow index) : (index.setWidth 32).setWidth 64 = index := by
  apply BitVec.eq_of_toNat_eq
  simp only [BitVec.toNat_setWidth, Nat.mod_eq_of_lt narrow.2]
  exact Nat.mod_eq_of_lt index.isLt

private theorem Narrow.setWidth_ne_zero (narrow : Narrow index) : index.setWidth 32 ≠ 0 := fun zero => by
  have whole := narrow.setWidth_setWidth
  rw [zero] at whole
  subst whole
  exact absurd narrow.1 (by decide)

private theorem Narrow.setWidth_inj (narrow : Narrow index) (narrow' : Narrow other)
    (same : index.setWidth 32 = other.setWidth 32) : index = other := by
  rw [← narrow.setWidth_setWidth, ← narrow'.setWidth_setWidth, same]

end Narrow

/-! ## The relation between the two models -/

/-- The offset the cleaner decodes from a record's index, `index * min_obj_size_`. -/
def decoded (p : Pushed) : Word := blockOffset p.index

/-- A record's index as its stack holds it, in 32 bits. -/
def entry (p : Pushed) : Index := p.index.setWidth 32

/-- A state of the stacks and one of the lists agree. -/
structure Refines (c : State) (s : Reclaim.State) : Prop where
  reported : c.reported = s.reported
  frontier : c.frontier = s.frontier
  sections : c.sections = s.sections
  threads : c.threads = s.threads.map (Worker.map decoded)
  lists : ∀ j, Chain c.globalList.links (c.globalList.heads j) ((s.lists j).map entry)
  deferred : c.deferred = s.pushes.map Pushed.offset
  freed : c.freed = s.freed.map fun r => decoded r.block

theorem refines_init (n : Nat) (memory : Word → Word) : Refines (init n memory) (Reclaim.init n) where
  reported := rfl
  frontier := rfl
  sections := rfl
  threads := by simp [init, Reclaim.init, Worker.map]
  lists _ := .nil
  deferred := rfl
  freed := rfl

section Step

variable {c : State} {s : Reclaim.State}

private theorem Refines.lookup (rel : Refines c s) (t : Nat) :
    c.threads[t]? = s.threads[t]?.map (Worker.map decoded) := by
  rw [rel.threads, List.getElem?_map]

theorem Refines.setThread (rel : Refines c s) (t : Nat) (w : Worker Pushed) :
    Refines (c.setThread t (w.map decoded)) (s.setThread t w) :=
  { rel with threads := by simp [State.setThread, rel.threads] }

private theorem advances_map {β γ : Type} (f : β → γ) (reported frontier : Nat) (threads : List (Worker β))
    (r f' : Nat) :
    Advances reported frontier (threads.map (Worker.map f)) r f' ↔ Advances reported frontier threads r f' := by
  simp [Advances, List.forall_mem_map]

/-- Every record pushed so far has an index that fits. -/
def NarrowPushes (s : Reclaim.State) : Prop := ∀ p ∈ s.pushes, Narrow p.index

private theorem narrowPushes_of_conserved {heap : HeapSize} (fits : Fits heap) (kept : Reclaim.Conserved heap s) :
    NarrowPushes s := fun p pushed => by
  obtain ⟨encoded, valid⟩ := kept.valid p pushed
  exact encoded ▸ narrow_blockIndex fits valid

theorem Refines.pop_empty (rel : Refines c s) {j : Fin kListCnt} (empty : s.lists j = []) :
    c.globalList.pop j = (0, c.globalList) :=
  Stacks.pop_empty (by simpa [empty] using rel.lists j)

/-- Popping a stack takes the head record's index and leaves the chain of the rest. -/
theorem Refines.pop_top (rel : Refines c s) {j : Fin kListCnt} {block : Pushed} {rest : List Pushed}
    (top : s.lists j = block :: rest) (narrow : Narrow block.index) :
    (c.globalList.pop j).1 = block.index ∧
      Refines { c with globalList := (c.globalList.pop j).2 }
        { s with lists := Function.update s.lists j rest } := by
  have chain := rel.lists j
  rw [top, List.map_cons] at chain
  rw [Stacks.pop_top chain]
  refine ⟨narrow.setWidth_setWidth, { rel with lists := fun j' => ?_ }⟩
  by_cases same : j' = j
  · subst same
    simpa using (chain.cons_inv).2.2
  · simpa [Function.update_noteq same] using rel.lists j'

/-- A push of a fresh index that fits puts its record on top of its list's chain. -/
theorem Refines.push (rel : Refines c s) (narrowed : NarrowPushes s) (inv : Reclaim.Invariant s)
    (e : Nat) {p : Pushed} (narrow : Narrow p.index) (fresh : p.index ∉ s.pushes.map Pushed.index) :
    Refines { c with
        globalList := c.globalList.push (pushList e) p.index
        deferred := c.deferred ++ [p.offset] }
      { s with
        lists := Function.update s.lists (pushList e) (p :: s.lists (pushList e))
        pushes := s.pushes ++ [p] } := by
  have away (j : Fin kListCnt) : p.index.setWidth 32 ∉ (s.lists j).map entry := fun member => by
    obtain ⟨q, queued, same⟩ := List.mem_map.mp member
    have pushed := (inv.queued j q queued).1
    have := (narrowed q pushed).setWidth_inj narrow same
    exact fresh (List.mem_map.mpr ⟨q, pushed, this⟩)
  refine { rel with
    lists := fun j => ?_
    deferred := by simp [rel.deferred]
    freed := rel.freed }
  by_cases same : j = pushList e
  · subst same
    simpa [entry] using Stacks.push_self (rel.lists _) narrow.setWidth_ne_zero (away _)
  · simpa [Function.update_noteq same] using Stacks.push_other (rel.lists j) same (away j)

variable {heap : HeapSize} {kFreeCnt : Nat}

/-- **One step of the stacks does what one step of the lists does.** From related states in
which every pushed index fits, and when `Free` pushes an index no earlier `Free` pushed, the
same action steps both models or neither, and the states it reaches are related. -/
theorem refines_step (fits : Fits heap) (rel : Refines c s) (inv : Reclaim.Invariant s)
    (kept : Reclaim.Conserved heap s) (a : Action)
    (fresh : ∀ i ∈ a.pushed? heap, i ∉ s.pushes.map Pushed.index) :
    Option.Rel Refines (step heap kFreeCnt c a) (Reclaim.step heap kFreeCnt s a) := by
  have narrowed := narrowPushes_of_conserved fits kept
  cases a with
  | enter t cleaner =>
    simp only [step, Reclaim.step, rel.lookup, rel.reported, rel.frontier, rel.sections]
    cases s.threads[t]? with
    | none => exact .none
    | some w =>
      cases w
      case idle =>
        by_cases entering : s.reported < s.frontier
        · simp only [Option.map_some', Worker.map, if_pos entering]
          exact .some { rel.setThread t (.entered cleaner ⟨s.sections, s.frontier⟩) with
            sections := by simp [rel.sections] }
        · simp only [Option.map_some', Worker.map, if_neg entering]
          exact .none
      all_goals exact .none
  | pin t =>
    simp only [step, Reclaim.step, rel.lookup, rel.reported]
    cases s.threads[t]? with
    | none => exact .none
    | some w =>
      cases w
      case entered cleaner sec =>
        cases cleaner
        · exact .some (rel.setThread t (.holding sec s.reported))
        · exact .some (rel.setThread t (.cleaning sec s.reported 0))
      all_goals exact .none
  | free t offset =>
    simp only [step, Reclaim.step, rel.lookup]
    cases s.threads[t]? with
    | none => exact .none
    | some w =>
      cases w
      case holding sec e =>
        by_cases valid : isValid heap offset = true
        · simp only [Option.map_some', Worker.map, valid, if_true]
          exact .some (rel.push narrowed inv e (p := ⟨blockIndex offset, offset, e, s.activeIds⟩)
            (narrow_blockIndex fits valid) (fresh _ (by simp [Action.pushed?, valid])))
        · simp only [Option.map_some', Worker.map, valid]
          exact .some rel
      all_goals exact .none
  | pop t =>
    simp only [step, Reclaim.step, rel.lookup]
    cases s.threads[t]? with
    | none => exact .none
    | some w =>
      cases w
      case cleaning sec e count =>
        simp only [Option.map_some', Worker.map]
        by_cases more : count < kFreeCnt
        · simp only [if_pos more]
          cases top : s.lists (popList e) with
          | nil =>
            simp only [rel.pop_empty top, blockOffset, BitVec.zero_mul, if_true]
            exact .some (rel.setThread t (.passDone sec))
          | cons block rest =>
            have narrow := narrowed block (inv.queued _ block (top ▸ List.mem_cons_self _ _)).1
            obtain ⟨index, rel'⟩ := rel.pop_top top narrow
            simp only [index]
            by_cases dropped : blockOffset block.index = 0
            · simp only [if_pos dropped]
              exact .some (rel'.setThread t (.passDone sec))
            · simp only [if_neg dropped]
              exact .some (rel'.setThread t (.freeing sec e count block))
        · simp only [if_neg more]
          exact .some (rel.setThread t (.passDone sec))
      all_goals exact .none
  | release t =>
    simp only [step, Reclaim.step, rel.lookup]
    cases s.threads[t]? with
    | none => exact .none
    | some w =>
      cases w
      case freeing sec e count block =>
        exact .some { rel.setThread t (.cleaning sec e (count + 1)) with
          freed := by simp [rel.freed, decoded] }
      all_goals exact .none
  | exit t =>
    simp only [step, Reclaim.step, rel.lookup]
    cases s.threads[t]? with
    | none => exact .none
    | some w =>
      cases w
      case holding | passDone => exact .some (rel.setThread t .idle)
      all_goals exact .none
  | advance r f =>
    simp only [step, Reclaim.step, rel.reported, rel.frontier, rel.threads, advances_map]
    by_cases advances : Advances s.reported s.frontier s.threads r f
    · simp only [if_pos advances]
      exact .some { rel with reported := rfl, frontier := rfl, threads := rfl }
    · simp only [if_neg advances]
      exact .none

private theorem rel_of_none {α β : Type} {r : α → β → Prop} {x : Option α}
    (related : Option.Rel r x none) : x = none := by
  cases related; rfl

private theorem rel_of_some {α β : Type} {r : α → β → Prop} {x : Option α} {b : β}
    (related : Option.Rel r x (some b)) : ∃ a, x = some a ∧ r a b := by
  cases related with
  | some holds => exact ⟨_, rfl, holds⟩

private theorem rel_of_some_left {α β : Type} {r : α → β → Prop} {a : α} {y : Option β}
    (related : Option.Rel r (some a) y) : ∃ b, y = some b ∧ r a b := by
  cases related with
  | some holds => exact ⟨_, rfl, holds⟩

/-- **Every run of the stacks is a run of the lists.** From related states, a run in which no
`Free` pushes an index pushed before either runs in both models or in neither, and it ends in
related states. -/
theorem refines_run (fits : Fits heap) {acts : List Action} (rel : Refines c s)
    (reach : Reclaim.Reachable heap kFreeCnt s)
    (careful : (s.pushes.map Pushed.index ++ acts.filterMap (Action.pushed? heap)).Nodup) :
    Option.Rel Refines (run heap kFreeCnt c acts) (Reclaim.run heap kFreeCnt s acts) := by
  induction acts generalizing c s with
  | nil => exact .some rel
  | cons a as ih =>
    have fresh : ∀ i ∈ a.pushed? heap, i ∉ s.pushes.map Pushed.index := fun i mine pushed =>
      (List.nodup_append.mp careful).2.2 pushed (List.mem_filterMap.mpr ⟨a, List.mem_cons_self _ _, mine⟩)
    have sim : Option.Rel Refines (step heap kFreeCnt c a) (Reclaim.step heap kFreeCnt s a) :=
      refines_step fits rel (Reclaim.reachable_invariant reach) (Reclaim.conserved_of_reachable reach) a
        fresh
    simp only [run, Reclaim.run]
    cases stepped : Reclaim.step heap kFreeCnt s a with
    | none =>
      rw [stepped] at sim
      rw [rel_of_none sim]
      exact .none
    | some s₁ =>
      rw [stepped] at sim
      obtain ⟨c₁, stepped_c, rel₁⟩ := rel_of_some sim
      rw [stepped_c]
      refine ih rel₁ (reach.after_run (by simp [Reclaim.run, stepped] : Reclaim.run heap kFreeCnt s [a] = some s₁)) ?_
      rw [Reclaim.step_pushes stepped, List.append_assoc]
      cases pushed : a.pushed? heap <;> simpa [List.filterMap_cons, pushed] using careful

end Step

/-! ## The results on the stacks -/

/-- A state that a run of the stacks reaches from `init`, whatever the blocks' first words
held, in which no `Free` pushes a cache line pushed before. -/
def Reachable (heap : HeapSize) (kFreeCnt : Nat) (c : State) : Prop :=
  ∃ n memory acts, (acts.filterMap (Action.pushed? heap)).Nodup ∧
    run heap kFreeCnt (init n memory) acts = some c

/-- Without the condition a line freed twice links to itself, and three rounds of the cleaner's
loop hand `rmb_->Free` the line at `192` three times after two `Free`s. -/
example :
    (run Concurrent.oneMiB 8 (init 2 fun _ => 0)
      [.advance 0 1, .enter 0 false, .pin 0, .free 0 192, .free 0 192, .exit 0, .advance 3 4,
        .enter 1 true, .pin 1, .pop 1, .release 1, .pop 1, .release 1, .pop 1, .release 1]).map
      (fun c => (c.deferred, c.freed)) = some ([192, 192], [192, 192, 192]) := by
  decide

instance (heap : HeapSize) : Decidable (Fits heap) := inferInstanceAs (Decidable (_ ≤ _))

section Transfer

variable {heap : HeapSize} {kFreeCnt : Nat} {c : State}

/-- Every reachable state of the stacks is related to a reachable state of the lists, one whose
pushed indices are distinct. -/
theorem Reachable.refines (fits : Fits heap) (reach : Reachable heap kFreeCnt c) :
    ∃ s, Reclaim.Reachable heap kFreeCnt s ∧ Refines c s ∧ (s.pushes.map Pushed.index).Nodup := by
  obtain ⟨n, memory, acts, careful, ran⟩ := reach
  have sim := refines_run fits (refines_init n memory)
    (⟨n, [], rfl⟩ : Reclaim.Reachable heap kFreeCnt (Reclaim.init n)) (by simpa [Reclaim.init] using careful)
  rw [ran] at sim
  obtain ⟨s, ran', rel⟩ := rel_of_some_left sim
  refine ⟨s, ⟨n, acts, ran'⟩, rel, ?_⟩
  rw [Reclaim.run_pushes ran']
  simpa [Reclaim.init] using careful

/-- The lines pushed so far, as the cleaner decodes them, are the records' decoded offsets. -/
private theorem Refines.decoded_pushes {s : Reclaim.State} (rel : Refines c s) (inv : Reclaim.Invariant s) :
    c.deferred.map (fun o => blockOffset (blockIndex o)) = s.pushes.map decoded := by
  rw [rel.deferred, List.map_map]
  exact List.map_congr_left fun p pushed => by simp [decoded, inv.encoded p pushed]

/-- Decoding keeps distinct indices that fit distinct: `index * 64` does not wrap. -/
private theorem blockOffset_inj {index other : Word} (narrow : Narrow index) (narrow' : Narrow other)
    (same : blockOffset index = blockOffset other) : index = other := by
  rw [← narrow.setWidth_setWidth, ← narrow'.setWidth_setWidth] at same ⊢
  rw [slot_injective same]

/-- **The stacks free each deferred line at most once.** On a heap whose indices fit 32 bits,
in every reachable state of the stacks, the offsets handed to `rmb_->Free` are distinct, and
they are offsets `Free(op, ptr)` pushed, rounded down to their cache line. -/
theorem stack_frees_at_most_once (fits : Fits heap) (reach : Reachable heap kFreeCnt c) :
    c.freed.Nodup ∧ c.freed.Subperm (c.deferred.map fun o => blockOffset (blockIndex o)) := by
  obtain ⟨s, reach', rel, distinct⟩ := reach.refines fits
  have narrowed := narrowPushes_of_conserved fits (Reclaim.conserved_of_reachable reach')
  obtain ⟨l, perm, sub⟩ := Reclaim.freed_at_most_once reach'
  have decodedMap : s.freed.map (fun r => decoded r.block) = (s.freed.map Freed.block).map decoded := by
    simp [Function.comp_def]
  rw [rel.freed, rel.decoded_pushes (Reclaim.reachable_invariant reach'), decodedMap]
  refine ⟨(perm.map decoded).nodup_iff.mp ?_, l.map decoded, perm.map decoded, sub.map decoded⟩
  have decodes : ∀ x ∈ l.map Pushed.index, ∀ y ∈ l.map Pushed.index,
      blockOffset x = blockOffset y → x = y := fun x xin y yin => by
    obtain ⟨p, pin, rfl⟩ := List.mem_map.mp xin
    obtain ⟨q, qin, rfl⟩ := List.mem_map.mp yin
    exact blockOffset_inj (narrowed p (sub.subset pin)) (narrowed q (sub.subset qin))
  simpa [decoded, Function.comp_def] using ((sub.map Pushed.index).nodup distinct).map_on decodes

/-- **The stacks hand `rmb_->Free` only valid offsets.** On a heap whose indices fit 32 bits,
in every reachable state of the stacks, every offset handed to `rmb_->Free` is one
`IsValid` accepts. -/
theorem stack_frees_valid_offsets (fits : Fits heap) (reach : Reachable heap kFreeCnt c) :
    ∀ o ∈ c.freed, isValid heap o = true := by
  obtain ⟨s, reach', rel, -⟩ := reach.refines fits
  rw [rel.freed]
  simpa [decoded] using Reclaim.freed_offsets_valid reach'

/-- **No line on the stacks is lost.** On a heap whose indices fit 32 bits, in every reachable
state of the stacks, following the links from each head ends at `0` after finitely many
blocks, and those blocks, the ones cleaner passes popped and have not handed over, and the
ones handed to `rmb_->Free` are, counted with multiplicity, exactly the lines `Free(op, ptr)`
pushed. -/
theorem stack_loses_nothing (fits : Fits heap) (reach : Reachable heap kFreeCnt c) :
    ∃ chains : Fin kListCnt → List Index,
      (∀ j, Chain c.globalList.links (c.globalList.heads j) (chains j)) ∧
      ∑ j, ((chains j).map slot : Multiset Word) +
          (c.threads.filterMap Reclaim.Worker.popped? : Multiset Word) + (c.freed : Multiset Word) =
        (c.deferred.map fun o => blockOffset (blockIndex o) : Multiset Word) := by
  obtain ⟨s, reach', rel, -⟩ := reach.refines fits
  have inv := Reclaim.reachable_invariant reach'
  have narrowed := narrowPushes_of_conserved fits (Reclaim.conserved_of_reachable reach')
  refine ⟨fun j => (s.lists j).map entry, rel.lists, ?_⟩
  have slots (j : Fin kListCnt) : ((s.lists j).map entry).map slot = (s.lists j).map decoded := by
    rw [List.map_map]
    exact List.map_congr_left fun p queued => by
      simp [slot, entry, decoded, (narrowed p (inv.queued j p queued).1).setWidth_setWidth]
  have whole := congrArg (Multiset.map decoded) (Reclaim.nothing_lost reach')
  simp only [Reclaim.State.accounted, Multiset.map_add, ← Multiset.coe_mapAddMonoidHom,
    map_sum] at whole
  simp only [Multiset.coe_mapAddMonoidHom, Multiset.map_coe, List.map_map] at whole
  simp only [slots, rel.threads, rel.freed, rel.decoded_pushes inv, ← whole]
  simp [List.map_filterMap, Function.comp_def]

/-- **A cleaner schedule empties every stack.** On a heap whose indices fit 32 bits, from a
reachable state of the stacks in which no thread has an `EpochOp`, the cleaner thread `t`
alone, with epoch moves the epoch manager's contract allows, leaves every stack head `0` and
hands `rmb_->Free` exactly the lines `Free(op, ptr)` pushed, counted with multiplicity. -/
theorem stacks_drain (fits : Fits heap) (reach : Reachable heap kFreeCnt c)
    (quiet : ∀ w ∈ c.threads, w = .idle) {t : Nat} (cleaner : t < c.threads.length)
    (positive : 0 < kFreeCnt) (room : c.reported + 8 < 2 ^ 63) :
    ∃ acts c', (∀ a ∈ acts, a.OfCleaner t) ∧ run heap kFreeCnt c acts = some c' ∧
      (∀ j, c'.globalList.heads j = 0) ∧
      (c'.freed : Multiset Word) = (c.deferred.map fun o => blockOffset (blockIndex o) : Multiset Word) := by
  obtain ⟨s, reach', rel, distinct⟩ := reach.refines fits
  have quiet' : ∀ w ∈ s.threads, w = .idle := fun w member => by
    have idle := quiet _ (rel.threads ▸ List.mem_map_of_mem _ member)
    cases w <;> first | rfl | cases idle
  obtain ⟨acts, s', only, ran, empty, freed⟩ := Reclaim.reclamation_drains reach' quiet'
    (by simpa [rel.threads] using cleaner) positive (rel.reported ▸ room)
  have noFrees : acts.filterMap (Action.pushed? heap) = [] :=
    List.filterMap_eq_nil_iff.mpr fun a member => by
      cases a
      case free => exact (only _ member).elim
      all_goals rfl
  have sim := refines_run fits rel reach' (by rw [noFrees, List.append_nil]; exact distinct)
  rw [ran] at sim
  obtain ⟨c', ran_c, rel'⟩ := rel_of_some sim
  refine ⟨acts, c', only, ran_c, fun j => (by simpa [empty j] using rel'.lists j : Chain _ _ []).eq_zero, ?_⟩
  rw [rel'.freed, rel.decoded_pushes (Reclaim.reachable_invariant reach')]
  simpa [Function.comp_def] using congrArg (Multiset.map decoded) freed

end Transfer

theorem stack_frees_at_most_once_of_deferred :
    ((run Concurrent.oneMiB 8 (init 2 fun _ => 0) Reclaim.deferred).getD (init 2 fun _ => 0)).freed =
      [192] ∧
    ((run Concurrent.oneMiB 8 (init 2 fun _ => 0) Reclaim.deferred).getD (init 2 fun _ => 0)).freed.Nodup ∧
    ((run Concurrent.oneMiB 8 (init 2 fun _ => 0) Reclaim.deferred).getD (init 2 fun _ => 0)).freed.Subperm
      (((run Concurrent.oneMiB 8 (init 2 fun _ => 0) Reclaim.deferred).getD (init 2 fun _ => 0)).deferred.map
        fun o => blockOffset (blockIndex o)) :=
  ⟨by decide, stack_frees_at_most_once (by decide)
    (⟨2, fun _ => 0, Reclaim.deferred, by decide, rfl⟩ : Reachable Concurrent.oneMiB 8 _)⟩

theorem stack_frees_valid_offsets_of_deferred :
    ((run Concurrent.oneMiB 8 (init 2 fun _ => 0) Reclaim.deferred).getD (init 2 fun _ => 0)).freed =
      [192] ∧
    ∀ o ∈ ((run Concurrent.oneMiB 8 (init 2 fun _ => 0) Reclaim.deferred).getD (init 2 fun _ => 0)).freed,
      isValid Concurrent.oneMiB o = true :=
  ⟨by decide, stack_frees_valid_offsets (by decide)
    (⟨2, fun _ => 0, Reclaim.deferred, by decide, rfl⟩ : Reachable Concurrent.oneMiB 8 _)⟩

/-- After the `Free` of `Reclaim.deferred` and before its cleaner pass, list `3` holds index
`3`, the line at offset `192`, whose first word links to the empty marker. -/
theorem stack_loses_nothing_before_cleaning :
    ((run Concurrent.oneMiB 8 (init 2 fun _ => 0) (Reclaim.deferred.take 5)).getD
      (init 2 fun _ => 0)).globalList.heads (pushList 0) = 3 ∧
    ∃ chains : Fin kListCnt → List Index,
      (∀ j, Chain ((run Concurrent.oneMiB 8 (init 2 fun _ => 0) (Reclaim.deferred.take 5)).getD
          (init 2 fun _ => 0)).globalList.links
        (((run Concurrent.oneMiB 8 (init 2 fun _ => 0) (Reclaim.deferred.take 5)).getD
          (init 2 fun _ => 0)).globalList.heads j) (chains j)) ∧
      ∑ j, ((chains j).map slot : Multiset Word) +
          (((run Concurrent.oneMiB 8 (init 2 fun _ => 0) (Reclaim.deferred.take 5)).getD
            (init 2 fun _ => 0)).threads.filterMap Reclaim.Worker.popped? : Multiset Word) +
          (((run Concurrent.oneMiB 8 (init 2 fun _ => 0) (Reclaim.deferred.take 5)).getD
            (init 2 fun _ => 0)).freed : Multiset Word) =
        (((run Concurrent.oneMiB 8 (init 2 fun _ => 0) (Reclaim.deferred.take 5)).getD
          (init 2 fun _ => 0)).deferred.map fun o => blockOffset (blockIndex o) : Multiset Word) :=
  ⟨by decide, stack_loses_nothing (by decide)
    (⟨2, fun _ => 0, Reclaim.deferred.take 5, by decide, rfl⟩ : Reachable Concurrent.oneMiB 8 _)⟩

/-- After the `Free` of `Reclaim.deferred`, with both threads out of their sections, cleaner
thread `1` can empty the stacks. -/
theorem stacks_drain_of_deferred :
    (∀ w ∈ ((run Concurrent.oneMiB 8 (init 2 fun _ => 0) (Reclaim.deferred.take 5)).getD
      (init 2 fun _ => 0)).threads, w = .idle) ∧
    ∃ acts c', (∀ a ∈ acts, a.OfCleaner 1) ∧
      run Concurrent.oneMiB 8 ((run Concurrent.oneMiB 8 (init 2 fun _ => 0)
        (Reclaim.deferred.take 5)).getD (init 2 fun _ => 0)) acts = some c' ∧
      (∀ j, c'.globalList.heads j = 0) ∧
      (c'.freed : Multiset Word) = (((run Concurrent.oneMiB 8 (init 2 fun _ => 0)
        (Reclaim.deferred.take 5)).getD (init 2 fun _ => 0)).deferred.map
          fun o => blockOffset (blockIndex o) : Multiset Word) :=
  ⟨by decide, stacks_drain (by decide)
    (⟨2, fun _ => 0, Reclaim.deferred.take 5, by decide, rfl⟩ : Reachable Concurrent.oneMiB 8 _)
    (by decide) (by decide) (by decide) (by decide)⟩

end Gull.EpochZoneHeap.IndexStack
