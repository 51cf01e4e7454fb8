import Gull.ShelfHeap.Retry

/-! The blocks that concurrent `NvHeapLayout::Alloc` calls hand out. The threaded test of
`test_shelf_heap.cc` writes into every block a call returned and later reads the value back,
which needs the blocks of different calls not to overlap. A wrapping request breaks that
(`alloc_hands_out_block_twice`). Without one, the linearization lays the blocks out left to
right: a call that returned an offset got `[offset, offset + round_up(size, kCacheLineSize))`,
after the block of every call linearized before it and inside the data area
`[kMetadataSize, kMetadataSize + heap_size]` (`blocks_ordered`). Two calls that returned
offsets therefore hold disjoint blocks (`returned_blocks_disjoint`). -/
namespace Gull.ShelfHeap.Concurrent

/-- The end of the block a linearized call was handed, in unbounded integers. -/
def LinOp.blockEnd (op : LinOp) : Nat := op.result.toNat + lineCeil op.size.toNat

/-- Two linearized calls that both returned offsets hold blocks that do not overlap. -/
def LinOp.Apart (a b : LinOp) : Prop :=
  a.result ≠ 0 → b.result ≠ 0 → a.blockEnd ≤ b.result.toNat ∨ b.blockEnd ≤ a.result.toNat

/-- The request of the call a thread is running, while the thread still needs it. -/
def PcAdmits (P : Word → Prop) : Pc → Prop
  | .retry _ size | .cas _ size _ _ => P size
  | .idle | .ret _ _ => True

/-- Every request a thread is working on, and every request that took effect, is one `P`
admits. -/
structure Requested (P : Word → Prop) (s : State) : Prop where
  running : ∀ t, PcAdmits P (s.threads t)
  linearized : ∀ op ∈ linearization s.history, P op.size

section Requests

variable {P : Word → Prop} {heapSize : Word} {s s' : State}

theorem Requested.setPc (ok : Requested P s) {t : Nat} {p : Pc} (admits : PcAdmits P p) :
    ∀ t', PcAdmits P (Function.update s.threads t p t') := by
  intro t'
  by_cases same : t' = t
  · subst same; rwa [Function.update_same]
  · rw [Function.update_noteq same]; exact ok.running t'

/-- A linearization point records the request of the call it belongs to. -/
theorem Requested.lin (ok : Requested P s) {c : Nat} {size seen r : Word} (asked : P size) :
    ∀ op ∈ linearization (s.history ++ [.lin c size seen r s.history.length]), P op.size := by
  simp only [linearization_append, Event.linOp?, Option.toList, List.mem_append,
    List.mem_singleton]
  rintro op (old | rfl)
  · exact ok.linearized op old
  · exact asked

/-- A step takes requests only from `Alloc` calls, so requests `P` admits stay the only
ones. -/
private theorem requested_step {a : Action} (ok : Requested P s)
    (admitted : ∀ t size, a = .alloc t size → P size) (stepped : step heapSize s a = some s') :
    Requested P s' := by
  have request {t : Nat} {p : Pc} (at_t : s.threads t = p) : PcAdmits P p := at_t ▸ ok.running t
  rcases step_cases stepped with
    ⟨t, size, rfl, -, rfl⟩ | ⟨t, c, size, -, retrying, -, rfl⟩ |
    ⟨t, c, size, -, retrying, -, rfl⟩ |
    ⟨t, c, size, expected, desired, -, comparing, -, rfl⟩ |
    ⟨t, c, size, expected, desired, -, comparing, -, rfl⟩ | ⟨t, c, r, -, -, rfl⟩
  · exact ⟨ok.setPc (admitted t size rfl),
      by simpa [linearization_append, Event.linOp?] using ok.linearized⟩
  · exact ⟨ok.setPc trivial, ok.lin (request retrying)⟩
  · exact ⟨ok.setPc (request retrying : P size), ok.linearized⟩
  · exact ⟨ok.setPc trivial, ok.lin (request comparing)⟩
  · exact ⟨ok.setPc (request comparing : P size), ok.linearized⟩
  · exact ⟨ok.setPc trivial, by simpa [linearization_append, Event.linOp?] using ok.linearized⟩

private theorem requested_run {acts : List Action} (ok : Requested P s)
    (admitted : ∀ t size, .alloc t size ∈ acts → P size) (ran : run heapSize s acts = some s') :
    Requested P s' := by
  induction acts generalizing s with
  | nil => cases ran; exact ok
  | cons a as ih =>
    obtain ⟨s₁, stepped, ran⟩ := Option.bind_eq_some.mp ran
    exact ih (requested_step ok (fun t size now => admitted t size (now ▸ List.mem_cons_self _ _))
      stepped) (fun t size member => admitted t size (List.mem_cons_of_mem _ member)) ran

end Requests

section Layout

variable {heap : HeapSize} {n m : Word} {size : Word}

/-- Without a wrap, `Alloc` at a cursor in range either takes the line-rounded block at the
cursor, which ends inside the data area, or refuses and leaves the cursor. -/
private theorem alloc_of_unwrapped (range : CursorInRange heap n) (small : Unwrapped heap size) :
    ((alloc heap n size).1 = n ∧
        (alloc heap n size).2.toNat = n.toNat + lineCeil size.toNat ∧
        n.toNat + lineCeil size.toNat ≤ kMetadataSize.toNat + heap.val.toNat) ∨
      ((alloc heap n size).1 = 0 ∧ (alloc heap n size).2 = n) := by
  unfold Unwrapped at small
  have fits : n.toNat + lineCeil size.toNat < 2 ^ 64 := by unfold CursorInRange at range; omega
  unfold alloc
  split
  · exact .inr ⟨rfl, rfl⟩
  · rename_i within
    exact .inl ⟨rfl, desiredNextFree_toNat fits,
      by have := mt (exceeds_iff_of_lt range fits).mpr within; omega⟩

/-- Replaying requests that do not wrap from a cursor in range lays their blocks out left to
right between that cursor and the final one. -/
private theorem replay_blocks {ops : List LinOp} (range : CursorInRange heap n)
    (sizes : ∀ op ∈ ops, Unwrapped heap op.size) (done : replay heap n ops = some m) :
    n.toNat ≤ m.toNat ∧
      (∀ op ∈ ops, op.result ≠ 0 → n.toNat ≤ op.result.toNat ∧ op.blockEnd ≤ m.toNat) ∧
      ops.Pairwise fun a b => a.result ≠ 0 → b.result ≠ 0 → a.blockEnd ≤ b.result.toNat := by
  induction ops generalizing n with
  | nil => cases done; simp
  | cons op rest ih =>
    simp only [replay] at done
    split at done
    · rename_i acts
      obtain ⟨-, result⟩ := acts
      have small := sizes op (List.mem_cons_self _ _)
      have rest_sizes := fun o member => sizes o (List.mem_cons_of_mem op member)
      rcases alloc_of_unwrapped range small with ⟨taken, moved, ends⟩ | ⟨refused, stays⟩
      · have range' : CursorInRange heap (alloc heap n op.size).2 := by
          unfold CursorInRange at range ⊢; omega
        obtain ⟨rises, later, ordered⟩ := ih range' rest_sizes done
        have at_n : op.result = n := result.symm.trans taken
        refine ⟨by omega, ?_, List.pairwise_cons.mpr ⟨fun b member _ given => ?_, ordered⟩⟩
        · intro o member given
          rcases List.mem_cons.mp member with rfl | member
          · rw [LinOp.blockEnd, at_n]; exact ⟨le_refl _, by omega⟩
          · have := later o member given; omega
        · have := later b member given
          rw [LinOp.blockEnd, at_n]
          omega
      · rw [stays] at done
        obtain ⟨rises, later, ordered⟩ := ih range rest_sizes done
        have zero : op.result = 0 := by rw [← result, refused]
        refine ⟨rises, ?_, List.pairwise_cons.mpr ⟨fun _ _ given => absurd zero given, ordered⟩⟩
        intro o member given
        rcases List.mem_cons.mp member with rfl | member
        · exact absurd zero given
        · exact later o member given
    · cases done

end Layout

/-- **Without a wrap, `Alloc` lays its blocks out left to right.** In every interleaving of any
number of threads' `Alloc` calls on `Create`'s layout whose requests do not wrap
`desired_next_free`, every call that took effect with an offset was handed a block inside the
data area, ending no later than the offset of every call with an offset linearized after
it. -/
theorem blocks_ordered {heap : HeapSize} {acts : List Action} {s : State}
    (unwrapped : ∀ t size, .alloc t size ∈ acts → Unwrapped heap size)
    (ran : run heap init acts = some s) :
    (∀ op ∈ linearization s.history, op.result ≠ 0 →
        kMetadataSize.toNat ≤ op.result.toNat ∧
          op.blockEnd ≤ kMetadataSize.toNat + heap.val.toNat) ∧
      (linearization s.history).Pairwise fun a b =>
        a.result ≠ 0 → b.result ≠ 0 → a.blockEnd ≤ b.result.toNat := by
  have inv := reachable_invariant ⟨acts, ran⟩
  have requested := requested_run (P := Unwrapped heap) (s := init)
    ⟨fun _ => trivial, by simp [init, linearization]⟩ unwrapped ran
  obtain ⟨-, later, ordered⟩ := replay_blocks ⟨le_refl _, Nat.le_add_right _ _⟩
    requested.linearized inv.replayed
  have high := inv.cursor.1.2
  exact ⟨fun op member given => by have := later op member given; omega, ordered⟩

/-- A call invoked with `size` and answered `o` took effect in the linearization with that
request and that result. -/
private theorem Invariant.handedOut {heap : HeapSize} {s : State} (inv : Invariant heap s)
    {c ti tr : Nat} {size o : Word} (invoked : .invoke c size ti ∈ s.history)
    (answered : .respond c o tr ∈ s.history) :
    ∃ op ∈ linearization s.history, op.call = c ∧ op.size = size ∧ op.result = o := by
  obtain ⟨size', ti', seen, tl, events, -⟩ := inv.responded answered
  have mine : Event.invoke c size ti ∈ callEvents s.history c := mem_callEvents.mpr ⟨invoked, rfl⟩
  rw [events] at mine
  simp only [List.mem_cons, Event.invoke.injEq, true_and, reduceCtorEq, List.not_mem_nil,
    or_false] at mine
  obtain ⟨rfl, rfl⟩ := mine
  have linearized : Event.lin c size seen o tl ∈ s.history :=
    (mem_callEvents.mp (by rw [events]; simp)).1
  exact ⟨⟨c, size, seen, o, tl⟩, mem_linearization.mpr linearized, rfl, rfl, rfl⟩

/-- **Without a wrap, two calls never hold overlapping blocks.** In every interleaving of any
number of threads' `Alloc` calls on `Create`'s layout whose requests do not wrap
`desired_next_free`, two different calls that returned non-zero offsets `o₁` and `o₂` for
requests `size₁` and `size₂` hold disjoint blocks `[o, o + round_up(size, kCacheLineSize))`,
each inside the data area. -/
theorem returned_blocks_disjoint {heap : HeapSize} {acts : List Action} {s : State}
    (unwrapped : ∀ t size, .alloc t size ∈ acts → Unwrapped heap size)
    (ran : run heap init acts = some s) {c₁ c₂ ti₁ ti₂ tr₁ tr₂ : Nat} {size₁ size₂ o₁ o₂ : Word}
    (other : c₁ ≠ c₂) (invoked₁ : .invoke c₁ size₁ ti₁ ∈ s.history)
    (answered₁ : .respond c₁ o₁ tr₁ ∈ s.history) (invoked₂ : .invoke c₂ size₂ ti₂ ∈ s.history)
    (answered₂ : .respond c₂ o₂ tr₂ ∈ s.history) (given₁ : o₁ ≠ 0) (given₂ : o₂ ≠ 0) :
    (kMetadataSize.toNat ≤ o₁.toNat ∧
        o₁.toNat + lineCeil size₁.toNat ≤ kMetadataSize.toNat + heap.val.toNat) ∧
      (o₁.toNat + lineCeil size₁.toNat ≤ o₂.toNat ∨ o₂.toNat + lineCeil size₂.toNat ≤ o₁.toNat) := by
  have inv := reachable_invariant ⟨acts, ran⟩
  obtain ⟨inside, ordered⟩ := blocks_ordered unwrapped ran
  obtain ⟨op₁, member₁, rfl, rfl, rfl⟩ := inv.handedOut invoked₁ answered₁
  obtain ⟨op₂, member₂, rfl, rfl, rfl⟩ := inv.handedOut invoked₂ answered₂
  refine ⟨inside op₁ member₁ given₁, ?_⟩
  have symmetric : Symmetric LinOp.Apart := fun _ _ either given given' =>
    (either given' given).symm
  have apart : (linearization s.history).Pairwise LinOp.Apart :=
    ordered.imp fun before given given' => .inl (before given given')
  exact apart.forall symmetric member₁ member₂ (fun same => other (congrArg LinOp.call same))
    given₁ given₂

/-- In `raced`, call 0 was handed `192` and call 1, after its failed compare-and-store,
`256`. -/
theorem returned_blocks_disjoint_after_race :
    (kMetadataSize.toNat ≤ (192 : Word).toNat ∧
        (192 : Word).toNat + lineCeil (64 : Word).toNat ≤
          kMetadataSize.toNat + oneMiB.val.toNat) ∧
      ((192 : Word).toNat + lineCeil (64 : Word).toNat ≤ (256 : Word).toNat ∨
        (256 : Word).toNat + lineCeil (64 : Word).toNat ≤ (192 : Word).toNat) :=
  @returned_blocks_disjoint oneMiB raced ((run oneMiB init raced).getD init) raced_unwrapped rfl
    0 1 0 1 5 4 64 64 192 256 (by decide) (by decide) (by decide) (by decide) (by decide)
    (by decide) (by decide)

end Gull.ShelfHeap.Concurrent
