import I2SIOExpander.Buffer

/-! The descriptor ring as the DMA engine and the interrupt handler move it. The queue is
always the last descriptors the engine finished, oldest first (`behind`), and the underflow
test fires only when all DMA_BUF_COUNT are queued, with the engine already on the oldest. -/
namespace I2SIOExpander

/-- The descriptor `j` links after `i`. -/
def ahead (i : Fin dmaBufCount) (j : Nat) : Fin dmaBufCount :=
  ⟨(i.val + j) % dmaBufCount, Nat.mod_lt _ (Nat.succ_pos 4)⟩

def walk (s : Fin dmaBufCount) (k : Nat) : List (Fin dmaBufCount) :=
  (List.range k).map (ahead s)

/-- The `k` descriptors before `c` in ring order, oldest first. -/
def behind (c : Fin dmaBufCount) (k : Nat) : List (Fin dmaBufCount) :=
  walk (ahead c (dmaBufCount - k)) k

@[simp] theorem ahead_zero (i : Fin dmaBufCount) : ahead i 0 = i :=
  Fin.ext (by simp [ahead])

theorem ahead_ahead (i : Fin dmaBufCount) (a b : Nat) : ahead (ahead i a) b = ahead i (a + b) :=
  Fin.ext (by simp [ahead]; omega)

theorem ahead_count (i : Fin dmaBufCount) : ahead i dmaBufCount = i :=
  Fin.ext (by simp [ahead])

theorem nextDesc_eq_ahead (i : Fin dmaBufCount) : nextDesc i = ahead i 1 := by
  have := i.isLt
  simp only [nextDesc, firstDesc, ahead, dmaBufCount_eq] at this ⊢
  split <;> exact Fin.ext (by simp; omega)

theorem walk_length (s : Fin dmaBufCount) (k : Nat) : (walk s k).length = k := by
  simp [walk]

theorem walk_succ (s : Fin dmaBufCount) (k : Nat) : walk s (k + 1) = walk s k ++ [ahead s k] := by
  simp [walk, List.range_succ]

theorem walk_succ_cons (s : Fin dmaBufCount) (k : Nat) :
    walk s (k + 1) = s :: walk (ahead s 1) k := by
  simp only [walk, List.range_succ_eq_map, List.map_cons, List.map_map, ahead_zero]
  congr 1
  exact List.map_congr_left fun j _ => by simp [ahead_ahead, Nat.add_comm]

@[simp] theorem behind_length (c : Fin dmaBufCount) (k : Nat) : (behind c k).length = k :=
  walk_length _ _

theorem behind_push (c : Fin dmaBufCount) {k : Nat} (hk : k < dmaBufCount) :
    behind (nextDesc c) (k + 1) = behind c k ++ [c] := by
  have start : ahead (nextDesc c) (dmaBufCount - (k + 1)) = ahead c (dmaBufCount - k) := by
    rw [nextDesc_eq_ahead, ahead_ahead]; congr 1; simp at hk ⊢; omega
  have last : ahead (ahead c (dmaBufCount - k)) k = c := by
    rw [ahead_ahead, Nat.sub_add_cancel hk.le, ahead_count]
  rw [behind, start, walk_succ, last, behind]

theorem behind_push_full (c : Fin dmaBufCount) :
    behind (nextDesc c) dmaBufCount = behind c (dmaBufCount - 1) ++ [c] :=
  behind_push c (k := dmaBufCount - 1) (by decide)

theorem behind_pop (c : Fin dmaBufCount) {k : Nat} (hk : k < dmaBufCount) :
    behind c (k + 1) = ahead c (dmaBufCount - (k + 1)) :: behind c k := by
  have next : ahead (ahead c (dmaBufCount - (k + 1))) 1 = ahead c (dmaBufCount - k) := by
    rw [ahead_ahead]; congr 1; simp at hk ⊢; omega
  rw [behind, walk_succ_cons, next, behind]

theorem behind_full (c : Fin dmaBufCount) :
    behind c dmaBufCount = c :: behind c (dmaBufCount - 1) := by
  have pop : behind c dmaBufCount = ahead c 0 :: behind c (dmaBufCount - 1) :=
    behind_pop c (by decide)
  rwa [ahead_zero] at pop

/-- The DMA side of the engine: the descriptor the DMA engine is transmitting and the
completion queue `dma.queue`, front first. -/
structure Ring where
  cur : Fin dmaBufCount
  queue : List (Fin dmaBufCount)

def queueSend (queue : List (Fin dmaBufCount)) (d : Fin dmaBufCount) : List (Fin dmaBufCount) :=
  if queue.length < dmaBufCount then queue ++ [d] else queue

/-- `i2s_intr_handler_default` for the finished descriptor: when `dma.queue` is full it
receives the front descriptor and refills it (`evictRefill`); then it sends the finished
one. Returns the evicted descriptor and the queue. -/
def i2sIntrHandlerDefault (queue : List (Fin dmaBufCount)) (finishDesc : Fin dmaBufCount) :
    Option (Fin dmaBufCount) × List (Fin dmaBufCount) :=
  if queue.length = dmaBufCount then (queue.head?, queueSend queue.tail finishDesc)
  else (none, queueSend queue finishDesc)

namespace Ring

def init : Ring := ⟨firstDesc, []⟩

/-- The engine finishes `cur` and follows its `empty` link, and the interrupt handler
runs for the finished descriptor. Also returns the descriptor it evicted. -/
def complete (r : Ring) : Option (Fin dmaBufCount) × Ring :=
  ((i2sIntrHandlerDefault r.queue r.cur).1,
    ⟨nextDesc r.cur, (i2sIntrHandlerDefault r.queue r.cur).2⟩)

def receive (r : Ring) : Option (Fin dmaBufCount × Ring) :=
  match r.queue with
  | [] => none
  | d :: rest => some (d, { r with queue := rest })

def Behind (r : Ring) : Prop :=
  r.queue.length ≤ dmaBufCount ∧ r.queue = behind r.cur r.queue.length

theorem behind_init : init.Behind := by
  simp [Behind, init, behind, walk]

theorem complete_cases {r : Ring} (inv : r.Behind) :
    (r.queue.length < dmaBufCount ∧ r.complete.1 = none ∧
        r.complete.2 = ⟨nextDesc r.cur, behind (nextDesc r.cur) (r.queue.length + 1)⟩) ∨
      (r.queue.length = dmaBufCount ∧ r.complete.1 = some r.cur ∧
        r.complete.2 = ⟨nextDesc r.cur, behind (nextDesc r.cur) dmaBufCount⟩) := by
  obtain ⟨bounded, hq⟩ := inv
  rcases Nat.lt_or_eq_of_le bounded with lt | full
  · have ne : r.queue.length ≠ dmaBufCount := Nat.ne_of_lt lt
    refine .inl ⟨lt, ?_, ?_⟩
    · simp only [complete, i2sIntrHandlerDefault, if_neg ne]
    · simp only [complete, i2sIntrHandlerDefault, queueSend, if_neg ne, if_pos lt]
      rw [behind_push _ lt, ← hq]
  · rw [full, behind_full] at hq
    have send : queueSend r.queue.tail r.cur = behind (nextDesc r.cur) dmaBufCount := by
      rw [hq, List.tail_cons, queueSend, if_pos (by rw [behind_length]; decide), behind_push_full]
    refine .inr ⟨full, ?_, ?_⟩
    · rw [complete, i2sIntrHandlerDefault, if_pos full, hq]; rfl
    · simp only [complete, i2sIntrHandlerDefault, if_pos full, send]

theorem behind_complete {r : Ring} (inv : r.Behind) : r.complete.2.Behind := by
  rcases complete_cases inv with ⟨lt, -, h⟩ | ⟨-, -, h⟩ <;> rw [h] <;> refine ⟨?_, ?_⟩ <;>
    simp only [behind_length]
  exacts [lt, le_rfl]

theorem receive_some {r r' : Ring} {d : Fin dmaBufCount} (h : r.receive = some (d, r')) :
    r.queue = d :: r'.queue ∧ r'.cur = r.cur := by
  unfold receive at h
  split at h
  · cases h
  · cases h; exact ⟨‹_›, rfl⟩

theorem behind_receive {r r' : Ring} {d : Fin dmaBufCount} (inv : r.Behind)
    (h : r.receive = some (d, r')) : r'.Behind ∧ r'.cur = r.cur ∧ r.queue = d :: r'.queue := by
  obtain ⟨hq, cur⟩ := receive_some h
  obtain ⟨bounded, hb⟩ := inv
  rw [hq, List.length_cons] at bounded hb
  rw [behind_pop _ (by omega), ← cur] at hb
  exact ⟨⟨by omega, (List.cons.inj hb).2⟩, cur, hq⟩

end Ring

/-! ### Stale buffers

A buffer is fresh when it was rewritten, by a refill pass of the feeder or by the
eviction, since its last transmission ended. With the feeder starved, the engine comes
back to `desc[0]` after DMA_BUF_COUNT completions while the queue is full for the
first time, before any eviction: the stale buffer goes out a second time. -/

structure RingState where
  ring : Ring
  fresh : Fin dmaBufCount → Bool

namespace RingState

def init : RingState := ⟨Ring.init, fun _ => true⟩

/-- The engine finishes its descriptor, whose buffer goes stale, the interrupt handler
runs, and the engine starts the next descriptor; an evicted buffer is rewritten. -/
def complete (s : RingState) : RingState :=
  { ring := s.ring.complete.2
    fresh :=
      match s.ring.complete.1 with
      | some d => Function.update (Function.update s.fresh s.ring.cur false) d true
      | none => Function.update s.fresh s.ring.cur false }

/-- One whole refill pass of `i2sIOExpanderTask` on the front of `dma.queue`. -/
def refill (s : RingState) : Option RingState :=
  match s.ring.receive with
  | some (d, ring) => some ⟨ring, Function.update s.fresh d true⟩
  | none => none

inductive RingAction
  | complete
  | refill
  deriving DecidableEq, Repr

def step (s : RingState) : RingAction → Option RingState
  | .complete => some s.complete
  | .refill => s.refill

abbrev Reachable (s : RingState) : Prop := Steps step (fun _ _ => true) init s

/-- The queue is what the engine finished last, and every stale buffer is queued. -/
structure Inv (s : RingState) : Prop where
  behind : s.ring.Behind
  staleQueued : ∀ i, s.fresh i = false → i ∈ s.ring.queue

theorem inv_init : init.Inv :=
  ⟨Ring.behind_init, fun i h => by simp [init] at h⟩

theorem inv_complete {s : RingState} (inv : s.Inv) : s.complete.Inv := by
  refine ⟨Ring.behind_complete inv.behind, fun i stale => ?_⟩
  obtain ⟨bounded, hq⟩ := inv.behind
  rcases Ring.complete_cases inv.behind with ⟨lt, ev, h⟩ | ⟨full, ev, h⟩
  · simp only [complete, ev, h, Function.update_apply] at stale ⊢
    rw [behind_push _ lt, ← hq, List.mem_append, List.mem_singleton]
    by_cases e : i = s.ring.cur
    · exact .inr e
    · simp only [e, if_false] at stale
      exact .inl (inv.staleQueued i stale)
  · simp only [complete, ev, h, Function.update_apply] at stale ⊢
    rw [full, behind_full] at hq
    by_cases e : i = s.ring.cur
    · simp [e] at stale
    · simp only [e, if_false] at stale
      have queued := inv.staleQueued i stale
      rw [hq, List.mem_cons] at queued
      rw [behind_push_full, List.mem_append]
      exact .inl (queued.resolve_left e)

theorem inv_refill {s s' : RingState} (inv : s.Inv) (h : s.refill = some s') : s'.Inv := by
  unfold refill at h
  split at h
  · rename_i d ring hr
    cases h
    obtain ⟨behind, -, hq⟩ := Ring.behind_receive inv.behind hr
    refine ⟨behind, fun i stale => ?_⟩
    simp only [Function.update_apply] at stale
    by_cases e : i = d
    · simp [e] at stale
    · simp only [e, if_false] at stale
      have queued := inv.staleQueued i stale
      rw [hq, List.mem_cons] at queued
      exact queued.resolve_left e
  · cases h

theorem Reachable.inv {s : RingState} (reach : s.Reachable) : s.Inv :=
  Steps.invariant Inv reach inv_init fun _ a _ inv _ h => by
    cases a with
    | complete => cases h; exact inv_complete inv
    | refill => exact inv_refill inv h

theorem reachable_starved (n : Nat) : (complete^[n] init).Reachable := by
  induction n with
  | zero => exact .start
  | succ n ih => rw [Function.iterate_succ_apply']; exact .step .complete ih rfl rfl

/-- The feeder receives the descriptor the engine is transmitting, and so refills its
buffer in flight, exactly when `dma.queue` is full: only a feeder a whole ring behind. -/
theorem receive_cur_iff_full {s : RingState} (reach : s.Reachable) {d : Fin dmaBufCount}
    {r : Ring} (h : s.ring.receive = some (d, r)) :
    d = s.ring.cur ↔ s.ring.queue.length = dmaBufCount := by
  obtain ⟨bounded, hq⟩ := reach.inv.behind
  obtain ⟨pop, -⟩ := Ring.receive_some h
  rw [pop, List.length_cons] at bounded hq ⊢
  rw [behind_pop _ (by omega)] at hq
  have front := (List.cons.inj hq).1
  have := s.ring.cur.isLt
  rw [front, Fin.ext_iff]
  simp only [ahead, dmaBufCount_eq] at this bounded ⊢
  omega

/-- Five completions with the feeder starved fill the queue up to `desc[0]`, which the
engine is on again: the feeder's next receive returns it. -/
theorem starved_receive_gets_cur :
    ∃ d r, (complete^[5] init).ring.receive = some (d, r) ∧
      (d = (complete^[5] init).ring.cur ↔ (complete^[5] init).ring.queue.length = dmaBufCount) :=
  ⟨_, _, rfl, receive_cur_iff_full (reachable_starved 5) rfl⟩

end RingState

end I2SIOExpander
