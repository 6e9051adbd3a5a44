import I2SIOExpander.Ring

/-! The I2S bitstream the driver produces, with each refill pass one step (`writePass`).
While the feeder keeps up, so that the engine never moves onto a descriptor queued or
being refilled, the bitstream is the zeroed buffers of `i2s_ioexpander_init` followed by
the words of the passes in the order they ended. -/
namespace I2SIOExpander

/-- The driver as the bitstream sees it: the ring, the descriptors, the descriptor of the
refill pass in progress, the port word, and two ghost records: the samples the engine has
sent, and the words of every pass that has ended. -/
structure Bitstream where
  ring : Ring
  desc : Fin dmaBufCount → Lldesc
  filling : Option (Fin dmaBufCount)
  portData : BitVec 32
  sent : List (BitVec 32)
  passes : List (List (BitVec 32))

inductive BitstreamAction
  | complete
  | receive
  | finish (ws : List (BitVec 32))
  | passthrough
  | write (pin val : Nat)
  deriving DecidableEq, Repr

namespace Bitstream

/-- `i2s_ioexpander_init` and `i2s_start`: zeroed buffers (`heap_caps_calloc`) of length
DMA_BUF_LEN linked in ring order, the engine on `desc[0]`, nothing queued. -/
def init (portData : BitVec 32) : Bitstream :=
  ⟨Ring.init, fun i => ⟨fun _ => 0, dmaBufLen, nextDesc i⟩, none, portData, [], []⟩

/-- The engine sends its descriptor and moves on; the interrupt handler queues it and, on
an underflow, refills the evicted descriptor. -/
def complete (s : Bitstream) : Bitstream :=
  { s with
    ring := s.ring.complete.2
    desc :=
      match s.ring.complete.1 with
      | some d => Function.update s.desc d (evictRefill s.portData (s.desc d))
      | none => s.desc
    sent := s.sent ++ transmitted (s.desc s.ring.cur) }

/-- The refill pass in progress ends: `refill` rewrites its descriptor, which stored `ws`. -/
def endPass (s : Bitstream) (refill : Lldesc → Lldesc) (ws : List (BitVec 32)) :
    Option Bitstream :=
  match s.filling with
  | some d =>
    some { s with desc := Function.update s.desc d (refill (s.desc d)), filling := none,
                  passes := s.passes ++ [ws] }
  | none => none

/-- One step of the bitstream. A STEPPING pass stores at most DMA_SAMPLE_COUNT words
(`Pulser.pass_words`), so `finish` admits no more. -/
def step (s : Bitstream) : BitstreamAction → Option Bitstream
  | .complete => some s.complete
  | .receive =>
    match s.filling, s.ring.receive with
    | none, some (d, ring) => some { s with ring, filling := some d }
    | _, _ => none
  | .finish ws => if ws.length ≤ dmaSampleCount then s.endPass (writePass · ws) ws else none
  | .passthrough =>
    s.endPass (passthroughRefill s.portData) (List.replicate dmaSampleCount s.portData)
  | .write pin val => some { s with portData := i2sIoexpanderWrite s.portData pin val }

@[simp] theorem complete_ring (s : Bitstream) : s.complete.ring = s.ring.complete.2 := rfl
@[simp] theorem complete_filling (s : Bitstream) : s.complete.filling = s.filling := rfl
@[simp] theorem complete_passes (s : Bitstream) : s.complete.passes = s.passes := rfl

theorem endPass_some {s s' : Bitstream} {refill : Lldesc → Lldesc} {ws : List (BitVec 32)}
    (h : s.endPass refill ws = some s') :
    ∃ d, s.filling = some d ∧
      s' = { s with desc := Function.update s.desc d (refill (s.desc d)), filling := none,
                    passes := s.passes ++ [ws] } := by
  unfold endPass at h
  split at h
  · cases h; exact ⟨_, ‹_›, rfl⟩
  · cases h

theorem step_receive_some {s s' : Bitstream} (h : s.step .receive = some s') :
    ∃ d ring, s.filling = none ∧ s.ring.receive = some (d, ring) ∧
      s' = { s with ring, filling := some d } := by
  simp only [step] at h
  split at h
  · cases h; exact ⟨_, _, ‹_›, ‹_›, rfl⟩
  · cases h

theorem step_finish_some {s s' : Bitstream} {ws : List (BitVec 32)}
    (h : s.step (.finish ws) = some s') :
    ws.length ≤ dmaSampleCount ∧ s.endPass (writePass · ws) ws = some s' := by
  simp only [step] at h
  split at h
  · exact ⟨‹_›, h⟩
  · cases h

theorem step_passthrough (s : Bitstream) :
    s.step .passthrough = s.step (.finish (List.replicate dmaSampleCount s.portData)) := by
  have refill : passthroughRefill s.portData =
      (writePass · (List.replicate dmaSampleCount s.portData)) :=
    funext (passthroughRefill_eq_writePass _)
  simp only [step, List.length_replicate, le_refl, if_true, refill]

/-! ### Lengths -/

def LengthsFit (s : Bitstream) : Prop := ∀ i, (s.desc i).length ≤ dmaBufLen

theorem lengthsFit_update {desc : Fin dmaBufCount → Lldesc} (fit : ∀ i, (desc i).length ≤ dmaBufLen)
    (d : Fin dmaBufCount) {x : Lldesc} (hx : x.length ≤ dmaBufLen) (i : Fin dmaBufCount) :
    (Function.update desc d x i).length ≤ dmaBufLen := by
  rw [Function.update_apply]
  split
  · exact hx
  · exact fit i

theorem lengthsFit_step {s s' : Bitstream} {a : BitstreamAction} (fit : s.LengthsFit)
    (h : s.step a = some s') : s'.LengthsFit := by
  cases a with
  | complete =>
    cases h
    unfold LengthsFit complete
    split
    · exact lengthsFit_update fit _ le_rfl
    · exact fit
  | receive =>
    obtain ⟨d, ring, -, -, rfl⟩ := step_receive_some h
    exact fit
  | finish ws =>
    obtain ⟨fits, h⟩ := step_finish_some h
    obtain ⟨d, -, rfl⟩ := endPass_some h
    refine lengthsFit_update fit d ?_
    simp only [writePass, dmaSampleCount_eq, i2sSampleSize_eq, dmaBufLen_eq] at fits ⊢
    omega
  | passthrough =>
    obtain ⟨d, -, rfl⟩ := endPass_some h
    exact lengthsFit_update fit d le_rfl
  | write pin val =>
    cases h
    exact fit

theorem lengthsFit_of_steps {ok : Bitstream → BitstreamAction → Bool} {w : BitVec 32}
    {s : Bitstream}
    (reach : Steps step ok (init w) s) : s.LengthsFit :=
  reach.invariant LengthsFit (fun _ => le_rfl) fun _ _ _ fit _ h => lengthsFit_step fit h

/-! ### Delivery -/

/-- The feeder keeps up: the engine never moves onto a descriptor that is still in
`dma.queue` or whose refill pass is in progress. -/
def keepsUp (s : Bitstream) : BitstreamAction → Bool
  | .complete =>
    nextDesc s.ring.cur ∉ s.ring.complete.2.queue ∧ s.filling ≠ some (nextDesc s.ring.cur)
  | _ => true

/-- How many descriptors from the engine's on hold content still to be sent: the ring
less the queued descriptors and the one being refilled. -/
def readyCount (s : Bitstream) : Nat :=
  match s.filling with
  | none => dmaBufCount - s.ring.queue.length
  | some _ => dmaBufCount - (s.ring.queue.length + 1)

theorem readyCount_none {s : Bitstream} (h : s.filling = none) :
    s.readyCount = dmaBufCount - s.ring.queue.length := by
  rw [readyCount, h]

theorem readyCount_some {s : Bitstream} {d : Fin dmaBufCount} (h : s.filling = some d) :
    s.readyCount = dmaBufCount - (s.ring.queue.length + 1) := by
  rw [readyCount, h]

def pending (s : Bitstream) : List (BitVec 32) :=
  (walk s.ring.cur s.readyCount).flatMap fun d => transmitted (s.desc d)

def initialSamples : List (BitVec 32) := List.replicate (dmaBufCount * dmaSampleCount) 0

/-- The queue is what the engine finished last; the descriptor being refilled is the one
received last, just before the queue; one descriptor at least is ready; and what was sent,
followed by what is ready, is the initial buffers followed by the passes. -/
structure Delivers (s : Bitstream) : Prop where
  behind : s.ring.Behind
  filling : ∀ d, s.filling = some d → d = ahead s.ring.cur (dmaBufCount - (s.ring.queue.length + 1))
  ready : 0 < s.readyCount
  stream : s.sent ++ s.pending = initialSamples ++ s.passes.flatten

theorem ahead_eq_ahead {c : Fin dmaBufCount} {a b : Nat} (ha : a < dmaBufCount)
    (hb : b < dmaBufCount) : ahead c a = ahead c b ↔ a = b := by
  have := c.isLt
  simp only [ahead, Fin.ext_iff, dmaBufCount_eq] at this ha hb ⊢
  omega

theorem ahead_not_mem_walk {c : Fin dmaBufCount} {m : Nat} (hm : m < dmaBufCount) :
    ahead c m ∉ walk c m := by
  simp only [walk, List.mem_map, List.mem_range, not_exists, not_and]
  intro j hj same
  exact absurd ((ahead_eq_ahead (by omega) hm).1 same) (Nat.ne_of_lt hj)

theorem transmitted_calloc (e : Fin dmaBufCount) :
    transmitted ⟨fun _ => 0, dmaBufLen, e⟩ = List.replicate dmaSampleCount 0 := by
  apply List.ext_getElem
  · simp only [transmitted, List.length_map, List.length_range, List.length_replicate]; rfl
  · intro i _ _
    simp only [transmitted, List.getElem_map, List.getElem_replicate, sample]
    rfl

theorem delivers_init (w : BitVec 32) : (init w).Delivers := by
  have ready : (init w).readyCount = dmaBufCount := rfl
  have zeroed :
      (fun d => transmitted ((init w).desc d)) = fun _ => List.replicate dmaSampleCount 0 :=
    funext fun d => transmitted_calloc (nextDesc d)
  refine ⟨Ring.behind_init, (fun d h => nomatch h), by rw [ready]; decide, ?_⟩
  rw [pending, ready, zeroed, List.flatMap_def, List.map_const', walk_length,
    List.flatten_replicate_replicate]
  exact (List.nil_append _).trans (List.append_nil _).symm

theorem delivers_complete {s : Bitstream} (inv : s.Delivers) (up : s.keepsUp .complete = true) :
    s.complete.Delivers := by
  obtain ⟨behind, filling, ready, stream⟩ := inv
  simp only [keepsUp, decide_eq_true_eq] at up
  have notFull : s.ring.queue.length < dmaBufCount := by
    unfold readyCount at ready; split at ready <;> omega
  obtain ⟨-, ev, ring⟩ | ⟨full, -, -⟩ := Ring.complete_cases behind
  swap; · omega
  have room : s.ring.queue.length + 1 < dmaBufCount := by
    refine Nat.lt_of_le_of_ne notFull fun full => up.1 ?_
    rw [ring, full, behind_full]
    exact List.mem_cons_self _ _
  have spare : ∀ d, s.filling = some d → s.ring.queue.length + 2 < dmaBufCount := by
    intro d hd
    have ne : ahead s.ring.cur (dmaBufCount - (s.ring.queue.length + 1)) ≠ ahead s.ring.cur 1 := by
      rw [← filling d hd, ← nextDesc_eq_ahead]
      exact fun same => up.2 (hd.trans (congrArg some same))
    rw [Ne, ahead_eq_ahead (by omega) (by decide)] at ne
    omega
  have desc : s.complete.desc = s.desc := by simp only [complete, ev]
  have count : s.readyCount = s.complete.readyCount + 1 ∧ 0 < s.complete.readyCount := by
    have queued : s.complete.ring.queue.length = s.ring.queue.length + 1 := by
      rw [complete_ring, ring, behind_length]
    rcases Option.eq_none_or_eq_some s.filling with hf | ⟨d, hf⟩
    · rw [readyCount_none hf, readyCount_none (s := s.complete) hf, queued]; omega
    · have := spare d hf
      rw [readyCount_some hf, readyCount_some (s := s.complete) hf, queued]; omega
  refine ⟨Ring.behind_complete behind, fun d hd => ?_, count.2, ?_⟩
  · simp only [complete_ring, ring, behind_length]
    rw [filling d hd, nextDesc_eq_ahead, ahead_ahead]
    have := spare d hd
    congr 1
    omega
  · rw [complete_passes, ← stream, pending, pending, count.1, walk_succ_cons, List.flatMap_cons,
      complete_ring, ring, desc, ← nextDesc_eq_ahead]
    simp only [complete, List.append_assoc]

theorem delivers_receive {s s' : Bitstream} (inv : s.Delivers) (h : s.step .receive = some s') :
    s'.Delivers := by
  obtain ⟨d, ring, idle, hr, rfl⟩ := step_receive_some h
  obtain ⟨behind, cur, hq⟩ := Ring.behind_receive inv.behind hr
  have bounded := inv.behind.1
  have front := inv.behind.2
  rw [hq, List.length_cons] at bounded front
  rw [behind_pop _ (by omega)] at front
  have count : readyCount { s with ring, filling := some d } = s.readyCount := by
    rw [readyCount_some rfl, readyCount_none idle, hq, List.length_cons]
  refine ⟨behind, fun d' hd => ?_, count ▸ inv.ready, ?_⟩
  · cases hd
    rw [cur]
    exact (List.cons.inj front).1
  · rw [← inv.stream]
    simp only [pending, count, cur]

theorem delivers_finish {s s' : Bitstream} {ws : List (BitVec 32)} (inv : s.Delivers)
    (h : s.step (.finish ws) = some s') : s'.Delivers := by
  obtain ⟨-, h⟩ := step_finish_some h
  obtain ⟨d, hd, hs'⟩ := endPass_some h
  have desc : s'.desc = Function.update s.desc d (writePass (s.desc d) ws) := by rw [hs']
  have count := readyCount_some hd
  have last : ahead s.ring.cur s.readyCount = d := by rw [count, inv.filling d hd]
  have below : s.readyCount < dmaBufCount := by rw [count]; omega
  have cur : s'.ring = s.ring := by rw [hs']
  have count' : s'.readyCount = s.readyCount + 1 := by
    have := inv.ready
    rw [count] at this
    rw [readyCount_none (s := s') (by rw [hs']), cur, count]
    omega
  have untouched : ∀ e ∈ walk s.ring.cur s.readyCount,
      transmitted (s'.desc e) = transmitted (s.desc e) := by
    intro e he
    have ne : e ≠ d := fun same => ahead_not_mem_walk below (last ▸ same ▸ he)
    rw [desc, Function.update_noteq ne]
  refine ⟨cur ▸ inv.behind, fun d' h' => by simp [hs'] at h', by rw [count']; exact Nat.succ_pos _,
    ?_⟩
  rw [pending, count', cur, walk_succ, List.flatMap_append, List.flatMap_singleton, last,
    List.flatMap_congr untouched, desc, Function.update_same, transmitted_writePass]
  rw [hs', List.flatten_concat, ← List.append_assoc, ← List.append_assoc]
  exact congrArg (· ++ ws) inv.stream

theorem delivers_step {s s' : Bitstream} {a : BitstreamAction} (inv : s.Delivers)
    (up : s.keepsUp a = true) (h : s.step a = some s') : s'.Delivers := by
  cases a with
  | complete => cases h; exact delivers_complete inv up
  | receive => exact delivers_receive inv h
  | finish ws => exact delivers_finish inv h
  | passthrough => rw [step_passthrough] at h; exact delivers_finish inv h
  | write pin val => cases h; exact ⟨inv.1, inv.2, inv.3, inv.4⟩

theorem delivers_of_steps {w : BitVec 32} {s : Bitstream} (reach : Steps step keepsUp (init w) s) :
    s.Delivers :=
  reach.invariant Delivers (delivers_init w) fun _ _ _ inv up h => delivers_step inv up h

theorem Delivers.filling_ne_cur {s : Bitstream} (inv : s.Delivers) {d : Fin dmaBufCount}
    (h : s.filling = some d) : d ≠ s.ring.cur := by
  have ready := inv.ready
  rw [readyCount_some h] at ready
  rw [inv.filling d h, Ne, ← ahead_zero s.ring.cur, ahead_ahead, Nat.zero_add,
    ahead_eq_ahead (by omega) (by decide)]
  omega

theorem Delivers.no_eviction {s : Bitstream} (inv : s.Delivers) : s.ring.complete.1 = none := by
  have notFull : s.ring.queue.length < dmaBufCount := by
    have := inv.ready; unfold readyCount at this; split at this <;> omega
  rcases Ring.complete_cases inv.behind with ⟨-, ev, -⟩ | ⟨full, -, -⟩
  · exact ev
  · omega

theorem complete_desc {s : Bitstream} (ev : s.ring.complete.1 = none) :
    s.complete.desc = s.desc := by
  simp only [complete, ev]

/-- While the feeder keeps up, the bitstream is what the buffers were given and nothing
else: the samples sent, followed by what the ready descriptors hold in ring order, are the
DMA_BUF_COUNT zeroed buffers of `i2s_ioexpander_init` followed by the words of every
refill pass in the order the passes ended. No pass is lost, cut, sent twice or reordered,
and no sample goes out that no pass wrote. -/
theorem bitstream_is_passes {w : BitVec 32} {s : Bitstream}
    (reach : Steps step keepsUp (init w) s) :
    s.sent ++ s.pending = initialSamples ++ s.passes.flatten :=
  (delivers_of_steps reach).stream

/-- One buffer sent, its descriptor refilled by a STEPPING pass of two samples. -/
theorem one_pass_after_first_buffer :
    ∃ s, Steps step keepsUp (init 0) s ∧ s.passes = [[1#32, 2#32]] ∧
      s.sent ++ s.pending = initialSamples ++ s.passes.flatten := by
  have replay : Steps.replay step keepsUp (init 0) [.complete, .receive, .finish [1#32, 2#32]] =
      some _ := rfl
  have reach := Steps.start.of_replay replay
  exact ⟨_, reach, rfl, bitstream_is_passes reach⟩

/-! ### How far the bitstream lags -/

theorem length_transmitted_le {d : Lldesc} (fit : d.length ≤ dmaBufLen) :
    (transmitted d).length ≤ dmaSampleCount := by
  simp only [transmitted, List.length_map, List.length_range]
  exact Nat.div_le_div_right fit

theorem length_flatMap_walk_le {c : Fin dmaBufCount} {f : Fin dmaBufCount → List (BitVec 32)}
    {m : Nat} (bound : ∀ d, (f d).length ≤ m) (n : Nat) :
    ((walk c n).flatMap f).length ≤ n * m := by
  induction n with
  | zero => simp [walk]
  | succ n ih =>
    rw [walk_succ, List.flatMap_append, List.flatMap_singleton, List.length_append, Nat.succ_mul]
    exact Nat.add_le_add ih (bound _)

theorem pending_length_le {s : Bitstream} (fit : s.LengthsFit) :
    s.pending.length ≤ dmaBufCount * dmaSampleCount := by
  have count : s.readyCount ≤ dmaBufCount := by unfold readyCount; split <;> omega
  exact (length_flatMap_walk_le (fun d => length_transmitted_le (fit d)) _).trans
    (Nat.mul_le_mul_right _ count)

end Bitstream

end I2SIOExpander
