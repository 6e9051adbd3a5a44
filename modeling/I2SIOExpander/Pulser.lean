import I2SIOExpander.Basic

/-! The feeder task `i2sIOExpanderTask` at its program points, against the pulser API.
The task releases the pulser lock around the pulse callback (lines 330-332), and
`register_pulse_callback` and `set_pulse_period` take no lock, so the other tasks' calls
come between any two of its steps. The sample period is the parameter `u`. -/
namespace I2SIOExpander

/-- `i2s_ioexpander_pulser_status_t`. -/
inductive PulserStatus
  | passthrough
  | stepping
  deriving DecidableEq, Repr

/-- Where `i2sIOExpanderTask` is: in `xQueueReceive` (line 306), at the head of the while
loop holding the lock (323), unlocked before the call at 331, inside the callback, back from
it before locking at 332, or crashed by a call through NULL at 331. -/
inductive TaskPc
  | receive
  | loop
  | call
  | callback
  | reenter
  | crashed
  deriving DecidableEq, Repr

/-- The feeder's program point, the pulser's globals (`i2s_ioexpander_pulser_status`,
`i2s_ioexpander_pulse_phase_func` with `none` for NULL, `i2s_ioexpander_pulse_period`,
`i2s_ioexpander_remain_time_until_next_pulse`), `dma.rw_pos`, the length the feeder last
recorded in its descriptor, and `i2s_port_data`. The ghost fields record the stores into
`dma.current` in this pass (index and word), the samples pushed by the running callback
invocation, the loop's iterations in this pass, and the samples stored since the last
invocation began. -/
structure Pulser where
  pc : TaskPc
  status : PulserStatus
  func : Option Nat
  period : Nat
  remain : Nat
  rwPos : Nat
  length : Nat
  portData : BitVec 32
  stores : List (Nat × BitVec 32)
  pushed : Nat
  iterations : Nat
  sinceCall : Nat

/-- A step of the feeder (receive, a turn of the loop or its exit, the call through the
pointer, the callback's return, the relock), or a call of the API. -/
inductive PulserAction
  | receive
  | loop
  | call
  | ret
  | reenter
  | pushSample (num : Nat)
  | write (pin val : Nat)
  | setPassthrough
  | setStepping
  | setPulsePeriod (period : Nat)
  | registerPulseCallback (func : Option Nat)
  deriving DecidableEq, Repr

/-- The bound of the STEPPING loop, `DMA_SAMPLE_COUNT - SAMPLE_SAFE_COUNT`. -/
def fillLimit (u : Nat) : Nat := dmaSampleCount - sampleSafeCount u

theorem sampleSafeCount_range {u : Nat} (hu : 1 ≤ u) (hu20 : u ≤ 20) :
    1 ≤ sampleSafeCount u ∧ sampleSafeCount u ≤ 20 :=
  ⟨Nat.div_pos hu20 hu, Nat.div_le_self 20 u⟩

/-- What `i2s_ioexpander_push_sample(num)` returns: nothing above SAMPLE_SAFE_COUNT,
otherwise at least one sample, since its loop is a do-while. -/
def pushCount (u num : Nat) : Nat := if num > sampleSafeCount u then 0 else max num 1

namespace Pulser

/-- `dma.current[dma.rw_pos++] = w`. -/
def storeSample (s : Pulser) (w : BitVec 32) : Pulser :=
  { s with stores := s.stores ++ [(s.rwPos, w)], rwPos := s.rwPos + 1,
           sinceCall := s.sinceCall + 1 }

def storeSamples (s : Pulser) (w : BitVec 32) : Nat → Pulser
  | 0 => s
  | n + 1 => (s.storeSamples w n).storeSample w

theorem storeSamples_eq (s : Pulser) (w : BitVec 32) (n : Nat) :
    s.storeSamples w n =
      { s with stores := s.stores ++ (List.range n).map (fun i => (s.rwPos + i, w)),
               rwPos := s.rwPos + n, sinceCall := s.sinceCall + n } := by
  induction n with
  | zero => simp [storeSamples]
  | succ n ih =>
    rw [storeSamples, ih]
    simp only [storeSample, List.range_succ, List.map_append, List.map_singleton,
      List.append_assoc, Nat.add_assoc]

/-- `i2s_ioexpander_push_sample(num)`: above SAMPLE_SAFE_COUNT nothing; otherwise the port
word, loaded once, stored at `rw_pos` onwards by the do-while loop. Returns the count. -/
def i2sIoexpanderPushSample (u num : Nat) (s : Pulser) : Pulser × Nat :=
  if num > sampleSafeCount u then (s, 0)
  else (s.storeSamples s.portData (max num 1), max num 1)

theorem i2sIoexpanderPushSample_eq (u num : Nat) (s : Pulser) :
    i2sIoexpanderPushSample u num s = (s.storeSamples s.portData (pushCount u num), pushCount u num) := by
  unfold i2sIoexpanderPushSample pushCount
  split <;> rfl

def i2sIoexpanderSetPassthrough (s : Pulser) : Pulser := { s with status := .passthrough }
def i2sIoexpanderSetStepping (s : Pulser) : Pulser := { s with status := .stepping }
def i2sIoexpanderSetPulsePeriod (period : Nat) (s : Pulser) : Pulser := { s with period }
def i2sIoexpanderRegisterPulseCallback (func : Option Nat) (s : Pulser) : Pulser := { s with func }

/-- Lines 306-321 and 349-357 of `i2sIOExpanderTask`: under the lock, STEPPING starts the
loop at `rw_pos = 0`; PASSTHROUGH stores one load of the port into every sample `i`, sets
`rw_pos` to DMA_SAMPLE_COUNT, records the full length and unlocks. -/
def taskReceive (s : Pulser) : Pulser :=
  match s.status with
  | .stepping => { s with pc := .loop, rwPos := 0, stores := [], iterations := 0 }
  | .passthrough =>
    { s with stores := (List.range dmaSampleCount).map fun i => (i, s.portData),
             rwPos := dmaSampleCount, length := dmaBufLen, iterations := 0,
             sinceCall := s.sinceCall + dmaSampleCount }

/-- One turn of the while loop at line 323, under the lock. Below the limit: when the
next pulse is due (line 325), the status is STEPPING (327) and a callback is registered
(329), unlock for the callback (330); otherwise store the port word (339) and count the
time down (340-344). At the limit: record the length (347) and unlock (358). -/
def taskLoop (u : Nat) (s : Pulser) : Pulser :=
  if s.rwPos < fillLimit u then
    if s.remain < u ∧ s.status = .stepping ∧ s.func ≠ none then
      { s with pc := .call, iterations := s.iterations + 1 }
    else
      { s.storeSample s.portData with
          remain := if s.remain ≥ u then s.remain - u else 0, iterations := s.iterations + 1 }
  else { s with pc := .receive, length := s.rwPos * i2sSampleSize }

/-- Line 331: the volatile pointer is read again and called; the invocation begins. -/
def taskCall (s : Pulser) : Pulser :=
  match s.func with
  | some _ => { s with pc := .callback, pushed := 0, sinceCall := 0 }
  | none => { s with pc := .crashed }

/-- Lines 332-334: lock again, restart the countdown from the period, `continue`. -/
def taskReenter (s : Pulser) : Pulser := { s with pc := .loop, remain := s.period }

/-- The feeder's steps at their program points; the pulser lock's users only while the
feeder does not hold it. -/
def enabled (s : Pulser) : PulserAction → Bool
  | .receive => s.pc = .receive
  | .loop => s.pc = .loop
  | .call => s.pc = .call
  | .ret => s.pc = .callback
  | .reenter => s.pc = .reenter
  | .setPassthrough | .setStepping => s.pc ≠ .loop
  | _ => true

def next (u : Nat) (s : Pulser) : PulserAction → Pulser
  | .receive => s.taskReceive
  | .loop => s.taskLoop u
  | .call => s.taskCall
  | .ret => { s with pc := .reenter }
  | .reenter => s.taskReenter
  | .pushSample num =>
    let (s', n) := i2sIoexpanderPushSample u num s
    { s' with pushed := s.pushed + n }
  | .write pin val => { s with portData := i2sIoexpanderWrite s.portData pin val }
  | .setPassthrough => s.i2sIoexpanderSetPassthrough
  | .setStepping => s.i2sIoexpanderSetStepping
  | .setPulsePeriod period => s.i2sIoexpanderSetPulsePeriod period
  | .registerPulseCallback func => s.i2sIoexpanderRegisterPulseCallback func

def step (u : Nat) (s : Pulser) (a : PulserAction) : Option Pulser :=
  if s.enabled a then some (s.next u a) else none

theorem step_eq_some {u : Nat} {s s' : Pulser} {a : PulserAction} :
    s.step u a = some s' ↔ s.enabled a = true ∧ s.next u a = s' := by
  unfold step
  split <;> simp_all

theorem next_pushSample (u num : Nat) (s : Pulser) :
    s.next u (.pushSample num) =
      { s.storeSamples s.portData (pushCount u num) with pushed := s.pushed + pushCount u num } := by
  simp only [next, i2sIoexpanderPushSample_eq]

theorem taskLoop_cases (u : Nat) (s : Pulser) :
    (s.rwPos < fillLimit u ∧ s.remain < u ∧ s.status = .stepping ∧ s.func ≠ none ∧
        s.taskLoop u = { s with pc := .call, iterations := s.iterations + 1 }) ∨
      (s.rwPos < fillLimit u ∧ ¬(s.remain < u ∧ s.status = .stepping ∧ s.func ≠ none) ∧
        s.taskLoop u = { s.storeSample s.portData with remain := s.remain - u,
                                                       iterations := s.iterations + 1 }) ∨
      (fillLimit u ≤ s.rwPos ∧
        s.taskLoop u = { s with pc := .receive, length := s.rwPos * i2sSampleSize }) := by
  unfold taskLoop
  by_cases lt : s.rwPos < fillLimit u
  · by_cases due : s.remain < u ∧ s.status = .stepping ∧ s.func ≠ none
    · exact .inl ⟨lt, due.1, due.2.1, due.2.2, by rw [if_pos lt, if_pos due]⟩
    · refine .inr (.inl ⟨lt, due, ?_⟩)
      rw [if_pos lt, if_neg due]
      by_cases ge : s.remain ≥ u
      · rw [if_pos ge]
      · rw [if_neg ge, Nat.sub_eq_zero_of_le (by omega)]
  · exact .inr (.inr ⟨by omega, by rw [if_neg lt]⟩)

/-- The state `i2s_ioexpander_init` leaves: its period and callback, PASSTHROUGH, the
countdown, `rw_pos` and the port at zero, every length DMA_BUF_LEN, the feeder waiting. -/
def init (period : Nat) (func : Option Nat) : Pulser :=
  { pc := .receive, status := .passthrough, func, period, remain := 0, rwPos := 0,
    length := dmaBufLen, portData := 0, stores := [], pushed := 0, iterations := 0,
    sinceCall := 0 }

/-- The collaborator obligation on the pulse callback: `push_sample` is called only from
inside it, for at most SAMPLE_SAFE_COUNT samples in total per invocation. -/
def obliged (u : Nat) (s : Pulser) : PulserAction → Bool
  | .pushSample num => s.pc = .callback ∧ s.pushed + pushCount u num ≤ sampleSafeCount u
  | _ => true

abbrev Reachable (u : Nat) (ok : Pulser → PulserAction → Bool) (s0 : Pulser) : Pulser → Prop :=
  Steps (step u) ok s0

theorem keeps_of_next {u : Nat} {ok : Pulser → PulserAction → Bool} (P : Pulser → Prop)
    (keep : ∀ s a, P s → ok s a = true → s.enabled a = true → P (s.next u a)) :
    ∀ s a s', P s → ok s a = true → s.step u a = some s' → P s' := fun s a _ inv admitted h => by
  obtain ⟨en, rfl⟩ := step_eq_some.mp h
  exact keep s a inv admitted en

/-- A callback is due and the feeder has unlocked at line 330; another task registers
NULL; line 331 calls through it. -/
theorem null_callback_called :
    ∃ s s', Reachable 4 (obliged 4) (init 8 (some 0)) s ∧ s.pc = .call ∧ s.func = none ∧
      s.step 4 .call = some s' ∧ s'.pc = .crashed := by
  have replay : Steps.replay (step 4) (obliged 4) (init 8 (some 0))
      [.setStepping, .receive, .loop, .registerPulseCallback none] = some _ := rfl
  exact ⟨_, _, Steps.start.of_replay replay, rfl, rfl, rfl, rfl⟩

/-- The feeder has passed its STEPPING check and unlocked at line 330; another task's
`i2s_ioexpander_set_passthrough` takes the free lock and returns; line 331 then starts
the callback. -/
theorem callback_after_set_passthrough :
    ∃ s s' s'', Reachable 4 (obliged 4) (init 8 (some 0)) s ∧
      s.step 4 .setPassthrough = some s' ∧ s'.status = .passthrough ∧
      s'.step 4 .call = some s'' ∧ s''.pc = .callback := by
  have replay : Steps.replay (step 4) (obliged 4) (init 8 (some 0))
      [.setStepping, .receive, .loop] = some _ := rfl
  exact ⟨_, _, _, Steps.start.of_replay replay, rfl, rfl, rfl, rfl⟩

end Pulser

end I2SIOExpander
