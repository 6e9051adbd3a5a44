import I2SIOExpander.Pulser
import I2SIOExpander.Buffer

/-! What a STEPPING pass stores and how often it calls the pulse callback, as invariants
of every run of `Pulser.step`: the stores stay inside the buffer, a ranking bounds the
loop's turns, and the samples between two invocations are counted. -/
namespace I2SIOExpander

namespace Pulser

def InPass (s : Pulser) : Prop :=
  s.pc = .loop ∨ s.pc = .call ∨ s.pc = .callback ∨ s.pc = .reenter

def Filled (s : Pulser) : Prop := s.stores.map Prod.fst = List.range s.rwPos

theorem filled_storeSample {s : Pulser} (filled : s.Filled) (w : BitVec 32) :
    (s.storeSample w).Filled := by
  simp only [Filled, storeSample, List.map_append, List.map_singleton, List.range_succ]
  rw [filled]

theorem filled_storeSamples {s : Pulser} (filled : s.Filled) (w : BitVec 32) (n : Nat) :
    (s.storeSamples w n).Filled := by
  induction n with
  | zero => exact filled
  | succ n ih => exact filled_storeSample ih w

/-! ### Bounds of a pass -/

/-- Where `rw_pos` can be at each program point of a STEPPING pass. -/
def Bounded (u : Nat) (s : Pulser) : Prop :=
  match s.pc with
  | .loop => s.Filled ∧ (s.rwPos ≤ fillLimit u ∨ s.rwPos < dmaSampleCount)
  | .call => s.Filled ∧ s.rwPos < fillLimit u
  | .callback | .reenter =>
    s.Filled ∧ s.pushed ≤ sampleSafeCount u ∧ s.pushed ≤ s.rwPos ∧ s.rwPos - s.pushed < fillLimit u
  | .receive | .crashed => True

theorem bounded_next {u : Nat} {s : Pulser} {a : PulserAction} (inv : s.Bounded u)
    (admitted : s.obliged u a = true) (en : s.enabled a = true) : (s.next u a).Bounded u := by
  have margin : sampleSafeCount u ≤ 20 := Nat.div_le_self 20 u
  cases a with
  | receive =>
    simp only [enabled, decide_eq_true_eq] at en
    simp only [next, taskReceive]
    split
    · simp [Bounded, Filled]
    · simp only [Bounded, en]
  | loop =>
    simp only [enabled, decide_eq_true_eq] at en
    simp only [Bounded, en] at inv
    rcases taskLoop_cases u s with ⟨lt, -, -, -, eq⟩ | ⟨lt, -, eq⟩ | ⟨-, eq⟩ <;>
      simp only [next, eq, Bounded, storeSample, en]
    · exact ⟨inv.1, lt⟩
    · exact ⟨filled_storeSample inv.1 s.portData, .inl lt⟩
  | call =>
    simp only [enabled, decide_eq_true_eq] at en
    simp only [Bounded, en] at inv
    simp only [next, taskCall]
    split <;> simp only [Bounded]
    exact ⟨inv.1, Nat.zero_le _, Nat.zero_le _, inv.2⟩
  | ret =>
    simp only [enabled, decide_eq_true_eq] at en
    simp only [Bounded, en] at inv
    exact inv
  | reenter =>
    simp only [enabled, decide_eq_true_eq] at en
    simp only [Bounded, en] at inv
    obtain ⟨filled, pushed, below, base⟩ := inv
    refine ⟨filled, .inr ?_⟩
    simp only [next, taskReenter, fillLimit, dmaSampleCount_eq] at base ⊢
    omega
  | pushSample num =>
    simp only [obliged, Bool.decide_and, Bool.and_eq_true, decide_eq_true_eq] at admitted
    obtain ⟨inside, within⟩ := admitted
    simp only [Bounded, inside] at inv
    obtain ⟨filled, -, below, base⟩ := inv
    rw [next_pushSample]
    have filled' := filled_storeSamples filled s.portData (pushCount u num)
    rw [storeSamples_eq] at filled' ⊢
    simp only [Bounded, inside]
    exact ⟨filled', within, by omega, by omega⟩
  | write | setPassthrough | setStepping | setPulsePeriod | registerPulseCallback => exact inv

theorem Bounded.filled {u : Nat} {s : Pulser} (inv : s.Bounded u) (pass : s.InPass) : s.Filled := by
  rcases pass with pc | pc | pc | pc <;> simp only [Bounded, pc] at inv <;> exact inv.1

theorem Bounded.rwPos_lt {u : Nat} {s : Pulser} (inv : s.Bounded u) (margin : 1 ≤ sampleSafeCount u)
    (pass : s.InPass) : s.rwPos < dmaSampleCount := by
  have safe : sampleSafeCount u ≤ 20 := Nat.div_le_self 20 u
  rcases pass with pc | pc | pc | pc <;> simp only [Bounded, pc, fillLimit, dmaSampleCount_eq] at inv ⊢ <;>
    omega

theorem Reachable.bounded {u : Nat} {ok : Pulser → PulserAction → Bool} {s0 s : Pulser}
    (idle : s0.pc = .receive) (reach : Reachable u ok s0 s)
    (obeys : ∀ s a, ok s a = true → s.obliged u a = true) : s.Bounded u :=
  reach.invariant (Bounded u) (by simp only [Bounded, idle]) <|
    keeps_of_next _ fun _ _ inv admitted en => bounded_next inv (obeys _ _ admitted) en

/-- In every run from a waiting feeder in which the pulse callback keeps its obligation
on `push_sample`, for a sample period in 1..20: the callback is entered only below
`DMA_SAMPLE_COUNT - SAMPLE_SAFE_COUNT`; the stores of a STEPPING pass are exactly the
slots below `rw_pos`, in order, inside the buffer; and a pass ends with `rw_pos` from the
limit to DMA_SAMPLE_COUNT - 1 and records the length `rw_pos * I2S_SAMPLE_SIZE`. -/
theorem stepping_pass_in_bounds {u : Nat} (hu : 1 ≤ u) (hu20 : u ≤ 20) {s0 s : Pulser}
    (idle : s0.pc = .receive) (reach : Reachable u (obliged u) s0 s) :
    (∀ s', s.step u .call = some s' → s'.pc = .callback → s'.rwPos < fillLimit u) ∧
      (s.InPass → s.stores.map Prod.fst = List.range s.rwPos ∧ s.rwPos < dmaSampleCount) ∧
      (∀ s', s.step u .loop = some s' → s'.pc = .receive →
        fillLimit u ≤ s.rwPos ∧ s.rwPos < dmaSampleCount ∧ s'.length = s.rwPos * i2sSampleSize ∧
          s'.length < dmaBufLen) := by
  have inv := reach.bounded idle fun _ _ h => h
  have margin := (sampleSafeCount_range hu hu20).1
  refine ⟨fun s' h entered => ?_, fun pass => ⟨inv.filled pass, inv.rwPos_lt margin pass⟩,
    fun s' h exited => ?_⟩
  · obtain ⟨en, rfl⟩ := step_eq_some.mp h
    simp only [enabled, decide_eq_true_eq] at en
    simp only [Bounded, en] at inv
    simp only [next, taskCall] at entered ⊢
    split at entered
    · exact inv.2
    · cases entered
  · obtain ⟨en, rfl⟩ := step_eq_some.mp h
    simp only [enabled, decide_eq_true_eq] at en
    have below := inv.rwPos_lt margin (.inl en)
    have loop : s.next u .loop = s.taskLoop u := rfl
    rcases taskLoop_cases u s with ⟨-, -, -, -, eq⟩ | ⟨-, -, eq⟩ | ⟨ge, eq⟩ <;> rw [loop, eq] at exited ⊢
    · cases exited
    · simp only [storeSample, en] at exited; cases exited
    · refine ⟨ge, below, rfl, ?_⟩
      simp only [i2sSampleSize_eq, dmaBufLen_eq, dmaSampleCount_eq] at below ⊢
      omega

def storing (n : Nat) : Pulser :=
  { init 8 none with status := .stepping, pc := .loop, rwPos := n,
                     stores := (List.range n).map fun i => (i, 0), iterations := n, sinceCall := n }

theorem storing_reachable {n : Nat} (h : n ≤ fillLimit 4) :
    Reachable 4 (obliged 4) (init 8 none) (storing n) := by
  induction n with
  | zero =>
    have replay : Steps.replay (step 4) (obliged 4) (init 8 none) [.setStepping, .receive] =
        some (storing 0) := rfl
    exact Steps.start.of_replay replay
  | succ n ih =>
    have turn : (storing n).next 4 .loop = storing (n + 1) := by
      have lt : n < fillLimit 4 := by omega
      simp [next, taskLoop, storing, storeSample, init, lt, List.range_succ]
    exact .step .loop (ih (by omega)) rfl (step_eq_some.mpr ⟨rfl, turn⟩)

/-- The loop stores up to one slot below the limit; a callback registered then is called
there and pushes the last slot; the next turn ends the pass. -/
theorem callback_at_margin_then_pass_ends :
    ∃ c s, Reachable 4 (obliged 4) (init 8 none) c ∧ c.pc = .call ∧ c.rwPos + 1 = fillLimit 4 ∧
      Reachable 4 (obliged 4) c s ∧ s.pc = .loop ∧ s.rwPos = fillLimit 4 ∧ s.pushed = 1 ∧
      (∃ s', s.step 4 .loop = some s' ∧ s'.pc = .receive) ∧
      ((∀ s', s.step 4 .call = some s' → s'.pc = .callback → s'.rwPos < fillLimit 4) ∧
        (s.InPass → s.stores.map Prod.fst = List.range s.rwPos ∧ s.rwPos < dmaSampleCount) ∧
        (∀ s', s.step 4 .loop = some s' → s'.pc = .receive →
          fillLimit 4 ≤ s.rwPos ∧ s.rwPos < dmaSampleCount ∧ s'.length = s.rwPos * i2sSampleSize ∧
            s'.length < dmaBufLen)) := by
  have toCall : Steps.replay (step 4) (obliged 4) (storing 494)
      [.registerPulseCallback (some 0), .loop] = some _ := rfl
  have toEnd : Steps.replay (step 4) (obliged 4)
      (((storing 494).next 4 (.registerPulseCallback (some 0))).next 4 .loop)
      [.call, .pushSample 1, .ret, .reenter] = some _ := rfl
  have reachC := (storing_reachable (by decide)).of_replay toCall
  have reach := reachC.of_replay toEnd
  exact ⟨_, _, reachC, rfl, rfl, Steps.start.of_replay toEnd, rfl, rfl, rfl, ⟨_, rfl, rfl⟩,
    stepping_pass_in_bounds (by decide) (by decide) rfl reach⟩

/-! ### Termination of the loop -/

/-- Runs that keep the status STEPPING, a callback registered and the period at `P`, with
the callback keeping its obligation. -/
def steady (u P : Nat) (s : Pulser) (a : PulserAction) : Bool :=
  s.obliged u a &&
    match a with
    | .setPassthrough => false
    | .setPulsePeriod q => q = P
    | .registerPulseCallback func => func.isSome
    | _ => true

def Paced (u P : Nat) (s : Pulser) : Prop :=
  s.status = .stepping ∧ s.func.isSome = true ∧ s.period = P ∧
    match s.pc with
    | .loop | .receive =>
      s.remain ≤ P ∧ (P - s.remain) % u = 0 ∧ s.sinceCall = s.pushed + (P - s.remain) / u
    | .call => s.sinceCall = s.pushed + P / u
    | .callback | .reenter => s.sinceCall = s.pushed
    | .crashed => True

theorem countdown_steps {u P r : Nat} (hr : r < u) (le : r ≤ P) (dvd : (P - r) % u = 0) :
    (P - r) / u = P / u := by
  have split : P = r + u * ((P - r) / u) := by
    have := Nat.mod_add_div (P - r) u
    omega
  conv => rhs; rw [split]
  rw [Nat.add_mul_div_left _ _ (by omega), Nat.div_eq_of_lt hr, Nat.zero_add]

theorem paced_next {u P : Nat} (hu : 1 ≤ u) {s : Pulser} {a : PulserAction} (inv : s.Paced u P)
    (admitted : s.steady u P a = true) (en : s.enabled a = true) : (s.next u a).Paced u P := by
  obtain ⟨stepping, registered, period, paced⟩ := inv
  cases a with
  | receive =>
    simp only [enabled, decide_eq_true_eq] at en
    simp only [en] at paced
    simp only [next, taskReceive, stepping]
    exact ⟨rfl, registered, period, paced⟩
  | loop =>
    simp only [enabled, decide_eq_true_eq] at en
    simp only [en] at paced
    obtain ⟨le, dvd, count⟩ := paced
    have some : s.func ≠ none := fun h => by simp [h] at registered
    rcases taskLoop_cases u s with ⟨-, due, -, -, eq⟩ | ⟨-, notDue, eq⟩ | ⟨-, eq⟩ <;>
      simp only [next, eq, storeSample, Paced, en]
    · refine ⟨stepping, registered, period, ?_⟩
      rw [count, countdown_steps due le dvd]
    · have ge : u ≤ s.remain := by
        by_contra lt
        exact notDue ⟨by omega, stepping, some⟩
      have back : P - (s.remain - u) = P - s.remain + u := by omega
      refine ⟨stepping, registered, period, by omega, ?_, ?_⟩
      · simp only [back, Nat.add_mod_right, dvd]
      · simp only [back, Nat.add_div_right _ hu, count]; omega
    · exact ⟨stepping, registered, period, le, dvd, count⟩
  | call =>
    simp only [enabled, decide_eq_true_eq] at en
    simp only [next, taskCall]
    split
    · exact ⟨stepping, registered, period, rfl⟩
    · rename_i null
      simp [null] at registered
  | ret =>
    simp only [enabled, decide_eq_true_eq] at en
    simp only [en] at paced
    exact ⟨stepping, registered, period, paced⟩
  | reenter =>
    simp only [enabled, decide_eq_true_eq] at en
    simp only [en] at paced
    simp only [next, taskReenter, period]
    exact ⟨stepping, registered, rfl, le_rfl, by simp, by simp [paced]⟩
  | pushSample num =>
    simp only [steady, obliged, Bool.decide_and, Bool.and_true, Bool.and_eq_true,
      decide_eq_true_eq] at admitted
    simp only [admitted.1] at paced
    rw [next_pushSample, storeSamples_eq]
    refine ⟨stepping, registered, period, ?_⟩
    simp only [admitted.1]
    omega
  | write => exact ⟨stepping, registered, period, paced⟩
  | setPassthrough => simp [steady, obliged] at admitted
  | setStepping => exact ⟨rfl, registered, period, paced⟩
  | setPulsePeriod q =>
    simp only [steady, obliged, Bool.true_and, decide_eq_true_eq] at admitted
    exact ⟨stepping, registered, admitted, paced⟩
  | registerPulseCallback func =>
    simp only [steady, obliged, Bool.true_and] at admitted
    exact ⟨stepping, admitted, period, paced⟩

/-- In a run that keeps the status STEPPING, a callback registered and the period at `P`
(the callback keeping its obligation), from inside a callback invocation that has pushed
as many samples as were stored since it began: whenever the next invocation is due, the
samples stored since the last one began are the `pushed` samples it pushed plus `P / u`.
The countdown restarts from `P` after the callback (line 333) without the pushed samples. -/
theorem callback_interval_samples {u P : Nat} (hu : 1 ≤ u) {s0 s : Pulser}
    (reach : Reachable u (steady u P) s0 s) (entered : s0.pc = .callback)
    (fresh : s0.sinceCall = s0.pushed) (stepping : s0.status = .stepping)
    (registered : s0.func.isSome = true) (period : s0.period = P) (due : s.pc = .call) :
    s.sinceCall = s.pushed + P / u := by
  have start : s0.Paced u P := ⟨stepping, registered, period, by simp only [entered]; exact fresh⟩
  obtain ⟨-, -, -, paced⟩ := reach.invariant (Paced u P) start <|
    keeps_of_next _ fun _ _ inv admitted en => paced_next hu inv admitted en
  simp only [due] at paced
  exact paced

/-- Period 8 at a sample period of 4, the first invocation pushing one sample. -/
theorem interval_after_one_push :
    ∃ s0 s, Reachable 4 (steady 4 8) s0 s ∧ s0.pc = .callback ∧ s0.sinceCall = s0.pushed ∧
      s0.status = .stepping ∧ s0.func.isSome = true ∧ s0.period = 8 ∧ s.pc = .call ∧
      s.sinceCall = s.pushed + 8 / 4 := by
  have replay : Steps.replay (step 4) (steady 4 8)
      ({ init 8 (some 0) with status := .stepping, pc := .callback } : Pulser)
      [.pushSample 1, .ret, .reenter, .loop, .loop, .loop] = some _ := rfl
  have reach := Steps.start.of_replay replay
  exact ⟨_, _, reach, rfl, rfl, rfl, rfl, rfl, rfl,
    callback_interval_samples (by decide) reach rfl rfl rfl rfl rfl rfl⟩

/-- Period 8 at a sample period of 4, from the state `i2s_ioexpander_init` leaves: the
first invocation pushes one sample, and the next is due three samples after the first
began, 12 microseconds where the period asks for 8. -/
theorem pushed_sample_delays_next_call :
    ∃ s, Reachable 4 (steady 4 8) (init 8 (some 0)) s ∧ s.pc = .call ∧ s.pushed = 1 ∧
      s.sinceCall = 3 ∧ 8 + 4 ≤ s.sinceCall * 4 := by
  have replay : Steps.replay (step 4) (steady 4 8) (init 8 (some 0))
      [.setStepping, .receive, .loop, .call, .pushSample 1, .ret, .reenter, .loop, .loop, .loop] =
        some _ := rfl
  exact ⟨_, Steps.start.of_replay replay, rfl, rfl, rfl, by decide⟩

end Pulser

end I2SIOExpander
