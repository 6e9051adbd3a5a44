import I2SIOExpander.Bitstream
import I2SIOExpander.Shiftout

/-! The flag `i2s_ioexpander_initialized` and the calls that read it. Only an init whose
allocations all succeed sets it (line 622); while it is clear, `i2s_clear_dma_buffers` and
`i2s_start` refuse, but `i2s_stop` runs, on the pins' `uint8_t` defaults of 255. -/
namespace I2SIOExpander

/-- What the flag guards: the flag, the port word `i2s_port_data`, the descriptors as they
are in memory, the pins `i2s_ioexpander_ws_pin`, `_bck_pin`, `_data_pin` (lines 100-102),
and the `digitalWrite(pin, level)` calls made so far. -/
structure Lifecycle where
  initialized : Bool
  portData : BitVec 32
  desc : Fin dmaBufCount → Lldesc
  wsPin : Nat
  bckPin : Nat
  dataPin : Nat
  gpio : List (Nat × Bool)

/-- `i2s_ioexpander_init` with whether every allocation of lines 462-482 returns a block and
the pins of `init_param`; `i2s_ioexpander_reset`; `i2s_ioexpander_write`. -/
inductive LifecycleCall
  | init (allocated : Bool) (ws bck data : Nat)
  | reset
  | write (pin val : Nat)
  deriving DecidableEq, Repr

def LifecycleCall.isInit : LifecycleCall → Bool
  | .init .. => true
  | _ => false

namespace Lifecycle

/-- Power-on: the flag clear (line 94), the port word 0 (line 89), the pins at `uint8_t`
-1, and whatever the memory that `dma.desc` will point to holds. -/
def power (desc : Fin dmaBufCount → Lldesc) : Lifecycle := ⟨false, 0, desc, 255, 255, 255, []⟩

def pin (s : Lifecycle) : Wire → Nat
  | .ws => s.wsPin
  | .bck => s.bckPin
  | .data => s.dataPin

def digitalWrites (s : Lifecycle) (writes : List (Wire × Bool)) : Lifecycle :=
  { s with gpio := s.gpio ++ writes.map fun w => (s.pin w.1, w.2) }

/-- `i2s_stop` (lines 193-224), which checks no flag; its register writes and the detach
are left out. -/
def i2sStop (s : Lifecycle) : Lifecycle := s.digitalWrites (i2sStopWires s.portData)

/-- `i2s_start` (lines 226-262): -1 while the flag is clear; else the shift-out of the port
word (its restart of the engine is `Engine.reset`). -/
def i2sStart (s : Lifecycle) : Int × Lifecycle :=
  if s.initialized then (0, s.digitalWrites (i2sGpioShiftout s.portData)) else (-1, s)

/-- `i2s_ioexpander_init`: the zeroed buffers of lines 466-470 with the descriptors of
lines 485-496 are those of `Bitstream.init`; the pins and the flag are set before the
closing `i2s_start` (lines 619-625). -/
def i2sIoexpanderInit (s : Lifecycle) (allocated : Bool) (ws bck data : Nat) :
    Int × Lifecycle :=
  if s.initialized then (-1, s)
  else if allocated then
    (0, (i2sStart { s with initialized := true, desc := (Bitstream.init s.portData).desc,
                           wsPin := ws, bckPin := bck, dataPin := data }).2)
  else (-1, s)

/-- `i2s_ioexpander_reset` (lines 417-422) with no write during it: `i2s_stop`,
`i2s_clear_dma_buffers` (which leaves the descriptors as they are when it refuses) and
`i2s_start`; 0 whatever the last two return. -/
def i2sIoexpanderReset (s : Lifecycle) : Int × Lifecycle :=
  let stopped := s.i2sStop
  let cleared := { stopped with
    desc := (i2sClearDmaBuffers stopped.initialized (fun _ => stopped.portData) stopped.desc).getD
      stopped.desc }
  (0, (i2sStart cleared).2)

def step (s : Lifecycle) : LifecycleCall → Lifecycle
  | .init allocated ws bck data => (s.i2sIoexpanderInit allocated ws bck data).2
  | .reset => s.i2sIoexpanderReset.2
  | .write pin val => { s with portData := i2sIoexpanderWrite s.portData pin val }

/-- What a call returns; `i2s_ioexpander_write` returns nothing. -/
def returned (s : Lifecycle) : LifecycleCall → Option Int
  | .init allocated ws bck data => some (s.i2sIoexpanderInit allocated ws bck data).1
  | .reset => some s.i2sIoexpanderReset.1
  | .write _ _ => none

def run (s : Lifecycle) (calls : List LifecycleCall) : Lifecycle := calls.foldl step s

def returns (s : Lifecycle) : List LifecycleCall → List (LifecycleCall × Option Int)
  | [] => []
  | c :: rest => (c, s.returned c) :: returns (s.step c) rest

def succeeded (e : LifecycleCall × Option Int) : Bool := e.1.isInit && e.2 == some 0

@[simp] theorem run_nil (s : Lifecycle) : s.run [] = s := rfl

@[simp] theorem run_cons (s : Lifecycle) (c : LifecycleCall) (rest : List LifecycleCall) :
    s.run (c :: rest) = (s.step c).run rest := rfl

@[simp] theorem initialized_digitalWrites (s : Lifecycle) (writes : List (Wire × Bool)) :
    (s.digitalWrites writes).initialized = s.initialized := rfl

theorem initialized_i2sStart (s : Lifecycle) : (i2sStart s).2.initialized = s.initialized := by
  unfold i2sStart; split <;> rfl

/-! ### One call -/

theorem init_of_initialized {s : Lifecycle} (h : s.initialized = true) (allocated : Bool)
    (ws bck data : Nat) :
    s.step (.init allocated ws bck data) = s ∧ s.returned (.init allocated ws bck data) = some (-1) := by
  simp [step, returned, i2sIoexpanderInit, h]

theorem not_initialized_of_succeeded {s : Lifecycle} {c : LifecycleCall}
    (won : succeeded (c, s.returned c) = true) : s.initialized = false := by
  cases c with
  | init allocated =>
    cases h : s.initialized
    · rfl
    · simp [succeeded, returned, i2sIoexpanderInit, h] at won
  | reset | write => simp [succeeded, LifecycleCall.isInit] at won

theorem initialized_step (s : Lifecycle) (c : LifecycleCall) :
    (s.step c).initialized = (s.initialized || succeeded (c, s.returned c)) := by
  cases c with
  | init allocated =>
    by_cases h : s.initialized <;> cases allocated <;>
      simp [step, returned, succeeded, LifecycleCall.isInit, i2sIoexpanderInit, initialized_i2sStart, h]
  | reset =>
    simp [step, returned, succeeded, LifecycleCall.isInit, i2sIoexpanderReset, i2sStop,
      initialized_i2sStart]
  | write => simp [step, returned, succeeded, LifecycleCall.isInit]

/-! ### Runs -/

theorem initialized_run (s : Lifecycle) (calls : List LifecycleCall) :
    (s.run calls).initialized = (s.initialized || (s.returns calls).any succeeded) := by
  induction calls generalizing s with
  | nil => simp [returns]
  | cons c rest ih => simp only [run_cons, ih, initialized_step, returns, List.any_cons, Bool.or_assoc]

theorem succeeded_count_le (s : Lifecycle) (calls : List LifecycleCall) :
    (s.returns calls).countP succeeded + s.initialized.toNat ≤ 1 := by
  induction calls generalizing s with
  | nil => cases s.initialized <;> simp [returns]
  | cons c rest ih =>
    have next := ih (s.step c)
    rw [initialized_step] at next
    simp only [returns, List.countP_cons]
    by_cases won : succeeded (c, s.returned c) = true
    · simp only [won, not_initialized_of_succeeded won, Bool.or_true, Bool.toNat_true, if_true,
        Bool.toNat_false] at next ⊢
      omega
    · simp only [Bool.not_eq_true] at won
      simp only [won, Bool.or_false, if_neg Bool.false_ne_true] at next ⊢
      omega

/-- In every run from power-on, at most one call of `i2s_ioexpander_init` returns 0, and the
flag is set at the end exactly when one did. -/
theorem init_succeeds_at_most_once (desc : Fin dmaBufCount → Lldesc)
    (calls : List LifecycleCall) :
    ((power desc).returns calls).countP succeeded ≤ 1 ∧
      ((power desc).run calls).initialized = ((power desc).returns calls).any succeeded := by
  have count := succeeded_count_le (power desc) calls
  exact ⟨by simpa [power] using count, by simp [initialized_run, power]⟩

/-- A failed allocation, a write, a reset, a second attempt that succeeds, and a later init. -/
example : ((power (Bitstream.init 0).desc).returns
    [.init false 12 13 14, .write 3 1, .reset, .init true 12 13 14, .init true 12 13 14]).map
      Prod.snd = [some (-1), none, some 0, some 0, some (-1)] := rfl

/-- Before initialization, a reset's `i2s_stop` writes to pin 255 alone. -/
example : ((power (Bitstream.init 0).desc).step .reset).gpio.all (·.1 = 255) := by decide

/-- Once the flag is set, every later call of `i2s_ioexpander_init` returns -1 and changes
nothing: a run ends where the same run without its inits ends, so a second init cannot
disturb the running driver. -/
theorem init_after_init_changes_nothing {s : Lifecycle} (h : s.initialized = true)
    (calls : List LifecycleCall) :
    (∀ e ∈ s.returns calls, e.1.isInit = true → e.2 = some (-1)) ∧
      s.run calls = s.run (calls.filter fun c => !c.isInit) := by
  induction calls generalizing s with
  | nil => simp [returns]
  | cons c rest ih =>
    have next : (s.step c).initialized = true := by rw [initialized_step, h, Bool.true_or]
    obtain ⟨codes, same⟩ := ih next
    cases c with
    | init allocated ws bck data =>
      obtain ⟨stays, code⟩ := init_of_initialized h allocated ws bck data
      refine ⟨?_, by rw [run_cons, same, stays]; rfl⟩
      intro e mem init
      rcases List.mem_cons.mp mem with rfl | mem
      · exact code
      · exact codes e (by simpa only [stays] using mem) init
    | reset | write =>
      refine ⟨?_, by rw [run_cons, same]; rfl⟩
      intro e mem init
      rcases List.mem_cons.mp mem with rfl | mem
      · cases init
      · exact codes e mem init

/-- The first successful init, then a second one and a reset. -/
theorem second_init_refused :
    let s := (power (Bitstream.init 0).desc).step (.init true 12 13 14)
    s.initialized = true ∧
      ((∀ e ∈ s.returns [.init true 12 13 14, .reset], e.1.isInit = true → e.2 = some (-1)) ∧
        s.run [.init true 12 13 14, .reset] =
          s.run ([.init true 12 13 14, .reset].filter fun c => !c.isInit)) :=
  ⟨rfl, init_after_init_changes_nothing rfl _⟩

end Lifecycle

end I2SIOExpander
