import Mathlib.Data.BitVec

/-! Configuration of i2s_ioexpander.cpp, the runs of a step function, and the virtual
port: `i2s_port_data` changes only by one atomic `fetch_or` or `fetch_and` per
`i2s_ioexpander_write`, so each bit is the level of the last write to it. -/
namespace I2SIOExpander

def dmaBufCount : Nat := 5
def dmaBufLen : Nat := 2000
def i2sSampleSize : Nat := 4
def dmaSampleCount : Nat := dmaBufLen / i2sSampleSize
/-- `SAMPLE_SAFE_COUNT`, the macro `(20/I2S_IOEXP_USEC_PER_PULSE)`. The sample period
`I2S_IOEXP_USEC_PER_PULSE` comes from i2s_ioexpander.h, which is not in the sources:
it is the parameter `u` throughout. -/
def sampleSafeCount (u : Nat) : Nat := 20 / u

@[simp] theorem dmaBufCount_eq : dmaBufCount = 5 := rfl
@[simp] theorem dmaBufLen_eq : dmaBufLen = 2000 := rfl
@[simp] theorem i2sSampleSize_eq : i2sSampleSize = 4 := rfl
@[simp] theorem dmaSampleCount_eq : dmaSampleCount = 500 := rfl

/-- The states that `next` reaches from `s` when `ok` admits every step. -/
inductive Steps {σ α : Type} (next : σ → α → Option σ) (ok : σ → α → Bool) (s : σ) : σ → Prop
  | start : Steps next ok s s
  | step {t t' : σ} (a : α) : Steps next ok s t → ok t a = true → next t a = some t' →
      Steps next ok s t'

namespace Steps

variable {σ α : Type} {next : σ → α → Option σ} {ok : σ → α → Bool} {s t : σ}

theorem invariant (P : σ → Prop) (reach : Steps next ok s t) (start : P s)
    (keep : ∀ t a t', P t → ok t a = true → next t a = some t' → P t') : P t := by
  induction reach with
  | start => exact start
  | step a _ admitted h ih => exact keep _ a _ ih admitted h

theorem trans {v : σ} (first : Steps next ok s t) (second : Steps next ok t v) :
    Steps next ok s v := by
  induction second with
  | start => exact first
  | step a _ admitted h ih => exact .step a ih admitted h

theorem mono {ok' : σ → α → Bool} (sub : ∀ t a, ok t a = true → ok' t a = true)
    (reach : Steps next ok s t) : Steps next ok' s t := by
  induction reach with
  | start => exact .start
  | step a _ admitted h ih => exact .step a ih (sub _ a admitted) h

def replay (next : σ → α → Option σ) (ok : σ → α → Bool) (s : σ) : List α → Option σ
  | [] => some s
  | a :: as => if ok s a then (next s a).bind fun s' => replay next ok s' as else none

theorem of_replay {as : List α} {v : σ} (reach : Steps next ok s t)
    (h : replay next ok t as = some v) : Steps next ok s v := by
  induction as generalizing t with
  | nil => cases h; exact reach
  | cons a as ih =>
    simp only [replay] at h
    split at h
    · rename_i admitted
      obtain ⟨t', ht, rest⟩ := Option.bind_eq_some.mp h
      exact ih (.step a reach admitted ht) rest
    · cases h

end Steps

/-- `i2s_ioexpander_write(pin, val)` with its `uint8_t` parameters: `atomic_fetch_or` of
`1UL << pin` when `val` is not zero, `atomic_fetch_and` of its complement otherwise. -/
def i2sIoexpanderWrite (portData : BitVec 32) (pin val : Nat) : BitVec 32 :=
  let bit := 1#32 <<< (pin % 256)
  if val % 256 ≠ 0 then portData ||| bit else portData &&& ~~~bit

/-- `i2s_ioexpander_state(pin)`: `!!(port_data & (1UL << pin))` of one atomic load. -/
def i2sIoexpanderState (portData : BitVec 32) (pin : Nat) : Nat :=
  if portData &&& 1#32 <<< (pin % 256) = 0 then 0 else 1

theorem getLsbD_i2sIoexpanderWrite (w : BitVec 32) {pin : Nat} (val q : Nat) (hpin : pin < 32) :
    (i2sIoexpanderWrite w pin val).getLsbD q =
      if q = pin then decide (val % 256 ≠ 0) else w.getLsbD q := by
  have mod : pin % 256 = pin := Nat.mod_eq_of_lt (by omega)
  by_cases hq : q = pin
  · subst hq
    by_cases hv : val % 256 = 0 <;> simp [i2sIoexpanderWrite, mod, hv, hpin]
  · have other : (1#32 <<< pin).getLsbD q = false := by simp; omega
    by_cases hv : val % 256 = 0
    · simp [i2sIoexpanderWrite, mod, hv, hq, other]; exact BitVec.lt_of_getLsbD
    · simp [i2sIoexpanderWrite, mod, hv, hq, other]

theorem getLsbD_and_bit (w : BitVec 32) {pin : Nat} (i : Nat) (hpin : pin < 32) :
    (w &&& 1#32 <<< pin).getLsbD i = (decide (i = pin) && w.getLsbD pin) := by
  by_cases hi : i = pin
  · subst hi; simp [hpin]
  · simp [hi]; omega

theorem and_bit_ne_zero (w : BitVec 32) {pin : Nat} (hpin : pin < 32) :
    w &&& 1#32 <<< pin ≠ 0 ↔ w.getLsbD pin = true := by
  constructor
  · intro nonzero
    by_contra hb
    apply nonzero
    exact BitVec.eq_of_getLsbD_eq fun i => by simp only [getLsbD_and_bit _ _ hpin, hb]; simp
  · intro hb zero
    have bit := getLsbD_and_bit w pin hpin
    rw [zero] at bit
    simp [hb] at bit

theorem i2sIoexpanderState_eq (w : BitVec 32) {pin : Nat} (hpin : pin < 32) :
    i2sIoexpanderState w pin = if w.getLsbD pin then 1 else 0 := by
  have mod : pin % 256 = pin := Nat.mod_eq_of_lt (by omega)
  by_cases hb : w.getLsbD pin
  · rw [i2sIoexpanderState, mod, if_neg ((and_bit_ne_zero w hpin).mpr hb), if_pos hb]
  · rw [i2sIoexpanderState, mod, if_pos (not_not.mp (mt (and_bit_ne_zero w hpin).mp hb)),
      if_neg hb]

theorem i2sIoexpanderWrite_comm (w : BitVec 32) {p q : Nat} (a b : Nat) (hp : p < 32) (hq : q < 32)
    (distinct : p ≠ q) :
    i2sIoexpanderWrite (i2sIoexpanderWrite w p a) q b =
      i2sIoexpanderWrite (i2sIoexpanderWrite w q b) p a := by
  refine BitVec.eq_of_getLsbD_eq fun i => ?_
  simp only [getLsbD_i2sIoexpanderWrite _ _ _ hp, getLsbD_i2sIoexpanderWrite _ _ _ hq]
  split_ifs <;> first | rfl | omega

structure Write where
  pin : Nat
  val : Nat
  deriving DecidableEq, Repr

/-- The level the last write to `pin` in `ops` sets (its `val` as the `uint8_t` parameter
receives it), or `start` when there is none. -/
def lastWrite (pin : Nat) (ops : List Write) (start : Bool) : Bool :=
  match ops.reverse.find? (·.pin = pin) with
  | some op => decide (op.val % 256 ≠ 0)
  | none => start

theorem lastWrite_append (pin : Nat) (ops : List Write) (op : Write) (start : Bool) :
    lastWrite pin (ops ++ [op]) start =
      if op.pin = pin then decide (op.val % 256 ≠ 0) else lastWrite pin ops start := by
  by_cases h : op.pin = pin <;> simp [lastWrite, List.find?_cons, h]

/-- Contexts issuing `i2s_ioexpander_write` calls: each context's calls still to make,
the port, and the calls made so far in the order their atomic operations took effect. -/
structure Writers where
  portData : BitVec 32
  pending : Nat → List Write
  effected : List Write

def Writers.step (s : Writers) (c : Nat) : Option Writers :=
  match s.pending c with
  | op :: rest => some
      { portData := i2sIoexpanderWrite s.portData op.pin op.val
        pending := Function.update s.pending c rest
        effected := s.effected ++ [op] }
  | [] => none

abbrev Writers.Reachable (start : Writers) : Writers → Prop :=
  Steps Writers.step (fun _ _ => true) start

def Writers.InRange (s : Writers) : Prop :=
  (∀ c, ∀ op ∈ s.pending c, op.pin < 32) ∧ ∀ op ∈ s.effected, op.pin < 32

theorem Writers.step_cases {s s' : Writers} {c : Nat} (h : s.step c = some s') :
    ∃ op rest, s.pending c = op :: rest ∧
      s' = { portData := i2sIoexpanderWrite s.portData op.pin op.val
             pending := Function.update s.pending c rest
             effected := s.effected ++ [op] } := by
  unfold Writers.step at h
  split at h
  · rename_i op rest hc
    exact ⟨op, rest, hc, (Option.some.inj h).symm⟩
  · cases h

theorem Writers.inRange_step {s s' : Writers} {c : Nat} (inv : s.InRange) (h : s.step c = some s') :
    s'.InRange := by
  obtain ⟨op, rest, hc, rfl⟩ := Writers.step_cases h
  have mem : ∀ x ∈ op :: rest, x.pin < 32 := fun x hx => inv.1 c x (hc ▸ hx)
  refine ⟨fun c' x hx => ?_, fun x hx => ?_⟩
  · by_cases e : c' = c
    · subst e
      simp only [Function.update_same] at hx
      exact mem x (List.mem_cons_of_mem op hx)
    · simp only [Function.update_noteq e] at hx
      exact inv.1 c' x hx
  · rcases List.mem_append.mp hx with hx | hx
    · exact inv.2 x hx
    · exact (List.mem_singleton.mp hx) ▸ mem op (List.mem_cons_self op rest)

def Writers.LastWins (w : BitVec 32) (s : Writers) : Prop :=
  ∀ p, s.portData.getLsbD p = lastWrite p s.effected (w.getLsbD p)

theorem Writers.lastWins_step {w : BitVec 32} {s s' : Writers} {c : Nat} (inv : s.InRange)
    (last : s.LastWins w) (h : s.step c = some s') : s'.LastWins w := by
  obtain ⟨op, rest, hc, rfl⟩ := Writers.step_cases h
  have pin : op.pin < 32 := inv.1 c op (hc ▸ List.mem_cons_self op rest)
  intro p
  simp only [getLsbD_i2sIoexpanderWrite _ _ _ pin, lastWrite_append, last p]
  by_cases e : p = op.pin
  · simp [e]
  · simp [e, Ne.symm e]

/-- For any starting word and any number of contexts, each issuing
`i2s_ioexpander_write` calls on pins 0..31, every interleaving leaves each bit of the
port (and so `i2s_ioexpander_state`) at the level of the last write to it in the
order the atomic operations took effect, or at its starting level. -/
theorem port_bit_is_last_write {w : BitVec 32} {progs : Nat → List Write} {s : Writers}
    (pins : ∀ c, ∀ op ∈ progs c, op.pin < 32) (reach : Writers.Reachable ⟨w, progs, []⟩ s)
    (p : Nat) (hp : p < 32) :
    s.portData.getLsbD p = lastWrite p s.effected (w.getLsbD p) ∧
      i2sIoexpanderState s.portData p = if lastWrite p s.effected (w.getLsbD p) then 1 else 0 := by
  have inv : s.InRange ∧ s.LastWins w :=
    reach.invariant (fun s => s.InRange ∧ s.LastWins w) ⟨⟨pins, by simp⟩, fun p => by simp [lastWrite]⟩ fun _ _ _ inv _ h =>
      ⟨Writers.inRange_step inv.1 h, Writers.lastWins_step inv.1 inv.2 h⟩
  refine ⟨inv.2 p, ?_⟩
  rw [i2sIoexpanderState_eq _ hp, inv.2 p]

/-- Context 0 sets pin 3; context 1 sets pin 5, then clears pin 3. -/
def twoWriters : Nat → List Write
  | 0 => [⟨3, 1⟩]
  | 1 => [⟨5, 1⟩, ⟨3, 0⟩]
  | _ => []

theorem twoWriters_pins : ∀ c, ∀ op ∈ twoWriters c, op.pin < 32 := by
  intro c op h
  match c with
  | 0 => simp [twoWriters] at h; simp [h]
  | 1 => simp [twoWriters] at h; rcases h with rfl | rfl <;> decide
  | _ + 2 => simp [twoWriters] at h

/-- Interleaved as 1, 0, 1, the clear of pin 3 takes effect last, and pin 3 ends low. -/
theorem two_writers_clear_pin_three :
    ∃ s, Writers.Reachable ⟨0, twoWriters, []⟩ s ∧ s.effected = [⟨5, 1⟩, ⟨3, 1⟩, ⟨3, 0⟩] ∧
      s.portData.getLsbD 3 = false := by
  have replay : Steps.replay Writers.step (fun _ _ => true) ⟨0, twoWriters, []⟩ [1, 0, 1] =
      some _ := rfl
  have reach := Steps.start.of_replay replay
  refine ⟨_, reach, rfl, ?_⟩
  rw [(port_bit_is_last_write twoWriters_pins reach 3 (by decide)).1]
  rfl

end I2SIOExpander
