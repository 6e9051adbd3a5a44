import I2SIOExpander.Basic

/-! The bit-banged `i2s_gpio_shiftout` of `i2s_stop` and `i2s_start`, and the 74HC595
chain it drives: 32 stages shifting in the data level on each rising BCK edge, latched on a
rising WS edge, MSB first. -/
namespace I2SIOExpander

inductive Wire
  | ws
  | bck
  | data
  deriving DecidableEq, Repr

/-- Iteration `i` of the loop of `i2s_gpio_shiftout`: data, then a BCK pulse. -/
def shiftoutBit (portData : BitVec 32) (i : Nat) : List (Wire × Bool) :=
  [(.data, decide (portData &&& 1#32 <<< (31 - i) ≠ 0)), (.bck, true), (.bck, false)]

/-- `i2s_gpio_shiftout(port_data)`: its `digitalWrite(pin, level)` calls in order. -/
def i2sGpioShiftout (portData : BitVec 32) : List (Wire × Bool) :=
  (.ws, false) :: (List.range 32).flatMap (shiftoutBit portData) ++ [(.ws, true)]

/-- The wire levels and the two registers of the 74HC595 chain. -/
structure Receiver where
  ws : Bool
  bck : Bool
  data : Bool
  stages : BitVec 32
  latched : BitVec 32

inductive Edge
  | shift (ws data : Bool)
  | latch
  deriving DecidableEq, Repr

namespace Receiver

def edge (r : Receiver) : Wire × Bool → Option Edge
  | (.bck, true) => if r.bck then none else some (.shift r.ws r.data)
  | (.ws, true) => if r.ws then none else some .latch
  | _ => none

def feed (r : Receiver) : Wire × Bool → Receiver
  | (.ws, l) => { r with ws := l, latched := if !r.ws && l then r.stages else r.latched }
  | (.bck, l) =>
    { r with bck := l
             stages := if !r.bck && l then r.stages <<< 1 ||| (BitVec.ofBool r.data).setWidth 32
               else r.stages }
  | (.data, l) => { r with data := l }

def run (r : Receiver) : List (Wire × Bool) → Receiver
  | [] => r
  | e :: es => (r.feed e).run es

def edges (r : Receiver) : List (Wire × Bool) → List Edge
  | [] => []
  | e :: es => (r.edge e).toList ++ (r.feed e).edges es

theorem run_append (r : Receiver) (a b : List (Wire × Bool)) : r.run (a ++ b) = (r.run a).run b := by
  induction a generalizing r with
  | nil => rfl
  | cons e es ih => exact ih _

theorem edges_append (r : Receiver) (a b : List (Wire × Bool)) :
    r.edges (a ++ b) = r.edges a ++ (r.run a).edges b := by
  induction a generalizing r with
  | nil => rfl
  | cons e es ih =>
    show (r.edge e).toList ++ (r.feed e).edges (es ++ b) = _
    rw [ih, ← List.append_assoc]
    rfl

@[simp] theorem run_singleton (r : Receiver) (e : Wire × Bool) : r.run [e] = r.feed e := rfl

@[simp] theorem edges_singleton (r : Receiver) (e : Wire × Bool) :
    r.edges [e] = (r.edge e).toList := List.append_nil _

end Receiver

theorem shifted_succ (old w : BitVec 32) {n : Nat} (hn : n < 32) :
    ((old <<< n ||| w >>> (32 - n)) <<< 1 ||| (BitVec.ofBool (w.getLsbD (31 - n))).setWidth 32) =
      old <<< (n + 1) ||| w >>> (32 - (n + 1)) := by
  apply BitVec.eq_of_getLsbD_eq
  intro j
  have hj := j.isLt
  by_cases z : (j : Nat) = 0
  · simp [z, show 32 - (n + 1) = 31 - n by omega]
  · simp only [BitVec.getLsbD_or, BitVec.getLsbD_shiftLeft, BitVec.getLsbD_ushiftRight,
      BitVec.getLsbD_setWidth, BitVec.getLsbD_ofBool, z, hj, decide_True, decide_False,
      Bool.true_and, Bool.false_and, Bool.or_false]
    by_cases lt : (j : Nat) < n + 1
    · have e : 32 - n + (j - 1) = 32 - (n + 1) + j := by omega
      simp [lt, show ¬(j : Nat) < 1 by omega, show (j : Nat) - 1 < n by omega, e]
    · have e : (j : Nat) - 1 - n = j - (n + 1) := by omega
      simp [lt, show ¬(j : Nat) < 1 by omega, show ¬(j : Nat) - 1 < n by omega, e,
        BitVec.getLsbD_ge w (32 - n + (j - 1)) (by omega),
        BitVec.getLsbD_ge w (31 - n + j) (by omega), show (j : Nat) - 1 < 32 by omega]

theorem shiftout_data_bit (w : BitVec 32) {i : Nat} (hi : i < 32) :
    decide (w &&& 1#32 <<< (31 - i) ≠ 0) = w.getLsbD (31 - i) :=
  Bool.eq_iff_iff.mpr (decide_eq_true_iff.trans (and_bit_ne_zero w (by omega)))

theorem shiftoutBit_step (w : BitVec 32) (r : Receiver) {i : Nat} (hi : i < 32)
    (hb : r.bck = false) (hw : r.ws = false) :
    r.run (shiftoutBit w i) =
      { r with data := w.getLsbD (31 - i)
               stages := r.stages <<< 1 ||| (BitVec.ofBool (w.getLsbD (31 - i))).setWidth 32 } ∧
      r.edges (shiftoutBit w i) = [.shift false (w.getLsbD (31 - i))] := by
  rw [shiftoutBit, shiftout_data_bit w hi]
  simp [Receiver.run, Receiver.edges, Receiver.feed, Receiver.edge, hb, hw]

theorem shiftoutLoop_spec (w : BitVec 32) (r : Receiver) (hb : r.bck = false) (hw : r.ws = false) :
    ∀ n ≤ 32, (r.run ((List.range n).flatMap (shiftoutBit w))).bck = false ∧
      (r.run ((List.range n).flatMap (shiftoutBit w))).ws = false ∧
      (r.run ((List.range n).flatMap (shiftoutBit w))).latched = r.latched ∧
      (r.run ((List.range n).flatMap (shiftoutBit w))).stages = r.stages <<< n ||| w >>> (32 - n) ∧
      r.edges ((List.range n).flatMap (shiftoutBit w)) =
        (List.range n).map (fun k => .shift false (w.getLsbD (31 - k))) := by
  intro n hn
  induction n with
  | zero =>
    have gone : w >>> 32 = 0#32 :=
      BitVec.eq_of_getLsbD_eq fun j => by simp [BitVec.getLsbD_ge w (32 + j) (by omega)]
    simp [Receiver.run, Receiver.edges, hb, hw, gone]
  | succ n ih =>
    obtain ⟨b, ws, l, s, e⟩ := ih (by omega)
    have step := shiftoutBit_step w _ (show n < 32 by omega) b ws
    simp only [List.range_succ, List.flatMap_append, List.flatMap_singleton, Receiver.run_append,
      Receiver.edges_append, step.1, step.2, e, List.map_append, List.map_singleton]
    exact ⟨b, ws, l, by rw [s, shifted_succ _ _ (by omega)], trivial⟩

/-- Fed to the 74HC595 chain with BCK low (as `i2s_stop` forces it, and as every
shift-out leaves it), `i2s_gpio_shiftout(w)` makes exactly 32 rising BCK edges, each
with WS low and carrying bit `31 - k` of `w` at the `k`-th, then exactly one rising WS
edge, and the chain latches exactly `w`. -/
theorem shiftout_latches_port_word (w : BitVec 32) (r : Receiver) (low : r.bck = false) :
    (r.run (i2sGpioShiftout w)).latched = w ∧
      r.edges (i2sGpioShiftout w) =
        (List.range 32).map (fun k => Edge.shift false (w.getLsbD (31 - k))) ++ [Edge.latch] := by
  obtain ⟨-, ws, -, s, e⟩ := shiftoutLoop_spec w (r.feed (.ws, false)) low rfl 32 le_rfl
  have full : (r.feed (.ws, false)).stages <<< 32 ||| w >>> (32 - 32) = w :=
    BitVec.eq_of_getLsbD_eq fun j => by simp
  have split : i2sGpioShiftout w =
      [(.ws, false)] ++ (List.range 32).flatMap (shiftoutBit w) ++ [(.ws, true)] := rfl
  rw [split, Receiver.edges_append, Receiver.edges_append, Receiver.run_append, Receiver.run_append,
    Receiver.run_singleton, Receiver.run_singleton, Receiver.edges_singleton, Receiver.edges_singleton]
  generalize (List.range 32).flatMap (shiftoutBit w) = L at ws s e ⊢
  generalize r.feed (.ws, false) = r0 at ws s e full ⊢
  rw [full] at s
  refine ⟨by simp [Receiver.feed, ws, s], ?_⟩
  rw [e]
  simp [Receiver.edge, ws]

def busyReceiver : Receiver := ⟨true, false, true, 0xFFFFFFFF#32, 0#32⟩

theorem busyReceiver_latches :
    busyReceiver.bck = false ∧
      (busyReceiver.run (i2sGpioShiftout 0x12345678#32)).latched = 0x12345678#32 :=
  ⟨rfl, (shiftout_latches_port_word 0x12345678#32 busyReceiver rfl).1⟩

theorem shiftout_leaves_bck_low (w : BitVec 32) (r : Receiver) (low : r.bck = false) :
    (r.run (i2sGpioShiftout w)).bck = false := by
  obtain ⟨b, -⟩ := shiftoutLoop_spec w (r.feed (.ws, false)) low rfl 32 le_rfl
  have split : i2sGpioShiftout w =
      [(.ws, false)] ++ (List.range 32).flatMap (shiftoutBit w) ++ [(.ws, true)] := rfl
  rw [split, Receiver.run_append, Receiver.run_append, Receiver.run_singleton, Receiver.run_singleton]
  exact b

/-- The `digitalWrite` calls of `i2s_stop`: WS low (line 206), BCK low after the
detach (line 214), then the shift-out of the port word (line 218). -/
def i2sStopWires (portData : BitVec 32) : List (Wire × Bool) :=
  [(.ws, false), (.bck, false)] ++ i2sGpioShiftout portData

/-- Whatever the wire levels and registers, `i2s_stop` latches the word it read, and
the shift-out of the `i2s_start` after it in `i2s_ioexpander_reset` latches its own. -/
theorem reset_shiftouts_latch (r : Receiver) (w w' : BitVec 32) :
    (r.run (i2sStopWires w)).latched = w ∧
      ((r.run (i2sStopWires w)).run (i2sGpioShiftout w')).latched = w' := by
  have low : (r.run [(.ws, false), (.bck, false)]).bck = false := rfl
  rw [i2sStopWires, Receiver.run_append]
  exact ⟨(shiftout_latches_port_word w _ low).1,
    (shiftout_latches_port_word w' _ (shiftout_leaves_bck_low w _ low)).1⟩

end I2SIOExpander
