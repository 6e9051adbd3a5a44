import I2SIOExpander.Bitstream
import I2SIOExpander.Fill

/-! The driver at the level of its code, in runs without `i2s_ioexpander_reset`: the feeder
steps as `Pulser`, its stores going into the buffer of `dma.current`, with the engine, the
interrupt handler, the writers and the API between any two steps. While the feeder keeps
up, it refines `Bitstream`, where a refill pass is one step. -/
namespace I2SIOExpander

/-! ### The feeder's passes -/

namespace Pulser

theorem enum_snd_of_filled {s : Pulser} (filled : s.Filled) :
    (s.stores.map Prod.snd).enum = s.stores := by
  have length : s.stores.length = s.rwPos := by simpa using congrArg List.length filled
  apply List.ext_getElem
  · simp
  · intro i _ h
    have slot : s.stores[i].1 = i := by
      have := congrArg (fun l => l[i]?) filled
      simpa [List.getElem?_map, List.getElem?_range, h, ← length] using this
    simp only [List.getElem_enum, List.getElem_map]
    exact Prod.ext slot.symm rfl

theorem ended_pass {u : Nat} {s : Pulser} {a : PulserAction} (inv : s.Bounded u)
    (en : s.enabled a = true) (ends : a = .loop ∨ a = .receive)
    (ended : (s.next u a).pc = .receive) :
    (s.next u a).Filled ∧ (s.next u a).length = (s.next u a).rwPos * i2sSampleSize ∧
      (s.next u a).rwPos ≤ dmaSampleCount := by
  rcases ends with rfl | rfl
  · simp only [enabled, decide_eq_true_eq] at en
    simp only [Bounded, en] at inv
    have loop : s.next u .loop = s.taskLoop u := rfl
    rcases taskLoop_cases u s with ⟨-, -, -, -, eq⟩ | ⟨-, -, eq⟩ | ⟨-, eq⟩ <;>
      rw [loop, eq] at ended ⊢
    · cases ended
    · simp only [storeSample, en] at ended; cases ended
    · refine ⟨inv.1, rfl, ?_⟩
      have : fillLimit u ≤ dmaSampleCount := Nat.sub_le _ _
      exact inv.2.elim (fun le => le.trans this) Nat.le_of_lt
  · simp only [next, taskReceive] at ended ⊢
    split at ended
    · cases ended
    · refine ⟨?_, rfl, le_rfl⟩
      simp [Filled, List.map_map, Function.comp_def]

theorem pass_words {s : Pulser} (filled : s.Filled) (length : s.length = s.rwPos * i2sSampleSize)
    (bound : s.rwPos ≤ dmaSampleCount) :
    (s.stores.map Prod.snd).length ≤ dmaSampleCount ∧ ∀ d : Lldesc,
      { d with buf := applyStores d.buf s.stores, length := s.length } =
        writePass d (s.stores.map Prod.snd) := by
  have count : s.stores.length = s.rwPos := by simpa using congrArg List.length filled
  refine ⟨by rw [List.length_map, count]; exact bound, fun d => ?_⟩
  simp only [writePass, enum_snd_of_filled filled, List.length_map, count, length]

/-! ### What each step of the feeder stores -/

theorem stores_prefix_next (u : Nat) (s : Pulser) {a : PulserAction} (ne : a ≠ .receive) :
    s.stores <+: (s.next u a).stores := by
  cases a with
  | receive => exact absurd rfl ne
  | loop =>
    have loop : s.next u .loop = s.taskLoop u := rfl
    rcases taskLoop_cases u s with ⟨-, -, -, -, eq⟩ | ⟨-, -, eq⟩ | ⟨-, eq⟩ <;> rw [loop, eq]
    exact List.prefix_append _ _
  | call => simp only [next, taskCall]; split <;> exact List.prefix_refl _
  | pushSample num => rw [next_pushSample, storeSamples_eq]; exact List.prefix_append _ _
  | ret | reenter | write | setPassthrough | setStepping | setPulsePeriod | registerPulseCallback =>
    exact List.prefix_refl _

theorem portData_next (u : Nat) (s : Pulser) {a : PulserAction}
    (ne : ∀ pin val, a ≠ .write pin val) : (s.next u a).portData = s.portData := by
  cases a with
  | receive => simp only [next, taskReceive]; split <;> rfl
  | loop =>
    have loop : s.next u .loop = s.taskLoop u := rfl
    rcases taskLoop_cases u s with ⟨-, -, -, -, eq⟩ | ⟨-, -, eq⟩ | ⟨-, eq⟩ <;> rw [loop, eq]
    rfl
  | call => simp only [next, taskCall]; split <;> rfl
  | pushSample num => rw [next_pushSample, storeSamples_eq]
  | write pin val => exact absurd rfl (ne pin val)
  | ret | reenter | setPassthrough | setStepping | setPulsePeriod | registerPulseCallback => rfl

theorem pc_next_receive (u : Nat) {s : Pulser} {a : PulserAction} (en : s.enabled a = true)
    (ne : a ≠ .receive) (notLoop : a ≠ .loop) : (s.next u a).pc = .receive ↔ s.pc = .receive := by
  cases a with
  | receive => exact absurd rfl ne
  | loop => exact absurd rfl notLoop
  | call =>
    simp only [enabled, decide_eq_true_eq] at en
    simp only [next, taskCall, en]
    split <;> simp
  | ret => simp only [enabled, decide_eq_true_eq] at en; simp [next, en]
  | reenter => simp only [enabled, decide_eq_true_eq] at en; simp [next, taskReenter, en]
  | pushSample num => rw [next_pushSample, storeSamples_eq]
  | write | setPassthrough | setStepping | setPulsePeriod | registerPulseCallback => exact Iff.rfl

theorem stores_next_idle (u : Nat) {s : Pulser} {a : PulserAction} (idle : s.pc = .receive)
    (en : s.enabled a = true) (admitted : s.obliged u a = true) (ne : a ≠ .receive) :
    (s.next u a).stores = s.stores := by
  cases a with
  | receive => exact absurd rfl ne
  | loop | call | ret | reenter => simp [enabled, idle] at en
  | pushSample num => simp [obliged, idle] at admitted
  | write | setPassthrough | setStepping | setPulsePeriod | registerPulseCallback => rfl

theorem stores_next_words (u : Nat) {s : Pulser} {a : PulserAction} {p : BitVec 32}
    (ne : ∀ pin val, a ≠ .write pin val) (port : s.portData = p)
    (active : s.pc ≠ .receive ∨ a = .receive)
    (words : s.pc ≠ .receive → ∀ st ∈ s.stores, st.2 = p) :
    ∀ st ∈ (s.next u a).stores, st.2 = p := by
  have busy : a ≠ .receive → ∀ st ∈ s.stores, st.2 = p := fun ne => words (active.resolve_right ne)
  cases a with
  | receive =>
    simp only [next, taskReceive]
    split
    · simp
    · simp [port]
  | loop =>
    have loop : s.next u .loop = s.taskLoop u := rfl
    rcases taskLoop_cases u s with ⟨-, -, -, -, eq⟩ | ⟨-, -, eq⟩ | ⟨-, eq⟩ <;> rw [loop, eq]
    · exact busy nofun
    · intro st h
      simp only [storeSample, List.mem_append, List.mem_singleton] at h
      rcases h with old | rfl
      · exact busy nofun st old
      · exact port
    · exact busy nofun
  | call => simp only [next, taskCall]; split <;> exact busy nofun
  | pushSample num =>
    rw [next_pushSample, storeSamples_eq]
    intro st h
    simp only [List.mem_append, List.mem_map, List.mem_range] at h
    rcases h with old | ⟨i, -, rfl⟩
    · exact busy nofun st old
    · exact port
  | write pin val => exact absurd rfl (ne pin val)
  | ret | reenter | setPassthrough | setStepping | setPulsePeriod | registerPulseCallback =>
    exact busy nofun

end Pulser

/-- The driver: the feeder task with the pulser API and the port (`feeder`, whose
`portData` is `i2s_port_data`), the ring, the descriptors as they are in memory, the
descriptor of `dma.current` (none while it is NULL, before the first receive), and the
ghost records of `Bitstream`. -/
structure Driver where
  feeder : Pulser
  ring : Ring
  desc : Fin dmaBufCount → Lldesc
  current : Option (Fin dmaBufCount)
  sent : List (BitVec 32)
  passes : List (List (BitVec 32))

/-- The engine's completion, or a step of the feeder, the pulse callback, a port writer or
the pulser API. -/
inductive DriverAction
  | complete
  | feeder (a : PulserAction)
  deriving DecidableEq, Repr

namespace Driver

/-- After `i2s_ioexpander_init`: the buffers and ring of `Bitstream.init`, the feeder
waiting, `dma.current` NULL. -/
def init (period : Nat) (func : Option Nat) : Driver :=
  ⟨Pulser.init period func, Ring.init, (Bitstream.init 0).desc, none, [], []⟩

/-- The descriptor of the refill pass in progress: `dma_desc` while the feeder is inside
a pass. -/
def filling (D : Driver) : Option (Fin dmaBufCount) :=
  if D.feeder.pc = .receive then none else D.current

def complete (D : Driver) : Driver :=
  { D with
    ring := D.ring.complete.2
    desc :=
      match D.ring.complete.1 with
      | some d => Function.update D.desc d (evictRefill D.feeder.portData (D.desc d))
      | none => D.desc
    sent := D.sent ++ transmitted (D.desc D.ring.cur) }

/-- What the feeder's step `a` from `s` to `s'` stored: a receive begins the record of a
new pass, every other step grows it. -/
def stored (s s' : Pulser) : PulserAction → List (Nat × BitVec 32)
  | .receive => s'.stores
  | _ => s'.stores.drop s.stores.length

theorem stored_of_ne (s s' : Pulser) {a : PulserAction} (ne : a ≠ .receive) :
    stored s s' a = s'.stores.drop s.stores.length := by
  cases a
  · exact absurd rfl ne
  all_goals rfl

/-- The feeder's step `a`, to `s'`: what it stored goes through `dma.current` into that
buffer, and the step that ends a pass (the loop's exit, or a PASSTHROUGH receive) records
the length in `dma_desc`. -/
def advance (D : Driver) (a : PulserAction) (s' : Pulser) : Driver :=
  match D.current with
  | none => { D with feeder := s' }
  | some d =>
    let written := { D.desc d with buf := applyStores (D.desc d).buf (stored D.feeder s' a) }
    if (a = .loop ∨ a = .receive) ∧ s'.pc = .receive then
      { D with feeder := s', desc := Function.update D.desc d { written with length := s'.length },
               passes := D.passes ++ [s'.stores.map Prod.snd] }
    else { D with feeder := s', desc := Function.update D.desc d written }

def feederStep (u : Nat) (D : Driver) (a : PulserAction) : Option Driver :=
  (D.feeder.step u a).map (D.advance a)

/-- A receive takes the front of `dma.queue` into `dma_desc` and `dma.current` (lines
306-307). -/
def step (u : Nat) (D : Driver) : DriverAction → Option Driver
  | .complete => some D.complete
  | .feeder .receive =>
    match D.ring.receive with
    | some (d, ring) => { D with ring, current := some d }.feederStep u .receive
    | none => none
  | .feeder a => D.feederStep u a

theorem step_feeder_of_ne {u : Nat} (D : Driver) {a : PulserAction} (ne : a ≠ .receive) :
    D.step u (.feeder a) = D.feederStep u a := by
  cases a
  · exact absurd rfl ne
  all_goals rfl

/-- The pulse callback keeps its obligation, and the feeder keeps up. -/
def admitted (u : Nat) (D : Driver) : DriverAction → Bool
  | .complete =>
    nextDesc D.ring.cur ∉ D.ring.complete.2.queue ∧ D.filling ≠ some (nextDesc D.ring.cur)
  | .feeder a => D.feeder.obliged u a

@[simp] theorem advance_feeder (D : Driver) (a : PulserAction) (s' : Pulser) :
    (D.advance a s').feeder = s' := by
  unfold advance; split <;> (try split) <;> rfl

@[simp] theorem advance_ring (D : Driver) (a : PulserAction) (s' : Pulser) :
    (D.advance a s').ring = D.ring := by
  unfold advance; split <;> (try split) <;> rfl

@[simp] theorem advance_current (D : Driver) (a : PulserAction) (s' : Pulser) :
    (D.advance a s').current = D.current := by
  unfold advance; split <;> (try split) <;> rfl

@[simp] theorem advance_sent (D : Driver) (a : PulserAction) (s' : Pulser) :
    (D.advance a s').sent = D.sent := by
  unfold advance; split <;> (try split) <;> rfl

theorem advance_passes (D : Driver) (a : PulserAction) (s' : Pulser) :
    (D.advance a s').passes = D.passes ∨ ((a = .loop ∨ a = .receive) ∧ s'.pc = .receive) ∧
      (D.advance a s').passes = D.passes ++ [s'.stores.map Prod.snd] := by
  unfold advance; split
  · exact .inl rfl
  · split
    · exact .inr ⟨‹_›, rfl⟩
    · exact .inl rfl

theorem advance_of_stored_nil (D : Driver) (a : PulserAction) (s' : Pulser)
    (none : stored D.feeder s' a = []) (going : ¬((a = .loop ∨ a = .receive) ∧ s'.pc = .receive)) :
    (D.advance a s').desc = D.desc ∧ (D.advance a s').passes = D.passes := by
  unfold advance; split
  · exact ⟨rfl, rfl⟩
  · rename_i d _
    rw [if_neg going, none]
    exact ⟨Function.update_eq_self d D.desc, rfl⟩

/-! ### Simulation -/

/-- `D` is `B` with the pass in progress carried out so far: the same ring, port word,
records and pass, and the same descriptors but the one being refilled, which holds the
pass's stores so far over what `B` has for it. -/
structure Sim (D : Driver) (B : Bitstream) : Prop where
  ring : D.ring = B.ring
  portData : D.feeder.portData = B.portData
  sent : D.sent = B.sent
  passes : D.passes = B.passes
  filling : D.filling = B.filling
  desc : ∀ i, D.desc i = if B.filling = some i then
    { B.desc i with buf := applyStores (B.desc i).buf D.feeder.stores } else B.desc i

theorem sim_init (period : Nat) (func : Option Nat) : Sim (init period func) (Bitstream.init 0) :=
  ⟨rfl, rfl, rfl, rfl, rfl, fun _ => rfl⟩

theorem Sim.desc_of_none {D : Driver} {B : Bitstream} (sim : Sim D B) (idle : B.filling = none)
    (i : Fin dmaBufCount) : D.desc i = B.desc i := by
  rw [sim.desc i, idle, if_neg (Option.noConfusion)]

theorem sim_complete {D : Driver} {B : Bitstream} {u : Nat} (sim : Sim D B) (inv : B.Delivers)
    (up : D.admitted u .complete = true) :
    B.keepsUp .complete = true ∧ Sim D.complete B.complete := by
  have ev := inv.no_eviction
  have cur : D.desc D.ring.cur = B.desc B.ring.cur := by
    rw [sim.desc, sim.ring, if_neg fun h => inv.filling_ne_cur h rfl]
  refine ⟨by simpa only [admitted, Bitstream.keepsUp, sim.ring, sim.filling] using up, ?_⟩
  refine ⟨by simp only [complete, Bitstream.complete_ring, sim.ring], sim.portData, ?_, sim.passes,
    sim.filling, fun i => ?_⟩
  · simp only [complete, Bitstream.complete, cur, sim.sent]
  · have evD : D.ring.complete.1 = none := sim.ring ▸ ev
    rw [Bitstream.complete_desc ev, Bitstream.complete_filling, show D.complete.desc = D.desc by
      simp only [complete, evD]]
    exact sim.desc i

theorem sim_advance_pass {D : Driver} {B : Bitstream} {a : PulserAction} {s' : Pulser}
    {d : Fin dmaBufCount} {pre : List (Nat × BitVec 32)} (ring : D.ring = B.ring)
    (port : s'.portData = B.portData) (sent : D.sent = B.sent) (passes : D.passes = B.passes)
    (current : D.current = some d) (filling : B.filling = some d)
    (others : ∀ i, i ≠ d → D.desc i = B.desc i)
    (at_d : D.desc d = { B.desc d with buf := applyStores (B.desc d).buf pre })
    (grows : pre ++ stored D.feeder s' a = s'.stores) (going : s'.pc ≠ .receive) :
    Sim (D.advance a s') B := by
  have goingPass : ¬((a = .loop ∨ a = .receive) ∧ s'.pc = .receive) := fun h => going h.2
  unfold advance
  rw [current]
  simp only [if_neg goingPass]
  refine ⟨ring, port, sent, passes, ?_, fun i => ?_⟩
  · simp only [filling, Driver.filling, if_neg going, current]
  · rw [filling]
    dsimp only
    by_cases e : i = d
    · subst e
      rw [Function.update_same, if_pos rfl, at_d, ← grows, applyStores_append]
    · rw [Function.update_noteq e, if_neg (fun h => e (Option.some.inj h).symm), others i e]

theorem sim_advance_end {D : Driver} {B : Bitstream} {a : PulserAction} {s' : Pulser}
    {d : Fin dmaBufCount} {pre : List (Nat × BitVec 32)} (ring : D.ring = B.ring)
    (port : s'.portData = B.portData) (sent : D.sent = B.sent) (passes : D.passes = B.passes)
    (current : D.current = some d) (filling : B.filling = some d)
    (others : ∀ i, i ≠ d → D.desc i = B.desc i)
    (at_d : D.desc d = { B.desc d with buf := applyStores (B.desc d).buf pre })
    (grows : pre ++ stored D.feeder s' a = s'.stores)
    (ends : (a = .loop ∨ a = .receive) ∧ s'.pc = .receive) (filled : s'.Filled)
    (length : s'.length = s'.rwPos * i2sSampleSize) (bound : s'.rwPos ≤ dmaSampleCount) :
    ∃ B', B.step (.finish (s'.stores.map Prod.snd)) = some B' ∧ Sim (D.advance a s') B' := by
  obtain ⟨fits, pass⟩ := Pulser.pass_words filled length bound
  refine ⟨_, by simp only [Bitstream.step, if_pos fits, Bitstream.endPass, filling]; rfl, ?_⟩
  unfold advance
  rw [current]
  simp only [if_pos ends]
  refine ⟨ring, port, sent, by rw [passes], ?_, fun i => ?_⟩
  · simp only [Driver.filling, if_pos ends.2]
  · simp only [reduceCtorEq, if_false]
    by_cases e : i = d
    · subst e
      rw [Function.update_same, Function.update_same, ← pass (B.desc i), at_d, ← grows,
        applyStores_append]
    · rw [Function.update_noteq e, Function.update_noteq e, others i e]

theorem sim_stutter {D D' : Driver} {B : Bitstream} (sim : Sim D B) (idle : B.filling = none)
    (ring : D'.ring = D.ring) (port : D'.feeder.portData = D.feeder.portData)
    (sent : D'.sent = D.sent) (passes : D'.passes = D.passes) (filling : D'.filling = none)
    (desc : D'.desc = D.desc) : Sim D' B :=
  ⟨ring.trans sim.ring, port.trans sim.portData, sent.trans sim.sent, passes.trans sim.passes,
    filling.trans idle.symm,
    fun i => by rw [desc, sim.desc_of_none idle, idle, if_neg Option.noConfusion]⟩

theorem Sim.frame {D D' : Driver} {B : Bitstream} (sim : Sim D B) (w : BitVec 32)
    (ring : D'.ring = D.ring) (port : D'.feeder.portData = w) (sent : D'.sent = D.sent)
    (passes : D'.passes = D.passes) (filling : D'.filling = D.filling) (desc : D'.desc = D.desc)
    (stores : D'.feeder.stores = D.feeder.stores) : Sim D' { B with portData := w } :=
  ⟨ring.trans sim.ring, port, sent.trans sim.sent, passes.trans sim.passes,
    filling.trans sim.filling, fun i => by rw [desc, stores]; exact sim.desc i⟩

theorem feeder_of_step {u : Nat} {D D' : Driver} {a : PulserAction}
    (h : D.step u (.feeder a) = some D') :
    D.feeder.enabled a = true ∧ D'.feeder = D.feeder.next u a ∧
      (D'.passes = D.passes ∨ ((a = .loop ∨ a = .receive) ∧ D'.feeder.pc = .receive) ∧
        D'.passes = D.passes ++ [D'.feeder.stores.map Prod.snd]) := by
  obtain ⟨D₀, h₀, same, passes⟩ : ∃ D₀ : Driver, D₀.feederStep u a = some D' ∧
      D₀.feeder = D.feeder ∧ D₀.passes = D.passes := by
    cases a
    case receive =>
      simp only [step] at h
      split at h
      · exact ⟨_, h, rfl, rfl⟩
      · cases h
    all_goals exact ⟨D, h, rfl, rfl⟩
  obtain ⟨s', hs, rfl⟩ := Option.map_eq_some'.mp h₀
  obtain ⟨en, rfl⟩ := Pulser.step_eq_some.mp hs
  rw [advance_feeder, ← passes, ← same]
  exact ⟨en, rfl, advance_passes _ _ _⟩

theorem bounded_step {u : Nat} {D D' : Driver} {a : DriverAction} (inv : D.feeder.Bounded u)
    (ok : D.admitted u a = true) (h : D.step u a = some D') : D'.feeder.Bounded u := by
  cases a with
  | complete => cases h; exact inv
  | feeder a =>
    obtain ⟨en, feeder, -⟩ := feeder_of_step h
    rw [feeder]
    exact Pulser.bounded_next inv ok en

theorem sim_receive {u : Nat} {D D' : Driver} {B : Bitstream} (sim : Sim D B)
    (inv : D.feeder.Bounded u) (h : D.step u (.feeder .receive) = some D') :
    ∃ B', Steps Bitstream.step Bitstream.keepsUp B B' ∧ Sim D' B' := by
  simp only [step] at h
  split at h
  · rename_i d ring hr
    obtain ⟨s', hs, rfl⟩ := Option.map_eq_some'.mp h
    obtain ⟨en, rfl⟩ := Pulser.step_eq_some.mp hs
    have idle : D.feeder.pc = .receive := by simpa [Pulser.enabled] using en
    have fillB : B.filling = none := by rw [← sim.filling, Driver.filling, if_pos idle]
    let D₀ : Driver := { D with ring, current := some d }
    let B₁ : Bitstream := { B with ring, filling := some d }
    have recv : B.step .receive = some B₁ := by
      simp only [Bitstream.step, fillB, ← sim.ring, hr]
    have ringEq : D₀.ring = B₁.ring := rfl
    have port : (D₀.feeder.next u .receive).portData = B₁.portData :=
      (Pulser.portData_next u D.feeder (a := .receive) fun _ _ h => nomatch h).trans sim.portData
    have others : ∀ i, i ≠ d → D₀.desc i = B₁.desc i := fun i _ => sim.desc_of_none fillB i
    have at_d : D₀.desc d = { B₁.desc d with buf := applyStores (B₁.desc d).buf [] } :=
      sim.desc_of_none fillB d
    have grows : [] ++ stored D₀.feeder (D₀.feeder.next u .receive) .receive =
        (D₀.feeder.next u .receive).stores := rfl
    by_cases ended : (D.feeder.next u .receive).pc = .receive
    · obtain ⟨filled, length, bound⟩ := Pulser.ended_pass inv en (.inr rfl) ended
      obtain ⟨B', hB, sim'⟩ := sim_advance_end ringEq port sim.sent sim.passes rfl rfl others at_d
        grows ⟨.inr rfl, ended⟩ filled length bound
      exact ⟨B', .step _ (.step .receive .start rfl recv) (by rfl) hB, sim'⟩
    · exact ⟨B₁, .step .receive .start rfl recv,
        sim_advance_pass ringEq port sim.sent sim.passes rfl rfl others at_d grows ended⟩
  · cases h

theorem sim_feederStep {u : Nat} {D D' : Driver} {B : Bitstream} {a : PulserAction}
    (sim : Sim D B) (inv : D.feeder.Bounded u) (ok : D.feeder.obliged u a = true)
    (ne : a ≠ .receive) (h : D.feederStep u a = some D') :
    ∃ B', Steps Bitstream.step Bitstream.keepsUp B B' ∧ Sim D' B' := by
  obtain ⟨s', hs, rfl⟩ := Option.map_eq_some'.mp h
  obtain ⟨en, rfl⟩ := Pulser.step_eq_some.mp hs
  by_cases w : ∃ pin val, a = .write pin val
  · obtain ⟨pin, val, rfl⟩ := w
    obtain ⟨desc, passes⟩ := advance_of_stored_nil D _ (D.feeder.next u (.write pin val))
      (by rw [stored_of_ne _ _ ne]; exact List.drop_length _) (by simp)
    exact ⟨{ B with portData := i2sIoexpanderWrite B.portData pin val },
      .step (.write pin val) .start rfl rfl,
      sim.frame _ (advance_ring ..) (by rw [advance_feeder, ← sim.portData]; rfl) (advance_sent ..)
        passes (by simp only [Driver.filling, advance_feeder, advance_current]; rfl) desc
        (by rw [advance_feeder]; rfl)⟩
  push_neg at w
  have port := Pulser.portData_next u D.feeder w
  by_cases idle : D.feeder.pc = .receive
  · have fillB : B.filling = none := by rw [← sim.filling, Driver.filling, if_pos idle]
    have notLoop : a ≠ .loop := by rintro rfl; simp [Pulser.enabled, idle] at en
    have back := (Pulser.pc_next_receive u en ne notLoop).mpr idle
    obtain ⟨desc, passes⟩ := advance_of_stored_nil D a (D.feeder.next u a) (by
      rw [stored_of_ne _ _ ne, Pulser.stores_next_idle u idle en ok ne]; exact List.drop_length _)
      (fun h => h.1.elim notLoop ne)
    exact ⟨B, .start, sim_stutter sim fillB (advance_ring ..) (by rw [advance_feeder]; exact port)
      (advance_sent ..) passes
      (by simp only [Driver.filling, advance_feeder, back, if_true]) desc⟩
  cases hc : D.current with
  | none =>
    have fillB : B.filling = none := by rw [← sim.filling, Driver.filling, if_neg idle, hc]
    have same : D.advance a (D.feeder.next u a) = { D with feeder := D.feeder.next u a } := by
      simp only [advance, hc]
    refine ⟨B, .start, sim_stutter sim fillB (advance_ring ..) (by rw [advance_feeder]; exact port)
      (advance_sent ..) ?_ ?_ ?_⟩ <;>
      simp only [same, Driver.filling, hc, ite_self]
  | some d =>
    have fillB : B.filling = some d := by rw [← sim.filling, Driver.filling, if_neg idle, hc]
    have at_d : D.desc d = { B.desc d with buf := applyStores (B.desc d).buf D.feeder.stores } := by
      rw [sim.desc, fillB, if_pos rfl]
    have others : ∀ i, i ≠ d → D.desc i = B.desc i := fun i e => by
      rw [sim.desc, fillB, if_neg fun h => e (Option.some.inj h).symm]
    have grows : D.feeder.stores ++ stored D.feeder (D.feeder.next u a) a =
        (D.feeder.next u a).stores := by
      rw [stored_of_ne _ _ ne]
      exact List.prefix_iff_eq_append.mp (Pulser.stores_prefix_next u D.feeder ne)
    by_cases ends : (a = .loop ∨ a = .receive) ∧ (D.feeder.next u a).pc = .receive
    · obtain ⟨filled, length, bound⟩ := Pulser.ended_pass inv en ends.1 ends.2
      obtain ⟨B', hB, sim'⟩ := sim_advance_end sim.ring (port.trans sim.portData) sim.sent
        sim.passes hc fillB others at_d grows ends filled length bound
      exact ⟨B', .step _ .start (by rfl) hB, sim'⟩
    · have going : (D.feeder.next u a).pc ≠ .receive := fun back => by
        by_cases loop : a = .loop
        · exact ends ⟨.inl loop, back⟩
        · exact idle ((Pulser.pc_next_receive u en ne loop).mp back)
      exact ⟨B, .start, sim_advance_pass sim.ring (port.trans sim.portData) sim.sent sim.passes
        hc fillB others at_d grows going⟩

theorem exists_sim {u period : Nat} {func : Option Nat} {D : Driver}
    (reach : Steps (step u) (admitted u) (init period func) D) :
    ∃ B, Steps Bitstream.step Bitstream.keepsUp (Bitstream.init 0) B ∧ Sim D B ∧
      D.feeder.Bounded u := by
  induction reach with
  | start => exact ⟨_, .start, sim_init period func, by simp [init, Pulser.init, Pulser.Bounded]⟩
  | step a _ ok h ih =>
    obtain ⟨B, reachB, sim, inv⟩ := ih
    have inv' := bounded_step inv ok h
    cases a with
    | complete =>
      cases h
      obtain ⟨up, sim'⟩ := sim_complete sim (Bitstream.delivers_of_steps reachB) ok
      exact ⟨_, reachB.trans (.step _ .start up rfl), sim', inv'⟩
    | feeder a =>
      by_cases recv : a = .receive
      · subst recv
        obtain ⟨B', steps, sim'⟩ := sim_receive sim inv h
        exact ⟨B', reachB.trans steps, sim', inv'⟩
      · rw [step_feeder_of_ne _ recv] at h
        obtain ⟨B', steps, sim'⟩ := sim_feederStep sim inv ok recv h
        exact ⟨B', reachB.trans steps, sim', inv'⟩

/-- The driver at the level of its code refines the pass-level bitstream: in every run in
which the pulse callback keeps its obligation and the feeder keeps up, the state is
related by `Sim` to a state of `Bitstream` reached with the feeder keeping up. So the
samples sent and the passes are those of a run of `Bitstream`, in which each refill pass is
one step. -/
theorem driver_refines_bitstream {u period : Nat} {func : Option Nat} {D : Driver}
    (reach : Steps (step u) (admitted u) (init period func) D) :
    ∃ B, Steps Bitstream.step Bitstream.keepsUp (Bitstream.init 0) B ∧ Sim D B :=
  let ⟨B, reachB, sim, _⟩ := exists_sim reach
  ⟨B, reachB, sim⟩

set_option maxRecDepth 4000 in
/-- A write of pin 3, one completion, then the feeder's PASSTHROUGH pass on `desc[0]` with
the new port word. -/
theorem first_passthrough_refined :
    ∃ D, Steps (step 4) (admitted 4) (init 8 none) D ∧ D.feeder.portData = 8#32 ∧
      D.passes.map List.head? = [some 8#32] ∧
      ∃ B, Steps Bitstream.step Bitstream.keepsUp (Bitstream.init 0) B ∧ Sim D B := by
  have replay : Steps.replay (step 4) (admitted 4) (init 8 none)
      [.feeder (.write 3 1), .complete, .feeder .receive] = some _ := rfl
  have reach := Steps.start.of_replay replay
  exact ⟨_, reach, rfl, rfl, driver_refines_bitstream reach⟩

/-- In every run of the driver at the level of its code in which the pulse callback keeps
its obligation and the feeder keeps up, the engine has sent the DMA_BUF_COUNT zeroed
buffers of `i2s_ioexpander_init` followed by the words of the refill passes in the order
they ended, up to at most DMA_BUF_COUNT buffers before their end. -/
theorem driver_sends_passes {u period : Nat} {func : Option Nat} {D : Driver}
    (reach : Steps (step u) (admitted u) (init period func) D) :
    D.sent <+: Bitstream.initialSamples ++ D.passes.flatten ∧
      (Bitstream.initialSamples ++ D.passes.flatten).length ≤
        D.sent.length + dmaBufCount * dmaSampleCount := by
  obtain ⟨B, reachB, sim, -⟩ := exists_sim reach
  have bound := Bitstream.pending_length_le (Bitstream.lengthsFit_of_steps reachB)
  rw [sim.sent, sim.passes, ← (Bitstream.delivers_of_steps reachB).stream, List.length_append]
  exact ⟨List.prefix_append _ _, Nat.add_le_add_left bound _⟩

set_option maxRecDepth 4000 in
/-- Two PASSTHROUGH passes, after writes of pin 3 and of pin 5: the first pass carries the
word 8, the second the word 40. -/
theorem first_passthrough_sent_in_order :
    ∃ D, Steps (step 4) (admitted 4) (init 8 none) D ∧
      D.passes.map List.head? = [some 8#32, some 40#32] ∧
      (D.sent <+: Bitstream.initialSamples ++ D.passes.flatten ∧
        (Bitstream.initialSamples ++ D.passes.flatten).length ≤
          D.sent.length + dmaBufCount * dmaSampleCount) := by
  have replay : Steps.replay (step 4) (admitted 4) (init 8 none)
      [.feeder (.write 3 1), .complete, .feeder .receive, .feeder (.write 5 1), .complete,
        .feeder .receive] = some _ := rfl
  have reach := Steps.start.of_replay replay
  exact ⟨_, reach, rfl, driver_sends_passes reach⟩

/-! ### Latency of a port write -/

def quiet (u : Nat) (D : Driver) (a : DriverAction) : Bool :=
  D.admitted u a &&
    match a with
    | .feeder (.write _ _) => false
    | _ => true

theorem admitted_of_quiet {u : Nat} {D : Driver} {a : DriverAction} (q : D.quiet u a = true) :
    D.admitted u a = true := by
  simp only [quiet, Bool.and_eq_true] at q
  exact q.1

/-- Along a run from `D` in which nobody writes: the port word stays `p`, the pass in
progress stores only `p`, and so does every pass that ends. -/
structure Quiet (p : BitVec 32) (D E : Driver) : Prop where
  port : E.feeder.portData = p
  words : E.feeder.pc ≠ .receive → ∀ st ∈ E.feeder.stores, st.2 = p
  passes : ∃ later : List (List (BitVec 32)), E.passes = D.passes ++ later ∧
    ∀ x ∈ later.flatten, x = p

theorem quiet_step {u : Nat} {p : BitVec 32} {D E E' : Driver} {a : DriverAction}
    (inv : Quiet p D E) (q : E.quiet u a = true) (h : E.step u a = some E') : Quiet p D E' := by
  cases a with
  | complete => cases h; exact ⟨inv.port, inv.words, inv.passes⟩
  | feeder a =>
    have ne : ∀ pin val, a ≠ .write pin val := by
      rintro pin val rfl; simp [quiet] at q
    obtain ⟨en, feeder, passes⟩ := feeder_of_step h
    have active : E.feeder.pc ≠ .receive ∨ a = .receive → ∀ st ∈ E'.feeder.stores, st.2 = p :=
      fun active => feeder ▸ Pulser.stores_next_words u ne inv.port active inv.words
    obtain ⟨later, was, const⟩ := inv.passes
    refine ⟨by rw [feeder, Pulser.portData_next u _ ne, inv.port], fun busy => active ?_, ?_⟩
    · by_contra idle
      push_neg at idle
      have notLoop : a ≠ .loop := by rintro rfl; simp [Pulser.enabled, idle.1] at en
      exact busy (feeder ▸ (Pulser.pc_next_receive u en idle.2 notLoop).mpr idle.1)
    · rcases passes with same | ⟨⟨ends, ended⟩, grew⟩
      · exact ⟨later, same.trans was, const⟩
      · have busy : E.feeder.pc ≠ .receive ∨ a = .receive := ends.imp_left fun loop => by
          subst loop; simp only [Pulser.enabled, decide_eq_true_eq] at en; simp [en]
        refine ⟨later ++ [E'.feeder.stores.map Prod.snd], by rw [grew, was, List.append_assoc], ?_⟩
        intro x hx
        simp only [List.flatten_append, List.flatten_singleton, List.mem_append, List.mem_map] at hx
        rcases hx with old | ⟨st, st_in, rfl⟩
        · exact const x old
        · exact active busy st st_in

/-- A word written to the port reaches the bitstream within DMA_BUF_COUNT buffers, in
either mode, in the driver at the level of its code: from any reachable state whose pass in
progress has stored only the port word (the feeder waiting, or no write since its pass
began), as long as nobody writes, every sample sent after the next
DMA_BUF_COUNT * DMA_SAMPLE_COUNT is the port word. The header's I2S_OUT_DELAY_MS allows for
DMA_BUF_COUNT + 1 buffers. -/
theorem port_word_sent_within_buffers {u period : Nat} {func : Option Nat} {D E : Driver}
    (reach : Steps (step u) (admitted u) (init period func) D)
    (fresh : D.feeder.pc ≠ .receive → ∀ st ∈ D.feeder.stores, st.2 = D.feeder.portData)
    (after : Steps (step u) (quiet u) D E) :
    ∀ x ∈ E.sent.drop (D.sent.length + dmaBufCount * dmaSampleCount), x = D.feeder.portData := by
  have quietE := after.invariant (Quiet D.feeder.portData D) ⟨rfl, fresh, [], by simp, by simp⟩
    fun _ _ _ inv q h => quiet_step inv q h
  obtain ⟨later, passes, const⟩ := quietE.passes
  obtain ⟨B, reachB, simD, -⟩ := exists_sim reach
  obtain ⟨BE, reachBE, simE, -⟩ :=
    exists_sim (reach.trans (after.mono fun _ _ => admitted_of_quiet))
  have bound := Bitstream.pending_length_le (Bitstream.lengthsFit_of_steps reachB)
  have streamD := (Bitstream.delivers_of_steps reachB).stream
  have stream := (Bitstream.delivers_of_steps reachBE).stream
  rw [← simD.sent, ← simD.passes] at streamD
  rw [← simE.sent, ← simE.passes, passes, List.flatten_append, ← List.append_assoc, ← streamD]
    at stream
  intro x hx
  have late : x ∈ (E.sent ++ BE.pending).drop (D.sent.length + dmaBufCount * dmaSampleCount) := by
    rw [List.drop_append_eq_append_drop]
    exact List.mem_append_left _ hx
  rw [stream, List.drop_append_eq_append_drop,
    List.drop_eq_nil_of_le (by rw [List.length_append]; omega), List.nil_append] at late
  exact const x (List.mem_of_mem_drop late)

set_option maxRecDepth 4000 in
/-- A write of pin 3 just after `i2s_ioexpander_init`, then six buffers with the feeder
refilling each finished descriptor in PASSTHROUGH and nobody writing: the zeroed buffers
go out first, and the port word 8 after them. -/
theorem six_buffers_carry_port_word :
    ∃ D E, Steps (step 4) (admitted 4) (init 8 none) D ∧ D.feeder.portData = 8#32 ∧
      Steps (step 4) (quiet 4) D E ∧ E.sent.head? = some 0#32 ∧
      ∀ x ∈ E.sent.drop (D.sent.length + dmaBufCount * dmaSampleCount), x = D.feeder.portData := by
  have write : Steps.replay (step 4) (admitted 4) (init 8 none) [.feeder (.write 3 1)] =
      some ((init 8 none).advance (.write 3 1) ((init 8 none).feeder.next 4 (.write 3 1))) := rfl
  have reach := Steps.start.of_replay write
  have replay : Steps.replay (step 4) (quiet 4)
      ((init 8 none).advance (.write 3 1) ((init 8 none).feeder.next 4 (.write 3 1)))
      (.complete :: (List.replicate 5 [.feeder .receive, .complete]).flatten) = some _ := rfl
  have after := Steps.start.of_replay replay
  exact ⟨_, _, reach, rfl, after, rfl,
    port_word_sent_within_buffers reach (fun busy => absurd rfl busy) after⟩

end Driver

end I2SIOExpander
