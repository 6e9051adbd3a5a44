import I2SIOExpander.Ring

/-! `i2s_ioexpander_reset` against the feeder task. Reset rewrites every buffer and restarts
the engine at `desc[0]`, but neither drains `dma.queue` nor waits for the refill pass in
progress, so the feeder goes on refilling what was queued, sent or not. -/
namespace I2SIOExpander

/-- The engine, the descriptor of the feeder's refill pass in progress (`dma_desc`,
none while it waits on the queue), and two ghost records since the last reset: the
buffers the engine has finished sending once, and the buffers written before that. -/
structure Engine where
  ring : Ring
  filling : Option (Fin dmaBufCount)
  finished : Fin dmaBufCount → Bool
  early : Fin dmaBufCount → Bool

/-- A completion with its interrupt handler; the feeder's receive (line 306), a store into
its descriptor (lines 339, 347, 353, 356, 387), the end of its pass (358); and a reset, from
any task or from inside the pulse callback. -/
inductive EngineAction
  | complete
  | receive
  | write
  | finish
  | reset
  deriving DecidableEq, Repr

namespace Engine

def init : Engine := ⟨Ring.init, none, fun _ => false, fun _ => false⟩

def write (s : Engine) (d : Fin dmaBufCount) : Engine :=
  { s with early := Function.update s.early d (s.early d || !s.finished d) }

def complete (s : Engine) : Engine :=
  let done := { s with ring := s.ring.complete.2,
                       finished := Function.update s.finished s.ring.cur true }
  match s.ring.complete.1 with
  | some d => done.write d
  | none => done

/-- `i2s_stop`, `i2s_clear_dma_buffers`, `i2s_start`: the engine back at `desc[0]`,
the queue and the feeder untouched. -/
def reset (s : Engine) : Engine :=
  { s with ring := { s.ring with cur := firstDesc }, finished := fun _ => false,
           early := fun _ => false }

def step (s : Engine) : EngineAction → Option Engine
  | .complete => some s.complete
  | .receive =>
    match s.filling, s.ring.receive with
    | none, some (d, ring) => some { s with ring, filling := some d }
    | _, _ => none
  | .write =>
    match s.filling with
    | some d => some (s.write d)
    | none => none
  | .finish =>
    match s.filling with
    | some _ => some { s with filling := none }
    | none => none
  | .reset => some s.reset

abbrev Reachable (s : Engine) : Prop := Steps step (fun _ _ => true) init s

/-- The runs after one reset, until the next. -/
abbrev After (s0 : Engine) : Engine → Prop := Steps step (fun _ a => decide (a ≠ .reset)) s0

def LeftBehind (s : Engine) (d : Fin dmaBufCount) : Prop :=
  d ∈ s.ring.queue ∨ s.filling = some d

/-- Everything queued or being refilled was finished once since the reset, or was left
behind by it; and only what was left behind was written early. -/
structure Clean (s0 s : Engine) : Prop where
  queued : ∀ d ∈ s.ring.queue, s.finished d = true ∨ s0.LeftBehind d
  filling : ∀ d, s.filling = some d → s.finished d = true ∨ s0.LeftBehind d
  early : ∀ d, s.early d = true → s0.LeftBehind d

theorem clean_reset (s : Engine) : Clean s s.reset :=
  ⟨fun d h => .inr (.inl h), fun d h => .inr (.inr h), fun d h => by simp [reset] at h⟩

theorem clean_write {s0 s : Engine} {d : Fin dmaBufCount} (clean : Clean s0 s)
    (ok : s.finished d = true ∨ s0.LeftBehind d) : Clean s0 (s.write d) := by
  refine ⟨clean.queued, clean.filling, fun d' h => ?_⟩
  simp only [write, Function.update_apply] at h
  by_cases e : d' = d
  · subst e
    rcases ok with fin | left
    · simp only [if_pos, fin, Bool.not_true, Bool.or_false] at h
      exact clean.early _ h
    · exact left
  · simp only [e, if_false] at h
    exact clean.early _ h

theorem mem_intrHandler {q : List (Fin dmaBufCount)} {c d : Fin dmaBufCount}
    (h : d ∈ (i2sIntrHandlerDefault q c).2) : d ∈ q ∨ d = c := by
  unfold i2sIntrHandlerDefault queueSend at h
  split at h <;> split at h <;> simp only [List.mem_append, List.mem_singleton] at h
  · exact h.imp_left List.mem_of_mem_tail
  · exact .inl (List.mem_of_mem_tail h)
  · exact h
  · exact .inl h

theorem evicted_mem {q : List (Fin dmaBufCount)} {c d : Fin dmaBufCount}
    (h : (i2sIntrHandlerDefault q c).1 = some d) : d ∈ q := by
  unfold i2sIntrHandlerDefault at h
  split at h
  · exact List.mem_of_mem_head? h
  · cases h

theorem clean_complete {s0 s : Engine} (clean : Clean s0 s) : Clean s0 s.complete := by
  let done : Engine := { s with ring := s.ring.complete.2,
                                finished := Function.update s.finished s.ring.cur true }
  have grows : ∀ d, s.finished d = true → done.finished d = true := fun d h => by
    simp only [done, Function.update_apply]; split <;> simp [h]
  have cleanDone : Clean s0 done := by
    refine ⟨fun d h => ?_, fun d h => (clean.filling d h).imp_left (grows d), clean.early⟩
    rcases mem_intrHandler h with h | rfl
    · exact (clean.queued d h).imp_left (grows d)
    · exact .inl (by simp [done])
  unfold complete
  split
  · rename_i d ev
    exact clean_write cleanDone ((clean.queued d (evicted_mem ev)).imp_left (grows d))
  · exact cleanDone

theorem clean_step {s0 s s' : Engine} {a : EngineAction} (clean : Clean s0 s) (ne : a ≠ .reset)
    (h : s.step a = some s') : Clean s0 s' := by
  cases a with
  | complete => cases h; exact clean_complete clean
  | receive =>
    simp only [step] at h
    split at h
    · rename_i d ring _ hr
      cases h
      have pop := (Ring.receive_some hr).1
      refine ⟨fun d' h' => clean.queued d' (pop ▸ List.mem_cons_of_mem d h'), fun d' h' => ?_,
        clean.early⟩
      cases h'
      exact clean.queued d (pop ▸ List.mem_cons_self d _)
    · cases h
  | write =>
    simp only [step] at h
    split at h
    · rename_i d hd
      cases h
      exact clean_write clean (clean.filling d hd)
    · cases h
  | finish =>
    simp only [step] at h
    split at h
    · cases h; exact ⟨clean.queued, fun d h => (Option.some_ne_none d h.symm).elim, clean.early⟩
    · cases h
  | reset => exact absurd rfl ne

theorem After.clean {s t : Engine} (run : After s.reset t) : Clean s t :=
  Steps.invariant (Clean s) run (clean_reset s) fun _ _ _ clean ne h =>
    clean_step clean (of_decide_eq_true ne) h

/-- After `i2s_ioexpander_reset` returns, a buffer is written (by the feeder, or by the
eviction) before the restarted engine has finished sending it once only if its
descriptor was still in `dma.queue` when the reset ran, or was the one of the refill
pass the reset interrupted. Every other buffer goes out first as the reset left it. -/
theorem reset_leaves_only_queued_buffers {s t : Engine} (run : After s.reset t)
    {d : Fin dmaBufCount} (written : t.early d = true) :
    d ∈ s.ring.queue ∨ s.filling = some d :=
  run.clean.early d written

/-- One completion queues `desc[0]`; reset restarts the engine on it; the feeder then
receives it and writes into it while it is being sent. -/
theorem queued_desc0_written_early :
    ∃ t, After init.complete.reset t ∧ t.early firstDesc = true ∧
      (firstDesc ∈ init.complete.ring.queue ∨ init.complete.filling = some firstDesc) := by
  have run : After init.complete.reset _ :=
    .step .write (.step .receive .start (by decide) rfl) (by decide) rfl
  exact ⟨_, run, rfl, reset_leaves_only_queued_buffers run rfl⟩

/-- From a reachable state, after the reset the feeder writes into `desc[0]`, on which
the restarted engine is working, before it was sent once. -/
theorem feeder_writes_before_first_transmission :
    ∃ s t t', Reachable s ∧ After s.reset t ∧ t.filling = some firstDesc ∧
      t.ring.cur = firstDesc ∧ t.finished firstDesc = false ∧ t.step .write = some t' := by
  have reach : Reachable init.complete := .step .complete .start rfl rfl
  exact ⟨_, _, _, reach, .step .receive .start (by decide) rfl, rfl, rfl, rfl, rfl⟩

end Engine

end I2SIOExpander
