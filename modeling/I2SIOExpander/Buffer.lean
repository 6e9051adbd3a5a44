import I2SIOExpander.Basic

/-! The DMA buffers as bytes. The feeder and `i2s_clear_dma_buffers` store samples through
a `uint32_t *`, four bytes lowest first; the interrupt handler's underflow fill indexes the
`uint8_t *` of `lldesc_t.buf` and writes only the port's low byte. -/
namespace I2SIOExpander

def Buffer := Nat → BitVec 8

/-- A store of `v` through a `uint32_t *` at sample `i`: bytes `4i .. 4i+3`, lowest first. -/
def store32 (buf : Buffer) (i : Nat) (v : BitVec 32) : Buffer := fun a =>
  if a / i2sSampleSize = i then v.extractLsb' (8 * (a % i2sSampleSize)) 8 else buf a

def store8 (buf : Buffer) (i : Nat) (v : BitVec 32) : Buffer :=
  Function.update buf i (v.setWidth 8)

/-- Sample `i` as a `uint32_t *` load, and the DMA engine, read it. -/
def sample (buf : Buffer) (i : Nat) : BitVec 32 :=
  buf (4 * i + 3) ++ buf (4 * i + 2) ++ buf (4 * i + 1) ++ buf (4 * i)

def fillSamples (buf : Buffer) (v : BitVec 32) : Nat → Buffer
  | 0 => buf
  | n + 1 => store32 (fillSamples buf v n) n v

def fillBytes (buf : Buffer) (v : BitVec 32) : Nat → Buffer
  | 0 => buf
  | n + 1 => store8 (fillBytes buf v n) n v

def firstDesc : Fin dmaBufCount := ⟨0, Nat.succ_pos 4⟩

/-- The ring successor `desc[i]->empty` as `i2s_ioexpander_init` and
`i2s_clear_dma_buffers` link it: `desc[i + 1]`, and `desc[0]` after the last. -/
def nextDesc (i : Fin dmaBufCount) : Fin dmaBufCount :=
  if h : i.val < dmaBufCount - 1 then ⟨i.val + 1, by omega⟩ else firstDesc

/-- The fields of `lldesc_t` that the modelled code reads back: the buffer, the
transmitted length and the ring link. -/
structure Lldesc where
  buf : Buffer
  length : Nat
  empty : Fin dmaBufCount

/-- Lines 146-158 of `i2s_clear_dma_buffers` for buffer `bufIdx`, with the word its
`atomic_load` returned. -/
def clearDmaBuffer (portData : BitVec 32) (bufIdx : Fin dmaBufCount) (d : Lldesc) : Lldesc :=
  { buf := fillSamples d.buf portData dmaSampleCount, length := dmaBufLen, empty := nextDesc bufIdx }

/-- `i2s_clear_dma_buffers`: `-1` (here `none`, nothing changed) before initialization;
otherwise every buffer is cleared with the word its own `atomic_load` read. -/
def i2sClearDmaBuffers (initialized : Bool) (portData : Fin dmaBufCount → BitVec 32)
    (desc : Fin dmaBufCount → Lldesc) : Option (Fin dmaBufCount → Lldesc) :=
  if initialized then some fun i => clearDmaBuffer (portData i) i (desc i) else none

/-- The PASSTHROUGH refill of `i2sIOExpanderTask` (lines 351-356) on the received descriptor. -/
def passthroughRefill (portData : BitVec 32) (d : Lldesc) : Lldesc :=
  { d with buf := fillSamples d.buf portData dmaSampleCount, length := dmaBufLen }

/-- The underflow fill of `i2s_intr_handler_default` (lines 281-285) on the evicted
descriptor: `front_desc->buf[i] = port_data` goes through the `uint8_t *`. -/
def evictRefill (portData : BitVec 32) (d : Lldesc) : Lldesc :=
  { d with buf := fillBytes d.buf portData dmaSampleCount, length := dmaBufLen }

theorem bytes_concat (v : BitVec 32) :
    v.extractLsb' 24 8 ++ v.extractLsb' 16 8 ++ v.extractLsb' 8 8 ++ v.extractLsb' 0 8 = v := by
  refine BitVec.eq_of_getLsbD_eq fun j => ?_
  have hj := j.isLt
  simp only [BitVec.getLsbD_append, BitVec.getLsbD_extractLsb']
  rcases (show (j : Nat) < 8 ∨ (8 ≤ (j : Nat) ∧ (j : Nat) < 16) ∨ (16 ≤ (j : Nat) ∧ (j : Nat) < 24) ∨
      24 ≤ (j : Nat) by omega) with a | ⟨a, b⟩ | ⟨a, b⟩ | a
  · simp [a]
  · simp [show ¬(j : Nat) < 8 by omega, show (j : Nat) - 8 < 8 by omega]; congr 1; omega
  · simp [show ¬(j : Nat) < 8 by omega, show ¬(j : Nat) - 8 < 8 by omega,
      show (j : Nat) - 8 - 8 < 8 by omega]; congr 1; omega
  · simp [show ¬(j : Nat) < 8 by omega, show ¬(j : Nat) - 8 < 8 by omega,
      show ¬(j : Nat) - 8 - 8 < 8 by omega, show (j : Nat) - 8 - 8 - 8 < 8 by omega]; congr 1; omega

@[simp] theorem sample_store32_same (buf : Buffer) (i : Nat) (v : BitVec 32) :
    sample (store32 buf i v) i = v := by
  have byte : ∀ k < 4, store32 buf i v (4 * i + k) = v.extractLsb' (8 * k) 8 := fun k hk => by
    simp only [store32, i2sSampleSize_eq]
    rw [if_pos (by omega)]
    congr 2; omega
  simp only [sample]
  rw [byte 3 (by decide), byte 2 (by decide), byte 1 (by decide), ← Nat.add_zero (4 * i),
    byte 0 (by decide)]
  exact bytes_concat v

theorem sample_store32_other (buf : Buffer) {i j : Nat} (v : BitVec 32) (h : i ≠ j) :
    sample (store32 buf j v) i = sample buf i := by
  have byte : ∀ k < 4, store32 buf j v (4 * i + k) = buf (4 * i + k) := fun k hk => by
    simp only [store32, i2sSampleSize_eq]
    rw [if_neg (by omega)]
  simp only [sample]
  rw [byte 3 (by decide), byte 2 (by decide), byte 1 (by decide), ← Nat.add_zero (4 * i),
    byte 0 (by decide)]

theorem sample_fillSamples (buf : Buffer) (v : BitVec 32) {i n : Nat} (h : i < n) :
    sample (fillSamples buf v n) i = v := by
  induction n with
  | zero => omega
  | succ n ih =>
    by_cases e : i = n
    · subst e; exact sample_store32_same _ _ _
    · rw [fillSamples, sample_store32_other _ _ e, ih (by omega)]

def applyStores (buf : Buffer) (stores : List (Nat × BitVec 32)) : Buffer :=
  stores.foldl (fun b st => store32 b st.1 st.2) buf

theorem applyStores_append (buf : Buffer) (xs ys : List (Nat × BitVec 32)) :
    applyStores buf (xs ++ ys) = applyStores (applyStores buf xs) ys :=
  List.foldl_append _ _ _ _

theorem sample_applyStores_append (buf : Buffer) (stores : List (Nat × BitVec 32))
    (st : Nat × BitVec 32) (i : Nat) :
    sample (applyStores buf (stores ++ [st])) i =
      if st.1 = i then st.2 else sample (applyStores buf stores) i := by
  simp only [applyStores, List.foldl_append, List.foldl_cons, List.foldl_nil]
  split
  · rename_i same
    rw [same]
    exact sample_store32_same _ _ _
  · exact sample_store32_other _ _ (Ne.symm ‹_›)

theorem sample_applyStores_in_order (buf : Buffer) {stores : List (Nat × BitVec 32)}
    (inOrder : stores.map Prod.fst = List.range stores.length) {i : Nat} (h : i < stores.length) :
    sample (applyStores buf stores) i = stores[i].2 := by
  induction stores using List.reverseRecOn generalizing i with
  | nil => cases h
  | append_singleton front st ih =>
    rw [List.length_append, List.length_singleton, List.range_succ, List.map_append,
      List.map_singleton] at inOrder
    obtain ⟨inOrder, last⟩ := List.append_inj inOrder (by simp)
    rw [sample_applyStores_append]
    by_cases e : i = front.length
    · rw [if_pos (e ▸ List.singleton_inj.mp last), List.getElem_concat_length _ _ _ e]
    · have lt : i < front.length := by simp only [List.length_append, List.length_singleton] at h; omega
      have other : st.1 ≠ i := fun same => e (same.symm.trans (List.singleton_inj.mp last))
      rw [if_neg other, ih inOrder lt, List.getElem_append_left lt]

theorem fillBytes_apply (buf : Buffer) (v : BitVec 32) (n a : Nat) :
    fillBytes buf v n a = if a < n then v.setWidth 8 else buf a := by
  induction n with
  | zero => simp [fillBytes]
  | succ n ih =>
    simp only [fillBytes, store8, Function.update_apply, ih]
    by_cases e : a = n
    · simp [e]
    · by_cases lt : a < n
      · simp [e, lt, show a < n + 1 by omega]
      · simp [e, lt, show ¬a < n + 1 by omega]

theorem passthroughRefill_samples (w : BitVec 32) (d : Lldesc) {i : Nat} (h : i < dmaSampleCount) :
    sample (passthroughRefill w d).buf i = w ∧ (passthroughRefill w d).length = dmaBufLen :=
  ⟨sample_fillSamples _ _ h, rfl⟩

theorem i2sClearDmaBuffers_spec (portData : Fin dmaBufCount → BitVec 32)
    (desc : Fin dmaBufCount → Lldesc) :
    ∃ desc', i2sClearDmaBuffers true portData desc = some desc' ∧
      ∀ d, (desc' d).empty = nextDesc d ∧ (desc' d).length = dmaBufLen ∧
        ∀ i < dmaSampleCount, sample (desc' d).buf i = portData d :=
  ⟨_, rfl, fun d => ⟨rfl, rfl, fun _ h => (passthroughRefill_samples (portData d) (desc d) h).1⟩⟩

/-- What the underflow fill really leaves: samples below DMA_SAMPLE_COUNT / 4 hold the
port's low byte four times, the others keep what the buffer held before. -/
theorem sample_evictRefill (w : BitVec 32) (d : Lldesc) (i : Nat) :
    sample (evictRefill w d).buf i =
      if i < dmaSampleCount / i2sSampleSize then
        w.setWidth 8 ++ w.setWidth 8 ++ w.setWidth 8 ++ w.setWidth 8
      else sample d.buf i := by
  simp only [evictRefill, sample, fillBytes_apply, dmaSampleCount_eq, i2sSampleSize_eq]
  by_cases h : i < 125
  · simp [h, show 4 * i + 3 < 500 by omega, show 4 * i + 2 < 500 by omega,
      show 4 * i + 1 < 500 by omega, show 4 * i < 500 by omega]
  · simp [h, show ¬4 * i + 3 < 500 by omega, show ¬4 * i + 2 < 500 by omega,
      show ¬4 * i + 1 < 500 by omega, show ¬4 * i < 500 by omega]

def transmitted (d : Lldesc) : List (BitVec 32) :=
  (List.range (d.length / i2sSampleSize)).map (sample d.buf)

def writePass (d : Lldesc) (ws : List (BitVec 32)) : Lldesc :=
  { d with buf := applyStores d.buf ws.enum, length := ws.length * i2sSampleSize }

theorem transmitted_writePass (d : Lldesc) (ws : List (BitVec 32)) :
    transmitted (writePass d ws) = ws := by
  have inOrder : ws.enum.map Prod.fst = List.range ws.enum.length := by
    rw [List.enum_map_fst, List.enum_length]
  apply List.ext_getElem
  · simp [transmitted, writePass]
  · intro i _ h
    simp only [transmitted, writePass, List.getElem_map, List.getElem_range]
    rw [sample_applyStores_in_order _ inOrder (by simpa using h), List.getElem_enum]

theorem fillSamples_eq_applyStores (buf : Buffer) (v : BitVec 32) (n : Nat) :
    fillSamples buf v n = applyStores buf (List.replicate n v).enum := by
  induction n with
  | zero => rfl
  | succ n ih =>
    rw [fillSamples, ih, List.replicate_succ', List.enum_append, List.length_replicate]
    simp only [applyStores, List.foldl_append, List.enumFrom_singleton, List.foldl_cons,
      List.foldl_nil]

theorem passthroughRefill_eq_writePass (w : BitVec 32) (d : Lldesc) :
    passthroughRefill w d = writePass d (List.replicate dmaSampleCount w) := by
  simp only [passthroughRefill, writePass, fillSamples_eq_applyStores, List.length_replicate,
    dmaSampleCount_eq, i2sSampleSize_eq, dmaBufLen_eq]

def staleDesc : Lldesc := ⟨fun _ => 0xAA#8, 1996, firstDesc⟩

/-- At port word `0x12345678` over a stale buffer, the PASSTHROUGH refill gives the
word in samples 0 and 499, while the eviction gives `0x78787878` and the stale `0xAAAAAAAA`. -/
theorem evictRefill_differs_from_passthrough :
    sample (passthroughRefill 0x12345678#32 staleDesc).buf 0 = 0x12345678#32 ∧
      sample (passthroughRefill 0x12345678#32 staleDesc).buf 499 = 0x12345678#32 ∧
      sample (evictRefill 0x12345678#32 staleDesc).buf 0 = 0x78787878#32 ∧
      sample (evictRefill 0x12345678#32 staleDesc).buf 499 = 0xAAAAAAAA#32 := by
  refine ⟨(passthroughRefill_samples _ _ (by decide)).1, (passthroughRefill_samples _ _ (by decide)).1,
    ?_, ?_⟩
  · rw [sample_evictRefill]; decide
  · rw [sample_evictRefill]; decide

end I2SIOExpander
